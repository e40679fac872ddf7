import SmallLisp.Proofs.Script.Meaning

/-!
# The balance of compiled code

The call of a list counts all its elements, but an element that is an empty list pushes nothing.
So each of them leaves the stack one short (`totalGain_plan`): the next call takes a value that was
meant for another, or there is none left to take (`compileText_emptyElement`).

`balanced_compileText_iff`: code is balanced exactly if its program has no such element, and if it
runs to its end in spite of some, one value is missing for each of them.
-/

namespace SmallLisp

open Node

/-! ## 1. Empty elements -/

mutual

/-- The number of empty lists that are elements of a list in the tree. -/
def Node.holes : Node → Nat
  | .list _ items => holesIn items
  | _ => 0

/-- The number of empty lists among the elements and in them. -/
def Node.holesIn : List Node → Nat
  | [] => 0
  | n :: ns => (if n.isEmptyList then 1 else 0) + n.holes + holesIn ns

end

mutual

theorem holes_eq_zero_iff (n : Node) : n.holes = 0 ↔ n.isFull = true := by
  match n with
  | .list _ items => exact holesIn_eq_zero_iff items
  | .number _ _ | .string _ _ | .bool _ _ | .atom _ _ | .unit _ | .progn _ _ =>
    exact iff_of_true rfl rfl

theorem holesIn_eq_zero_iff (ns : List Node) : holesIn ns = 0 ↔ fullElements ns = true := by
  match ns with
  | [] => exact iff_of_true rfl rfl
  | n :: ns =>
    rw [holesIn, fullElements, Nat.add_eq_zero_iff, Nat.add_eq_zero_iff, holes_eq_zero_iff n,
      holesIn_eq_zero_iff ns, Bool.and_eq_true, Bool.and_eq_true]
    cases n.isEmptyList <;> simp

end

/-! ## 2. What plans add to the height -/

/-- What an emission adds to the height of the stack. -/
def Emission.gain : Emission → Int
  | push _ => 1
  | call n => - n

theorem gain_of_realizes {pool : Array Value} {i : Instruction} {e : Emission}
    (h : Realizes pool i e) : Heights.gain i = e.gain := by
  cases e with
  | push v =>
    obtain ⟨k, w, rfl, -, -⟩ := h
    rfl
  | call n =>
    cases h
    rfl

/-- What emissions add to the height of the stack in all. -/
def totalGain : List Emission → Int
  | [] => 0
  | e :: es => e.gain + totalGain es

theorem totalGain_append (es fs : List Emission) :
    totalGain (es ++ fs) = totalGain es + totalGain fs := by
  induction es with
  | nil => exact (Int.zero_add _).symm
  | cons e es ih => rw [List.cons_append, totalGain, totalGain, ih, Int.add_assoc]

theorem total_of_realizes {pool : Array Value} {code : List Instruction} {es : List Emission}
    (h : List.Forall₂ (Realizes pool) code es) : Heights.total code = totalGain es := by
  induction h with
  | nil => rfl
  | cons hi _ ih => rw [Heights.total, totalGain, gain_of_realizes hi, ih]

mutual

/-- **An expression adds one value, less one for every empty element in it.** -/
theorem totalGain_plan {n : Node} (hn : n.Readable) :
    totalGain n.plan = (if n.isEmptyList then 0 else 1) - (n.holes : Int) := by
  match n with
  | .number _ _ | .string _ _ | .bool _ _ | .atom _ _ | .list _ [] => rfl
  | .unit _ | .progn _ _ => cases hn
  | .list i (first :: rest) =>
    have hitems : AllReadable (first :: rest) := hn
    show totalGain (planBackwards (first :: rest) ++ [.call rest.length]) = _
    rw [totalGain_append, totalGain_planBackwards hitems]
    show ((first :: rest).length : Int) - holesIn (first :: rest) + (- (rest.length : Int) + 0)
      = 1 - (holesIn (first :: rest) : Int)
    rw [List.length_cons]
    omega

/-- Elements add one value each, less one for every empty element among them and in them. -/
theorem totalGain_planBackwards {ns : List Node} (hns : AllReadable ns) :
    totalGain (planBackwards ns) = (ns.length : Int) - holesIn ns := by
  match ns with
  | [] => rfl
  | n :: ns =>
    rw [planBackwards, totalGain_append, totalGain_planBackwards hns.2, totalGain_plan hns.1,
      holesIn, List.length_cons]
    split <;> omega

end

theorem totalGain_flatMap_plan {ns : List Node} (hns : AllReadable ns) :
    totalGain (ns.flatMap plan)
      = (ns.countP (!·.isEmptyList) : Int) - ((ns.map holes).sum : Nat) := by
  induction ns with
  | nil => rfl
  | cons n ns ih =>
    rw [List.flatMap_cons, totalGain_append, totalGain_plan hns.1, ih hns.2, List.countP_cons,
      List.map_cons, List.sum_cons]
    cases n.isEmptyList <;> simp <;> omega

/-! ## 3. Programs -/

/-- The instructions of a compiled text are those its expressions plan. -/
theorem realizes_of_compileText {src : Text} {z : Script} (h : compileText src = .ok z) :
    ∃ n, parse src = .ok n ∧
      List.Forall₂ (Realizes z.constants) z.code.toList (n.items.flatMap plan) := by
  unfold compileText at h
  split at h
  · cases h
  · rename_i n hn
    split at h
    · rename_i z' t hz
      cases h
      obtain ⟨rfl, rfl⟩ := performAll_of_compileProgram hz
      obtain ⟨code, hcode, -, hreal⟩ :=
        Compiler.performAll_spec Blake2b.sum Compiler.empty (n.items.flatMap plan)
      rw [show code = _ from hcode.symm] at hreal
      exact ⟨n, hn, hreal⟩
    · cases h

/-- **Code is balanced exactly if no list of the program has an empty element.** From an empty
    stack, it then runs without an underflow and ends with one value for each expression that is not
    an empty list. Otherwise it does not: if it ends at all, one value is missing for each empty
    element. -/
theorem balanced_compileText_iff {src : Text} {z : Script} (h : compileText src = .ok z) :
    ∃ n, parse src = .ok n ∧
      (Heights.run z.code.toList 0 = some (n.items.countP (!·.isEmptyList)) ↔
        ∀ item ∈ n.items, item.isFull = true) ∧
      ∀ height, Heights.run z.code.toList 0 = some height →
        height + (n.items.map holes).sum = n.items.countP (!·.isEmptyList) := by
  obtain ⟨n, hn, hreal⟩ := realizes_of_compileText h
  have hreadable := allReadable_of_parse hn
  have hends (height : Nat) (hrun : Heights.run z.code.toList 0 = some height) :
      height + (n.items.map holes).sum = n.items.countP (!·.isEmptyList) := by
    have htotal := Heights.total_of_run hrun
    rw [total_of_realizes hreal, totalGain_flatMap_plan hreadable] at htotal
    omega
  refine ⟨n, hn, ⟨fun hrun item hitem => ?_, fun hfull => ?_⟩, hends⟩
  · have hnone : (n.items.map holes).sum = 0 := by
      have := hends _ hrun
      omega
    have hitem : item.holes = 0 := List.sum_eq_zero_iff.mp hnone _ (List.mem_map_of_mem hitem)
    exact (holes_eq_zero_iff item).mp hitem
  · obtain ⟨trees, hrun, htrees⟩ := run_flatMap_plan hreadable hfull hreal []
    have hheight := Heights.run_of_run hrun
    rw [List.append_nil, List.length_reverse, htrees.length_eq, ← List.countP_eq_length_filter]
      at hheight
    exact hheight

/-- A call of a call without arguments, an empty list and a literal. -/
def fullSource : Text := Text.ofString "([f] 1) () 1"

theorem balanced_compileText_fullSource : ∃ z n, compileText fullSource = .ok z ∧
    parse fullSource = .ok n ∧ n.items.countP (!·.isEmptyList) = 2 ∧
    (Heights.run z.code.toList 0 = some 2 ↔ ∀ item ∈ n.items, item.isFull = true) ∧
    Heights.run z.code.toList 0 = some 2 := by
  have hrun : (compileText fullSource).toOption.map (Heights.run ·.code.toList 0)
      = some (some 2) := by decide +kernel
  have hcount : (parse fullSource).toOption.map (·.items.countP (!·.isEmptyList)) = some 2 := by
    decide +kernel
  obtain ⟨z, hz, hheight⟩ := Option.map_eq_some_iff.mp hrun
  obtain ⟨n, hn, hiff, -⟩ := balanced_compileText_iff (eq_ok_of_toOption hz)
  rw [hn] at hcount
  have htwo : n.items.countP (!·.isEmptyList) = 2 := Option.some.inj hcount
  rw [htwo] at hiff
  exact ⟨z, n, eq_ok_of_toOption hz, hn, htwo, hiff, hheight⟩

/-- **Not all code is balanced**: the call in `(f ())` counts an argument that was not pushed. -/
theorem compileText_emptyElement : ∃ z, compileText (Text.ofString "(f ())") = .ok z ∧
    z.code.toList.map Instruction.text = ["CONST 0", "CALL 1"] ∧
    Heights.run z.code.toList 0 = none := by
  have hrun : (compileText (Text.ofString "(f ())")).toOption.map (fun z =>
      (z.code.toList.map Instruction.text, Heights.run z.code.toList 0))
      = some (["CONST 0", "CALL 1"], none) := by decide +kernel
  obtain ⟨z, hz, hpair⟩ := Option.map_eq_some_iff.mp hrun
  exact ⟨z, eq_ok_of_toOption hz, Prod.mk.inj hpair⟩

end SmallLisp
