import SmallLisp.Proofs.Node.RoundTrip
import SmallLisp.Proofs.Script.Compile
import SmallLisp.Proofs.Script.Machine

/-!
# What compiled code builds

Compiled code, run on the machine, rebuilds the program it was compiled from: each expression puts
one tree on the stack that mirrors it (`run_compileProgram`). It does so on every stack, whatever
was compiled before and whatever is compiled later.

An empty list emits nothing. At the top of a program that is of no consequence, but the call of a
list counts all its elements; so no list may have an empty one among them (`Node.isFull`).
-/

namespace SmallLisp

open Node

/-! ## 1. Trees and nodes -/

/-- The literal or the atom that a node is, without its location and its quote. -/
def Node.literal? : Node → Option Value
  | number _ x => some (.number x)
  | string _ text => some (.string text)
  | bool _ b => some (.bool b)
  | atom _ name => some (.atom name Loc.unknown)
  | unit _ | list _ _ | progn _ _ => none

/-- The tree is that of the node: a list is the application of its first element to the others, and
    literals and atoms are equal. -/
inductive Tree.Mirrors : Tree → Node → Prop where
  | const {v w : Value} {n : Node} : n.literal? = some w → v.equal w = true → Mirrors (.const v) n
  | call {head : Tree} {args : List Tree} {i : NodeInfo} {first : Node} {rest : List Node} :
      Mirrors head first → List.Forall₂ Mirrors args rest →
        Mirrors (.call head args) (.list i (first :: rest))

/-- The node is a list without elements. -/
def Node.isEmptyList : Node → Bool
  | list _ [] => true
  | _ => false

mutual

/-- No list in the tree has an empty list as an element. -/
def Node.isFull : Node → Bool
  | .list _ items => fullElements items
  | _ => true

/-- None of the elements is an empty list, and no list in them has an empty list as an element. -/
def Node.fullElements : List Node → Bool
  | [] => true
  | n :: ns => !n.isEmptyList && n.isFull && fullElements ns

end

/-- What can be read equals itself; it holds no number that is not one. -/
theorem equal_self_of_readable {n : Node} (hn : n.Readable) {v : Value} (hv : n.literal? = some v) :
    v.equal v = true := by
  cases n with
  | number i x =>
    cases hv
    exact Binary64.beq_self ((isFinite_iff x).mp hn).1
  | string i text | bool i b | atom i name =>
    cases hv
    simp [Value.equal]
  | unit i | list i items | progn i items => cases hv

theorem allReadable_of_parse {src : Text} {n : Node} (h : parse src = .ok n) :
    AllReadable n.items := by
  obtain ⟨ps, htokens, rfl⟩ := parse_eq_ok_iff.mp h
  have hproper := proper_of_mem_tokenize (Utf8.decode src)
  rw [htokens] at hproper
  have hreadable := allReadable_trees hproper
  rw [Phrase.trees_eq_map] at hreadable
  exact hreadable

/-! ## 2. Running plans -/

section

variable {z : Script} {code : List Instruction}

theorem realizes_append {es fs : List Emission}
    (h : List.Forall₂ (Realizes z.constants) code (es ++ fs)) : ∃ c d, code = c ++ d ∧
      List.Forall₂ (Realizes z.constants) c es ∧ List.Forall₂ (Realizes z.constants) d fs :=
  ⟨code.take es.length, code.drop es.length, (List.take_append_drop _ _).symm,
    List.forall₂_take_append code es fs h, List.forall₂_drop_append code es fs h⟩

/-- The code of a literal or an atom pushes an equal one. -/
theorem run_push {v : Value} (hv : v.equal v = true)
    (h : List.Forall₂ (Realizes z.constants) code [.push v]) (stack : List Tree) :
    ∃ w, z.run code stack = .ok (.const w :: stack) ∧ w.equal v = true := by
  obtain ⟨i, more, ⟨k, w, rfl, hw, heq⟩, hmore, rfl⟩ := List.forall₂_cons_right_iff.mp h
  cases hmore
  refine ⟨w, ?_, ?_⟩
  · rw [Script.run, Script.step_const hw]
    rfl
  · rcases heq with rfl | heq
    · exact hv
    · exact heq

end

mutual

/-- **The code of an expression pushes its tree**, and does nothing else. -/
theorem run_plan {z : Script} {n : Node} (hn : n.Readable) (hfull : n.isFull = true)
    (hne : n.isEmptyList = false) {code : List Instruction}
    (h : List.Forall₂ (Realizes z.constants) code n.plan) (stack : List Tree) :
    ∃ tree, z.run code stack = .ok (tree :: stack) ∧ tree.Mirrors n := by
  match n with
  | .number _ _ | .string _ _ | .bool _ _ | .atom _ _ =>
    obtain ⟨w, hrun, heq⟩ := run_push (equal_self_of_readable hn rfl) h stack
    exact ⟨_, hrun, .const rfl heq⟩
  | .unit _ | .progn _ _ => cases hn
  | .list i [] => cases hne
  | .list i (first :: rest) =>
    obtain ⟨c, d, rfl, hc, hd⟩ := realizes_append h
    have hitems : AllReadable (first :: rest) := hn
    obtain ⟨trees, hrun, hmirrors⟩ := run_planBackwards hitems hfull hc stack
    obtain ⟨head, args, hhead, hargs, rfl⟩ := List.forall₂_cons_right_iff.mp hmirrors
    obtain ⟨call, more, rfl, hmore, rfl⟩ := List.forall₂_cons_right_iff.mp hd
    cases hmore
    refine ⟨.call head args, ?_, .call hhead hargs⟩
    have hcount : (first :: rest).length - 1 = args.length := hargs.length_eq.symm
    rw [Script.run_append, hrun, hcount]
    show (z.step _ (head :: (args ++ stack))).bind _ = _
    rw [Script.step_call]
    rfl

/-- The code of the elements of a list pushes their trees, the first on top. -/
theorem run_planBackwards {z : Script} {ns : List Node} (hns : AllReadable ns)
    (hfull : fullElements ns = true) {code : List Instruction}
    (h : List.Forall₂ (Realizes z.constants) code (planBackwards ns)) (stack : List Tree) :
    ∃ trees, z.run code stack = .ok (trees ++ stack) ∧ List.Forall₂ Tree.Mirrors trees ns := by
  match ns with
  | [] =>
    cases h
    exact ⟨[], rfl, .nil⟩
  | n :: ns =>
    obtain ⟨c, d, rfl, hc, hd⟩ := realizes_append h
    rw [fullElements, Bool.and_eq_true, Bool.and_eq_true, Bool.not_eq_true'] at hfull
    obtain ⟨⟨hne, hn⟩, hmore⟩ := hfull
    obtain ⟨trees, hrun, hmirrors⟩ := run_planBackwards hns.2 hmore hc stack
    obtain ⟨tree, hrun', hmirror⟩ := run_plan hns.1 hn hne hd (trees ++ stack)
    refine ⟨tree :: trees, ?_, .cons hmirror hmirrors⟩
    rw [Script.run_append, hrun]
    exact hrun'

end

/-! ## 3. Programs -/

theorem plan_of_isEmptyList {n : Node} (h : n.isEmptyList = true) : n.plan = [] := by
  unfold isEmptyList at h
  split at h
  · rfl
  · cases h

/-- The code of expressions pushes their trees in order, but for the empty lists among them. -/
theorem run_flatMap_plan {z : Script} {ns : List Node} (hns : AllReadable ns)
    (hfull : ∀ n ∈ ns, n.isFull = true) {code : List Instruction}
    (h : List.Forall₂ (Realizes z.constants) code (ns.flatMap plan)) (stack : List Tree) :
    ∃ trees, z.run code stack = .ok (trees.reverse ++ stack) ∧
      List.Forall₂ Tree.Mirrors trees (ns.filter (!·.isEmptyList)) := by
  induction ns generalizing code stack with
  | nil =>
    cases h
    exact ⟨[], rfl, .nil⟩
  | cons n ns ih =>
    have hmore (m : Node) (hm : m ∈ ns) : m.isFull = true := hfull m (List.mem_cons_of_mem n hm)
    cases hne : n.isEmptyList with
    | true =>
      rw [List.flatMap_cons, plan_of_isEmptyList hne] at h
      rw [List.filter_cons_of_neg (by rw [hne]; simp)]
      exact ih hns.2 hmore h stack
    | false =>
      obtain ⟨c, d, rfl, hc, hd⟩ := realizes_append h
      obtain ⟨tree, hrun, hmirror⟩ := run_plan hns.1 (hfull n List.mem_cons_self) hne hc stack
      obtain ⟨trees, hrun', hmirrors⟩ := ih hns.2 hmore hd (tree :: stack)
      refine ⟨tree :: trees, ?_, ?_⟩
      · rw [Script.run_append, hrun, List.reverse_cons, List.append_assoc]
        exact hrun'
      · rw [List.filter_cons_of_pos (by rw [hne]; rfl)]
        exact .cons hmirror hmirrors

/-- Every instruction of a script was emitted, and still does what was asked for then. -/
theorem realizes_of_mem_code (hash : Text → UInt64) (es : List Emission) {i : Instruction}
    (hi : i ∈ (Compiler.empty.performAll hash es).script.code.toList) :
    ∃ e, Realizes (Compiler.empty.performAll hash es).script.constants i e := by
  obtain ⟨code, hcode, -, hreal⟩ := Compiler.performAll_spec hash Compiler.empty es
  rw [hcode] at hi
  obtain ⟨k, hk, rfl⟩ := List.getElem_of_mem hi
  have hk' : k < es.length := hreal.length_eq ▸ hk
  exact ⟨_, hreal.get hk hk'⟩

/-- **Compiled code rebuilds its program.** Whatever was compiled before, the code that an accepted
    program adds puts one tree on the stack for each expression that is not an empty list, in order,
    and the trees are those of the expressions. What is compiled later changes neither what the
    instructions push nor what they build. -/
theorem run_compileProgram (hash : Text → UInt64) (earlier : List Node) {src : Text} {n : Node}
    (hn : parse src = .ok n) (hfull : ∀ item ∈ n.items, item.isFull = true) {z : Script}
    {t : Compiler} (h : compileProgram hash n (Compiler.empty.feedAll hash earlier) = .ok z t) :
    (∃ code, z.code.toList = (Compiler.empty.feedAll hash earlier).script.code.toList ++ code ∧
      ∀ stack, ∃ trees, z.run code stack = .ok (trees.reverse ++ stack) ∧
        List.Forall₂ Tree.Mirrors trees (n.items.filter (!·.isEmptyList))) ∧
    ∀ later, z.code.toList <+: (t.feedAll hash later).script.code.toList ∧
      (∀ i ∈ z.code.toList, (t.feedAll hash later).script.operand? i = z.operand? i) ∧
      ∀ stack, (t.feedAll hash later).script.run z.code.toList stack
        = z.run z.code.toList stack := by
  obtain ⟨past, hpast⟩ := exists_performAll_feedAll hash Compiler.empty earlier
  obtain ⟨rfl, ht⟩ := performAll_of_compileProgram h
  constructor
  · obtain ⟨code, hcode, -, hreal⟩ := Compiler.performAll_spec hash
      (Compiler.empty.feedAll hash earlier) (n.items.flatMap plan)
    rw [← ht] at hcode hreal
    exact ⟨code, hcode, run_flatMap_plan (allReadable_of_parse hn) hfull hreal⟩
  · intro later
    obtain ⟨future, hfuture⟩ := exists_performAll_feedAll hash t later
    obtain ⟨code, hcode, hpool, -⟩ := Compiler.performAll_spec hash t future
    rw [← hfuture] at hcode hpool
    rw [hpast, ← Compiler.performAll_append] at ht
    have hsame (i : Instruction) (hi : i ∈ t.script.code.toList) :
        (t.feedAll hash later).script.operand? i = t.script.operand? i := by
      rw [ht] at hi
      obtain ⟨e, he⟩ := realizes_of_mem_code hash _ hi
      rw [← ht] at he
      exact operand?_of_prefix hpool he
    exact ⟨⟨code, hcode.symm⟩, hsame, Script.run_congr hsame⟩

theorem eq_ok_of_toOption {ε α : Type} {x : Except ε α} {a : α} (h : x.toOption = some a) :
    x = .ok a := by
  cases x with
  | ok b =>
    cases h
    rfl
  | error e => cases h

/-- A call whose head is a call, an empty list between two expressions, and a quoted literal. -/
def nestedCalls : Text := Text.ofString "((f 1) '2 1) () [g #t]"

/-- A program that puts an atom of `nestedCalls` into the pool, and whose own code is of no use. -/
def uselessCall : Node :=
  .progn ⟨Loc.unknown, false⟩ [.list ⟨Loc.unknown, false⟩
    [.atom ⟨Loc.unknown, false⟩ "g", .list ⟨Loc.unknown, false⟩ []]]

/-- The hash under which all constants collide. -/
def flatHash (_ : Text) : UInt64 := 0

theorem run_compileProgram_nestedCalls : ∃ n z t code trees, parse nestedCalls = .ok n ∧
    (∀ item ∈ n.items, item.isFull = true) ∧
    compileProgram flatHash n (Compiler.empty.feedAll flatHash [uselessCall]) = .ok z t ∧
    z.code.toList.map Instruction.text = ["CONST 0", "CALL 1", "CONST 1", "CONST 2", "CONST 3",
      "CONST 4", "CALL 1", "CALL 2", "CONST 5", "CONST 0", "CALL 1"] ∧
    z.code.toList = (Compiler.empty.feedAll flatHash [uselessCall]).script.code.toList ++ code ∧
    z.run code [] = .ok (trees.reverse ++ []) ∧
    List.Forall₂ Tree.Mirrors trees (n.items.filter (!·.isEmptyList)) := by
  have hall : (parse nestedCalls).toOption.map (fun n => (n.items.all isFull,
      ((compileProgram flatHash n).run' (Compiler.empty.feedAll flatHash [uselessCall])).map
        fun z => z.code.toList.map Instruction.text)) = some (true, some ["CONST 0", "CALL 1",
      "CONST 1", "CONST 2", "CONST 3", "CONST 4", "CALL 1", "CALL 2", "CONST 5", "CONST 0",
      "CALL 1"]) := by decide +kernel
  obtain ⟨n, hn, hpair⟩ := Option.map_eq_some_iff.mp hall
  have hparse := eq_ok_of_toOption hn
  obtain ⟨hfull, htexts⟩ := Prod.mk.inj hpair
  rw [List.all_eq_true] at hfull
  obtain ⟨z, hz, htexts⟩ := Option.map_eq_some_iff.mp htexts
  cases hc : compileProgram flatHash n (Compiler.empty.feedAll flatHash [uselessCall]) with
  | error e t => simp [EStateM.run', EStateM.run, hc] at hz
  | ok z' t =>
    simp only [EStateM.run', EStateM.run, hc, Option.some.injEq] at hz
    subst hz
    obtain ⟨⟨code, hcode, hstack⟩, -⟩ :=
      run_compileProgram flatHash [uselessCall] hparse hfull hc
    obtain ⟨trees, htrees⟩ := hstack []
    exact ⟨n, z', t, code, trees, hparse, hfull, hc, htexts, hcode, htrees⟩

end SmallLisp
