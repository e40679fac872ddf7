import Mathlib.Data.List.TakeWhile
import SmallLisp.Repl.Lines

/-!
# The lines that are read

A text has the lines into which its line feeds cut it (`Lines.cut`). A plain reader gives these
lines, however long they are (`Lines.plain_eq`), except for one: a last line without a line feed is
lost if it fills its buffer exactly, once or several times (`Lines.LosesLast`).
-/

namespace SmallLisp.Lines

/-! ## 1. Lines of a text -/

/-- The lines of a text. Each ends with a line feed, the last one possibly with the text. -/
def cut : Text → List Text
  | [] => []
  | b :: t =>
    if b = 0x0A then [] :: cut t
    else
      match cut t with
      | [] => [[b]]
      | line :: lines => (b :: line) :: lines

theorem cut_newline (t : Text) : cut (0x0A :: t) = [] :: cut t := rfl

/-- A byte in front of a text stands in front of its first line. -/
theorem cut_cons {b : UInt8} (hb : b ≠ 0x0A) {t line : Text} {lines : List Text}
    (h : cut t = line :: lines) : cut (b :: t) = (b :: line) :: lines := by
  rw [cut, if_neg hb, h]

theorem cut_ne_nil {t : Text} (h : t ≠ []) : cut t ≠ [] := by
  cases t with
  | nil => exact absurd rfl h
  | cons b t =>
    unfold cut
    split
    · exact List.cons_ne_nil _ _
    · split <;> exact List.cons_ne_nil _ _

/-- What holds no line feed stands in front of the first line. -/
theorem cut_append {front : Text} (hfront : 0x0A ∉ front) {t line : Text} {lines : List Text}
    (h : cut t = line :: lines) : cut (front ++ t) = (front ++ line) :: lines := by
  induction front with
  | nil => exact h
  | cons b front ih =>
    rw [List.mem_cons, not_or] at hfront
    exact cut_cons (Ne.symm hfront.1) (ih hfront.2)

theorem cut_append_newline {line : Text} (h : 0x0A ∉ line) (t : Text) :
    cut (line ++ 0x0A :: t) = line :: cut t := by
  rw [cut_append h (cut_newline t), List.append_nil]

theorem cut_of_not_mem {line : Text} (h : 0x0A ∉ line) (hne : line ≠ []) : cut line = [line] := by
  induction line with
  | nil => exact absurd rfl hne
  | cons b line ih =>
    rw [List.mem_cons, not_or] at h
    cases line with
    | nil => rw [cut, if_neg (Ne.symm h.1)]; rfl
    | cons c line => exact cut_cons (Ne.symm h.1) (ih h.2 (List.cons_ne_nil _ _))

theorem join_singleton (line : Text) : Text.join [0x0A] [line] = line := List.append_nil line

theorem join_cons_cons (line next : Text) (lines : List Text) :
    Text.join [0x0A] (line :: next :: lines) =
      line ++ 0x0A :: Text.join [0x0A] (next :: lines) := by
  simp [Text.join, List.intersperse]

theorem join_cons_byte (b : UInt8) (line : Text) (lines : List Text) :
    Text.join [0x0A] ((b :: line) :: lines) = b :: Text.join [0x0A] (line :: lines) := by
  cases lines with
  | nil => rw [join_singleton, join_singleton]
  | cons next lines => rw [join_cons_cons, join_cons_cons, List.cons_append]

/-- **A text is its lines with line feeds between them**, and maybe one at the end. -/
theorem eq_join_cut (t : Text) :
    t = Text.join [0x0A] (cut t) ∨ t = Text.join [0x0A] (cut t) ++ [0x0A] := by
  induction t with
  | nil => exact .inl rfl
  | cons b t ih =>
    generalize hlines : cut t = lines at ih
    cases lines with
    | nil =>
      have ht : t = [] := by
        by_contra hne
        exact cut_ne_nil hne hlines
      subst ht
      by_cases hb : b = 0x0A
      · subst hb
        exact .inr rfl
      · rw [cut_of_not_mem (by simpa using Ne.symm hb) (List.cons_ne_nil _ _), join_singleton]
        exact .inl rfl
    | cons line lines =>
      have hfront : Text.join [0x0A] (cut (b :: t)) = b :: Text.join [0x0A] (line :: lines) := by
        by_cases hb : b = 0x0A
        · rw [hb, cut_newline, hlines, join_cons_cons, List.nil_append]
        · rw [cut_cons hb hlines, join_cons_byte]
      rw [hfront, List.cons_append]
      exact ih.imp (congrArg (b :: ·)) (congrArg (b :: ·))

theorem newline_not_mem_of_mem_cut {t line : Text} (h : line ∈ cut t) : 0x0A ∉ line := by
  induction t generalizing line with
  | nil => cases h
  | cons b t ih =>
    unfold cut at h
    split at h
    · rcases List.mem_cons.mp h with rfl | h
      · exact List.not_mem_nil
      · exact ih h
    · rename_i hb
      split at h
      · obtain rfl := List.mem_singleton.mp h
        simpa using Ne.symm hb
      · rename_i first lines hlines
        rw [hlines] at ih
        rcases List.mem_cons.mp h with rfl | h
        · rw [List.mem_cons, not_or]
          exact ⟨Ne.symm hb, ih List.mem_cons_self⟩
        · exact ih (List.mem_cons_of_mem first h)

/-! ## 2. The last line -/

/-- What stands after the last line feed. -/
def openLine : Text → Text
  | [] => []
  | b :: t => if 0x0A ∈ b :: t then openLine t else b :: t

theorem openLine_of_not_mem {t : Text} (h : 0x0A ∉ t) : openLine t = t := by
  cases t with
  | nil => rfl
  | cons b t => rw [openLine, if_neg h]

theorem openLine_append {t : Text} (h : 0x0A ∈ t) (front : Text) :
    openLine (front ++ t) = openLine t := by
  induction front with
  | nil => rfl
  | cons b front ih =>
    rw [List.cons_append, openLine, if_pos (List.mem_cons_of_mem b (List.mem_append_right front h)),
      ih]

theorem openLine_append_newline (line t : Text) :
    openLine (line ++ 0x0A :: t) = openLine t := by
  rw [openLine_append List.mem_cons_self, openLine, if_pos List.mem_cons_self]

/-- If nothing stands after the last line feed, the text ends with it. -/
theorem eq_append_newline_of_openLine {t : Text} (h : openLine t = []) (ht : t ≠ []) :
    ∃ front, t = front ++ [0x0A] := by
  induction t with
  | nil => exact absurd rfl ht
  | cons b t ih =>
    unfold openLine at h
    split at h
    · rename_i hmem
      by_cases ht' : t = []
      · subst ht'
        obtain rfl := List.mem_singleton.mp hmem
        exact ⟨[], rfl⟩
      · obtain ⟨front, hfront⟩ := ih h ht'
        exact ⟨b :: front, congrArg (b :: ·) hfront⟩
    · cases h

/-- A line feed ends the last line and starts none. -/
theorem cut_append_last {t : Text} (h : openLine t ≠ []) : cut (t ++ [0x0A]) = cut t := by
  induction t with
  | nil => exact absurd rfl h
  | cons b t ih =>
    unfold openLine at h
    split at h
    · rename_i hmem
      rw [List.cons_append, cut, cut, ih h]
    · rename_i hmem
      rw [cut_append_newline hmem, cut_of_not_mem hmem (List.cons_ne_nil b t)]
      rfl

/-- The last line has no line feed and fills the buffer, once or several times. -/
def LosesLast (t : Text) : Prop := openLine t ≠ [] ∧ bufferSize ∣ (openLine t).length

instance (t : Text) : Decidable (LosesLast t) := inferInstanceAs (Decidable (_ ∧ _))

theorem losesLast_append_newline (line t : Text) :
    LosesLast (line ++ 0x0A :: t) ↔ LosesLast t := by
  unfold LosesLast
  rw [openLine_append_newline]

/-- A full buffer in front makes no difference. -/
theorem losesLast_append {front t : Text} (hfront : 0x0A ∉ front)
    (hlength : front.length = bufferSize) (ht : t ≠ []) :
    LosesLast (front ++ t) ↔ LosesLast t := by
  unfold LosesLast
  by_cases hmem : 0x0A ∈ t
  · rw [openLine_append hmem]
  · have hmem' : 0x0A ∉ front ++ t := by
      rw [List.mem_append, not_or]
      exact ⟨hfront, hmem⟩
    rw [openLine_of_not_mem hmem, openLine_of_not_mem hmem', List.length_append, hlength,
      Nat.dvd_add_self_left]
    exact and_congr_left' (iff_of_true (List.append_ne_nil_of_right_ne_nil front ht) ht)

/-! ## 3. Reading -/

theorem dropReturn_of_not_mem {line : Text} (h : 0x0D ∉ line) : dropReturn line = line :=
  if_neg fun hlast => h (List.mem_of_getLast? hlast)

theorem not_mem_takeWhile_within (t : Text) : 0x0A ∉ t.takeWhile within :=
  fun h => absurd (List.mem_takeWhile_imp h) (by decide)

theorem dropWhile_within_cases (t : Text) :
    t.dropWhile within = [] ∨ ∃ rest, t.dropWhile within = 0x0A :: rest := by
  induction t with
  | nil => exact .inl rfl
  | cons b t ih =>
    rw [List.dropWhile_cons]
    by_cases hb : b = 0x0A
    · subst hb
      exact .inr ⟨t, rfl⟩
    · have hwithin : within b = true := bne_iff_ne.mpr hb
      rw [if_pos hwithin]
      exact ih

/-- What one read of a text without carriage returns gives: a line that ends with a line feed, the
    last line if it leaves room in the buffer, or a full buffer. -/
theorem next?_cases {t : Text} (hcr : 0x0D ∉ t) (ht : t ≠ []) :
    (∃ line rest, t = line ++ 0x0A :: rest ∧ 0x0A ∉ line ∧
      next? t = some (⟨line, false⟩, rest)) ∨
    (0x0A ∉ t ∧ t.length < bufferSize ∧ next? t = some (⟨t, false⟩, [])) ∨
    ∃ front rest, t = front ++ rest ∧ 0x0A ∉ front ∧ front.length = bufferSize ∧
      next? t = some (⟨front, true⟩, rest) := by
  have hempty : ¬ t.isEmpty = true := by rwa [List.isEmpty_iff]
  have htext : t.take bufferSize ++ t.drop bufferSize = t := List.take_append_drop bufferSize t
  have hfront : (t.take bufferSize).takeWhile within ++ (t.take bufferSize).dropWhile within =
    t.take bufferSize := List.takeWhile_append_dropWhile
  have hnone := not_mem_takeWhile_within (t.take bufferSize)
  have hkept : dropReturn (t.take bufferSize) = t.take bufferSize :=
    dropReturn_of_not_mem fun h => hcr (List.mem_of_mem_take h)
  unfold next?
  dsimp only
  rw [if_neg hempty, hkept]
  rcases dropWhile_within_cases (t.take bufferSize) with hend | ⟨rest, hend⟩
  · -- no line feed in the buffer
    rw [hend, List.append_nil] at hfront
    rw [hfront] at hnone ⊢
    rw [if_neg (Nat.lt_irrefl _)]
    by_cases hroom : (t.take bufferSize).length < bufferSize
    · have hall : t.take bufferSize = t := by
        rw [List.length_take] at hroom
        exact List.take_of_length_le (by omega)
      rw [if_pos hroom]
      rw [hall] at hnone hroom ⊢
      exact .inr (.inl ⟨hnone, hroom, rfl⟩)
    · have hfull : (t.take bufferSize).length = bufferSize := by
        have := List.length_take_le bufferSize t
        omega
      rw [if_neg hroom, hfull]
      exact .inr (.inr ⟨_, _, htext.symm, hnone, hfull, rfl⟩)
  · rw [hend] at hfront
    generalize (t.take bufferSize).takeWhile within = line at hfront hnone ⊢
    have hline : t = line ++ 0x0A :: (rest ++ t.drop bufferSize) := by
      rw [← List.cons_append, ← List.append_assoc, hfront, htext]
    have hshort : line.length < (t.take bufferSize).length := by
      rw [← hfront, List.length_append, List.length_cons]
      omega
    have hkept' : dropReturn line = line := by
      refine dropReturn_of_not_mem fun h => hcr ?_
      rw [hline]
      exact List.mem_append_left _ h
    have hdrop : t.drop (line.length + 1) = rest ++ t.drop bufferSize :=
      calc t.drop (line.length + 1)
        _ = (line ++ 0x0A :: (rest ++ t.drop bufferSize)).drop (line.length + 1) :=
          congrArg (List.drop _) hline
        _ = rest ++ t.drop bufferSize := by rw [← List.drop_drop, List.drop_left]; rfl
    rw [if_pos hshort, hkept', hdrop]
    exact .inl ⟨line, _, hline, hnone, rfl⟩

theorem parts_eq (t : Text) : parts t = match next? t with
    | none => []
    | some (p, rest) => p :: parts rest := by
  rw [parts]
  split <;> rename_i h <;> rw [h]

/-- A full buffer in front of a text: its bytes belong to the first line, and are lost with it. -/
theorem joined_full {front t : Text} (hfront : 0x0A ∉ front) (hfull : front.length = bufferSize)
    {ps : List Part} (h : joined ps = if LosesLast t then (cut t).dropLast else cut t) :
    joined (⟨front, true⟩ :: ps) =
      if LosesLast (front ++ t) then (cut (front ++ t)).dropLast else cut (front ++ t) := by
  unfold joined
  by_cases ht : t = []
  · subst ht
    have hne : front ≠ [] := by
      rintro rfl
      exact absurd hfull (by decide)
    have hlost : LosesLast front := by
      refine ⟨by rwa [openLine_of_not_mem hfront], 1, ?_⟩
      rw [openLine_of_not_mem hfront, hfull, Nat.mul_one]
    rw [h, List.append_nil, if_pos hlost, cut_of_not_mem hfront hne]
    rfl
  · obtain ⟨line, lines, hlines⟩ := List.exists_cons_of_ne_nil (cut_ne_nil ht)
    rw [h, cut_append hfront hlines, hlines]
    by_cases hlost : LosesLast t
    · rw [if_pos hlost, if_pos ((losesLast_append hfront hfull ht).mpr hlost)]
      cases lines <;> rfl
    · rw [if_neg hlost, if_neg (mt (losesLast_append hfront hfull ht).mp hlost)]

/-- **A plain reader gives the lines of a text without carriage returns**, but for a last line that
    fills its buffer and has no line feed. -/
theorem plain_eq {t : Text} (hcr : 0x0D ∉ t) :
    plain t = if LosesLast t then (cut t).dropLast else cut t := by
  unfold plain
  induction hn : t.length using Nat.strong_induction_on generalizing t with
  | _ n ih =>
    by_cases ht : t = []
    · subst ht
      rw [parts_eq]
      rfl
    rcases next?_cases hcr ht with ⟨line, rest, rfl, hline, hnext⟩ | ⟨hmem, hroom, hnext⟩ |
      ⟨front, rest, rfl, hfront, hfull, hnext⟩
    · have hshorter : rest.length < n := by
        rw [← hn, List.length_append, List.length_cons]
        omega
      have hrest := ih rest.length hshorter
        (fun h => hcr (List.mem_append_right line (List.mem_cons_of_mem _ h))) rfl
      rw [parts_eq, hnext, cut_append_newline hline]
      show line :: joined (parts rest) = _
      rw [hrest]
      by_cases hlost : LosesLast rest
      · have hne : cut rest ≠ [] := cut_ne_nil fun h => hlost.1 (by rw [h]; rfl)
        rw [if_pos hlost, if_pos ((losesLast_append_newline line rest).mpr hlost),
          List.dropLast_cons_of_ne_nil hne]
      · rw [if_neg hlost, if_neg (mt (losesLast_append_newline line rest).mp hlost)]
    · have hkept : ¬ LosesLast t := by
        rintro ⟨-, hdvd⟩
        rw [openLine_of_not_mem hmem] at hdvd
        have hpos : 0 < t.length := List.length_pos_iff.mpr ht
        have := Nat.le_of_dvd hpos hdvd
        omega
      rw [parts_eq, hnext, if_neg hkept, cut_of_not_mem hmem ht]
      show t :: joined (parts []) = _
      rw [parts_eq]
      rfl
    · have hshorter : rest.length < n := by
        have hpos : 0 < bufferSize := by decide
        rw [← hn, List.length_append, hfull]
        omega
      have hrest := ih rest.length hshorter (fun h => hcr (List.mem_append_right front h)) rfl
      rw [parts_eq, hnext]
      exact joined_full hfront hfull hrest

/-- A plain reader gives the lines of a text with a line feed at its end. -/
theorem plain_append_newline {t : Text} (hcr : 0x0D ∉ t) (h : openLine t ≠ []) :
    plain (t ++ [0x0A]) = cut t := by
  have hcr' : 0x0D ∉ t ++ [0x0A] := by simp [hcr]
  have hkept : ¬ LosesLast (t ++ [0x0A]) := by
    rw [losesLast_append_newline]
    exact fun hlost => hlost.1 rfl
  rw [plain_eq hcr', if_neg hkept, cut_append_last h]

/-- A line that fills the buffer and has no line feed is never read. -/
theorem plain_of_full {t : Text} (hcr : 0x0D ∉ t) (hmem : 0x0A ∉ t) (hfull : LosesLast t) :
    plain t = [] := by
  have hne : t ≠ [] := by
    rw [← openLine_of_not_mem hmem]
    exact hfull.1
  rw [plain_eq hcr, if_pos hfull, cut_of_not_mem hmem hne]
  rfl

end SmallLisp.Lines
