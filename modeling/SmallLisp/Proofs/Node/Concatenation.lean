import SmallLisp.Proofs.Node.Lines
import SmallLisp.Proofs.Text.Utf8

/-!
# Texts one below the other

A program and a text below it are read one after the other: what the text reads as does not depend
on the program above it, but for the lines, which are counted on (`parse_below`). This holds for any
bytes, so for a program that ends inside a comment or with bytes that are no character.
-/

namespace SmallLisp

theorem parse_eq_ok {src : Text} {n : Node} : parse src = .ok n ↔
    ∃ ns, parseChars (Utf8.decode src) = .ok ns ∧ n = programOf ns := by
  unfold parse
  cases parseChars (Utf8.decode src) <;> simp [eq_comm]

theorem parse_eq_error {src : Text} {e : ReadError} :
    parse src = .error e ↔ parseChars (Utf8.decode src) = .error e := by
  unfold parse
  cases parseChars (Utf8.decode src) <;> simp

/-- The line after a text is the next one after as many lines as the text has line feeds. -/
theorem line_advanceBy_decode (src : Text) :
    (Loc.start.advanceBy (Utf8.decode src)).line = 1 + src.count 0x0A := by
  rw [Loc.line_advanceBy, Utf8.count_newline_decode]
  rfl

/-- **A program and a text below it are read one after the other.** If the text below is a program,
    its expressions come after those of the first, and if not, its error is the error of both. In
    either case every line of it is counted from the end of the first. -/
theorem parse_below {src : Text} {n : Node} (h : parse src = .ok n) (more : Text) :
    (∀ m, parse more = .ok m → parse (src ++ 0x0A :: more) =
      .ok (programOf (n.items ++ m.items.map (Node.down (1 + src.count 0x0A))))) ∧
    ∀ e, parse more = .error e → parse (src ++ 0x0A :: more) =
      .error (e.down (1 + src.count 0x0A)) := by
  obtain ⟨ns, hns, rfl⟩ := parse_eq_ok.mp h
  have hboth := parseChars_withLine hns (Utf8.decode more)
  rw [← Utf8.decode_newline, line_advanceBy_decode] at hboth
  refine ⟨fun m hm => ?_, fun e he => ?_⟩
  · obtain ⟨ms, hms, rfl⟩ := parse_eq_ok.mp hm
    rw [hms] at hboth
    exact parse_eq_ok.mpr ⟨_, hboth, rfl⟩
  · rw [parse_eq_error.mp he] at hboth
    exact parse_eq_error.mpr hboth

/-- A program that ends inside a comment, with the first byte of a character. -/
def brokenNote : Text := Text.ofString "(a\n 'b) #t ; end " ++ [0xE2]

/-- A list on two lines. -/
def twoLineList : Text := Text.ofString "[c\n  \"d\"]"

/-- A list on two lines that ends with a bracket of another kind. -/
def twoLineSlip : Text := Text.ofString "(c\n  d]"

theorem parse_below_brokenNote : ∃ n m, parse brokenNote = .ok n ∧ parse twoLineList = .ok m ∧
    parse (brokenNote ++ 0x0A :: twoLineList) = .ok (programOf (n.items ++
      [.list ⟨⟨3, 1⟩, false⟩ [.atom ⟨⟨3, 2⟩, false⟩ "c", .string ⟨⟨4, 3⟩, false⟩ "d"]])) ∧
    parse twoLineSlip = .error (.structural ⟨⟨2, 4⟩, .mismatched .paren ⟨1, 1⟩ .square⟩) ∧
    parse (brokenNote ++ 0x0A :: twoLineSlip) =
      .error (.structural ⟨⟨4, 4⟩, .mismatched .paren ⟨3, 1⟩ .square⟩) := by
  have hnote : parse brokenNote = .ok (programOf [.list ⟨⟨1, 1⟩, false⟩
      [.atom ⟨⟨1, 2⟩, false⟩ "a", .atom ⟨⟨2, 3⟩, true⟩ "b"], .bool ⟨⟨2, 6⟩, false⟩ true]) :=
    parse_eq_ok.mpr ⟨_, (parseChars_eq_readFrom _).trans (by cbv), rfl⟩
  have hlist : parse twoLineList = .ok (programOf [.list ⟨⟨1, 1⟩, false⟩
      [.atom ⟨⟨1, 2⟩, false⟩ "c", .string ⟨⟨2, 3⟩, false⟩ "d"]]) :=
    parse_eq_ok.mpr ⟨_, (parseChars_eq_readFrom _).trans (by cbv), rfl⟩
  have hslip : parse twoLineSlip =
      .error (.structural ⟨⟨2, 4⟩, .mismatched .paren ⟨1, 1⟩ .square⟩) :=
    parse_eq_error.mpr ((parseChars_eq_readFrom _).trans (by cbv))
  exact ⟨_, _, hnote, hlist, (parse_below hnote twoLineList).1 _ hlist, hslip,
    (parse_below hnote twoLineSlip).2 _ hslip⟩

end SmallLisp
