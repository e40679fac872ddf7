import SmallLisp.Proofs.Node.Faults
import SmallLisp.Proofs.Text.Utf8
import SmallLisp.Proofs.Token.Lines

/-!
# What more input can repair

A text that cannot be read may only have been cut off: a string or a list has not ended, or a quote
has nothing behind it yet. Such a text can be read once the right lines follow, and no other text
that cannot be read ever can (`cut_off_iff_repairable`).

What has to follow is seen from the delimiters at the end of the text (`Delimiters.closers`). That
nothing else helps is because the tokens found so far stay as they are, and so does the first fault
(`Cursor.firstFault_withLine`).
-/

namespace SmallLisp

/-- The text may have been cut off: it ends inside a string or a list, or behind a quote. -/
def ReadError.isCutOff : ReadError → Bool
  | lexical ⟨_, .unterminatedString⟩ => true
  | structural ⟨_, .neverClosed _⟩ => true
  | structural ⟨_, .quoteAtEnd⟩ => true
  | _ => false

/-! ## 1. Faults that stay -/

namespace Delimiters

theorem fault?_of_string (d : Delimiters) (body : String) (loc : Loc) :
    d.fault? ⟨.string body, loc⟩ = .none := rfl

/-- What is wrong with a token is not that the text has been cut off there. -/
theorem not_isCutOff_of_fault? {d : Delimiters} {t : Token} {e : StructureError}
    (h : d.fault? t = some e) : (ReadError.structural e).isCutOff = false := by
  unfold fault? at h
  repeat' split at h
  all_goals cases h
  all_goals rfl

/-- What is wrong at the end of a text is that it has been cut off. -/
theorem isCutOff_of_faultAtEnd? {d : Delimiters} {loc : Loc} {e : StructureError}
    (h : d.faultAtEnd? loc = some e) : (ReadError.structural e).isCutOff = true := by
  unfold faultAtEnd? at h
  repeat' split at h
  all_goals cases h
  all_goals rfl

end Delimiters

/-- **A fault stays whatever follows**, unless the text has been cut off. -/
theorem Cursor.firstFault_withLine {d : Delimiters} {cur : Cursor} {e : ReadError}
    (h : cur.firstFault d = some e) (he : e.isCutOff = false) (line : List Char) :
    (cur.withLine line).firstFault d = some e := by
  fun_induction firstFault d cur with
  | case1 d cur e' cur' hnext =>
    cases h
    have hstays : ¬ LexError.IsOpen (.error e') := by
      intro hopen
      rcases e' with ⟨loc, cause⟩
      cases hopen
      cases he
    exact firstFault_of_error (next_withLine line hnext hstays fun _ h => by cases h)
  | case2 d cur t cur' hnext ht =>
    obtain ⟨e', hfault, rfl⟩ := Option.map_eq_some_iff.mp h
    rw [Delimiters.isCutOff_of_faultAtEnd? hfault] at he
    cases he
  | case3 d cur t cur' hnext ht e' hfault =>
    have hnext' := next_withLine line hnext not_false fun _ h => Except.ok.inj h ▸ ht
    rw [firstFault_of_token hnext' ht, hfault]
    exact h
  | case4 d cur t cur' hnext ht hfault _ ih =>
    have hnext' := next_withLine line hnext not_false fun _ h => Except.ok.inj h ▸ ht
    rw [firstFault_of_token hnext' ht, hfault]
    exact ih h

/-! ## 2. Texts that are completed -/

/-- The closing brackets that are missing. -/
def Delimiters.closers (d : Delimiters) : List Char := d.opened.map fun o => o.1.closeChar

/-- A closing bracket is a token by itself. -/
theorem next_closeChar (b : Bracket) (rest : List Char) (loc : Loc) :
    Cursor.next ⟨b.closeChar :: rest, loc⟩ =
      (.ok ⟨.closer b, loc⟩, ⟨rest, loc.advance b.closeChar⟩) := by
  cases b <;> rfl

/-- Once the missing brackets follow, nothing is wrong. -/
theorem firstFault_closers (opened : List (Bracket × Loc)) (loc : Loc) :
    Cursor.firstFault ⟨opened, false⟩ ⟨Delimiters.closers ⟨opened, false⟩, loc⟩ = none := by
  induction opened generalizing loc with
  | nil => rw [Cursor.firstFault_of_eof rfl rfl]; rfl
  | cons o opened ih =>
    have hmatch : Delimiters.fault? ⟨o :: opened, false⟩ ⟨.closer o.1, loc⟩ = none := if_pos rfl
    refine (Cursor.firstFault_of_token (next_closeChar o.1 _ loc) TokenKind.noConfusion).trans ?_
    rw [hmatch]
    exact ih _

/-- A string takes the quotes before it, and then the missing brackets may follow. -/
theorem firstFault_of_string {d : Delimiters} {cur : Cursor} {body : String} {l loc : Loc}
    (h : cur.next = (.ok ⟨.string body, l⟩, ⟨d.closers, loc⟩)) : cur.firstFault d = none := by
  rw [Cursor.firstFault_of_token h TokenKind.noConfusion, Delimiters.fault?_of_string]
  exact firstFault_closers d.opened loc

/-- **A text that has been cut off can be completed.** A string that is open is closed; otherwise
    there is an empty string, in case a quote waits. Then come the missing brackets. -/
theorem Cursor.exists_completion {d : Delimiters} {cur : Cursor} {e : ReadError}
    (h : cur.firstFault d = some e) (he : e.isCutOff = true) :
    ∃ line, (cur.withLine line).firstFault d = none := by
  fun_induction firstFault d cur with
  | case1 d cur e' cur' hnext =>
    cases h
    have hopen : e'.cause = .unterminatedString := by
      rcases e' with ⟨loc, cause⟩
      cases cause with
      | unterminatedString => rfl
      | _ => cases he
    obtain ⟨body, hclosed⟩ := next_closing hnext hopen List.not_mem_nil d.closers
    exact ⟨'"' :: d.closers, firstFault_of_string hclosed⟩
  | case2 d cur t cur' hnext ht =>
    refine ⟨'"' :: '"' :: d.closers, ?_⟩
    exact firstFault_of_string (next_withLine_of_eof _ hnext ht)
  | case3 d cur t cur' hnext ht e' hfault =>
    cases h
    rw [Delimiters.not_isCutOff_of_fault? hfault] at he
    cases he
  | case4 d cur t cur' hnext ht hfault _ ih =>
    obtain ⟨line, hline⟩ := ih h
    have hnext' := next_withLine line hnext not_false fun _ h => Except.ok.inj h ▸ ht
    refine ⟨line, ?_⟩
    rw [firstFault_of_token hnext' ht, hfault]
    exact hline

/-! ## 3. The result -/

theorem faultOf?_eq_some {α : Type} {r : Except ReadError α} {e : ReadError} :
    faultOf? r = some e ↔ r = .error e := by
  cases r <;> simp [faultOf?]

theorem faultOf?_eq_none {α : Type} {r : Except ReadError α} :
    faultOf? r = none ↔ ∃ a, r = .ok a := by
  cases r <;> simp [faultOf?]

theorem parseChars_withLine_of_fault {cs : List Char} {e : ReadError}
    (h : parseChars cs = .error e) (he : e.isCutOff = false) (line : List Char) :
    parseChars (cs ++ '\n' :: line) = .error e := by
  rw [← faultOf?_eq_some, faultOf?_parseChars] at h ⊢
  exact Cursor.firstFault_withLine h he line

/-- **More input repairs exactly the texts that have been cut off.** If a text ends inside a string
    or a list or behind a quote, then some lines make it one that can be read; if anything else is
    wrong with it, then the same is wrong whatever lines follow. -/
theorem cut_off_iff_repairable {src : Text} {e : ReadError} (h : parse src = .error e) :
    (e.isCutOff = true → ∃ more n, parse (src ++ 0x0A :: more) = .ok n) ∧
    (e.isCutOff = false → ∀ more, parse (src ++ 0x0A :: more) = .error e) := by
  have hfault := faultOf?_eq_some.mpr h
  rw [faultOf?_parse] at hfault
  refine ⟨fun he => ?_, fun he more => ?_⟩
  · obtain ⟨line, hline⟩ := Cursor.exists_completion hfault he
    refine ⟨Utf8.encode line, faultOf?_eq_none.mp ?_⟩
    rw [faultOf?_parse, Utf8.decode_newline, Utf8.decode_encode]
    exact hline
  · rw [← faultOf?_eq_some, faultOf?_parse, Utf8.decode_newline]
    exact Cursor.firstFault_withLine hfault he _

/-- A text that ends inside a string, behind a quote and inside lists of two kinds. -/
def brokenOffSource : Text := Text.ofString "(a ; b\n [c '\"d"

/-- A text that ends inside a list and has a bracket of a wrong kind before that. -/
def crossedSource : Text := Text.ofString "(a 'b] (c"

theorem cut_off_iff_repairable_brokenOff :
    parse brokenOffSource = .error (.lexical ⟨⟨2, 6⟩, .unterminatedString⟩) ∧
    (∃ more n, parse (brokenOffSource ++ 0x0A :: more) = .ok n) ∧
    parse crossedSource = .error (.structural ⟨⟨1, 6⟩, .mismatched .paren ⟨1, 1⟩ .square⟩) ∧
    ∀ more, parse (crossedSource ++ 0x0A :: more) =
      .error (.structural ⟨⟨1, 6⟩, .mismatched .paren ⟨1, 1⟩ .square⟩) := by
  have hopen : parse brokenOffSource = .error (.lexical ⟨⟨2, 6⟩, .unterminatedString⟩) :=
    faultOf?_eq_some.mp (by decide +kernel)
  have hcrossed : parse crossedSource =
      .error (.structural ⟨⟨1, 6⟩, .mismatched .paren ⟨1, 1⟩ .square⟩) :=
    faultOf?_eq_some.mp (by decide +kernel)
  exact ⟨hopen, (cut_off_iff_repairable hopen).1 rfl, hcrossed,
    (cut_off_iff_repairable hcrossed).2 rfl⟩

end SmallLisp
