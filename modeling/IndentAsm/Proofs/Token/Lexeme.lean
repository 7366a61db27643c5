import IndentAsm.Proofs.Token.Scanned

/-!
# Tokens as text

An item ends where its text cannot go on, so what stands behind it plays no part in it
(`splitItem_append`), as long as the first character there does not join it. The text of
a token therefore scans to that token wherever it stands (`IsLexeme`). A text that is
made of such pieces, with spaces between them where they would join, scans to the tokens
it was made of (`Written`).

**Results.**
* `splitItem_append`: an item does not depend on what follows it.
* `isLexeme_of_splitItem`: the text of a token is a lexeme of its kind.
* `scan_of_written`: a text in which tokens are written scans to these tokens.
-/
namespace IndentAsm.Scanner

/-- Whether a character goes on with an item that starts with `c`. -/
def joins (c d : Char) : Bool :=
  if isBlank c then isBlank d else (c.isDigit || isWordStart c) && isWordPart d

theorem joins_eq_false {d : Char} (hb : isBlank d = false) (hw : isWordPart d = false) (c : Char) :
    joins c d = false := by
  unfold joins
  split
  · exact hb
  · rw [hw, Bool.and_false]

theorem joins_newLine (c : Char) : joins c '\n' = false := joins_eq_false rfl rfl c

/-! ## What follows an item plays no part in it -/

/-- A run of characters ends in front of one that is not of its class. -/
theorem takeWhile_append_of_head {p : Char → Bool} {rest : List Char}
    (h : ∀ d ∈ rest.head?, p d = false) (cs : List Char) :
    (cs ++ rest).takeWhile p = cs.takeWhile p ∧
      (cs ++ rest).dropWhile p = cs.dropWhile p ++ rest := by
  induction cs with
  | nil =>
    cases rest with
    | nil => simp
    | cons d ds => simp [h d rfl]
  | cons c cs ih => by_cases hc : p c = true <;> simp [hc, ih]

/-- Digits of every base and the marks of the bases can all stand in a word. -/
theorem not_digit_of_not_wordPart {d : Char} (h : isWordPart d = false) :
    (d.isDigit || d == '_') = false ∧ (isHexDigit d || d == '_') = false ∧
      (d == '0' || d == '1' || d == '_') = false ∧ ¬(d = 'x' ∨ d = 'X') ∧
      ¬(d = 'b' ∨ d = 'B') := by
  have hx : ¬(d = 'x' ∨ d = 'X') := by rintro (rfl | rfl) <;> cases h
  have hb : ¬(d = 'b' ∨ d = 'B') := by rintro (rfl | rfl) <;> cases h
  have hbin : (d == '0' || d == '1') = false := by
    rw [Bool.or_eq_false_iff, beq_eq_false_iff_ne, beq_eq_false_iff_ne]
    constructor <;> rintro rfl <;> cases h
  simp only [isWordPart, Bool.or_eq_false_iff, Char.isAlphanum] at h
  obtain ⟨⟨ha, hd⟩, hu⟩ := h
  have hhex : isHexDigit d = false := by
    unfold Char.isAlpha Char.isUpper Char.isLower at ha
    simp only [Bool.or_eq_false_iff, decide_eq_false_iff_not, Bool.and_eq_false_iff, ge_iff_le,
      UInt32.le_iff_toNat_le] at ha
    simp only [isHexDigit, hd, Bool.false_or, Bool.or_eq_false_iff, Bool.and_eq_false_iff,
      decide_eq_false_iff_not, Char.le_def, UInt32.le_iff_toNat_le]
    simp at *
    omega
  simp [hd, hu, hbin, hhex, hx, hb]

theorem splitBase_append {rest : List Char} (h : ∀ d ∈ rest.head?, isWordPart d = false)
    (cs : List Char) :
    splitBase (cs ++ rest) = ((splitBase cs).1, (splitBase cs).2 ++ rest) := by
  have hclass := fun d hd => not_digit_of_not_wordPart (h d hd)
  cases cs with
  | nil =>
    cases rest with
    | nil => rfl
    | cons d ds =>
      obtain ⟨-, -, -, hx, hb⟩ := hclass d rfl
      simp [splitBase, hx, hb]
  | cons c cs =>
    have hhex := takeWhile_append_of_head (fun d hd => (hclass d hd).2.1) cs
    have hbin := takeWhile_append_of_head (fun d hd => (hclass d hd).2.2.1) cs
    simp only [List.cons_append, splitBase, hhex, hbin]
    split
    · rfl
    · split <;> rfl

theorem splitNumber_append {rest : List Char} (h : ∀ d ∈ rest.head?, isWordPart d = false)
    (c : Char) (cs : List Char) :
    splitNumber c (cs ++ rest) = ((splitNumber c cs).1, (splitNumber c cs).2 ++ rest) := by
  have hdigit := takeWhile_append_of_head fun d hd => (not_digit_of_not_wordPart (h d hd)).1
  simp only [splitNumber]
  split
  · simp only [splitBase_append h, hdigit]
  · simp only [hdigit]

/-- An item does not depend on what follows it. -/
theorem splitItem_append (line : Nat) {c : Char} {rest : List Char}
    (h : ∀ d ∈ rest.head?, joins c d = false) (cs : List Char) :
    splitItem line c (cs ++ rest) =
      ((splitItem line c cs).1, (splitItem line c cs).2 ++ rest) := by
  unfold splitItem
  split
  · rfl
  · split
    · rename_i hb
      simp only [takeWhile_append_of_head (p := isBlank) (by simpa [joins, hb] using h)]
    · rename_i hb
      split
      · rename_i hd
        simp only [splitNumber_append (by simpa [joins, hb, hd] using h)]
      · split
        · rename_i hw
          simp only [takeWhile_append_of_head (p := isWordPart) (by simpa [joins, hb, hw] using h)]
        · rfl

/-! ## Lexemes -/

/-- Text that is one token of a kind. -/
def IsLexeme (kind : Token.Kind) (text : List Char) : Prop :=
  ∃ c cs, text = c :: cs ∧
    ∀ line, splitItem line c cs = (.ok ⟨kind, String.ofList text, line⟩, [])

theorem takeWhile_self (p : Char → Bool) (cs : List Char) :
    (cs.takeWhile p).takeWhile p = cs.takeWhile p ∧ (cs.takeWhile p).dropWhile p = [] := by
  induction cs with
  | nil => simp
  | cons c cs ih => by_cases hc : p c = true <;> simp [hc, ih]

/-- Two runs of characters are split at the same place again. -/
theorem takeWhile_runs (p q : Char → Bool) (cs : List Char) :
    (cs.takeWhile p ++ (cs.dropWhile p).takeWhile q).takeWhile p = cs.takeWhile p ∧
      (cs.takeWhile p ++ (cs.dropWhile p).takeWhile q).dropWhile p = (cs.dropWhile p).takeWhile q := by
  have hhead : ∀ d ∈ ((cs.dropWhile p).takeWhile q).head?, p d = false := by
    intro d hd
    have hdrop := List.head?_dropWhile_not p cs
    cases hcs : cs.dropWhile p with
    | nil => simp [hcs] at hd
    | cons e es =>
      rw [hcs] at hd hdrop
      by_cases hq : q e = true
      · simp only [List.takeWhile_cons, hq, if_true, List.head?_cons, Option.mem_def,
          Option.some.injEq] at hd
        simpa [hd] using hdrop
      · simp [hq] at hd
  rw [(takeWhile_append_of_head hhead _).1, (takeWhile_append_of_head hhead _).2,
    (takeWhile_self p cs).1, (takeWhile_self p cs).2, List.nil_append]
  exact ⟨rfl, rfl⟩

/-- The text of a number is split off whole again, the mark of its base included. -/
theorem splitNumber_self (c : Char) (cs : List Char) :
    splitNumber c (splitNumber c cs).1 = ((splitNumber c cs).1, []) := by
  have digits (cs : List Char) := takeWhile_self (fun d : Char => d.isDigit || d == '_') cs
  by_cases hc : c = '0'
  · simp only [splitNumber, hc, if_true]
    cases cs with
    | nil => rfl
    | cons x cs =>
      by_cases hx : x = 'x' ∨ x = 'X'
      · simp only [splitBase, hx, if_true, List.cons_append, takeWhile_runs, digits]
      · by_cases hb : x = 'b' ∨ x = 'B'
        · simp only [splitBase, hx, hb, if_true, if_false, List.cons_append, takeWhile_runs, digits]
        · by_cases hd : (x.isDigit || x == '_') = true
          · simp [splitBase, hx, hb, hd, digits]
          · simp [splitBase, hx, hb, hd]
  · simp only [splitNumber, hc, if_false, List.nil_append, digits]

/-- The text of a token is a lexeme of its kind. -/
theorem isLexeme_of_splitItem {line : Nat} {c : Char} {cs : List Char} {t : Token}
    (h : (splitItem line c cs).1 = .ok t) : IsLexeme t.kind t.lexeme.toList := by
  unfold splitItem at h
  split at h
  · rename_i kind hk
    cases h
    refine ⟨c, [], by simp, fun line => ?_⟩
    simp [splitItem, hk]
  · rename_i hk
    split at h
    · rename_i hb
      cases h
      refine ⟨c, cs.takeWhile isBlank, by simp, fun line => ?_⟩
      simp [splitItem, hk, hb, takeWhile_self]
    · rename_i hb
      split at h
      · rename_i hd
        cases h
        refine ⟨c, (splitNumber c cs).1, by simp, fun line => ?_⟩
        simp [splitItem, hk, hb, hd, splitNumber_self]
      · rename_i hd
        split at h
        · rename_i hw
          refine ⟨c, cs.takeWhile isWordPart, ?_⟩
          unfold wordItem at h
          dsimp only at h
          split at h
          · rename_i kind hkind
            cases h
            refine ⟨by simp, fun line => ?_⟩
            simp only [splitItem, hk, hb, hd, hw, takeWhile_self, wordItem, hkind,
              Bool.false_eq_true, if_true, if_false, String.ofList_toList]
          · rename_i hkind
            split at h
            · cases h
            · rename_i hdir
              cases h
              refine ⟨by simp, fun line => ?_⟩
              simp only [splitItem, hk, hb, hd, hw, takeWhile_self, wordItem, hkind, hdir,
                Bool.false_eq_true, if_true, if_false, String.ofList_toList]
        · cases h

/-! ## Texts made of lexemes -/

/-- Tokens written one after another, from the start of a line or from its middle, with
spaces between them where there are any. -/
inductive Written : Bool → Nat → List Char → List Token → Prop where
  | eof (start : Bool) (line : Nat) : Written start line [] [⟨.eof, "", line⟩]
  | space {line : Nat} {cs : List Char} {ts : List Token} (rest : Written false line cs ts) :
      Written false line (' ' :: cs) ts
  | newLine {start : Bool} {line : Nat} {cs : List Char} {ts : List Token}
      (rest : Written true (line + 1) cs ts) :
      Written start line ('\n' :: cs) (⟨.newLine, "\n", line⟩ :: ts)
  | token {start : Bool} {t : Token} {rest : List Char} {ts : List Token}
      (lexeme : IsLexeme t.kind t.lexeme.toList) (inLine : t.kind ≠ .newLine)
      (indent : t.kind = .indent → start = true)
      (apart : ∀ c ∈ t.lexeme.toList.head?, ∀ d ∈ rest.head?, joins c d = false)
      (behind : Written false t.line rest ts) :
      Written start t.line (t.lexeme.toList ++ rest) (t :: ts)

theorem items_of_skipGap {s : Scanner} {c : Char} {cs : List Char}
    (h : skipGap s.lineStart false s.rest = c :: cs) :
    s.items = (splitItem s.line c cs).1 ::
      (s.passed (splitItem s.line c cs).1 (splitItem s.line c cs).2).items := by
  rw [items_eq, next?, h]

theorem items_of_skipGap_nil {s : Scanner} (hf : s.finished = false)
    (h : skipGap s.lineStart false s.rest = []) : s.items = [.ok ⟨.eof, "", s.line⟩] := by
  rw [items_eq, next?, h]
  simp only [hf, Bool.false_eq_true, if_false]
  rw [items_eq]
  rfl

/-- A lexeme starts an item, and does not belong to a gap. Only indents start with a
blank. -/
theorem IsLexeme.head {kind : Token.Kind} {c : Char} {cs : List Char}
    (h : IsLexeme kind (c :: cs)) :
    c ≠ ';' ∧ c ≠ '\r' ∧ (isBlank c = true → kind = .indent) := by
  obtain ⟨_, _, heq, hitem⟩ := h
  cases heq
  have hsemi : c ≠ ';' := by rintro rfl; cases hitem 0
  have hcr : c ≠ '\r' := by rintro rfl; cases hitem 0
  refine ⟨hsemi, hcr, fun hb => ?_⟩
  have hk : single? c = none := by
    simp only [isBlank, Bool.or_eq_true, beq_iff_eq] at hb
    rcases hb with rfl | rfl <;> rfl
  have hi := hitem 0
  simp only [splitItem, hk, hb, if_true, Prod.mk.injEq, Except.ok.injEq, Token.mk.injEq] at hi
  exact hi.1.1.symm

/-- A character that cannot stand in a word does not join a lexeme, an indent apart. -/
theorem IsLexeme.not_joins {kind : Token.Kind} {text : List Char} (h : IsLexeme kind text)
    (hk : kind ≠ .indent) {d : Char} (hd : isWordPart d = false) :
    ∀ c ∈ text.head?, joins c d = false := by
  intro c hc
  obtain ⟨cs, rfl⟩ := List.head?_eq_some_iff.1 hc
  have hb : isBlank c = false := by
    rw [← Bool.not_eq_true]
    exact fun hb => hk (h.head.2.2 hb)
  simp [joins, hb, hd]

/-- A lexeme is the next item, whatever follows it that does not join it. -/
theorem items_of_isLexeme {start : Bool} {line : Nat} {kind : Token.Kind} {text rest : List Char}
    (h : IsLexeme kind text) (inLine : kind ≠ .newLine) (indent : kind = .indent → start = true)
    (apart : ∀ c ∈ text.head?, ∀ d ∈ rest.head?, joins c d = false) :
    (Scanner.mk (text ++ rest) line start false).items =
      .ok ⟨kind, String.ofList text, line⟩ :: (Scanner.mk rest line false false).items := by
  obtain ⟨c, cs, rfl, hitem⟩ := h
  obtain ⟨hsemi, hcr, hblank⟩ := IsLexeme.head ⟨c, cs, rfl, hitem⟩
  have hgap : skipGap start false (c :: (cs ++ rest)) = c :: (cs ++ rest) := by
    cases hb : isBlank c with
    | true => simp [skipGap, hsemi, hcr, indent (hblank hb)]
    | false => simp [skipGap, hsemi, hcr, hb]
  rw [List.cons_append, items_of_skipGap hgap]
  simp only [splitItem_append line (apart c rfl), hitem, passed, List.nil_append, inLine, if_false,
    beq_eq_false_iff_ne.2 inLine]

/-- A text in which tokens are written has these tokens as its items. -/
theorem items_of_written {start : Bool} {line : Nat} {cs : List Char} {ts : List Token}
    (h : Written start line cs ts) : (Scanner.mk cs line start false).items = ts.map .ok := by
  induction h with
  | eof start line => exact items_of_skipGap_nil rfl rfl
  | @space line cs ts rest ih =>
    have hnext : (Scanner.mk (' ' :: cs) line false false).next? =
        (Scanner.mk cs line false false).next? := rfl
    rw [items_eq, hnext, ← items_eq, ih]
  | @newLine start line cs ts rest ih =>
    have hgap : skipGap start false ('\n' :: cs) = '\n' :: cs := by simp [skipGap, isBlank]
    rw [items_of_skipGap hgap, List.map_cons, ← ih]
    rfl
  | token lexeme inLine indent apart behind ih =>
    rw [items_of_isLexeme lexeme inLine indent apart, ih, List.map_cons, String.ofList_toList]

end IndentAsm.Scanner

namespace IndentAsm

theorem scan_of_written {text : String} {tokens : List Token}
    (h : Scanner.Written true 1 text.toList tokens) : scan text = .ok tokens := by
  rw [scan, Scanner.ofText, Scanner.items_of_written h]
  exact Scanner.mapM_map_ok tokens

/-- Every token of a text but its end is a lexeme. -/
theorem isLexeme_of_scan {text : String} {tokens : List Token} (h : scan text = .ok tokens) :
    ∀ t ∈ tokens, t.kind ≠ .eof → Scanner.IsLexeme t.kind t.lexeme.toList := by
  refine Scanner.forall_of_items ?_ ?_ h
  · intro line hne
    exact absurd rfl hne
  · intro line c cs t ht _
    exact Scanner.isLexeme_of_splitItem ht

end IndentAsm
