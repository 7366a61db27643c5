import IndentAsm.Proofs.Token.Lines

/-!
# A text is made of items and gaps

Scanning loses no character and makes up none. A text is the texts of its items, one after
another, with a gap in front of each (`Piece`). A gap holds carriage returns, blanks inside
a line and comments only, an item is as long as it can be, and its line is told by the line
breaks in front of it (`Piece.Stands`). The last piece is that of the end token.

**Results.**
* `exists_gap`: what `skipGap` leaves out is a gap.
* `itemText_splitItem`, `not_goesOn_splitItem`: an item is a piece of the text, and could not
  be longer.
* `exists_pieces`: the text is its pieces, from any place on.
* `next?_after`: the items are what the scanner gives call by call.
* `line_of_scan`: the lines of tokens are those of the text.
* `spells_items`: all of this for a whole text, and what `scan` makes of it.
-/
namespace IndentAsm

namespace Scanner

/-! ## Gaps -/

/-- Characters that are skipped in front of `rest`. Blanks are skipped inside a line only. A
comment runs up to the next line break or to the end, so it is the last part of a gap. -/
inductive IsGap (inLine : Bool) : List Char → List Char → Prop where
  | nil (rest : List Char) : IsGap inLine [] rest
  | carriageReturn {gap rest : List Char} (more : IsGap inLine gap rest) :
      IsGap inLine ('\r' :: gap) rest
  | blank {c : Char} {gap rest : List Char} (inside : inLine = true) (blank : c = ' ' ∨ c = '\t')
      (more : IsGap inLine gap rest) : IsGap inLine (c :: gap) rest
  | comment {words rest : List Char} (inside : '\n' ∉ words)
      (ends : ∀ c ∈ rest.head?, c = '\n') : IsGap inLine (';' :: words) rest

theorem exists_comment (start : Bool) (cs : List Char) :
    ∃ words, cs = words ++ skipGap start true cs ∧ '\n' ∉ words ∧
      ∀ c ∈ (skipGap start true cs).head?, c = '\n' := by
  induction cs with
  | nil => exact ⟨[], rfl, by simp, by simp [skipGap]⟩
  | cons c cs ih =>
    by_cases hc : c = '\n'
    · subst hc
      exact ⟨[], by simp [skipGap, isBlank], by simp, by simp [skipGap, isBlank]⟩
    · obtain ⟨words, hcs, hwords, hends⟩ := ih
      have hskip : skipGap start true (c :: cs) = skipGap start true cs := by simp [skipGap, hc]
      rw [hskip]
      refine ⟨c :: words, ?_, ?_, hends⟩
      · rw [List.cons_append, ← hcs]
      · simp [Ne.symm hc, hwords]

/-- What is skipped is a gap. -/
theorem exists_gap (start : Bool) (cs : List Char) :
    ∃ gap, cs = gap ++ skipGap start false cs ∧ IsGap (!start) gap (skipGap start false cs) := by
  induction cs with
  | nil => exact ⟨[], rfl, .nil _⟩
  | cons c cs ih =>
    obtain ⟨gap, hcs, hgap⟩ := ih
    by_cases hsemi : c = ';'
    · subst hsemi
      obtain ⟨words, hwords, hinside, hends⟩ := exists_comment start cs
      have hskip : skipGap start false (';' :: cs) = skipGap start true cs := rfl
      rw [hskip]
      exact ⟨';' :: words, by rw [List.cons_append, ← hwords], .comment hinside hends⟩
    · by_cases hcr : c = '\r'
      · subst hcr
        have hskip : skipGap start false ('\r' :: cs) = skipGap start false cs := rfl
        rw [hskip]
        exact ⟨'\r' :: gap, by rw [List.cons_append, ← hcs], .carriageReturn hgap⟩
      · by_cases hb : isBlank c && !start
        · have hskip : skipGap start false (c :: cs) = skipGap start false cs := by
            simp [skipGap, hsemi, hcr, hb]
          rw [hskip]
          rw [Bool.and_eq_true] at hb
          refine ⟨c :: gap, by rw [List.cons_append, ← hcs], .blank hb.2 ?_ hgap⟩
          simpa [isBlank] using hb.1
        · have hskip : skipGap start false (c :: cs) = c :: cs := by
            simp [skipGap, hsemi, hcr, hb]
          rw [hskip]
          exact ⟨[], rfl, .nil _⟩

/-! ## Items -/

/-- The text of an item: that of a token, or the text at fault. -/
def itemText : Except LexError Token → List Char
  | .ok t => t.lexeme.toList
  | .error e => e.subject.toList

def itemLine : Except LexError Token → Nat
  | .ok t => t.line
  | .error e => e.line

/-- Whether tokens of this kind are words, as opposed to numbers, blanks and single
characters. -/
def isWord : Token.Kind → Bool
  | .identifier | .macroKeyword | .includeKeyword | .nextAddr | .operation _ | .register _ => true
  | _ => false

/-- Whether the text of a number starts with the mark of base 16. -/
def isHexMarked (text : List Char) : Bool :=
  ['0', 'x'].isPrefixOf text || ['0', 'X'].isPrefixOf text

/-- Whether a character behind an item would belong to it. -/
def goesOn (item : Except LexError Token) (d : Char) : Bool :=
  match item with
  | .error (.unexpectedCharacter ..) => false
  | .error (.unknownDirective ..) => isWordPart d
  | .ok t =>
    match t.kind with
    | .indent => isBlank d
    | .number => d.isDigit || d == '_' || isHexMarked t.lexeme.toList && isHexDigit d
    | kind => isWord kind && isWordPart d

theorem splitBase_eq (cs : List Char) : (splitBase cs).1 ++ (splitBase cs).2 = cs := by
  cases cs with
  | nil => rfl
  | cons c cs =>
    simp only [splitBase]
    split
    · rw [List.cons_append, List.takeWhile_append_dropWhile]
    · split
      · rw [List.cons_append, List.takeWhile_append_dropWhile]
      · rfl

theorem splitNumber_eq (c : Char) (cs : List Char) :
    (splitNumber c cs).1 ++ (splitNumber c cs).2 = cs := by
  simp only [splitNumber, List.append_assoc, List.takeWhile_append_dropWhile]
  split
  · exact splitBase_eq cs
  · rfl

theorem itemText_wordItem (line : Nat) (word : String) (directive : Bool) :
    itemText (wordItem line word directive) = word.toList := by
  unfold wordItem
  split
  · rfl
  · split <;> rfl

/-- An item is split off the text. -/
theorem itemText_splitItem (line : Nat) (c : Char) (cs : List Char) :
    itemText (splitItem line c cs).1 ++ (splitItem line c cs).2 = c :: cs := by
  unfold splitItem
  split
  · simp [itemText]
  · split
    · simp [itemText]
    · split
      · simp [itemText, splitNumber_eq]
      · split
        · simp [itemText_wordItem]
        · simp [itemText, LexError.subject]

theorem itemLine_splitItem (line : Nat) (c : Char) (cs : List Char) :
    itemLine (splitItem line c cs).1 = line := by
  unfold splitItem
  split
  · rfl
  · split
    · rfl
    · split
      · rfl
      · split
        · unfold wordItem
          split
          · rfl
          · split <;> rfl
        · rfl

theorem head_dropWhile (p : Char → Bool) (cs : List Char) :
    ∀ d ∈ (cs.dropWhile p).head?, p d = false := by
  intro d hd
  have hdrop := List.head?_dropWhile_not p cs
  rw [hd] at hdrop
  exact hdrop

/-- A run of decimal digits is empty behind the digits of a greater base. -/
theorem dropWhile_of_head {p : Char → Bool} {cs : List Char}
    (h : ∀ d ∈ cs.head?, p d = false) : cs.dropWhile p = cs := by
  cases cs with
  | nil => rfl
  | cons c cs => rw [List.dropWhile_cons_of_neg (by simp [h c rfl])]

theorem not_digit_behind_number (c : Char) (cs : List Char) :
    ∀ d ∈ (splitNumber c cs).2.head?, d.isDigit = false ∧ d ≠ '_' := by
  intro d hd
  simp only [splitNumber] at hd
  simpa using head_dropWhile _ _ d hd

/-- Behind the mark of base 16 all its digits are taken. -/
theorem not_hexDigit_behind_number {c : Char} {cs : List Char}
    (h : isHexMarked (c :: (splitNumber c cs).1) = true) :
    ∀ d ∈ (splitNumber c cs).2.head?, isHexDigit d = false := by
  have hmark : c = '0' ∧ ∃ x ∈ (splitNumber c cs).1.head?, x = 'x' ∨ x = 'X' := by
    simp only [isHexMarked, Bool.or_eq_true, List.isPrefixOf_iff_prefix] at h
    rcases h with h | h <;> obtain ⟨rfl, more, hmore⟩ := List.cons_prefix_cons.1 h
    · exact ⟨rfl, 'x', by rw [← hmore]; rfl, Or.inl rfl⟩
    · exact ⟨rfl, 'X', by rw [← hmore]; rfl, Or.inr rfl⟩
  obtain ⟨rfl, x, hx, hcase⟩ := hmark
  cases cs with
  | nil => cases hx
  | cons y cs =>
    by_cases hy : y = 'x' ∨ y = 'X'
    · have hhead := head_dropWhile (fun d => isHexDigit d || d == '_') cs
      simp only [Bool.or_eq_false_iff] at hhead
      have hdigits : ∀ d ∈ (cs.dropWhile fun d => isHexDigit d || d == '_').head?,
          (d.isDigit || d == '_') = false := by
        intro d hd
        obtain ⟨hhex, hund⟩ := hhead d hd
        simp only [isHexDigit, Bool.or_eq_false_iff] at hhex
        simp [hhex.1.1, hund]
      simp only [splitNumber, splitBase, if_true, hy, dropWhile_of_head hdigits]
      exact fun d hd => (hhead d hd).1
    · -- without the mark, a digit or another mark stands in its place
      exfalso
      by_cases hb : y = 'b' ∨ y = 'B'
      · simp only [splitNumber, splitBase, if_true, hy, hb, if_false, List.cons_append,
          List.head?_cons, Option.mem_def, Option.some.injEq] at hx
        subst hx
        exact hy hcase
      · simp only [splitNumber, splitBase, if_true, hy, hb, if_false, List.nil_append] at hx
        have hdigit := List.all_eq_true.1 List.all_takeWhile x (List.mem_of_mem_head? hx)
        rcases hcase with rfl | rfl <;> cases hdigit

theorem goesOn_single? {c : Char} {kind : Token.Kind} (h : single? c = some kind)
    (lexeme : String) (line : Nat) (d : Char) : goesOn (.ok ⟨kind, lexeme, line⟩) d = false := by
  unfold single? at h
  repeat' split at h
  all_goals cases h
  all_goals rfl

theorem isWord_keyword? {word : String} {kind : Token.Kind}
    (h : Token.Kind.keyword? word = some kind) : isWord kind = true := by
  unfold Token.Kind.keyword? at h
  repeat' split at h
  · cases h; rfl
  · cases h; rfl
  · cases h; rfl
  · cases ho : Mnemonic.ofName? word with
    | some op => rw [ho] at h; cases h; rfl
    | none =>
      rw [ho] at h
      obtain ⟨r, -, rfl⟩ := Option.map_eq_some_iff.1 h
      rfl

theorem goesOn_of_isWord {t : Token} (h : isWord t.kind = true) (d : Char) :
    goesOn (.ok t) d = isWordPart d := by
  unfold goesOn
  dsimp only
  split
  · simp_all [isWord]
  · simp_all [isWord]
  · rw [h, Bool.true_and]

theorem goesOn_wordItem (line : Nat) (word : String) (directive : Bool) (d : Char) :
    goesOn (wordItem line word directive) d = isWordPart d := by
  unfold wordItem
  split
  · rename_i kind hk
    exact goesOn_of_isWord (isWord_keyword? hk) d
  · split
    · rfl
    · exact goesOn_of_isWord rfl d

/-- No item could be longer. -/
theorem not_goesOn_splitItem (line : Nat) (c : Char) (cs : List Char) :
    ∀ d ∈ (splitItem line c cs).2.head?, goesOn (splitItem line c cs).1 d = false := by
  unfold splitItem
  split
  · rename_i kind hk
    exact fun d _ => goesOn_single? hk _ line d
  · split
    · exact head_dropWhile isBlank cs
    · split
      · intro d hd
        obtain ⟨hdec, hund⟩ := not_digit_behind_number c cs d hd
        have hhex : isHexMarked (c :: (splitNumber c cs).1) = true → isHexDigit d = false :=
          fun hm => not_hexDigit_behind_number hm d hd
        simpa [goesOn, hdec, hund] using hhex
      · split
        · intro d hd
          rw [goesOn_wordItem]
          exact head_dropWhile isWordPart cs d hd
        · exact fun d _ => rfl

/-! ## The pieces of a text -/

/-- An item and the gap in front of it. -/
structure Piece where
  gap : List Char
  item : Except LexError Token

def Piece.text (p : Piece) : List Char := p.gap ++ itemText p.item

def textOf (ps : List Piece) : List Char := ps.flatMap Piece.text

def lastToken? (items : List (Except LexError Token)) : Option Token :=
  (items.filterMap Except.toOption).getLast?

/-- Whether a line has begun behind some items: there is a token among them, and the last
one is no line break. -/
def midLine (items : List (Except LexError Token)) : Bool :=
  (lastToken? items).any (·.kind != .newLine)

/-- What a piece is to the pieces around it: its gap is one, its item is on the line that the
line breaks in front of it make, and could not be longer. -/
structure Piece.Stands (before : List Piece) (p : Piece) (behind : List Piece) : Prop where
  gap : IsGap (midLine (before.map Piece.item)) p.gap (itemText p.item ++ textOf behind)
  line : itemLine p.item = 1 + (textOf before ++ p.gap).count '\n'
  whole : ∀ d ∈ (textOf behind).head?, goesOn p.item d = false

@[simp] theorem textOf_cons (p : Piece) (ps : List Piece) :
    textOf (p :: ps) = p.gap ++ (itemText p.item ++ textOf ps) := by
  simp [textOf, Piece.text]

theorem startsBehind_eq {start : Bool} {seen : List (Except LexError Token)}
    (h : start = !midLine seen) (item : Except LexError Token) :
    startsBehind start item = !midLine (seen ++ [item]) := by
  cases item with
  | error e =>
    have hlast : lastToken? (seen ++ [.error e]) = lastToken? seen := by
      simp [lastToken?, Except.toOption]
    rw [midLine, hlast]
    exact h
  | ok t => simp [startsBehind, midLine, lastToken?, Except.toOption, bne]

/-- A text is its pieces, wherever it starts: on some line, behind the items in `seen`. -/
theorem exists_pieces (seen : List (Except LexError Token)) (line : Nat) (text : List Char) :
    ∃ ps : List Piece,
      ps.map Piece.item = (Scanner.mk text line (!midLine seen) false).items ∧ textOf ps = text ∧
      ∀ before p behind, ps = before ++ p :: behind →
        IsGap (midLine (seen ++ before.map Piece.item)) p.gap (itemText p.item ++ textOf behind) ∧
        itemLine p.item = line + (textOf before ++ p.gap).count '\n' ∧
        ∀ d ∈ (textOf behind).head?, goesOn p.item d = false := by
  induction hn : text.length using Nat.strongRecOn generalizing seen line text with
  | ind n ih =>
    obtain ⟨gap, htext, hgap⟩ := exists_gap (!midLine seen) text
    rw [Bool.not_not] at hgap
    have hnone : gap.count '\n' = 0 := by
      have hcount := count_skipGap (!midLine seen) false text
      have hsum := congrArg (List.count '\n') htext
      rw [List.count_append] at hsum
      omega
    cases hskip : skipGap (!midLine seen) false text with
    | nil =>
      rw [hskip] at htext hgap
      refine ⟨[⟨gap, .ok ⟨.eof, "", line⟩⟩], ?_, ?_, fun before p behind hps => ?_⟩
      · rw [items_of_skipGap_nil rfl hskip]; rfl
      · simpa [textOf, Piece.text, itemText] using htext.symm
      · obtain ⟨rfl, hcons⟩ := List.append_eq_singleton_iff.1 hps.symm |>.resolve_right (by simp)
        cases hcons
        refine ⟨by simpa [textOf, itemText] using hgap, ?_, by simp [textOf]⟩
        show line = line + (gap).count '\n'
        omega
    | cons c cs =>
      rw [hskip] at htext hgap
      have hitems := @items_of_skipGap_cons _ line _ _ _ hskip
      have hcount := count_of_skipGap_cons hskip line
      have hsplit := itemText_splitItem line c cs
      rw [startsBehind_eq rfl] at hitems
      obtain ⟨ps, hmap, hps, hstands⟩ := ih _ (hn ▸ length_of_skipGap_cons hskip line)
        (seen ++ [(splitItem line c cs).1]) (if c = '\n' then line + 1 else line) _ rfl
      refine ⟨⟨gap, (splitItem line c cs).1⟩ :: ps, ?_, ?_, fun before p behind heq => ?_⟩
      · rw [List.map_cons, hmap, hitems]
      · rw [textOf_cons, hps, hsplit, ← htext]
      · cases before with
        | nil =>
          cases heq
          refine ⟨?_, ?_, hps ▸ not_goesOn_splitItem line c cs⟩
          · rw [hps, hsplit]
            simpa using hgap
          · rw [itemLine_splitItem]
            show line = line + gap.count '\n'
            omega
        | cons q before =>
          cases heq
          obtain ⟨hg, hl, hw⟩ := hstands before p behind rfl
          refine ⟨by simpa using hg, ?_, hw⟩
          -- the line breaks of the first piece are counted in the line of the rest
          have hfirst : gap.count '\n' + (itemText (splitItem line c cs).1).count '\n' =
              if c = '\n' then 1 else 0 := by
            have hsum := congrArg (List.count '\n') htext
            rw [← hsplit, List.count_append, List.count_append] at hsum
            omega
          have hline : (if c = '\n' then line + 1 else line) =
              line + (gap.count '\n' + (itemText (splitItem line c cs).1).count '\n') := by
            rw [hfirst]
            split <;> rfl
          rw [hl, hline]
          simp only [textOf_cons, List.count_append]
          omega

/-! ## Call by call -/

/-- The scanner behind `n` calls for the next item. At the end it stays where it is. -/
def after : Nat → Scanner → Scanner
  | 0, s => s
  | n + 1, s => after n ((s.next?.map Prod.snd).getD s)

/-- Each call gives the next one of the items, and nothing behind the last. -/
theorem next?_after (n : Nat) (s : Scanner) :
    ((after n s).next?).map Prod.fst = s.items[n]? := by
  induction n generalizing s with
  | zero =>
    rw [after, items_eq]
    cases s.next? <;> rfl
  | succ n ih =>
    rw [after, ih, items_eq s]
    cases hnext : s.next? with
    | none =>
      show s.items[n]? = none
      rw [items_eq, hnext]
      rfl
    | some p => rfl

/-! ## The first error -/

theorem mapM_eq_ok_iff {items : List (Except LexError Token)} {tokens : List Token} :
    items.mapM id = .ok tokens ↔ items = tokens.map .ok :=
  ⟨eq_map_ok_of_mapM, fun h => h ▸ mapM_map_ok tokens⟩

/-- Items have no tokens exactly because of the first error among them. -/
theorem mapM_eq_error_iff {items : List (Except LexError Token)} {e : LexError} :
    items.mapM id = .error e ↔
      ∃ (tokens : List Token) (rest : List (Except LexError Token)),
        items = tokens.map .ok ++ .error e :: rest := by
  constructor
  · intro h
    induction items with
    | nil => cases h
    | cons item items ih =>
      rw [List.mapM_cons] at h
      cases item with
      | error e' =>
        cases h
        exact ⟨[], items, rfl⟩
      | ok t =>
        cases hm : items.mapM id with
        | ok ts => rw [hm] at h; cases h
        | error e' =>
          rw [hm] at h
          cases h
          obtain ⟨tokens, rest, rfl⟩ := ih hm
          exact ⟨t :: tokens, rest, rfl⟩
  · rintro ⟨tokens, rest, rfl⟩
    rw [mapM_append, mapM_map_ok]
    rfl

/-! ## A whole text -/

/-- What the items of a text are to the text. -/
structure Spells (text : String) (items : List (Except LexError Token)) : Prop where
  /-- The text is the items and the gaps in front of them. -/
  pieces : ∃ ps : List Piece, ps.map Piece.item = items ∧ textOf ps = text.toList ∧
    ∀ before p behind, ps = before ++ p :: behind → p.Stands before behind
  /-- There is one end token, and it comes last. -/
  eof : ∃ init last, items = init ++ [.ok ⟨.eof, "", last⟩] ∧ ∀ t, .ok t ∈ init → t.kind ≠ .eof

end Scanner

/-- The tokens of a text stand on its lines. -/
theorem line_of_scan {text : String} {tokens : List Token} (h : scan text = .ok tokens) :
    ∀ t ∈ tokens, 1 ≤ t.line ∧ t.line ≤ 1 + text.toList.count '\n' := by
  intro t ht
  obtain ⟨ps, hitems, htext, hstands⟩ := Scanner.exists_pieces [] 1 text.toList
  have hmap : ps.map Scanner.Piece.item = tokens.map .ok :=
    hitems.trans (Scanner.mapM_eq_ok_iff.1 h)
  obtain ⟨p, hp, hpt⟩ := List.mem_map.1 (hmap ▸ List.mem_map_of_mem ht)
  obtain ⟨before, behind, rfl⟩ := List.append_of_mem hp
  have hline := (hstands before p behind rfl).2.1
  rw [hpt] at hline
  have hcount : text.toList.count '\n' = (Scanner.textOf before ++ p.gap).count '\n' +
      (Scanner.itemText p.item ++ Scanner.textOf behind).count '\n' := by
    rw [← htext, ← List.count_append]
    simp [Scanner.textOf, Scanner.Piece.text]
  simp only [Scanner.itemLine] at hline
  omega

/-- A text is spelled by its items, which the scanner gives one at a call and then no more.
Its tokens are all of them, if none is an error, and otherwise it has the first error. -/
theorem spells_items (text : String) :
    Scanner.Spells text (Scanner.ofText text).items ∧
    (∀ n, ((Scanner.ofText text).after n).next?.map Prod.fst = (Scanner.ofText text).items[n]?) ∧
    (∀ tokens, scan text = .ok tokens ↔ (Scanner.ofText text).items = tokens.map .ok) ∧
    ∀ e, scan text = .error e ↔
      ∃ (tokens : List Token) (rest : List (Except LexError Token)),
        (Scanner.ofText text).items = tokens.map .ok ++ .error e :: rest := by
  obtain ⟨ps, hitems, htext, hstands⟩ := Scanner.exists_pieces [] 1 text.toList
  refine ⟨⟨⟨ps, hitems, htext, fun before p behind hps => ?_⟩, ?_⟩, ?_, ?_, ?_⟩
  · obtain ⟨hgap, hline, hwhole⟩ := hstands before p behind hps
    exact ⟨hgap, hline, hwhole⟩
  · obtain ⟨init, hlast, hne⟩ := Scanner.items_eq_concat_eof text.toList 1 true
    exact ⟨init, _, hlast, hne⟩
  · exact fun n => Scanner.next?_after n _
  · exact fun tokens => Scanner.mapM_eq_ok_iff
  · exact fun e => Scanner.mapM_eq_error_iff

end IndentAsm
