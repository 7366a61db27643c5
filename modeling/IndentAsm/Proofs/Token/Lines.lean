import IndentAsm.Proofs.Token.Lexeme

/-!
# Scanning line by line

Nothing the scanner remembers outlives a line break: what stands behind one is scanned
as a text of its own, on a later line (`items_append_newLine`), and the line a text
starts on shows in the lines of its items only (`items_mapLine`). A blank line is scanned
to a line break, with an indent in front of it if the line starts with one, and moves
down what stands behind it.

**Results.**
* `items_mapLine`: a text on other lines has the same items, on these lines.
* `items_append_newLine`: the items in front of a line break, the break, and those behind.
* `items_eq_concat_eof`: the last item is the end, on the last line of the text.
* `scan_append_newLine`: two texts with a line break between them are scanned one by one.
* `scan_blankLine`: the tokens of a text with one more blank line.
-/
namespace IndentAsm

def Token.mapLine (f : Nat → Nat) (t : Token) : Token := { t with line := f t.line }

@[simp] theorem Token.kind_mapLine (f : Nat → Nat) (t : Token) : (t.mapLine f).kind = t.kind := rfl

@[simp] theorem Token.lexeme_mapLine (f : Nat → Nat) (t : Token) :
    (t.mapLine f).lexeme = t.lexeme := rfl

def LexError.mapLine (f : Nat → Nat) : LexError → LexError
  | unexpectedCharacter line char => unexpectedCharacter (f line) char
  | unknownDirective line word => unknownDirective (f line) word

namespace Scanner

/-! ## Line breaks are neither lost nor made up -/

theorem count_dropWhile {p : Char → Bool} (h : p '\n' = false) (cs : List Char) :
    (cs.dropWhile p).count '\n' = cs.count '\n' := by
  have hnone : (cs.takeWhile p).count '\n' = 0 := List.count_eq_zero.2 (not_mem_takeWhile h cs)
  calc (cs.dropWhile p).count '\n'
      = (cs.takeWhile p).count '\n' + (cs.dropWhile p).count '\n' := by omega
    _ = cs.count '\n' := by rw [← List.count_append, List.takeWhile_append_dropWhile]

theorem count_splitBase (cs : List Char) :
    (splitBase cs).2.count '\n' = cs.count '\n' := by
  cases cs with
  | nil => rfl
  | cons c cs =>
    simp only [splitBase]
    split
    · rename_i hx
      have hc : c ≠ '\n' := by rcases hx with rfl | rfl <;> decide
      rw [count_dropWhile (by decide), List.count_cons_of_ne hc]
    · split
      · rename_i hb
        have hc : c ≠ '\n' := by rcases hb with rfl | rfl <;> decide
        rw [count_dropWhile (by decide), List.count_cons_of_ne hc]
      · rfl

theorem count_splitItem (line : Nat) (c : Char) (cs : List Char) :
    (splitItem line c cs).2.count '\n' = cs.count '\n' := by
  unfold splitItem
  split
  · rfl
  · split
    · exact count_dropWhile (by decide) cs
    · split
      · simp only [splitNumber]
        rw [count_dropWhile (by decide)]
        split
        · exact count_splitBase cs
        · rfl
      · split
        · exact count_dropWhile (by decide) cs
        · rfl

/-- A comment ends in front of the line break. -/
theorem count_skipGap (start inComment : Bool) (cs : List Char) :
    (skipGap start inComment cs).count '\n' = cs.count '\n' := by
  fun_induction skipGap start inComment cs with
  | case1 => rfl
  | case2 b c cs h ih =>
    have hc : c ≠ '\n' := by rintro rfl; simp at h
    rw [ih, List.count_cons_of_ne hc]
  | case3 b c cs _ h ih =>
    have hc : c ≠ '\n' := by rintro rfl; simp at h
    rw [ih, List.count_cons_of_ne hc]
  | case4 b c cs _ _ h ih =>
    have hc : c ≠ '\n' := by rintro rfl; simp at h
    rw [ih, List.count_cons_of_ne hc]
  | case5 b c cs _ _ _ h ih =>
    have hc : c ≠ '\n' := by rintro rfl; simp [isBlank] at h
    rw [ih, List.count_cons_of_ne hc]
  | case6 => rfl

theorem single?_eq_newLine {c : Char} : single? c = some .newLine ↔ c = '\n' := by
  constructor
  · intro h
    unfold single? at h
    repeat' split at h
    all_goals first | assumption | cases h
  · rintro rfl
    rfl

theorem keyword?_ne_newLine (word : String) : Token.Kind.keyword? word ≠ some .newLine := by
  intro h
  unfold Token.Kind.keyword? at h
  repeat' split at h
  · cases h
  · cases h
  · cases h
  · cases ho : Mnemonic.ofName? word <;> cases hr : Register.ofName? word <;> simp [ho, hr] at h

/-- The item that is a new line is the one that starts with a line break. -/
theorem newLine_iff_of_splitItem {line : Nat} {c : Char} {cs : List Char} {t : Token}
    (h : (splitItem line c cs).1 = .ok t) : t.kind = .newLine ↔ c = '\n' := by
  unfold splitItem at h
  split at h
  · rename_i kind hk
    cases h
    rw [← single?_eq_newLine, hk, Option.some.injEq]
  · rename_i hk
    have hc : c ≠ '\n' := by rintro rfl; cases hk
    rw [iff_false_right hc]
    split at h
    · cases h; simp
    · split at h
      · cases h; simp
      · split at h
        · unfold wordItem at h
          dsimp only at h
          split at h
          · rename_i kind hkind
            cases h
            rintro rfl
            exact keyword?_ne_newLine _ hkind
          · split at h
            · cases h
            · cases h; simp
        · cases h

/-- Whether a line starts behind an item: an error leaves that open. -/
def startsBehind (start : Bool) : Except LexError Token → Bool
  | .error _ => start
  | .ok t => t.kind == .newLine

/-- The first item of a text, and the text behind it, which is a line further down if the
item is a line break. -/
theorem items_of_skipGap_cons {start : Bool} {line : Nat} {text : List Char} {c : Char}
    {cs : List Char} (h : skipGap start false text = c :: cs) :
    (Scanner.mk text line start false).items = (splitItem line c cs).1 ::
      (Scanner.mk (splitItem line c cs).2 (if c = '\n' then line + 1 else line)
        (startsBehind start (splitItem line c cs).1) false).items := by
  rw [items_of_skipGap (s := ⟨text, line, start, false⟩) h]
  cases hi : (splitItem line c cs).1 with
  | error e =>
    have hc : c ≠ '\n' := by rintro rfl; cases hi
    simp only [passed, startsBehind, hc, if_false]
  | ok t => simp only [passed, startsBehind, newLine_iff_of_splitItem hi]

theorem length_of_skipGap_cons {start : Bool} {text : List Char} {c : Char} {cs : List Char}
    (h : skipGap start false text = c :: cs) (line : Nat) :
    (splitItem line c cs).2.length < text.length := by
  have hgap := length_skipGap start false text
  have hitem := length_splitItem line c cs
  rw [h, List.length_cons] at hgap
  omega

/-- The line breaks of a text are its first item, if that is one, and those behind it. -/
theorem count_of_skipGap_cons {start : Bool} {text : List Char} {c : Char} {cs : List Char}
    (h : skipGap start false text = c :: cs) (line : Nat) :
    text.count '\n' = (splitItem line c cs).2.count '\n' + if c = '\n' then 1 else 0 := by
  rw [count_splitItem, ← count_skipGap start false text, h, List.count_cons]
  simp

theorem count_of_skipGap_nil {start : Bool} {text : List Char}
    (h : skipGap start false text = []) : text.count '\n' = 0 := by
  rw [← count_skipGap start false, h]
  rfl

/-- The text behind the first item ends on the line that the whole text ends on. -/
theorem line_of_skipGap_cons {start : Bool} {text : List Char} {c : Char} {cs : List Char}
    (h : skipGap start false text = c :: cs) (line : Nat) :
    (if c = '\n' then line + 1 else line) + (splitItem line c cs).2.count '\n' =
      line + text.count '\n' := by
  rw [count_of_skipGap_cons h line]
  split <;> omega

/-! ## Other lines -/

def mapItem (f : Nat → Nat) (item : Except LexError Token) : Except LexError Token :=
  (item.map (Token.mapLine f)).mapError (LexError.mapLine f)

theorem splitItem_mapLine (f : Nat → Nat) (line : Nat) (c : Char) (cs : List Char) :
    splitItem (f line) c cs = (mapItem f (splitItem line c cs).1, (splitItem line c cs).2) := by
  have word (w : String) (directive : Bool) :
      wordItem (f line) w directive = mapItem f (wordItem line w directive) := by
    unfold wordItem
    split
    · rfl
    · split <;> rfl
  unfold splitItem
  split
  · rfl
  · split
    · rfl
    · split
      · rfl
      · split
        · rw [word]
        · rfl

theorem startsBehind_mapItem (f : Nat → Nat) (start : Bool) (item : Except LexError Token) :
    startsBehind start (mapItem f item) = startsBehind start item := by
  cases item <;> rfl

/-- Lines that are numbered differently, but still one after another as far as the text
goes, show in the items only. -/
theorem items_mapLine {f : Nat → Nat} (text : List Char) (line : Nat) (start : Bool)
    (h : ∀ n, line ≤ n → n < line + text.count '\n' → f (n + 1) = f n + 1) :
    (Scanner.mk text (f line) start false).items =
      (Scanner.mk text line start false).items.map (mapItem f) := by
  induction hn : text.length using Nat.strongRecOn generalizing text line start with
  | ind n ih =>
    cases hg : skipGap start false text with
    | nil => rw [items_of_skipGap_nil rfl hg, items_of_skipGap_nil rfl hg]; rfl
    | cons c cs =>
      have hcount := count_of_skipGap_cons hg line
      rw [items_of_skipGap_cons hg, items_of_skipGap_cons hg, List.map_cons, splitItem_mapLine,
        startsBehind_mapItem, ← ih _ (hn ▸ length_of_skipGap_cons hg line) _ _ _ ?_ rfl]
      · by_cases hc : c = '\n'
        · simp only [hc, if_true] at hcount ⊢
          rw [h line (by omega) (by omega)]
        · simp only [hc, if_false]
      · intro m hm hlt
        split at hm
        · simp only [*, if_true] at hcount hlt
          exact h m (by omega) (by omega)
        · simp only [*, if_false] at hcount hlt
          exact h m (by omega) (by omega)

/-! ## In front of a line break and behind it -/

theorem skipGap_append_newLine (start inComment : Bool) (init rest : List Char) :
    skipGap start inComment (init ++ '\n' :: rest) = skipGap start inComment init ++ '\n' :: rest := by
  induction init generalizing inComment with
  | nil => simp [skipGap, isBlank]
  | cons c cs ih =>
    simp only [List.cons_append, skipGap, ih]
    repeat' split
    all_goals rfl

theorem items_ne_nil (text : List Char) (line : Nat) (start : Bool) :
    (Scanner.mk text line start false).items ≠ [] := by
  cases hg : skipGap start false text with
  | nil => simp [items_of_skipGap_nil (s := ⟨text, line, start, false⟩) rfl hg]
  | cons c cs => simp [items_of_skipGap_cons hg]

/-- In front of a line break stand the items of the text there, without its end, and
behind it those of the text behind it. -/
theorem items_append_newLine (init rest : List Char) (line : Nat) (start : Bool) :
    (Scanner.mk (init ++ '\n' :: rest) line start false).items =
      (Scanner.mk init line start false).items.dropLast ++
        .ok ⟨.newLine, "\n", line + init.count '\n'⟩ ::
          (Scanner.mk rest (line + init.count '\n' + 1) true false).items := by
  induction hn : init.length using Nat.strongRecOn generalizing init line start with
  | ind n ih =>
    have hg' := skipGap_append_newLine start false init rest
    cases hg : skipGap start false init with
    | nil =>
      rw [hg] at hg'
      rw [items_of_skipGap_cons hg', items_of_skipGap_nil (s := ⟨init, line, start, false⟩) rfl hg,
        count_of_skipGap_nil hg]
      rfl
    | cons c cs =>
      have hjoin : ∀ d ∈ ('\n' :: rest).head?, joins c d = false := by
        rintro d ⟨⟩
        exact joins_newLine c
      rw [hg, List.cons_append] at hg'
      rw [items_of_skipGap_cons hg', splitItem_append line hjoin,
        ih _ (hn ▸ length_of_skipGap_cons hg line) _ _ _ rfl, items_of_skipGap_cons hg,
        List.dropLast_cons_of_ne_nil (items_ne_nil _ _ _), List.cons_append,
        line_of_skipGap_cons hg]

/-! ## Blank lines -/

/-- Inside a line, blanks and carriage returns with a comment behind them are one gap. -/
theorem skipGap_eq_nil {gap comment : List Char}
    (hgap : ∀ c ∈ gap, c = ' ' ∨ c = '\t' ∨ c = '\r')
    (hcomment : comment = [] ∨ ∃ cs, comment = ';' :: cs ∧ '\n' ∉ cs) :
    skipGap false false (gap ++ comment) = [] := by
  have hskip (cs : List Char) (h : '\n' ∉ cs) : skipGap false true cs = [] := by
    induction cs with
    | nil => rfl
    | cons c cs ih =>
      rw [List.mem_cons, not_or] at h
      simp [skipGap, Ne.symm h.1, ih h.2]
  induction gap with
  | nil =>
    rcases hcomment with rfl | ⟨cs, rfl, hcs⟩
    · rfl
    · exact hskip cs hcs
  | cons c gap ih =>
    rw [List.forall_mem_cons] at hgap
    obtain ⟨rfl | rfl | rfl, hgap⟩ := hgap
    all_goals exact ih hgap

theorem skipGap_dropWhile {cs : List Char} (h : skipGap false false cs = []) :
    skipGap false false (cs.dropWhile isBlank) = [] := by
  induction cs with
  | nil => rfl
  | cons c cs ih =>
    by_cases hb : isBlank c = true
    · rw [List.dropWhile_cons_of_pos hb]
      simp only [isBlank, Bool.or_eq_true, beq_iff_eq] at hb
      rcases hb with rfl | rfl
      all_goals exact ih h
    · rwa [List.dropWhile_cons_of_neg hb]

/-- What would be a gap inside a line has at most an indent in it at the start of one. -/
theorem skipGap_lineStart {inComment : Bool} {cs : List Char}
    (h : skipGap false inComment cs = []) :
    skipGap true inComment cs = [] ∨ ∃ c rest, skipGap true inComment cs = c :: rest ∧
      isBlank c = true ∧ skipGap false false rest = [] := by
  fun_induction skipGap true inComment cs with
  | case1 => exact Or.inl rfl
  | case2 b c cs hc ih => exact ih (by simpa [skipGap, hc] using h)
  | case3 b c cs h1 hc ih => exact ih (by simpa [skipGap, h1, hc] using h)
  | case4 b c cs h1 h2 hc ih => exact ih (by simpa [skipGap, h1, h2, hc] using h)
  | case5 b c cs h1 h2 h3 hc => simp at hc
  | case6 b c cs h1 h2 h3 h4 =>
    by_cases hb : isBlank c = true
    · exact Or.inr ⟨c, cs, rfl, hb, by simpa [skipGap, h1, h2, h3, hb] using h⟩
    · simp [skipGap, h1, h2, h3, hb] at h

inductive BlankLine : List Token → Prop where
  | newLine {n : Token} (kind : n.kind = .newLine) : BlankLine [n]
  | indent {i n : Token} (indent : i.kind = .indent) (kind : n.kind = .newLine) : BlankLine [i, n]

/-- A text that would be a gap inside a line is scanned to a blank line, at the start of one. -/
theorem items_of_blank {text : List Char} (h : skipGap false false text = []) (rest : List Char)
    (line : Nat) : ∃ blank, BlankLine blank ∧
      (Scanner.mk (text ++ '\n' :: rest) line true false).items =
        blank.map .ok ++ (Scanner.mk rest (line + 1) true false).items := by
  rw [items_append_newLine, count_of_skipGap_nil h]
  rcases skipGap_lineStart h with hnil | ⟨c, cs, hcons, hb, hcs⟩
  · rw [items_of_skipGap_nil (s := ⟨text, line, true, false⟩) rfl hnil]
    exact ⟨[⟨.newLine, "\n", line⟩], .newLine rfl, rfl⟩
  · have hs : single? c = none := by
      simp only [isBlank, Bool.or_eq_true, beq_iff_eq] at hb
      rcases hb with rfl | rfl <;> rfl
    have hitem : splitItem line c cs =
        (.ok ⟨.indent, String.ofList (c :: cs.takeWhile isBlank), line⟩, cs.dropWhile isBlank) := by
      simp only [splitItem, hs, hb, if_true]
    rw [items_of_skipGap_cons hcons, hitem, items_of_skipGap_nil rfl (skipGap_dropWhile hcs)]
    exact ⟨[⟨.indent, _, line⟩, ⟨.newLine, "\n", line⟩], .indent rfl rfl, rfl⟩

/-! ## Tokens -/

theorem mapM_append (xs ys : List (Except LexError Token)) :
    (xs ++ ys).mapM id = xs.mapM id >>= fun ts => ys.mapM id >>= fun us => .ok (ts ++ us) :=
  List.mapM_append

theorem mapM_mapItem (f : Nat → Nat) (items : List (Except LexError Token)) :
    (items.map (mapItem f)).mapM id =
      ((items.mapM id).map (List.map (Token.mapLine f))).mapError (LexError.mapLine f) := by
  induction items with
  | nil => rfl
  | cons item items ih =>
    rw [List.map_cons, List.mapM_cons, List.mapM_cons, ih]
    cases item with
    | error e => rfl
    | ok t => cases items.mapM id <;> rfl

/-- The last item is the end of the text, on its last line, and no other item is an end. -/
theorem items_eq_concat_eof (text : List Char) (line : Nat) (start : Bool) :
    ∃ init, (Scanner.mk text line start false).items =
      init ++ [.ok ⟨.eof, "", line + text.count '\n'⟩] ∧ ∀ t, .ok t ∈ init → t.kind ≠ .eof := by
  induction hn : text.length using Nat.strongRecOn generalizing text line start with
  | ind n ih =>
    cases hg : skipGap start false text with
    | nil =>
      refine ⟨[], ?_, by simp⟩
      rw [items_of_skipGap_nil rfl hg, count_of_skipGap_nil hg]
      rfl
    | cons c cs =>
      obtain ⟨init, hinit, hne⟩ := ih _ (hn ▸ length_of_skipGap_cons hg line) _
        (if c = '\n' then line + 1 else line) (startsBehind start (splitItem line c cs).1) rfl
      rw [line_of_skipGap_cons hg] at hinit
      refine ⟨(splitItem line c cs).1 :: init, ?_, ?_⟩
      · rw [items_of_skipGap_cons hg, hinit]
        rfl
      · intro t ht
        rcases List.mem_cons.1 ht with ht | ht
        · exact (kind_splitItem ht.symm).1
        · exact hne t ht

end Scanner

def lastLine (text : String) : Nat := 1 + text.toList.count '\n'

/-- Two texts with a line break between them are scanned one by one: the error of the first
comes before any of the second, and what is scanned from the second is moved down by the lines
of the first. The line break takes the place of the end of the first. -/
theorem scan_append_newLine (front back : String) :
    match scan front, scan back with
    | .error e, _ => scan (front ++ "\n" ++ back) = .error e
    | .ok _, .error e =>
      scan (front ++ "\n" ++ back) = .error (e.mapLine (· + lastLine front))
    | .ok ts, .ok us => ∃ init, ts = init ++ [⟨.eof, "", lastLine front⟩] ∧
      scan (front ++ "\n" ++ back) =
        .ok (init ++ ⟨.newLine, "\n", lastLine front⟩ ::
          us.map (Token.mapLine (· + lastLine front))) := by
  obtain ⟨init, hfront, -⟩ := Scanner.items_eq_concat_eof front.toList 1 true
  have hback : (Scanner.mk back.toList (1 + front.toList.count '\n' + 1) true false).items =
      (Scanner.ofText back).items.map (Scanner.mapItem (· + lastLine front)) := by
    rw [Nat.add_comm _ 1]
    exact Scanner.items_mapLine (f := (· + lastLine front)) back.toList 1 true
      fun n _ _ => Nat.add_right_comm n 1 _
  have hitems : (Scanner.ofText (front ++ "\n" ++ back)).items =
      init ++ .ok ⟨.newLine, "\n", lastLine front⟩ ::
        (Scanner.ofText back).items.map (Scanner.mapItem (· + lastLine front)) := by
    have htexts : (front ++ "\n" ++ back).toList = front.toList ++ '\n' :: back.toList := by simp
    rw [Scanner.ofText, htexts, Scanner.items_append_newLine, hback, hfront,
      List.dropLast_concat, lastLine]
  have hofText : (Scanner.ofText front).items = init ++ [.ok ⟨.eof, "", lastLine front⟩] := hfront
  simp only [scan, hofText, hitems, Scanner.mapM_append, List.mapM_cons, Scanner.mapM_mapItem]
  cases init.mapM id with
  | error e => rfl
  | ok ts =>
    cases (Scanner.ofText back).items.mapM id with
    | error e => rfl
    | ok us => exact ⟨ts, rfl, rfl⟩

/-- A line without code: blanks and carriage returns, and then a comment, if there is one. -/
def IsBlankLine (line : String) : Prop :=
  ∃ gap comment, line.toList = gap ++ comment ∧ (∀ c ∈ gap, c = ' ' ∨ c = '\t' ∨ c = '\r') ∧
    (comment = [] ∨ ∃ cs, comment = ';' :: cs ∧ '\n' ∉ cs)

/-- Where a line goes when another one is put in behind the first `k`. -/
def movedDown (k line : Nat) : Nat := if k < line then line + 1 else line

theorem movedDown_of_le {k line : Nat} (h : line ≤ k) : movedDown k line = line :=
  if_neg (Nat.not_lt.2 h)

theorem movedDown_of_lt {k line : Nat} (h : k < line) : movedDown k line = line + 1 :=
  if_pos h

namespace Scanner

/-- What stands behind the first `k` lines moves down by one. -/
theorem items_behind_blank {text : List Char} (h : skipGap false false text = [])
    (rest : List Char) (k : Nat) : ∃ blank, BlankLine blank ∧
      (Scanner.mk (text ++ '\n' :: rest) (k + 1) true false).items = blank.map .ok ++
        (Scanner.mk rest (k + 1) true false).items.map (mapItem (movedDown k)) := by
  obtain ⟨blank, hblank, hitems⟩ := items_of_blank h rest (k + 1)
  refine ⟨blank, hblank, ?_⟩
  rw [hitems, ← items_mapLine]
  · rw [movedDown_of_lt (Nat.lt_succ_self k)]
  · intro n hn _
    rw [movedDown_of_lt (by omega), movedDown_of_lt (by omega)]

/-- What stands in the first lines stays where it is. -/
theorem items_front_of_blank (init : List Char) {k : Nat} (h : 1 + init.count '\n' ≤ k) :
    (Scanner.mk init 1 true false).items.map (mapItem (movedDown k)) =
      (Scanner.mk init 1 true false).items := by
  rw [← items_mapLine]
  · rw [movedDown_of_le (by omega)]
  · intro n _ hlt
    rw [movedDown_of_le (by omega), movedDown_of_le (by omega)]

end Scanner

/-- The items of a text with one more blank line are those of the text, with a blank line
at the start or behind a line break. -/
theorem items_blankLine {head line : String} (tail : String)
    (hhead : head = "" ∨ head.toList.getLast? = some '\n') (hline : IsBlankLine line) :
    ∃ before blank behind, Scanner.BlankLine blank ∧
      (∀ item ∈ before.getLast?, ∃ t, item = .ok t ∧ t.kind = .newLine) ∧
      (Scanner.ofText (head ++ tail)).items = before ++ behind ∧
      (Scanner.ofText (head ++ line ++ "\n" ++ tail)).items =
        before.map (Scanner.mapItem (movedDown (head.toList.count '\n'))) ++
          (blank.map .ok ++ behind.map (Scanner.mapItem (movedDown (head.toList.count '\n')))) := by
  obtain ⟨gap, comment, htext, hgap, hcomment⟩ := hline
  have hskip : Scanner.skipGap false false line.toList = [] :=
    htext ▸ Scanner.skipGap_eq_nil hgap hcomment
  rcases hhead with rfl | hlast
  · obtain ⟨blank, hblank, hitems⟩ := Scanner.items_behind_blank hskip tail.toList 0
    refine ⟨[], blank, (Scanner.mk tail.toList 1 true false).items, hblank, by simp, ?_, ?_⟩
    · simp [Scanner.ofText]
    · simpa [Scanner.ofText] using hitems
  · obtain ⟨init, hinit⟩ := List.getLast?_eq_some_iff.1 hlast
    have hk : head.toList.count '\n' = init.count '\n' + 1 := by simp [hinit]
    obtain ⟨blank, hblank, hitems⟩ :=
      Scanner.items_behind_blank hskip tail.toList (init.count '\n' + 1)
    have hfront := Scanner.items_front_of_blank init (k := init.count '\n' + 1) (by omega)
    refine ⟨(Scanner.mk init 1 true false).items.dropLast ++
      [.ok ⟨.newLine, "\n", 1 + init.count '\n'⟩], blank,
      (Scanner.mk tail.toList (init.count '\n' + 1 + 1) true false).items, hblank, ?_, ?_, ?_⟩
    · simp
    · simp [Scanner.ofText, hinit, Scanner.items_append_newLine, Nat.add_comm 1]
    · have htexts : (head ++ line ++ "\n" ++ tail).toList =
          init ++ '\n' :: (line.toList ++ '\n' :: tail.toList) := by simp [hinit]
      rw [Scanner.ofText, htexts, Scanner.items_append_newLine, hk, List.map_append,
        List.map_dropLast, hfront, Nat.add_comm 1, hitems]
      simp [Scanner.mapItem, Except.map, Except.mapError, Token.mapLine, movedDown]

/-- One more blank line, at the start of a text or behind a line break, puts the tokens of
a blank line in there, and moves what stands behind down a line, the error included. -/
theorem scan_blankLine {head line : String} (tail : String)
    (hhead : head = "" ∨ head.toList.getLast? = some '\n') (hline : IsBlankLine line) :
    (∃ e, scan (head ++ tail) = .error e ∧ scan (head ++ line ++ "\n" ++ tail) =
      .error (e.mapLine (movedDown (head.toList.count '\n')))) ∨
    ∃ before blank behind, Scanner.BlankLine blank ∧
      (∀ t ∈ before.getLast?, t.kind = .newLine) ∧
      scan (head ++ tail) = .ok (before ++ behind) ∧
      scan (head ++ line ++ "\n" ++ tail) =
        .ok (before.map (Token.mapLine (movedDown (head.toList.count '\n'))) ++
          (blank ++ behind.map (Token.mapLine (movedDown (head.toList.count '\n'))))) := by
  obtain ⟨before, blank, behind, hblank, hbreak, hitems, hitems'⟩ :=
    items_blankLine tail hhead hline
  simp only [scan, hitems, hitems', Scanner.mapM_append, Scanner.mapM_mapItem,
    Scanner.mapM_map_ok]
  cases hb : before.mapM id with
  | error e => exact Or.inl ⟨e, rfl, rfl⟩
  | ok ts =>
    cases hr : behind.mapM id with
    | error e => exact Or.inl ⟨e, rfl, rfl⟩
    | ok us =>
      refine Or.inr ⟨ts, blank, us, hblank, fun t ht => ?_, rfl, rfl⟩
      obtain ⟨u, hu, hkind⟩ := hbreak (.ok t) (by
        rw [Scanner.eq_map_ok_of_mapM hb, List.getLast?_map, ht]; rfl)
      cases hu
      exact hkind

end IndentAsm
