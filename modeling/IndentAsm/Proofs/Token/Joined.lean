import IndentAsm.Proofs.Token.Pieces

/-!
# The text of some tokens

Tokens are put together to a text by writing one behind the other, with a space between two
of them inside a line (`Token.join`). A space at the start of a line would be an indent, and
one behind an indent would belong to it, so neither is written. The text has no comments, no
carriage returns and no blanks but these. Still it scans to the tokens it was made of, if they
are the tokens of a text.

**Results.**
* `not_joins_behind`: what is written behind a token does not go on with it.
* `written_join`: what is scanned from some place on is written in its joined text.
* `scan_join`: the joined tokens of a text scan to these tokens.
-/
namespace IndentAsm

namespace Token

/-- Whether two neighbours are written with a space between them: both are inside a line, and
the first is not its indent. -/
def apart (t u : Token) : Bool :=
  !t.kind.endsLine && !u.kind.endsLine && t.kind != .indent

def join : List Token → String
  | [] => ""
  | [t] => t.lexeme
  | t :: u :: ts => t.lexeme ++ (if t.apart u then " " else "") ++ join (u :: ts)

theorem toList_join_cons (t u : Token) (ts : List Token) :
    (join (t :: u :: ts)).toList =
      t.lexeme.toList ++ ((if t.apart u then [' '] else []) ++ (join (u :: ts)).toList) := by
  rw [join]
  split <;> simp

theorem toList_join_newLine (line : Nat) (u : Token) (ts : List Token) :
    (join (⟨.newLine, "\n", line⟩ :: u :: ts)).toList = '\n' :: (join (u :: ts)).toList := by
  have hspace : apart ⟨.newLine, "\n", line⟩ u = false := rfl
  simp [toList_join_cons, hspace]

/-- A text starts with that of its first token. -/
theorem head_join {u : Token} {c : Char} {cs : List Char} (h : u.lexeme.toList = c :: cs)
    (ts : List Token) : (join (u :: ts)).toList.head? = some c := by
  cases ts with
  | nil => rw [join, h]; rfl
  | cons v ts => rw [toList_join_cons, h]; rfl

end Token

namespace Scanner

open Token (join)

/-! ## Neighbours -/

/-- What the first character of a lexeme says of its kind. -/
theorem IsLexeme.kind_iff {kind : Token.Kind} {c : Char} {cs : List Char}
    (h : IsLexeme kind (c :: cs)) :
    kind ≠ .eof ∧ (kind = .indent ↔ isBlank c = true) ∧ (kind = .newLine ↔ c = '\n') := by
  have hblank := h.head.2.2
  obtain ⟨_, _, heq, hitem⟩ := h
  cases heq
  have hok := congrArg Prod.fst (hitem 0)
  obtain ⟨heof, hindent⟩ := kind_splitItem hok
  exact ⟨heof, ⟨hindent, hblank⟩, newLine_iff_of_splitItem hok⟩

/-- The first of some tokens that are written: the end, or the text of an item, which is no
indent inside a line. -/
theorem Written.head {start : Bool} {line : Nat} {cs : List Char} {us : List Token}
    (h : Written start line cs us) : ∀ u ∈ us.head?,
      (us = [u] ∧ u.lexeme = "") ∨
        (IsLexeme u.kind u.lexeme.toList ∧ (u.kind = .indent → start = true)) := by
  intro u hu
  induction h with
  | eof start line =>
    cases hu
    exact Or.inl ⟨rfl, rfl⟩
  | space rest ih => exact ih hu
  | @newLine start line cs ts rest ih =>
    cases hu
    have hitem : (splitItem line '\n' cs).1 = .ok ⟨.newLine, "\n", line⟩ := rfl
    exact Or.inr ⟨isLexeme_of_splitItem hitem, by simp⟩
  | token lexeme inLine indent apart behind ih =>
    cases hu
    exact Or.inr ⟨lexeme, indent⟩

/-- What is written behind a token does not go on with it. -/
theorem not_joins_behind {line : Nat} {t u : Token} {ts : List Token}
    (ht : IsLexeme t.kind t.lexeme.toList) (hline : t.kind ≠ .newLine)
    (hu : Written false line (join (u :: ts)).toList (u :: ts)) :
    ∀ c ∈ t.lexeme.toList.head?,
      ∀ d ∈ ((if t.apart u then [' '] else []) ++ (join (u :: ts)).toList).head?,
        joins c d = false := by
  intro c hc d hd
  by_cases hspace : t.apart u = true
  · -- a space ends every token but an indent
    have hindent : t.kind ≠ .indent := by
      simp only [Token.apart, Bool.and_eq_true, bne_iff_ne] at hspace
      exact hspace.2
    simp only [hspace, if_true, List.singleton_append, List.head?_cons, Option.mem_def,
      Option.some.injEq] at hd
    exact hd ▸ ht.not_joins hindent rfl c hc
  · simp only [hspace, Bool.false_eq_true, if_false, List.nil_append] at hd
    obtain ⟨cs, hcs⟩ := List.head?_eq_some_iff.1 hc
    rw [hcs] at ht
    obtain ⟨heof, htindent, -⟩ := ht.kind_iff
    rcases hu.head u rfl with ⟨hus, hlex⟩ | ⟨hlex, hindent⟩
    · cases hus
      simp [join, hlex] at hd
    · obtain ⟨e, es, hes⟩ : ∃ e es, u.lexeme.toList = e :: es := by
        obtain ⟨e, es, hes, -⟩ := hlex
        exact ⟨e, es, hes⟩
      rw [Token.head_join hes] at hd
      cases hd
      rw [hes] at hlex
      obtain ⟨hueof, huindent, hunewLine⟩ := hlex.kind_iff
      -- without a space, the second ends the line or the first is the indent
      have hcase : u.kind = .newLine ∨ t.kind = .indent := by
        by_contra hnot
        rw [not_or] at hnot
        refine hspace ?_
        simp only [Token.apart, Token.Kind.not_endsLine_iff.2 ⟨hline, heof⟩,
          Token.Kind.not_endsLine_iff.2 ⟨hnot.1, hueof⟩, bne_iff_ne.2 hnot.2]
        rfl
      rcases hcase with hnewLine | hfirst
      · rw [hunewLine.1 hnewLine]
        exact joins_newLine c
      · have hblank : isBlank d = false := by
          rw [← Bool.not_eq_true]
          intro hb
          cases hindent (huindent.2 hb)
        simp [joins, htindent.1 hfirst, hblank]

/-! ## Scanned tokens -/

/-- Some token is scanned from every place on, the end token if no other. -/
theorem exists_cons_of_items {text : List Char} {line : Nat} {start : Bool} {tokens : List Token}
    (h : (Scanner.mk text line start false).items.mapM id = .ok tokens) :
    ∃ u us, tokens = u :: us := by
  refine List.exists_cons_of_ne_nil ?_
  rintro rfl
  exact items_ne_nil text line start (eq_map_ok_of_mapM h)

/-- What is scanned from some place on is written in its joined text, from the same place. -/
theorem written_join {text : List Char} {line : Nat} {start : Bool} {tokens : List Token}
    (h : (Scanner.mk text line start false).items.mapM id = .ok tokens) :
    Written start line (join tokens).toList tokens := by
  induction hn : text.length using Nat.strongRecOn generalizing text line start tokens with
  | ind n ih =>
    cases hskip : skipGap start false text with
    | nil =>
      rw [items_of_skipGap_nil rfl hskip] at h
      cases h
      exact .eof start line
    | cons c cs =>
      rw [items_of_skipGap_cons hskip] at h
      obtain ⟨t, ts, hitem, hts, rfl⟩ := mapM_cons_eq_ok h
      obtain ⟨u, us, rfl⟩ := exists_cons_of_items hts
      have hbehind := ih _ (hn ▸ length_of_skipGap_cons hskip line) hts rfl
      have hlex := isLexeme_of_splitItem hitem
      rw [hitem, startsBehind] at hbehind
      by_cases hc : c = '\n'
      · subst hc
        obtain rfl : ⟨.newLine, "\n", line⟩ = t := Except.ok.inj hitem
        rw [Token.toList_join_newLine]
        exact .newLine hbehind
      · have hne : t.kind ≠ .newLine := mt (newLine_iff_of_splitItem hitem).1 hc
        have hline : t.line = line := by
          have hitemLine := itemLine_splitItem line c cs
          rwa [hitem] at hitemLine
        subst hline
        rw [if_neg hc, beq_eq_false_iff_ne.2 hne] at hbehind
        rw [Token.toList_join_cons]
        refine .token hlex hne (fun hi => ?_) (not_joins_behind hlex hne hbehind) ?_
        · -- inside a line, blanks are part of the gap
          have hblank := (kind_splitItem hitem).2 hi
          rw [← Bool.not_eq_false]
          rintro rfl
          rw [skipGap_not_blank hskip] at hblank
          cases hblank
        · split
          · exact .space hbehind
          · exact hbehind

end Scanner

/-- The tokens of a text, joined, scan to the same tokens. -/
theorem scan_join {text : String} {tokens : List Token} (h : scan text = .ok tokens) :
    scan (Token.join tokens) = .ok tokens :=
  scan_of_written (Scanner.written_join h)

/-- Tokens of every sort with nothing between them, numbers without a value and a directive
that ends where the next one starts among them. -/
def crowded : String :=
  " \t;note\r\nlo:0b102Z,0x_g@macro@include(NextAddr)7_LDA \r 0XfgA;\n\n\tHLT\t "

def joinedCrowd : String :=
  " \t\nlo : 0b102 Z , 0x_ g @macro @include ( NextAddr ) 7_ LDA 0Xf gA\n\n\tHLT"

theorem scan_join_crowded :
    (scan crowded).map Token.join = .ok joinedCrowd ∧ scan joinedCrowd = scan crowded := by
  have hjoin : (scan crowded).map Token.join = .ok joinedCrowd := by decide +kernel
  refine ⟨hjoin, ?_⟩
  cases hscan : scan crowded with
  | error e =>
    rw [hscan] at hjoin
    cases hjoin
  | ok tokens =>
    rw [hscan] at hjoin
    have htext : Token.join tokens = joinedCrowd := Except.ok.inj hjoin
    rw [← htext]
    exact scan_join hscan

end IndentAsm
