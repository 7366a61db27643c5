import IndentAsm.Parse.Block
import IndentAsm.Proofs.Parse.Line

/-!
# Blocks, and the shape of macro bodies

What is skipped and read around line breaks is said here on the plain unread
tokens: `dropBlank` is what skipping blank lines leaves, and a block starts or
goes on exactly where an indent is left at its head.

A body that is kept has the shape of code (`Shaped`): it starts in the middle
of a line, and each of its line breaks is followed by the indent of all blocks
and by a token that ends no line. Putting arguments in place of parameters
keeps this shape, so an expansion can be read like the lines it was taken from.

**Results.**
* `tokens_skipBlankLines`: skipping blank lines is `dropBlank`.
* `blockStart_eq_ok`, `blockContinues_eq_some`, `blockContinues_eq_none`: where
  a block starts, goes on and ends.
* `shaped_definition`: the body of a macro that is defined is shaped.
* `Shaped.expand`: so is every expansion of it.
-/
namespace IndentAsm

namespace Stream

/-- Whether some tokens start in a way that skipping blank lines takes away: by
a new line, or by an indent with nothing behind it on its line. -/
def startsBlank : List Token → Bool
  | [] => false
  | t :: ts => t.kind == .newLine || t.kind == .indent && ts.head?.all (·.kind.endsLine)

/-- The tokens behind empty lines and lines that hold an indent only. -/
def dropBlank : List Token → List Token
  | [] => []
  | t :: ts => if startsBlank (t :: ts) then dropBlank ts else t :: ts

theorem dropBlank_of_startsBlank {t : Token} {ts : List Token}
    (h : startsBlank (t :: ts) = true) : dropBlank (t :: ts) = dropBlank ts := by
  rw [dropBlank, if_pos h]

theorem dropBlank_newLine {t : Token} (h : t.kind = .newLine) (ts : List Token) :
    dropBlank (t :: ts) = dropBlank ts :=
  dropBlank_of_startsBlank (by simp [startsBlank, h])

theorem dropBlank_of_not {ts : List Token} (h : startsBlank ts = false) : dropBlank ts = ts := by
  cases ts with
  | nil => rfl
  | cons t ts => rw [dropBlank, h]; rfl

theorem startsBlank_dropBlank (ts : List Token) : startsBlank (dropBlank ts) = false := by
  induction ts with
  | nil => rfl
  | cons t ts ih =>
    cases h : startsBlank (t :: ts) with
    | true => rw [dropBlank_of_startsBlank h]; exact ih
    | false => rw [dropBlank_of_not h, h]

@[simp] theorem dropBlank_dropBlank (ts : List Token) : dropBlank (dropBlank ts) = dropBlank ts :=
  dropBlank_of_not (startsBlank_dropBlank ts)

/-- An indent that is left has something behind it on its line. -/
theorem not_ends_of_not_startsBlank {i : Token} {ts : List Token} (hi : i.kind = .indent)
    (h : startsBlank (i :: ts) = false) : ∃ t us, ts = t :: us ∧ t.kind.endsLine = false := by
  cases ts with
  | nil => simp [startsBlank, hi] at h
  | cons t us =>
    refine ⟨t, us, rfl, ?_⟩
    simpa [startsBlank, hi] using h

theorem startsBlank_of_not_ends {i t : Token} (ts : List Token) (hi : i.kind = .indent)
    (ht : t.kind.endsLine = false) : startsBlank (i :: t :: ts) = false := by
  simp [startsBlank, hi, ht]

theorem startsBlank_of_kind {t : Token} (ts : List Token) (hn : t.kind ≠ .newLine)
    (hi : t.kind ≠ .indent) : startsBlank (t :: ts) = false := by
  simp [startsBlank, hn, hi]

theorem endsLine_peek (s : Stream) :
    s.peek.kind.endsLine = s.tokens.head?.all (·.kind.endsLine) := by
  cases hts : s.tokens with
  | nil => rw [peek_of_tokens_nil hts, s.eof_kind]; rfl
  | cons t ts => rw [peek_of_tokens hts]; rfl

theorem tokens_skipBlankLines (s : Stream) : s.skipBlankLines.tokens = dropBlank s.tokens := by
  fun_induction skipBlankLines s with
  | case1 s h =>
    have hu : s.tokens = [] := by rw [tokens, next?_eq_none_iff.1 h]; rfl
    rw [hu]; rfl
  | case2 s t u h hk ih =>
    rw [ih, tokens_of_next? h]
    refine (dropBlank_of_startsBlank ?_).symm
    simpa [startsBlank, ← endsLine_peek] using hk
  | case3 s t u h hk =>
    rw [tokens_of_next? h]
    refine (dropBlank_of_not ?_).symm
    simp only [not_or, not_and, Bool.not_eq_true] at hk
    simpa [startsBlank, ← endsLine_peek] using hk

theorem tokens_expect {s s' : Stream} {kind : Token.Kind} {t : Token} (hk : kind ≠ .eof)
    (h : s.expect kind = .ok (t, s')) : s.tokens = t :: s'.tokens ∧ t.kind = kind :=
  ⟨tokens_of_reads (reads_expect hk h), (expect_eq_ok h).2⟩

theorem expect_of_tokens {s : Stream} {t : Token} {ts : List Token} (h : s.tokens = t :: ts) :
    ∃ s', s.expect t.kind = .ok (t, s') ∧ s'.tokens = ts := by
  obtain ⟨u, hu, htu⟩ := next?_of_tokens h
  have hc : s.check t.kind = true := by rw [check, peek_of_tokens h, beq_self_eq_true]
  refine ⟨u, ?_, htu⟩
  rw [expect, if_pos hc, advance, hu]; rfl

end Stream

namespace Parse

open IndentAsm.Stream (Reads ReadsLine dropBlank startsBlank)

/-- An indent passes where none is fixed, or the same one. -/
theorem checkIndent_eq_ok_iff {indent : Option String} {t : Token} :
    checkIndent indent t = .ok () ↔ ∀ i ∈ indent, i = t.lexeme := by
  unfold checkIndent
  cases indent with
  | none => simp
  | some i => by_cases h : i = t.lexeme <;> simp [h]

/-- A block starts where an indent that passes is left by the blank lines. -/
theorem blockStart_eq_ok {indent : Option String} {s s' : Stream} {t : Token}
    (h : blockStart indent s = .ok (t, s')) :
    dropBlank s.tokens = t :: s'.tokens ∧ t.kind = .indent ∧ ∀ i ∈ indent, i = t.lexeme := by
  obtain ⟨⟨t', u⟩, he, h⟩ := bind_eq_ok.1 h
  obtain ⟨⟨⟩, hc, h⟩ := bind_eq_ok.1 h
  cases h
  obtain ⟨htok, hk⟩ := Stream.tokens_expect (by decide) he
  rw [Stream.tokens_skipBlankLines] at htok
  exact ⟨htok, hk, checkIndent_eq_ok_iff.1 hc⟩

theorem blockStart_of_tokens {indent : Option String} {s : Stream} {t : Token} {ts : List Token}
    (h : dropBlank s.tokens = t :: ts) (hk : t.kind = .indent) (hi : ∀ i ∈ indent, i = t.lexeme) :
    ∃ s', blockStart indent s = .ok (t, s') ∧ s'.tokens = ts := by
  rw [← Stream.tokens_skipBlankLines] at h
  obtain ⟨s', he, hs⟩ := Stream.expect_of_tokens h
  rw [hk] at he
  exact ⟨s', bind_eq_ok.2 ⟨(t, s'), he, bind_eq_ok.2 ⟨(), checkIndent_eq_ok_iff.2 hi, rfl⟩⟩, hs⟩

/-- A block goes on where an indent that passes is left by the blank lines. -/
theorem blockContinues_eq_some {indent : Option String} {s s' : Stream} {i : Token}
    (h : blockContinues indent s = .ok (some i, s')) :
    dropBlank s.tokens = i :: s'.tokens ∧ i.kind = .indent ∧ ∀ j ∈ indent, j = i.lexeme := by
  unfold blockContinues at h
  dsimp only at h
  split at h
  · rename_i hc
    obtain ⟨⟨⟩, hi, h⟩ := bind_eq_ok.1 h
    cases h
    have hk : s.skipBlankLines.peek.kind = .indent := by simpa [Stream.check] using hc
    have hn := (Stream.next?_of_not_ends (s := s.skipBlankLines) (by rw [hk]; rfl)).1
    rw [← Stream.tokens_skipBlankLines]
    exact ⟨Stream.tokens_of_next? hn, hk, checkIndent_eq_ok_iff.1 hi⟩
  · cases h

/-- It ends where something else is left. -/
theorem blockContinues_eq_none {indent : Option String} {s s' : Stream}
    (h : blockContinues indent s = .ok (none, s')) :
    s'.tokens = dropBlank s.tokens ∧ ∀ t ∈ s'.tokens.head?, t.kind ≠ .indent := by
  unfold blockContinues at h
  dsimp only at h
  split at h
  · obtain ⟨⟨⟩, -, h⟩ := bind_eq_ok.1 h
    cases h
  · rename_i hc
    cases h
    refine ⟨Stream.tokens_skipBlankLines s, fun t ht hk => hc ?_⟩
    obtain ⟨ts, hts⟩ := List.head?_eq_some_iff.1 ht
    rw [Stream.check, Stream.peek_of_tokens hts, hk]; rfl

theorem blockContinues_of_indent {indent : Option String} {s : Stream} {i : Token}
    {ts : List Token} (h : dropBlank s.tokens = i :: ts) (hk : i.kind = .indent)
    (hi : ∀ j ∈ indent, j = i.lexeme) :
    ∃ s', blockContinues indent s = .ok (some i, s') ∧ s'.tokens = ts := by
  rw [← Stream.tokens_skipBlankLines] at h
  have hp := Stream.peek_of_tokens h
  have hn := Stream.next?_of_not_ends (s := s.skipBlankLines) (by rw [hp, hk]; rfl)
  have ht := Stream.tokens_of_next? hn.1
  rw [h, List.cons.injEq] at ht
  refine ⟨s.skipBlankLines.advance.2, ?_, ht.2.symm⟩
  unfold blockContinues
  have hc : s.skipBlankLines.check .indent = true := by rw [Stream.check, hp, hk]; rfl
  simp only [hc, if_true, hp]
  exact bind_eq_ok.2 ⟨(), checkIndent_eq_ok_iff.2 hi, rfl⟩

theorem blockContinues_of_not_indent (indent : Option String) {s : Stream}
    (h : ∀ t ∈ (dropBlank s.tokens).head?, t.kind ≠ .indent) :
    ∃ s', blockContinues indent s = .ok (none, s') ∧ s'.tokens = dropBlank s.tokens := by
  refine ⟨s.skipBlankLines, ?_, Stream.tokens_skipBlankLines s⟩
  have hc : s.skipBlankLines.check .indent = false := by
    rw [← Stream.tokens_skipBlankLines] at h
    rw [Stream.check, beq_eq_false_iff_ne]
    cases hts : s.skipBlankLines.tokens with
    | nil => rw [Stream.peek_of_tokens_nil hts, Stream.eof_kind]; decide
    | cons t ts => rw [Stream.peek_of_tokens hts]; exact h t (by rw [hts]; rfl)
  unfold blockContinues
  simp only [hc, Bool.false_eq_true, if_false]

/-! ## Code of several lines -/

/-- Code that goes on over line breaks: each of them is followed by the indent
of all blocks and by a token that ends no line, and no end token stands in
it. -/
def Lined (indent : Option String) : List Token → Prop
  | [] => True
  | t :: ts =>
    t.kind ≠ .eof ∧
      (t.kind = .newLine → ∃ i u us, ts = i :: u :: us ∧ i.kind = .indent ∧
        indent = some i.lexeme ∧ u.kind.endsLine = false) ∧
      Lined indent ts

/-- Code that starts in the middle of a line. -/
structure Shaped (indent : Option String) (ts : List Token) : Prop where
  lined : Lined indent ts
  starts : ∃ t us, ts = t :: us ∧ t.kind.endsLine = false

/-- An indent that is fixed stays fixed. -/
def Keeps (indent indent' : Option String) : Prop :=
  ∀ i ∈ indent, indent' = some i

theorem Lined.mono {indent indent' : Option String} {ts : List Token} (h : Lined indent ts)
    (hk : Keeps indent indent') : Lined indent' ts := by
  induction ts with
  | nil => trivial
  | cons t ts ih =>
    obtain ⟨he, hn, ht⟩ := h
    refine ⟨he, fun hnl => ?_, ih ht⟩
    obtain ⟨i, u, us, hts, hi, hl, hu⟩ := hn hnl
    exact ⟨i, u, us, hts, hi, hk _ hl, hu⟩

theorem Shaped.mono {indent indent' : Option String} {ts : List Token} (h : Shaped indent ts)
    (hk : Keeps indent indent') : Shaped indent' ts :=
  ⟨h.lined.mono hk, h.starts⟩

theorem Lined.no_eof {indent : Option String} {ts : List Token} (h : Lined indent ts) :
    ∀ t ∈ ts, t.kind ≠ .eof := by
  induction ts with
  | nil => simp
  | cons t ts ih =>
    intro u hu
    rcases List.mem_cons.1 hu with rfl | hu
    · exact h.1
    · exact ih h.2.2 u hu

theorem lined_of_not_ends {indent : Option String} {ts : List Token}
    (h : ∀ t ∈ ts, t.kind.endsLine = false) : Lined indent ts := by
  induction ts with
  | nil => trivial
  | cons t ts ih =>
    obtain ⟨hn, he⟩ := Token.Kind.not_endsLine_iff.1 (h t List.mem_cons_self)
    exact ⟨he, fun hnl => absurd hnl hn, ih fun u hu => h u (List.mem_cons_of_mem _ hu)⟩

/-! ## Bodies that are kept -/

/-- The body on the line of a header is the rest of that line. -/
theorem inlineBody_eq (s : Stream) (body : Array Token) :
    (inlineBody s body).1 = body.toList ++ s.line ∧ ReadsLine s s.line (inlineBody s body).2 := by
  fun_induction inlineBody s body with
  | case1 s body h =>
    have hl : s.line = [] := by rw [Stream.line, Stream.tokens, Stream.next?_eq_none_iff.1 h]; rfl
    rw [hl]
    exact ⟨(List.append_nil _).symm, .refl s⟩
  | case2 s body t u h hk =>
    have hl : s.line = [] := by
      rw [Stream.line, Stream.tokens_of_next? h, Stream.lineOf_cons_of_ends _ hk]
    rw [hl]
    exact ⟨(List.append_nil _).symm, .refl s⟩
  | case3 s body t u h hk ih =>
    have hk' : t.kind.endsLine = false := by simpa using hk
    have hl : s.line = t :: u.line := by
      rw [Stream.line, Stream.tokens_of_next? h, Stream.lineOf_cons_of_not _ hk', Stream.line]
    rw [hl, ih.1]
    refine ⟨by simp, ReadsLine.trans ⟨_, Stream.reads_next? h, rfl, ?_⟩ ih.2⟩
    simpa using hk'

theorem blockBody_shape {indent : String} {s s' : Stream} {body : Array Token} {ts : List Token}
    (h : blockBody (some indent) s body = .ok (ts, s')) :
    ∃ more, ts = body.toList ++ more ∧ Lined (some indent) more ∧
      (s.peek.kind.endsLine = false → Shaped (some indent) more) := by
  -- what follows a line break starts with a token that ends no line, since
  -- blank lines were skipped in front of the indent
  fun_induction blockBody (some indent) s body with
  | case1 s body hn =>
    cases h
    refine ⟨[], by simp, trivial, fun hp => ?_⟩
    rw [Stream.peek_eq, Stream.next?_eq_none_iff.1 hn] at hp
    simp [Stream.eof_kind, Token.Kind.endsLine] at hp
  | case2 s body t u hn hk =>
    cases h
    refine ⟨[], by simp, trivial, fun hp => ?_⟩
    rw [Stream.peek_of_tokens (Stream.tokens_of_next? hn), hk] at hp
    cases hp
  | case3 s body t u hn hk he e hc => cases h
  | case4 s body t u hn hk he v hc =>
    cases h
    refine ⟨[], by simp, trivial, fun hp => ?_⟩
    rw [Stream.peek_of_tokens (Stream.tokens_of_next? hn), he] at hp
    cases hp
  | case5 s body t u hn hk he i v hc ih =>
    obtain ⟨more, rfl, hl, hs⟩ := ih h
    obtain ⟨hb, hi, hlex⟩ := blockContinues_eq_some hc
    have hns := Stream.startsBlank_dropBlank u.tokens
    rw [hb] at hns
    obtain ⟨x, xs, hx, hxe⟩ := Stream.not_ends_of_not_startsBlank hi hns
    obtain ⟨y, ys, rfl, hye⟩ := (hs (by rw [Stream.peek_of_tokens hx]; exact hxe)).starts
    refine ⟨t :: i :: y :: ys, by simp, ⟨hk, fun _ => ⟨i, y, ys, rfl, hi, ?_, hye⟩, ?_, ?_, hl⟩,
      fun hp => ?_⟩
    · rw [hlex indent rfl]
    · simp [hi]
    · simp [hi]
    · rw [Stream.peek_of_tokens (Stream.tokens_of_next? hn), he] at hp
      cases hp
  | case6 s body t u hn hk he ih =>
    obtain ⟨more, rfl, hl, -⟩ := ih h
    have hlt : Lined (some indent) (t :: more) := ⟨hk, fun hnl => absurd hnl he, hl⟩
    have hte := Token.Kind.not_endsLine_iff.2 ⟨he, hk⟩
    exact ⟨t :: more, by simp, hlt, fun _ => ⟨hlt, t, more, rfl, hte⟩⟩

theorem shaped_macroBody {indent indent' : Option String} {s s' : Stream} {body : List Token}
    (h : macroBody indent s = .ok ((body, indent'), s')) :
    Shaped indent' body ∧ Keeps indent indent' := by
  unfold macroBody at h
  split at h
  · obtain ⟨⟨t, u⟩, ht, h⟩ := bind_eq_ok.1 h
    obtain ⟨⟨ts, v⟩, hb, h⟩ := bind_eq_ok.1 h
    cases h
    obtain ⟨hd, hk, hi⟩ := blockStart_eq_ok ht
    have hns := Stream.startsBlank_dropBlank s.tokens
    rw [hd] at hns
    obtain ⟨x, xs, hx, hxe⟩ := Stream.not_ends_of_not_startsBlank hk hns
    obtain ⟨more, rfl, -, hs⟩ := blockBody_shape hb
    refine ⟨by simpa using hs (by rw [Stream.peek_of_tokens hx]; exact hxe), fun i hm => ?_⟩
    rw [hi i hm]
  · rename_i hp
    cases h
    have hp' : s.peek.kind.endsLine = false := by simpa using hp
    rw [(inlineBody_eq s #[]).1]
    refine ⟨⟨?_, ?_⟩, fun i hm => hm⟩
    · exact lined_of_not_ends fun t ht =>
        Stream.not_ends_of_mem_lineOf (by simpa [Stream.line] using ht)
    · exact ⟨s.peek, s.advance.2.line, by simp [(Stream.next?_of_not_ends hp').2], hp'⟩

/-- The body of a macro that is defined is shaped, and an indent that was fixed
before it is still the same. -/
theorem shaped_definition {indent indent' : Option String} {s s' : Stream} {m : Macro}
    (h : definition indent s = .ok ((m, indent'), s')) :
    Shaped indent' m.body ∧ Keeps indent indent' := by
  obtain ⟨⟨t, u⟩, -, h⟩ := bind_eq_ok.1 h
  obtain ⟨⟨name, v⟩, -, h⟩ := bind_eq_ok.1 h
  obtain ⟨⟨params, w⟩, -, h⟩ := bind_eq_ok.1 h
  obtain ⟨⟨c, x⟩, -, h⟩ := bind_eq_ok.1 h
  obtain ⟨⟨⟨body, indent''⟩, y⟩, hb, h⟩ := bind_eq_ok.1 h
  cases h
  exact shaped_macroBody hb

/-! ## Expansions -/

/-- A token of an expansion is the token of the body, or stands for an
identifier and is one of the arguments. -/
theorem argument?_getD (m : Macro) (args : List Token) (t : Token) :
    (m.argument? args t).getD t = t ∨
      t.kind = .identifier ∧ (m.argument? args t).getD t ∈ args := by
  cases h : m.argument? args t with
  | none => exact Or.inl rfl
  | some a =>
    unfold Macro.argument? at h
    split at h
    · rename_i hk
      obtain ⟨i, -, hi⟩ := Option.bind_eq_some_iff.1 h
      exact Or.inr ⟨hk, List.mem_of_getElem? hi⟩
    · cases h

/-- The shape is a matter of line ends and of what is no identifier. -/
theorem Lined.map {indent : Option String} {f : Token → Token} {ts : List Token}
    (h : Lined indent ts) (hends : ∀ t, (f t).kind.endsLine = t.kind.endsLine)
    (hkeep : ∀ t, t.kind ≠ .identifier → f t = t) : Lined indent (ts.map f) := by
  induction ts with
  | nil => trivial
  | cons t ts ih =>
    obtain ⟨he, hn, ht⟩ := h
    by_cases hk : t.kind = .identifier
    · have hf : (f t).kind.endsLine = false := by rw [hends, hk]; rfl
      obtain ⟨hfn, hfe⟩ := Token.Kind.not_endsLine_iff.1 hf
      exact ⟨hfe, fun hnl => absurd hnl hfn, ih ht⟩
    · rw [List.map_cons, hkeep t hk]
      refine ⟨he, fun hnl => ?_, ih ht⟩
      obtain ⟨i, u, us, rfl, hi, hl, hu⟩ := hn hnl
      refine ⟨i, f u, us.map f, ?_, hi, hl, (hends u).trans hu⟩
      rw [List.map_cons, List.map_cons, hkeep i (by simp [hi])]

/-- Arguments that end no line keep the shape. -/
theorem Shaped.expand {indent : Option String} {m : Macro} {args : List Token}
    (h : Shaped indent m.body) (ha : ∀ a ∈ args, a.kind.endsLine = false) :
    Shaped indent (m.expand args) := by
  have hends (t : Token) : ((m.argument? args t).getD t).kind.endsLine = t.kind.endsLine := by
    rcases argument?_getD m args t with he | ⟨hk, hm⟩
    · rw [he]
    · rw [ha _ hm, hk]; rfl
  refine ⟨h.lined.map hends fun t hk => ?_, ?_⟩
  · rcases argument?_getD m args t with he | ⟨hi, -⟩
    · exact he
    · exact absurd hi hk
  · obtain ⟨t, us, hb, ht⟩ := h.starts
    exact ⟨_, _, by rw [Macro.expand, hb, List.map_cons], (hends t).trans ht⟩

end Parse

end IndentAsm
