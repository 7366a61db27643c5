import IndentAsm.Proofs.Token.Lines
import IndentAsm.Token.Stream

/-!
# Streams with blank lines put in

A padded stream is a stream with blank lines put in, and with its lines renumbered. The
blank lines stand where a line of the text starts, which is in front or behind a line
break that is in no expansion. Everywhere else the two streams show the same token, so
they are read alike (`peek`, `advance`), until both are behind such a line break. There
`skipBlankLines` brings them together again, whatever was put in.

**Results.**
* `Stream.Padded.next?_of_some`, `Stream.Padded.advance`: a token is taken from both.
* `Stream.Padded.skipBlankLines`: blank lines that were put in are skipped.
* `Stream.Padded.insert`: an expansion has no room for blank lines.
* `Stream.padded_ofTokens`: the tokens of a text with one more blank line.
-/
namespace IndentAsm

/-- Whether a token is a line break of the text itself, in no expansion. -/
def isBreak (t : Token) (depth : Nat) : Bool := t.kind == .newLine && depth == 0

theorem isBreak_of_ne {t : Token} (h : t.kind ≠ .newLine) (depth : Nat) :
    isBreak t depth = false := by
  simp [isBreak, h]

/-- Tokens, and the same tokens on renumbered lines with blank lines put in. `atBreak`
says that one may stand in front of the first. -/
inductive Padded (f : Nat → Nat) : Bool → List (Token × Nat) → List (Token × Nat) → Prop where
  | nil (atBreak : Bool) : Padded f atBreak [] []
  | token (atBreak : Bool) (t : Token) (depth : Nat) {ts us : List (Token × Nat)}
      (rest : Padded f (isBreak t depth) ts us) :
      Padded f atBreak ((t, depth) :: ts) ((t.mapLine f, depth) :: us)
  | blank {line : List Token} {ts us : List (Token × Nat)} (blank : Scanner.BlankLine line)
      (rest : Padded f true ts us) : Padded f true ts (line.map (fun t => (t, 0)) ++ us)

namespace Padded

variable {f : Nat → Nat} {ts us : List (Token × Nat)}

/-- Inside expansions no blank line is put in. -/
theorem append_deeper (h : Padded f false ts us) (tokens : List Token) (depth : Nat) :
    Padded f false (tokens.map (fun t => (t, depth + 1)) ++ ts)
      ((tokens.map (Token.mapLine f)).map (fun t => (t, depth + 1)) ++ us) := by
  induction tokens with
  | nil => exact h
  | cons t tokens ih =>
    have hb : isBreak t (depth + 1) = false := by simp [isBreak]
    exact .token false t (depth + 1) (hb ▸ ih)

theorem renumbered (f : Nat → Nat) (tokens : List Token) (atBreak : Bool) :
    Padded f atBreak (tokens.map fun t => (t, 0))
      ((tokens.map (Token.mapLine f)).map fun t => (t, 0)) := by
  induction tokens generalizing atBreak with
  | nil => exact .nil atBreak
  | cons t tokens ih => exact .token atBreak t 0 (ih _)

/-- Tokens up to a line break, with others behind them that start with a blank line. -/
theorem append {before : List Token} {atBreak : Bool}
    (hbreak : ∀ t ∈ before.getLast?, t.kind = .newLine) (hstart : before = [] → atBreak = true)
    (h : Padded f true ts us) :
    Padded f atBreak (before.map (fun t => (t, 0)) ++ ts)
      ((before.map (Token.mapLine f)).map (fun t => (t, 0)) ++ us) := by
  induction before generalizing atBreak with
  | nil => exact hstart rfl ▸ h
  | cons t before ih =>
    refine .token atBreak t 0 (ih ?_ ?_)
    · intro u hu
      refine hbreak u ?_
      rw [List.getLast?_cons, hu]
      rfl
    · rintro rfl
      simp [isBreak, hbreak t rfl]

end Padded

namespace Stream

/-- A stream, and the same stream with blank lines put in. -/
structure Padded (f : Nat → Nat) (atBreak : Bool) (s s' : Stream) : Prop where
  unread : IndentAsm.Padded f atBreak s.unread s'.unread
  eof : s'.eof = s.eof.mapLine f
  depth : s'.depth = s.depth
  /-- Only behind a token in no expansion there is room for a blank line. -/
  outer : atBreak = true → s.depth = 0

theorem next?_of_unread {s : Stream} {t : Token} {depth : Nat} {ts : List (Token × Nat)}
    (h : s.unread = (t, depth) :: ts) :
    ∃ u, s.next? = some (t, u) ∧ u.unread = ts ∧ u.depth = depth ∧ u.eof = s.eof := by
  cases hn : s.next? with
  | none => simp [next?_eq_none_iff.1 hn] at h
  | some p =>
    obtain ⟨t', u⟩ := p
    obtain ⟨hu, heof⟩ := next?_eq_some hn
    rw [h, List.cons.injEq, Prod.mk.injEq] at hu
    obtain ⟨⟨rfl, hd⟩, hts⟩ := hu
    exact ⟨u, rfl, hts.symm, hd.symm, heof⟩

namespace Padded

variable {f : Nat → Nat} {atBreak : Bool} {s s' : Stream}

theorem next?_of_none (h : s.Padded f false s') (hn : s.next? = none) : s'.next? = none := by
  have hp := h.unread
  rw [next?_eq_none_iff.1 hn] at hp
  generalize hs' : s'.unread = us at hp
  cases hp
  exact next?_eq_none_iff.2 hs'

/-- The same token is taken from both streams. -/
theorem next?_of_some {t : Token} {u : Stream} (h : s.Padded f false s')
    (hn : s.next? = some (t, u)) :
    ∃ u', s'.next? = some (t.mapLine f, u') ∧ u.Padded f (isBreak t u.depth) u' := by
  obtain ⟨hs, he⟩ := next?_eq_some hn
  have hp := h.unread
  rw [hs] at hp
  generalize hs' : s'.unread = us at hp
  cases hp with
  | token _ _ _ rest =>
    obtain ⟨u', hu', hts, hd, he'⟩ := next?_of_unread hs'
    refine ⟨u', hu', by rwa [hts], by rw [he, he', h.eof], hd, ?_⟩
    intro hb
    simp only [isBreak, Bool.and_eq_true, beq_iff_eq] at hb
    exact hb.2

theorem peek (h : s.Padded f false s') : s'.peek = s.peek.mapLine f := by
  cases hn : s.next? with
  | none =>
    rw [peek_eq, peek_eq, next?_eq_none_iff.1 hn, next?_eq_none_iff.1 (h.next?_of_none hn)]
    exact h.eof
  | some p =>
    obtain ⟨u', hn', -⟩ := h.next?_of_some hn
    rw [peek_eq, peek_eq, (next?_eq_some hn).1, (next?_eq_some hn').1]
    rfl

theorem check (h : s.Padded f false s') (kind : Token.Kind) : s'.check kind = s.check kind := by
  rw [Stream.check, Stream.check, h.peek, Token.kind_mapLine]

/-- Behind a token there may be room for a blank line. -/
theorem advance_any (h : s.Padded f false s') :
    ∃ atBreak, s.advance.2.Padded f atBreak s'.advance.2 ∧
      (atBreak = true → s.peek.kind = .newLine) := by
  cases hn : s.next? with
  | none =>
    have hn' := h.next?_of_none hn
    refine ⟨false, ?_, by simp⟩
    rwa [advance_of_unread_nil (next?_eq_none_iff.1 hn),
      advance_of_unread_nil (next?_eq_none_iff.1 hn')]
  | some p =>
    obtain ⟨t, u⟩ := p
    obtain ⟨u', hn', hu⟩ := h.next?_of_some hn
    refine ⟨isBreak t u.depth, ?_, ?_⟩
    · rwa [Stream.advance, Stream.advance, hn, hn']
    · intro hb
      rw [← fst_advance, Stream.advance, hn]
      simp only [isBreak, Bool.and_eq_true, beq_iff_eq] at hb
      exact hb.1

theorem advance (h : s.Padded f false s') (hk : s.peek.kind ≠ .newLine) :
    s.advance.2.Padded f false s'.advance.2 := by
  obtain ⟨atBreak, ha, hb⟩ := h.advance_any
  cases atBreak with
  | false => exact ha
  | true => exact absurd (hb rfl) hk

theorem advance_of_check {kind : Token.Kind} (h : s.Padded f false s')
    (hc : s.check kind = true) (hk : kind ≠ .newLine) :
    s.advance.2.Padded f false s'.advance.2 := by
  rw [Stream.check, beq_iff_eq] at hc
  exact h.advance (hc ▸ hk)

theorem insert (h : s.Padded f false s') (tokens : List Token) :
    (s.insert tokens).Padded f false (s'.insert (tokens.map (Token.mapLine f))) where
  unread := by
    rw [unread_insert, unread_insert, h.depth]
    exact h.unread.append_deeper tokens s.depth
  eof := h.eof
  depth := h.depth
  outer := by simp

end Padded

theorem skipBlankLines_of_none {s : Stream} (h : s.next? = none) : s.skipBlankLines = s := by
  rw [skipBlankLines]; split <;> simp_all

theorem skipBlankLines_of_some {s u : Stream} {t : Token} (h : s.next? = some (t, u)) :
    s.skipBlankLines =
      if t.kind = .newLine ∨ t.kind = .indent ∧ u.peek.kind.endsLine then u.skipBlankLines else s := by
  rw [skipBlankLines]; split <;> simp_all

/-- A blank line in front is skipped. -/
theorem skipBlankLines_of_blank {s : Stream} {line : List Token} {ts : List (Token × Nat)}
    (hline : Scanner.BlankLine line) (h : s.unread = line.map (fun t => (t, 0)) ++ ts) :
    ∃ u : Stream, s.skipBlankLines = u.skipBlankLines ∧ u.unread = ts ∧ u.depth = 0 ∧ u.eof = s.eof := by
  cases hline with
  | newLine kind =>
    obtain ⟨u, hn, hu⟩ := next?_of_unread h
    exact ⟨u, by rw [skipBlankLines_of_some hn, if_pos (Or.inl kind)], hu⟩
  | indent indent kind =>
    obtain ⟨u, hn, hts, hd, he⟩ := next?_of_unread h
    obtain ⟨v, hn', hts', hd', he'⟩ := next?_of_unread hts
    have hpeek : u.peek.kind.endsLine = true := by
      rw [← fst_advance, Stream.advance, hn', Option.getD_some, kind]
      rfl
    refine ⟨v, ?_, hts', hd', he'.trans he⟩
    rw [skipBlankLines_of_some hn, if_pos (Or.inr ⟨indent, hpeek⟩), skipBlankLines_of_some hn',
      if_pos (Or.inl kind)]

/-- Behind the blank lines the two streams show the same again. -/
theorem Padded.skipBlankLines {f : Nat → Nat} {atBreak : Bool} {s s' : Stream}
    (h : s.Padded f atBreak s') : s.skipBlankLines.Padded f false s'.skipBlankLines := by
  obtain ⟨hp, heof, hdepth, houter⟩ := h
  generalize hs : s.unread = ts at hp
  generalize hs' : s'.unread = us at hp
  induction hp generalizing s s' with
  | nil =>
    rw [skipBlankLines_of_none (next?_eq_none_iff.2 hs),
      skipBlankLines_of_none (next?_eq_none_iff.2 hs')]
    exact ⟨by rw [hs, hs']; exact .nil false, heof, hdepth, by simp⟩
  | token atBreak t depth rest ih =>
    have hsame : s.Padded f false s' :=
      ⟨by rw [hs, hs']; exact .token false t depth rest, heof, hdepth, by simp⟩
    obtain ⟨u, hn, hts, hd, he⟩ := next?_of_unread hs
    obtain ⟨u', hn', hts', hd', he'⟩ := next?_of_unread hs'
    have hbehind : u.Padded f (isBreak t depth) u' := by
      refine ⟨by rwa [hts, hts'], by rw [he, he', heof], by rw [hd, hd'], ?_⟩
      intro hb
      simp only [isBreak, Bool.and_eq_true, beq_iff_eq] at hb
      rw [hd, hb.2]
    -- behind an indent there is no room for a blank line, so the same token follows it
    have hcond : (t.kind = .newLine ∨ t.kind = .indent ∧ u'.peek.kind.endsLine) ↔
        (t.kind = .newLine ∨ t.kind = .indent ∧ u.peek.kind.endsLine) := by
      by_cases hi : t.kind = .indent
      · have hb : isBreak t depth = false := isBreak_of_ne (by simp [hi]) depth
        have hpeek : u'.peek = u.peek.mapLine f := Padded.peek (hb ▸ hbehind)
        rw [hpeek, Token.kind_mapLine]
      · simp [hi]
    rw [skipBlankLines_of_some hn, skipBlankLines_of_some hn', Token.kind_mapLine]
    by_cases hgone : t.kind = .newLine ∨ t.kind = .indent ∧ u.peek.kind.endsLine
    · rw [if_pos hgone, if_pos (hcond.2 hgone)]
      exact ih hbehind.eof hbehind.depth hbehind.outer hts hts'
    · rw [if_neg hgone, if_neg (mt hcond.1 hgone)]
      exact hsame
  | blank hline _ ih =>
    obtain ⟨u', hskip, hts', hd', he'⟩ := skipBlankLines_of_blank hline hs'
    rw [hskip]
    exact ih (he'.trans heof) (by rw [hd', houter rfl]) houter hs hts'

theorem endOf_of_getLast? {tokens : List Token} {last : Token} (h : tokens.getLast? = some last)
    (hk : last.kind = .eof) : endOf tokens = last := by
  simp [endOf, h, hk]

/-- The tokens of a text, and those of the text with one more blank line. -/
theorem padded_ofTokens {f : Nat → Nat} {before blank behind : List Token} {last : Token}
    (hblank : Scanner.BlankLine blank) (hbreak : ∀ t ∈ before.getLast?, t.kind = .newLine)
    (hlast : (before ++ behind).getLast? = some last) (hk : last.kind = .eof) :
    (ofTokens (before ++ behind)).Padded f true
      (ofTokens (before.map (Token.mapLine f) ++ (blank ++ behind.map (Token.mapLine f)))) where
  unread := by
    have h := IndentAsm.Padded.append hbreak (fun _ => rfl) (.blank hblank (.renumbered f behind true))
    simpa using h
  eof := by
    -- the end token is no line break, so it stands behind the blank line
    have hbehind : behind.getLast? = some last := by
      rw [List.getLast?_append] at hlast
      cases hb : behind.getLast? with
      | some t => rwa [hb] at hlast
      | none =>
        rw [hb, Option.none_or] at hlast
        rw [hbreak last hlast] at hk
        cases hk
    have hlast' : (before.map (Token.mapLine f) ++
        (blank ++ behind.map (Token.mapLine f))).getLast? = some (last.mapLine f) := by
      simp [List.getLast?_append, hbehind]
    show endOf _ = (endOf _).mapLine f
    rw [endOf_of_getLast? hlast hk, endOf_of_getLast? hlast' hk]
  depth := rfl
  outer _ := rfl

end Stream

end IndentAsm
