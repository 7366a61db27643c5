import IndentAsm.Token.Stream

/-!
# Streams are lists with insertion

A `Splice` keeps what is unread as one list of tokens with their depths. Taking
a token takes the head of the list, looking ahead looks at its first elements,
and inserting puts tokens in front of it, one level deeper than the token taken
last. There are no frames, so nothing can be left behind exhausted.

A stream does the same (`Stream.splice`): every operation on a stream gives the
answer that it gives on the list, and leads to a stream with the list that it
leads to (`perform_splice`). This holds for any operations in any order, with
nothing inserted, with insertions behind the end, and with end tokens among the
others.

The operations of a stream that go on until something holds are loops:
`advance` drops exhausted frames, and skipping lines takes tokens. `Loop` counts
their rounds, of which there are no more than frames and unread tokens
(`ends_of_stream`).

**Results.**
* `perform_splice`: one operation, on a stream and on its list.
* `trace_splice`: any sequence of operations.
* `trace_eq_and_ends`: the same from the first token on, where every operation
  comes to an end.
-/
namespace IndentAsm

/-- Tokens that are being read, as one list. -/
structure Splice where
  /-- The tokens not yet read, each with its depth. -/
  unread : List (Token × Nat)
  /-- What is seen past the end. -/
  eof : Token
  /-- The depth of the token taken last. -/
  depth : Nat
  deriving DecidableEq, Repr, Inhabited

namespace Splice

/-- The list in front of some tokens, with `eof` past their end. -/
def ofTokens (eof : Token) (tokens : List Token) : Splice :=
  ⟨tokens.map fun t => (t, 0), eof, 0⟩

def first (eof : Token) : List (Token × Nat) → Token
  | [] => eof
  | (t, _) :: _ => t

def peek (s : Splice) : Token := first s.eof s.unread

def peekNext (s : Splice) : Token := first s.eof s.unread.tail

def advance (s : Splice) : Token × Splice :=
  match s.unread with
  | [] => (s.eof, s)
  | (t, d) :: rest => (t, { s with unread := rest, depth := d })

def check (s : Splice) (kind : Token.Kind) : Bool := s.peek.kind == kind

/-- Takes a token of a kind, or fails and takes none. -/
def expect (s : Splice) (kind : Token.Kind) : Except ParseError (Token × Splice) :=
  if s.peek.kind = kind then .ok s.advance else .error (.expected (.kind kind) s.peek)

def atEnd (s : Splice) : Bool := s.unread.isEmpty

/-- Drops tokens as long as `gone` says so of the first one and the one behind
it. Gives the depth of the last one dropped. -/
def dropWhile (gone : Token → Token → Bool) (eof : Token) :
    List (Token × Nat) → Nat → List (Token × Nat) × Nat
  | [], depth => ([], depth)
  | (t, d) :: rest, depth =>
    if gone t (first eof rest) then dropWhile gone eof rest d else ((t, d) :: rest, depth)

/-- Skips tokens as long as `gone` says so of the first one and the one behind
it. -/
def skip (gone : Token → Token → Bool) (s : Splice) : Splice :=
  let left := dropWhile gone s.eof s.unread s.depth
  { s with unread := left.1, depth := left.2 }

def isNewLine (t _next : Token) : Bool := t.kind == .newLine

/-- A new line, or an indent with nothing behind it on its line. -/
def isBlank (t next : Token) : Bool :=
  t.kind == .newLine || t.kind == .indent && (next.kind == .newLine || next.kind == .eof)

def skipNewlines (s : Splice) : Splice := s.skip isNewLine

def skipBlankLines (s : Splice) : Splice := s.skip isBlank

def insert (s : Splice) (tokens : List Token) : Splice :=
  { s with unread := tokens.map (fun t => (t, s.depth + 1)) ++ s.unread }

end Splice

/-! ## Operations -/

inductive Operation where
  | peek
  | peekNext
  | advance
  | check (kind : Token.Kind)
  | expect (kind : Token.Kind)
  | atEnd
  | skipNewlines
  | skipBlankLines
  | insert (tokens : List Token)
  deriving DecidableEq, Repr, Inhabited

inductive Answer where
  | nothing
  | token (t : Token)
  | truth (b : Bool)
  | error (e : ParseError)
  deriving DecidableEq, Repr, Inhabited

/-- The operations on tokens that are being read, where `σ` is what is kept of
them. -/
structure Cursor (σ : Type) where
  peek : σ → Token
  peekNext : σ → Token
  advance : σ → Token × σ
  check : σ → Token.Kind → Bool
  expect : σ → Token.Kind → Except ParseError (Token × σ)
  atEnd : σ → Bool
  skipNewlines : σ → σ
  skipBlankLines : σ → σ
  insert : σ → List Token → σ
  depth : σ → Nat

namespace Cursor

variable {σ : Type}

/-- An operation and its answer. One that fails leaves things as they are. -/
def perform (c : Cursor σ) (s : σ) : Operation → Answer × σ
  | .peek => (.token (c.peek s), s)
  | .peekNext => (.token (c.peekNext s), s)
  | .advance => (.token (c.advance s).1, (c.advance s).2)
  | .check kind => (.truth (c.check s kind), s)
  | .expect kind =>
    match c.expect s kind with
    | .ok (t, s') => (.token t, s')
    | .error e => (.error e, s)
  | .atEnd => (.truth (c.atEnd s), s)
  | .skipNewlines => (.nothing, c.skipNewlines s)
  | .skipBlankLines => (.nothing, c.skipBlankLines s)
  | .insert tokens => (.nothing, c.insert s tokens)

/-- The answers to some operations, one after another, each with the depth
behind it. -/
def trace (c : Cursor σ) (s : σ) : List Operation → List (Answer × Nat)
  | [] => []
  | op :: ops =>
    let found := c.perform s op
    (found.1, c.depth found.2) :: c.trace found.2 ops

def performAll (c : Cursor σ) (s : σ) (ops : List Operation) : σ :=
  ops.foldl (fun s op => (c.perform s op).2) s

end Cursor

def Stream.cursor : Cursor Stream where
  peek := Stream.peek
  peekNext := Stream.peekNext
  advance := Stream.advance
  check := Stream.check
  expect := Stream.expect
  atEnd := Stream.atEnd
  skipNewlines := Stream.skipNewlines
  skipBlankLines := Stream.skipBlankLines
  insert := Stream.insert
  depth := Stream.depth

def Splice.cursor : Cursor Splice where
  peek := Splice.peek
  peekNext := Splice.peekNext
  advance := Splice.advance
  check := Splice.check
  expect := Splice.expect
  atEnd := Splice.atEnd
  skipNewlines := Splice.skipNewlines
  skipBlankLines := Splice.skipBlankLines
  insert := Splice.insert
  depth := Splice.depth

/-! ## A stream is its list -/

namespace Stream

def splice (s : Stream) : Splice := ⟨s.unread, s.eof, s.depth⟩

theorem splice_ofTokens (tokens : List Token) :
    (ofTokens tokens).splice = .ofTokens (endOf tokens) tokens := by
  simp only [splice, Splice.ofTokens, unread_ofTokens]
  rfl

theorem splice_of_next? {s u : Stream} {t : Token} (h : s.next? = some (t, u)) :
    s.splice = ⟨(t, u.depth) :: u.unread, u.eof, s.depth⟩ := by
  obtain ⟨hu, he⟩ := next?_eq_some h
  rw [splice, hu, he]

theorem splice_of_next?_none {s : Stream} (h : s.next? = none) : s.splice = ⟨[], s.eof, s.depth⟩ := by
  rw [splice, next?_eq_none_iff.1 h]

theorem peek_splice (s : Stream) : s.splice.peek = s.peek := by
  rw [peek_eq, Splice.peek, splice]
  cases s.unread <;> rfl

theorem peekNext_splice (s : Stream) : s.splice.peekNext = s.peekNext := by
  rw [peekNext, lookahead_eq, Splice.peekNext, splice]
  match s.unread with
  | [] => rfl
  | [_] => rfl
  | _ :: _ :: _ => rfl

theorem advance_splice (s : Stream) :
    s.splice.advance = (s.advance.1, s.advance.2.splice) := by
  cases h : s.next? with
  | none =>
    rw [advance_of_unread_nil (next?_eq_none_iff.1 h), splice_of_next?_none h]
    rfl
  | some p =>
    obtain ⟨t, u⟩ := p
    rw [splice_of_next? h, advance, h]
    rfl

theorem check_splice (s : Stream) (kind : Token.Kind) : s.splice.check kind = s.check kind := by
  rw [Splice.check, peek_splice, check]

theorem expect_splice (s : Stream) (kind : Token.Kind) :
    s.splice.expect kind = (s.expect kind).map fun (t, s') => (t, s'.splice) := by
  unfold Splice.expect expect check
  rw [peek_splice, advance_splice]
  by_cases h : s.peek.kind = kind <;> simp [h, Except.map]

theorem atEnd_splice (s : Stream) : s.splice.atEnd = s.atEnd := by
  rw [Bool.eq_iff_iff, atEnd_iff, Splice.atEnd, List.isEmpty_iff]
  rfl

theorem insert_splice (s : Stream) (tokens : List Token) :
    s.splice.insert tokens = (s.insert tokens).splice := by
  simp [Splice.insert, splice]

/-- Skipping goes on behind a token that is gone, and stops at any other. -/
theorem skip_splice_of_next? (gone : Token → Token → Bool) {s u : Stream} {t : Token}
    (h : s.next? = some (t, u)) :
    s.splice.skip gone = if gone t u.peek then u.splice.skip gone else s.splice := by
  have hp : Splice.first u.eof u.unread = u.peek := peek_splice u
  rw [splice_of_next? h]
  simp only [Splice.skip, Splice.dropWhile, hp]
  split <;> rfl

theorem skip_splice_of_none (gone : Token → Token → Bool) {s : Stream} (h : s.next? = none) :
    s.splice.skip gone = s.splice := by
  rw [splice_of_next?_none h]
  rfl

theorem skipNewlines_splice (s : Stream) : s.splice.skipNewlines = s.skipNewlines.splice := by
  unfold Splice.skipNewlines
  fun_induction skipNewlines s with
  | case1 s h => exact skip_splice_of_none _ h
  | case2 s t u h hk ih =>
    rw [skip_splice_of_next? _ h, ← ih]
    simp [Splice.isNewLine, hk]
  | case3 s t u h hk =>
    rw [skip_splice_of_next? _ h]
    simp [Splice.isNewLine, hk]

theorem isBlank_iff {t next : Token} : Splice.isBlank t next = true ↔
    t.kind = .newLine ∨ t.kind = .indent ∧ next.kind.endsLine = true := by
  simp [Splice.isBlank, Token.Kind.endsLine_iff]

theorem skipBlankLines_splice (s : Stream) :
    s.splice.skipBlankLines = s.skipBlankLines.splice := by
  unfold Splice.skipBlankLines
  fun_induction skipBlankLines s with
  | case1 s h => exact skip_splice_of_none _ h
  | case2 s t u h hk ih => rw [skip_splice_of_next? _ h, if_pos (isBlank_iff.2 hk), ih]
  | case3 s t u h hk => rw [skip_splice_of_next? _ h, if_neg (mt isBlank_iff.1 hk)]

/-- An operation on a stream gives the answer that it gives on its list, and
leads to the same list. -/
theorem perform_splice (s : Stream) (op : Operation) :
    Splice.cursor.perform s.splice op =
      ((cursor.perform s op).1, (cursor.perform s op).2.splice) := by
  cases op with
  | peek => exact congrArg (fun t => (Answer.token t, s.splice)) s.peek_splice
  | peekNext => exact congrArg (fun t => (Answer.token t, s.splice)) s.peekNext_splice
  | advance => exact congrArg (fun p => (Answer.token p.1, p.2)) s.advance_splice
  | check kind => exact congrArg (fun b => (Answer.truth b, s.splice)) (s.check_splice kind)
  | expect kind =>
    simp only [Cursor.perform, Splice.cursor, cursor, expect_splice]
    cases s.expect kind <;> rfl
  | atEnd => exact congrArg (fun b => (Answer.truth b, s.splice)) s.atEnd_splice
  | skipNewlines => exact congrArg (Prod.mk Answer.nothing) s.skipNewlines_splice
  | skipBlankLines => exact congrArg (Prod.mk Answer.nothing) s.skipBlankLines_splice
  | insert tokens => exact congrArg (Prod.mk Answer.nothing) (s.insert_splice tokens)

theorem trace_splice (s : Stream) (ops : List Operation) :
    Splice.cursor.trace s.splice ops = cursor.trace s ops := by
  induction ops generalizing s with
  | nil => rfl
  | cons op ops ih =>
    simp only [Cursor.trace, perform_splice, ih]
    rfl

end Stream

/-! ## Every operation ends -/

/-- A loop that goes on as long as `test` holds leads from one value to another
in `n` rounds. -/
inductive Loop {σ : Type} (test : σ → Bool) (body : σ → σ) : Nat → σ → σ → Prop where
  | stop {s : σ} (h : test s = false) : Loop test body 0 s s
  | round {s s' : σ} {n : Nat} (h : test s = true) (rest : Loop test body n (body s) s') :
      Loop test body (n + 1) s s'

/-- The loops in the operations on a stream end after so many rounds, and lead
where the operation does. -/
structure Stream.Ends (s : Stream) : Prop where
  /-- Frames that are exhausted are dropped, which nobody can tell, and a token is
  taken from the next one, if there is one. -/
  advance : ∃ n fs, n ≤ s.frames.length ∧
    Loop (fun fs : List Frame => fs.head?.any (·.tokens.isEmpty)) List.tail n s.frames fs ∧
    (∀ ops, cursor.trace { s with frames := fs } ops = cursor.trace s ops) ∧
    ((fs = [] ∧ s.advance = (s.eof, s)) ∨
      ∃ t ts d below, fs = ⟨t :: ts, d⟩ :: below ∧
        s.advance = (t, { s with frames := ⟨ts, d⟩ :: below, depth := d }))
  newlines : ∃ n, n ≤ s.unread.length ∧
    Loop (fun s : Stream => s.check .newLine) (·.advance.2) n s s.skipNewlines
  blankLines : ∃ n, n ≤ s.unread.length ∧
    Loop (fun s : Stream => Splice.isBlank s.peek s.peekNext) (·.advance.2) n s s.skipBlankLines

namespace Stream

theorem loop_uncons? (fs : List Frame) : ∃ n gs, n ≤ fs.length ∧
    Loop (fun fs : List Frame => fs.head?.any (·.tokens.isEmpty)) List.tail n fs gs ∧
    gs.flatMap Frame.unread = fs.flatMap Frame.unread ∧
    ((gs = [] ∧ Frame.uncons? fs = none) ∨
      ∃ t ts d below, gs = ⟨t :: ts, d⟩ :: below ∧
        Frame.uncons? fs = some (t, d, ⟨ts, d⟩ :: below)) := by
  fun_induction Frame.uncons? fs with
  | case1 => exact ⟨0, [], Nat.le_refl 0, .stop rfl, rfl, Or.inl ⟨rfl, rfl⟩⟩
  | case2 d fs ih =>
    obtain ⟨n, gs, hn, hl, hu, hr⟩ := ih
    exact ⟨n + 1, gs, by simpa using hn, .round rfl hl, hu, hr⟩
  | case3 t ts d fs =>
    exact ⟨0, _, Nat.zero_le _, .stop rfl, rfl, Or.inr ⟨t, ts, d, fs, rfl, rfl⟩⟩

theorem peek_of_next? {s u : Stream} {t : Token} (h : s.next? = some (t, u)) : s.peek = t := by
  rw [← fst_advance, advance, h]
  rfl

theorem peekNext_of_next? {s u : Stream} {t : Token} (h : s.next? = some (t, u)) :
    s.peekNext = u.peek := by
  rw [← peekNext_splice, splice_of_next? h, ← peek_splice]
  rfl

theorem peek_of_next?_none {s : Stream} (h : s.next? = none) : s.peek = s.eof := by
  rw [← fst_advance, advance_of_unread_nil (next?_eq_none_iff.1 h)]

theorem loop_skipNewlines (s : Stream) : ∃ n, n ≤ s.unread.length ∧
    Loop (fun s : Stream => s.check .newLine) (·.advance.2) n s s.skipNewlines := by
  fun_induction skipNewlines s with
  | case1 s h =>
    refine ⟨0, Nat.zero_le _, .stop ?_⟩
    simp [check, peek_of_next?_none h, s.eof_kind]
  | case2 s t u h hk ih =>
    obtain ⟨n, hn, hl⟩ := ih
    have hlt := next?_unread_length h
    refine ⟨n + 1, by omega, .round ?_ ?_⟩
    · simp [check, peek_of_next? h, hk]
    · simpa [advance, h] using hl
  | case3 s t u h hk =>
    refine ⟨0, Nat.zero_le _, .stop ?_⟩
    simp [check, peek_of_next? h, hk]

theorem loop_skipBlankLines (s : Stream) : ∃ n, n ≤ s.unread.length ∧
    Loop (fun s : Stream => Splice.isBlank s.peek s.peekNext) (·.advance.2) n s
      s.skipBlankLines := by
  fun_induction skipBlankLines s with
  | case1 s h =>
    refine ⟨0, Nat.zero_le _, .stop ?_⟩
    simp [Splice.isBlank, peek_of_next?_none h, s.eof_kind]
  | case2 s t u h hk ih =>
    obtain ⟨n, hn, hl⟩ := ih
    have hlt := next?_unread_length h
    refine ⟨n + 1, by omega, .round ?_ ?_⟩
    · rw [peek_of_next? h, peekNext_of_next? h]
      exact isBlank_iff.2 hk
    · simpa [advance, h] using hl
  | case3 s t u h hk =>
    refine ⟨0, Nat.zero_le _, .stop ?_⟩
    rw [peek_of_next? h, peekNext_of_next? h]
    exact Bool.eq_false_iff.2 (mt isBlank_iff.1 hk)

theorem ends_of_stream (s : Stream) : s.Ends := by
  refine ⟨?_, loop_skipNewlines s, loop_skipBlankLines s⟩
  obtain ⟨n, fs, hn, hl, hunread, hr⟩ := loop_uncons? s.frames
  have hsplice : splice { s with frames := fs } = s.splice := by
    rw [splice, splice, unread, hunread, unread]
  refine ⟨n, fs, hn, hl, fun ops => ?_, ?_⟩
  · rw [← trace_splice, hsplice, trace_splice]
  rcases hr with ⟨rfl, hu⟩ | ⟨t, ts, d, below, rfl, hu⟩
  · exact Or.inl ⟨rfl, by simp [advance, next?, hu]⟩
  · exact Or.inr ⟨t, ts, d, below, rfl, by simp [advance, next?, hu]⟩

/-- Whatever is done with a stream on some tokens, the answers and the depths are
those of the list of these tokens, and every operation on the way ends. -/
theorem trace_eq_and_ends (tokens : List Token) (ops : List Operation) :
    cursor.trace (ofTokens tokens) ops =
        Splice.cursor.trace (.ofTokens (endOf tokens) tokens) ops ∧
      (cursor.performAll (ofTokens tokens) ops).Ends := by
  refine ⟨?_, ends_of_stream _⟩
  rw [← splice_ofTokens, trace_splice]

-- tokens inserted behind the end, with nothing inserted in front of them
example : cursor.trace (ofTokens [])
      [.advance, .insert [⟨.comma, ",", 7⟩], .insert [], .peek, .advance, .atEnd] =
    [(.token ⟨.eof, "", 1⟩, 0), (.nothing, 0), (.nothing, 0), (.token ⟨.comma, ",", 7⟩, 0),
      (.token ⟨.comma, ",", 7⟩, 1), (.truth true, 1)] := by decide

end Stream

end IndentAsm
