import IndentAsm.Diagnostic.Error

/-!
# Token streams

The tokens of a program are read from a `Stream`. An expansion is put in front
of what is still unread as a `Frame` of its own, one level deeper than the
token read last, and is read to its end before the stream goes on behind it.
A frame that has been read to its end stays on the stack until the next token
is taken from below it. Past the end every look at the stream shows its end
token.

`Stream.unread` is what is left to be read as one flat list, each token with
its depth; `Stream.Reads` says of two streams that the second is the first
behind some tokens.

**Results.**
* `next?_eq_some`, `next?_eq_none_iff`: taking a token takes the head of the
  unread list and remembers its depth.
* `lookahead_eq`: looking ahead is indexing the unread list.
* `unread_insert`: inserting puts tokens in front of the unread list.
* `reads_advance`, `reads_expect`, `reads_skipBlankLines`: every way of reading
  is `Reads`.
-/
namespace IndentAsm

/-- Tokens that are read one after another, at one depth of expansion. -/
structure Frame where
  /-- The tokens not yet read. -/
  tokens : List Token
  /-- The number of expansions around them. -/
  depth : Nat
  deriving DecidableEq, Repr, Inhabited

namespace Frame

def unread (f : Frame) : List (Token × Nat) :=
  f.tokens.map fun t => (t, f.depth)

/-- The first unread token of a stack of frames, its depth, and the stack
behind it. -/
def uncons? : List Frame → Option (Token × Nat × List Frame)
  | [] => none
  | ⟨[], _⟩ :: fs => uncons? fs
  | ⟨t :: ts, d⟩ :: fs => some (t, d, ⟨ts, d⟩ :: fs)

/-- The unread token with `n` others before it. -/
def lookahead? : List Frame → Nat → Option Token
  | [], _ => none
  | f :: fs, n =>
    match f.tokens[n]? with
    | some t => some t
    | none => lookahead? fs (n - f.tokens.length)

theorem uncons?_eq_none_iff {fs : List Frame} : uncons? fs = none ↔ fs.flatMap unread = [] := by
  fun_induction uncons? fs with
  | case1 => simp
  | case2 d fs ih => simpa [unread] using ih
  | case3 t ts d fs => simp [unread]

theorem uncons?_eq_some {fs gs : List Frame} {t : Token} {d : Nat}
    (h : uncons? fs = some (t, d, gs)) : fs.flatMap unread = (t, d) :: gs.flatMap unread := by
  fun_induction uncons? fs with
  | case1 => cases h
  | case2 d fs ih => simpa [unread] using ih h
  | case3 t ts d fs => cases h; simp [unread]

theorem lookahead?_eq (fs : List Frame) (n : Nat) :
    lookahead? fs n = (fs.flatMap unread)[n]?.map Prod.fst := by
  induction fs generalizing n with
  | nil => simp [lookahead?]
  | cons f fs ih =>
    have hl : f.unread.length = f.tokens.length := by simp [unread]
    by_cases hn : n < f.tokens.length
    · have h1 : f.tokens[n]? = some f.tokens[n] := List.getElem?_eq_getElem hn
      rw [lookahead?, h1, List.flatMap_cons, List.getElem?_append_left (hl ▸ hn)]
      simp [unread, h1]
    · have h1 : f.tokens[n]? = none := List.getElem?_eq_none (Nat.le_of_not_lt hn)
      rw [lookahead?, h1, List.flatMap_cons, List.getElem?_append_right (by omega), hl]
      exact ih _

end Frame

/-- Tokens that are being read, with the expansions put in front of them. -/
structure Stream where
  /-- The frames, the one to be read first in front. -/
  frames : List Frame
  /-- What is seen past the end. -/
  eof : Token
  eof_kind : eof.kind = .eof
  /-- The depth of the token read last. -/
  depth : Nat
  deriving DecidableEq, Repr

namespace Stream

/-- What is seen past the end of some tokens: their own end token if they have
one, and otherwise an end on their last line. -/
def endOf (tokens : List Token) : Token :=
  match tokens.getLast? with
  | some t => if t.kind = .eof then t else ⟨.eof, "", t.line⟩
  | none => ⟨.eof, "", 1⟩

theorem kind_endOf (tokens : List Token) : (endOf tokens).kind = .eof := by
  unfold endOf
  split
  · split
    · assumption
    · rfl
  · rfl

def ofTokens (tokens : List Token) : Stream :=
  ⟨[⟨tokens, 0⟩], endOf tokens, kind_endOf tokens, 0⟩

instance : Inhabited Stream := ⟨ofTokens []⟩

/-- What is left to be read, each token with its depth. -/
def unread (s : Stream) : List (Token × Nat) :=
  s.frames.flatMap Frame.unread

def next? (s : Stream) : Option (Token × Stream) :=
  (Frame.uncons? s.frames).map fun (t, d, fs) => (t, { s with frames := fs, depth := d })

/-- Takes a token, at the end the end token. Frames above it that have been
read are dropped. At the end no token is taken, and the frames stay, though all
of them could be dropped: that nobody can tell is `Stream.Ends.advance`. -/
def advance (s : Stream) : Token × Stream :=
  s.next?.getD (s.eof, s)

def lookahead (s : Stream) (n : Nat) : Token :=
  (Frame.lookahead? s.frames n).getD s.eof

def peek (s : Stream) : Token := s.lookahead 0

def peekNext (s : Stream) : Token := s.lookahead 1

def check (s : Stream) (kind : Token.Kind) : Bool :=
  s.peek.kind == kind

def expect (s : Stream) (kind : Token.Kind) : Except ParseError (Token × Stream) :=
  if s.check kind then .ok s.advance else .error (.expected (.kind kind) s.peek)

/-- Whether every token has been read, the end token too. -/
def atEnd (s : Stream) : Bool :=
  s.frames.all (·.tokens.isEmpty)

/-- Puts tokens in front of the stream, one level deeper than the token read
last. -/
def insert (s : Stream) (tokens : List Token) : Stream :=
  { s with frames := ⟨tokens, s.depth + 1⟩ :: s.frames }

/-! ## What the operations do to the unread list -/

@[simp] theorem unread_ofTokens (tokens : List Token) :
    (ofTokens tokens).unread = tokens.map fun t => (t, 0) := by
  simp [unread, ofTokens, Frame.unread]

@[simp] theorem unread_insert (s : Stream) (tokens : List Token) :
    (s.insert tokens).unread = tokens.map (fun t => (t, s.depth + 1)) ++ s.unread := by
  simp [unread, insert, Frame.unread]

@[simp] theorem depth_insert (s : Stream) (tokens : List Token) :
    (s.insert tokens).depth = s.depth := rfl

@[simp] theorem eof_insert (s : Stream) (tokens : List Token) :
    (s.insert tokens).eof = s.eof := rfl

theorem next?_eq_none_iff {s : Stream} : s.next? = none ↔ s.unread = [] := by
  simp [next?, unread, Frame.uncons?_eq_none_iff]

theorem next?_eq_some {s s' : Stream} {t : Token} (h : s.next? = some (t, s')) :
    s.unread = (t, s'.depth) :: s'.unread ∧ s'.eof = s.eof := by
  obtain ⟨⟨t', d, fs⟩, hu, he⟩ := Option.map_eq_some_iff.1 h
  simp only [Prod.mk.injEq] at he
  obtain ⟨rfl, rfl⟩ := he
  exact ⟨Frame.uncons?_eq_some hu, rfl⟩

theorem lookahead_eq (s : Stream) (n : Nat) :
    s.lookahead n = (s.unread[n]?.map Prod.fst).getD s.eof := by
  rw [lookahead, Frame.lookahead?_eq, unread]

theorem peek_eq (s : Stream) : s.peek = (s.unread.head?.map Prod.fst).getD s.eof := by
  rw [peek, lookahead_eq, List.head?_eq_getElem?]

theorem advance_of_unread_nil {s : Stream} (h : s.unread = []) : s.advance = (s.eof, s) := by
  rw [advance, next?_eq_none_iff.2 h]; rfl

theorem fst_advance (s : Stream) : s.advance.1 = s.peek := by
  rw [peek_eq, advance]
  cases h : s.next? with
  | none => simp [next?_eq_none_iff.1 h]
  | some p => simp [(next?_eq_some h).1]

theorem atEnd_iff (s : Stream) : s.atEnd = true ↔ s.unread = [] := by
  simp [atEnd, unread, Frame.unread]

theorem next?_unread_length {s s' : Stream} {t : Token} (h : s.next? = some (t, s')) :
    s'.unread.length < s.unread.length := by
  simp [(next?_eq_some h).1]

/-! ## Skipping lines -/

/-- Skips new lines, and no indents. -/
def skipNewlines (s : Stream) : Stream :=
  match _h : s.next? with
  | none => s
  | some (t, s') => if t.kind = .newLine then s'.skipNewlines else s
termination_by s.unread.length
decreasing_by exact next?_unread_length _h

/-- Skips empty lines, and lines that hold an indent only. -/
def skipBlankLines (s : Stream) : Stream :=
  match _h : s.next? with
  | none => s
  | some (t, s') =>
    if t.kind = .newLine ∨ t.kind = .indent ∧ s'.peek.kind.endsLine then s'.skipBlankLines
    else s
termination_by s.unread.length
decreasing_by exact next?_unread_length _h

/-! ## Reading on -/

/-- The stream `s'` is `s` behind the tokens `taken`, taken one by one, each
with its depth. -/
inductive Reads : Stream → List (Token × Nat) → Stream → Prop where
  | refl (s : Stream) : Reads s [] s
  | next {s u s' : Stream} {t : Token} {taken : List (Token × Nat)}
      (h : s.next? = some (t, u)) (hr : Reads u taken s') : Reads s ((t, u.depth) :: taken) s'

namespace Reads

variable {s s' : Stream} {taken : List (Token × Nat)}

theorem trans {u : Stream} {more : List (Token × Nat)} (h : Reads s taken s')
    (h' : Reads s' more u) : Reads s (taken ++ more) u := by
  induction h with
  | refl s => exact h'
  | next hn _ ih => exact .next hn (ih h')

theorem unread (h : Reads s taken s') : s.unread = taken ++ s'.unread := by
  induction h with
  | refl s => rfl
  | next hn _ ih => rw [(next?_eq_some hn).1, ih, List.cons_append]

/-- The depth is that of the last token taken. -/
theorem depth (h : Reads s taken s') :
    s'.depth = (taken.getLast?.map Prod.snd).getD s.depth := by
  induction h with
  | refl s => rfl
  | @next s u s' t taken hn _ ih =>
    rw [ih, List.getLast?_cons]
    cases taken.getLast? <;> rfl

theorem eof (h : Reads s taken s') : s'.eof = s.eof := by
  induction h with
  | refl s => rfl
  | next hn _ ih => exact ih.trans (next?_eq_some hn).2

theorem length_le (h : Reads s taken s') : s'.unread.length ≤ s.unread.length := by
  rw [h.unread, List.length_append]; omega

end Reads

theorem reads_next? {s s' : Stream} {t : Token} (h : s.next? = some (t, s')) :
    Reads s [(t, s'.depth)] s' :=
  .next h (.refl s')

/-- Taking a token takes the next one, unless nothing is left. -/
theorem reads_advance (s : Stream) :
    (s.unread = [] ∧ s.advance = (s.eof, s)) ∨
      Reads s [(s.advance.1, s.advance.2.depth)] s.advance.2 := by
  cases h : s.next? with
  | none =>
    have hn := next?_eq_none_iff.1 h
    exact Or.inl ⟨hn, advance_of_unread_nil hn⟩
  | some p => exact Or.inr (by simpa [advance, h] using reads_next? h)

/-- A token that is no end token was taken from the unread ones. -/
theorem reads_advance_of_ne {s : Stream} (h : s.advance.1.kind ≠ .eof) :
    Reads s [(s.advance.1, s.advance.2.depth)] s.advance.2 := by
  rcases reads_advance s with ⟨-, ha⟩ | hr
  · rw [ha] at h; exact absurd s.eof_kind h
  · exact hr

theorem advance_follows (s : Stream) : ∃ taken, Reads s taken s.advance.2 := by
  rcases reads_advance s with ⟨-, ha⟩ | hr
  · exact ⟨[], by rw [ha]; exact Reads.refl s⟩
  · exact ⟨_, hr⟩

theorem expect_eq_ok {s s' : Stream} {kind : Token.Kind} {t : Token}
    (h : s.expect kind = .ok (t, s')) : s.advance = (t, s') ∧ t.kind = kind := by
  unfold expect at h
  split at h
  · rename_i hc
    simp only [Except.ok.injEq] at h
    have hp : s.peek = t := by rw [← fst_advance, h]
    exact ⟨h, by simpa [check, hp] using hc⟩
  · cases h

theorem reads_expect {s s' : Stream} {kind : Token.Kind} {t : Token} (hk : kind ≠ .eof)
    (h : s.expect kind = .ok (t, s')) : Reads s [(t, s'.depth)] s' := by
  obtain ⟨ha, ht⟩ := expect_eq_ok h
  have hr := reads_advance_of_ne (s := s) (by rw [ha]; exact ht ▸ hk)
  rwa [ha] at hr

theorem reads_skipBlankLines (s : Stream) : ∃ taken, Reads s taken s.skipBlankLines := by
  fun_induction skipBlankLines s with
  | case1 s h => exact ⟨[], Reads.refl s⟩
  | case2 s t s' h hk ih =>
    obtain ⟨taken, hr⟩ := ih
    exact ⟨_, (reads_next? h).trans hr⟩
  | case3 s t s' h hk => exact ⟨[], Reads.refl s⟩

end Stream

end IndentAsm
