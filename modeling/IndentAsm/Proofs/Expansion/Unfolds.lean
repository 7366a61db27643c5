import IndentAsm.Proofs.Expansion.Definition
import IndentAsm.Proofs.Parse.Nesting

/-!
# What the frames of a stream come to

While a body is read, part of it is in the source and part of it in expansions
that were put on top. `Unfolds` says what all of these come to once every call
left in them is followed: each frame is expanded by itself, the source with the
calls in it followed `n` deep, and an expansion one level less for each frame
below it.

**Results.**
* `Unfolds.line`, `Unfolds.newLine`: the frame on top is expanded line by line.
* `Unfolds.head`, `Unfolds.ending`: a line that ends in the frames ends in what
  they come to, and so does the program.
* `Unfolds.of_indent`: in front of a block, the source has the same indent as
  what it comes to.
-/
namespace IndentAsm.Parse

open IndentAsm.Stream (dropBlank startsBlank)
open IndentAsm.Frame (AtLineEnd)

/-- Code in an expansion, from behind an indent on, with the calls in it
followed `n` deep. -/
def expandCode (macros : NameMap Macro) (n : Nat) (ts : List Token) : List Token :=
  rewriteLines (expandLine macros n) (rewriteAll (expandLine macros n)) (lines ts)

/-- The source from behind an indent in a body on, expanded. -/
def expandSource (macros : NameMap Macro) (n : Nat) (ts : List Token) : List Token :=
  rewriteLines (expandLine macros n) (expandLines n macros false) (lines ts)

/-- The frames of a stream that is in a body, and what their tokens come to when
all calls are followed `n` deep. An expansion has used up a level for each frame
below it. Behind the source stands `z`. -/
inductive Unfolds (n : Nat) (macros : NameMap Macro) (z : List Token) :
    List Frame → List Token → Prop where
  | source {b ts out : List Token} (scanned : Scanned b) (tokens : ts = b ++ z)
      (expanded : out = expandSource macros n b ++ z) : Unfolds n macros z [⟨ts, 0⟩] out
  | expansion {ts out out' : List Token} {fs : List Frame} (code : ∀ t ∈ ts, t.kind ≠ .eof)
      (below : Unfolds n macros z fs out)
      (expanded : out' = expandCode macros (n - fs.length) ts ++ out) :
      Unfolds n macros z (⟨ts, fs.length⟩ :: fs) out'

namespace Unfolds

variable {n : Nat} {macros : NameMap Macro} {z out : List Token}

theorem rewrites_code (macros : NameMap Macro) (n : Nat) :
    Rewrites (expandLine macros n) (rewriteAll (expandLine macros n)) :=
  Rewrites.all (expandLine_nil macros n)

/-- A frame that was read to its end adds nothing. -/
theorem of_exhausted {above below : List Frame} {f : Frame} (ha : ∀ g ∈ above, g.tokens = [])
    (h : Unfolds n macros z (above ++ f :: below) out) : Unfolds n macros z (f :: below) out := by
  induction above generalizing out with
  | nil => exact h
  | cons g above ih =>
    have hg := ha g List.mem_cons_self
    rw [List.cons_append] at h
    generalize hfs : above ++ f :: below = fs at h ih
    cases h with
    | source scanned tokens expanded => simp at hfs
    | expansion code below expanded =>
      have hts : expandCode macros (n - fs.length) _ = [] := congrArg (expandCode macros _) hg
      rw [hts, List.nil_append] at expanded
      subst expanded
      exact ih (fun x hx => ha x (List.mem_cons_of_mem _ hx)) below

/-- What is left of a line in the frame on top is expanded as one line. -/
theorem line (hz : Ending z) {xs ts : List Token} {d : Nat} {below : List Frame}
    (hx : ∀ t ∈ xs, t.kind.endsLine = false) (ht : ∀ t ∈ ts.head?, t.kind.endsLine = true)
    (h : Unfolds n macros z (⟨xs ++ ts, d⟩ :: below) out) : ∃ out',
      out = expandLine macros (n - d) xs ++ out' ∧ Unfolds n macros z (⟨ts, d⟩ :: below) out' := by
  have hxn : ∀ t ∈ xs, t.kind ≠ .newLine :=
    fun t htx => (Token.Kind.not_endsLine_iff.1 (hx t htx)).1
  have hxe : ∀ t ∈ xs, t.kind ≠ .eof := fun t htx => (Token.Kind.not_endsLine_iff.1 (hx t htx)).2
  cases h with
  | @source b _ _ scanned tokens expanded =>
    obtain ⟨b', rfl, rfl⟩ := split_code hz hxe tokens.symm
    have hb' : ∀ t ∈ b'.head?, t.kind = .newLine := by
      intro t htb
      refine newLine_of_endsLine (scanned.of_append.no_eof t (List.mem_of_mem_head? htb)) (ht t ?_)
      rw [List.head?_append, htb]; rfl
    refine ⟨expandSource macros n b' ++ z, ?_, .source scanned.of_append rfl rfl⟩
    rw [expanded, expandSource, (rewrites_expandLines n macros).append hxn hb', List.append_assoc]
    rfl
  | @expansion _ out₁ _ _ code below' expanded =>
    have htn : ∀ t ∈ ts.head?, t.kind = .newLine := fun t hth =>
      newLine_of_endsLine (code t (List.mem_append_right _ (List.mem_of_mem_head? hth))) (ht t hth)
    refine ⟨expandCode macros (n - below.length) ts ++ out₁, ?_,
      .expansion (fun t hts => code t (List.mem_append_right _ hts)) below' rfl⟩
    rw [expanded, expandCode, (rewrites_code macros _).append hxn htn, List.append_assoc]
    rfl

/-- Where a line ends in the frames, one ends in what they come to. -/
theorem head {fs : List Frame} (hz : Ending z) (h : Unfolds n macros z fs out)
    (hl : AtLineEnd fs) : ∀ t ∈ out.head?, t.kind.endsLine = true := by
  induction h with
  | @source b ts out scanned tokens expanded =>
    rw [expanded]
    cases b with
    | nil =>
      intro t ht
      have := hz.head
      rwa [show z.head? = some t from ht] at this
    | cons x xs =>
      have hx := hl x (by rw [tokens]; rfl)
      have hn := newLine_of_endsLine (scanned.no_eof x List.mem_cons_self) hx
      rw [expandSource, (rewrites_expandLines n macros).newLine hn]
      intro t ht
      cases ht
      exact hx
  | @expansion ts out out' fs code below expanded ih =>
    rw [expanded]
    cases ts with
    | nil => exact ih hl
    | cons x xs =>
      have hx := hl x rfl
      have hn := newLine_of_endsLine (code x List.mem_cons_self) hx
      rw [expandCode, (rewrites_code macros _).newLine hn]
      intro t ht
      cases ht
      exact hx

/-- Where nothing is left in the frames but an end token, nothing else is left
in what they come to. -/
theorem ending {fs : List Frame} (h : Unfolds n macros z fs out)
    (he : ∀ t ∈ (Frame.flat fs).head?, t.kind = .eof) : Frame.flat fs = z ∧ out = z := by
  induction h with
  | @source b ts out scanned tokens expanded =>
    cases b with
    | nil => exact ⟨by rw [tokens]; exact List.append_nil z, expanded⟩
    | cons x xs =>
      exact absurd (he x (by rw [tokens]; rfl)) (scanned.no_eof x List.mem_cons_self)
  | @expansion ts out out' fs code below expanded ih =>
    cases ts with
    | nil =>
      rw [expanded]
      exact ih he
    | cons x xs => exact absurd (he x rfl) (code x List.mem_cons_self)

/-- A line break of the source is followed by the rest of the program, and one
in an expansion by the rest of the code there. -/
theorem newLine (hz : Ending z) {t : Token} {ts : List Token} {d : Nat} {below : List Frame}
    (hn : t.kind = .newLine) (h : Unfolds n macros z (⟨t :: ts, d⟩ :: below) out) :
    (below = [] ∧ ∃ b, Scanned b ∧ ts = b ++ z ∧
      out = t :: (expandLines n macros false (lines b) ++ z)) ∨
    ∃ out', (∀ x ∈ ts, x.kind ≠ .eof) ∧ d = below.length ∧ Unfolds n macros z below out' ∧
      out = t :: (rewriteAll (expandLine macros (n - d)) (lines ts) ++ out') := by
  cases h with
  | source scanned tokens expanded =>
    obtain ⟨b, rfl, rfl⟩ := split_code_cons hz (by simp [hn]) tokens.symm
    refine Or.inl ⟨rfl, b, scanned.tail, rfl, ?_⟩
    rw [expanded, expandSource, (rewrites_expandLines n macros).newLine hn]
    rfl
  | expansion code below' expanded =>
    refine Or.inr ⟨_, fun x hx => code x (List.mem_cons_of_mem _ hx), rfl, below', ?_⟩
    rw [expanded, expandCode, (rewrites_code macros _).newLine hn]
    rfl

theorem ne_nil {fs : List Frame}
    (h : Unfolds n macros z fs out) : fs ≠ [] := by
  cases h <;> simp

/-- The frames under the token that is taken come to the same as before. -/
theorem next? {s u : Stream} {t : Token}
    (h : Unfolds n macros z s.frames out) (hn : s.next? = some (t, u)) : ∃ ts below,
      u.frames = ⟨ts, u.depth⟩ :: below ∧ Unfolds n macros z (⟨t :: ts, u.depth⟩ :: below) out := by
  obtain ⟨above, ts, below, hs, ha, hu⟩ := Stream.frames_of_next? hn
  rw [hs] at h
  exact ⟨ts, below, hu, h.of_exhausted ha⟩

/-- What the line behind a token comes to, where it is read from one frame. -/
theorem line_of_next? {ts : List Token} {s u : Stream} {t : Token}
    {below : List Frame} (hz : Ending z) (h : Unfolds n macros z s.frames out)
    (hn : s.next? = some (t, u)) (ht : t.kind.endsLine = false)
    (hu : u.frames = ⟨u.line ++ ts, u.depth⟩ :: below) (hl : AtLineEnd (⟨ts, u.depth⟩ :: below)) :
    ∃ out', out = expandLine macros (n - u.depth) (t :: u.line) ++ out' ∧
      Unfolds n macros z (⟨ts, u.depth⟩ :: below) out' := by
  obtain ⟨us, below', hu', hunf⟩ := h.next? hn
  rw [hu, List.cons.injEq, Frame.mk.injEq] at hu'
  obtain ⟨⟨rfl, -⟩, rfl⟩ := hu'
  refine line hz (fun x hx => ?_) (fun x hx => hl x ?_) hunf
  · rcases List.mem_cons.1 hx with rfl | hx
    · exact ht
    · exact Stream.not_ends_of_mem_lineOf hx
  · rw [Frame.flat_cons, List.head?_append, hx]; rfl

/-- Where a block of the source starts or goes on, the expanded source has the
same indent, and behind it what the source comes to from there. -/
theorem of_indent {indent : Option String} {source b : List Token} {i : Token} {stream : Stream}
    (hz : Ending z) (hb : Scanned b)
    (hm : ∀ name m, macros.get? name = some m → ∃ indent, Shaped indent m.body)
    (hi : i.kind = .indent) (hd : dropBlank (b ++ z) = i :: stream.tokens)
    (hsrc : AtSource stream) (hn : Nested indent source stream.frames) :
    ∃ out, dropBlank (expandLines n macros false (lines b) ++ z) = i :: out ∧
      Unfolds n macros z stream.frames out := by
  obtain ⟨b', hsuf, hdb, -⟩ := dropBlank_eq hz hb.no_eof
  have hstart := Stream.startsBlank_dropBlank (b ++ z)
  rw [hdb] at hd hstart
  obtain ⟨d, rfl, hstream⟩ := split_code_cons hz (by simp [hi]) hd
  obtain ⟨x, xs, rfl, -⟩ := (cases_not_startsBlank hz hstart).2 hi
  have hframes := hsrc.frames_eq hn (by simp [hstream])
  rw [hstream] at hframes
  refine ⟨expandSource macros n (x :: xs) ++ z, ?_, ?_⟩
  · rw [dropBlank_expandLines hz hb.no_eof hm hdb, (rewrites_expandLines n macros).indent hi]
    rfl
  · rw [hframes]
    exact .source (hb.of_suffix hsuf).tail rfl rfl

end Unfolds

end IndentAsm.Parse
