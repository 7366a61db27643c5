import IndentAsm.Assemble
import IndentAsm.Proofs.Expansion.Unfolds

/-!
# Expanding macros first makes no difference

The reader expands a call when it comes to it, and reads the expansion from a
frame of its own. `expandMacros` has all of that done beforehand. The program
that the reader makes of the expanded tokens, which have no macros left, is the
one it makes of the tokens themselves.

The proof follows a run on the tokens by a run on the expanded ones. Inside a
body, what is left of the expanded tokens is what is left in each frame,
expanded (`Unfolds`). Between definitions it is the rest of the source,
expanded, up to blank lines (`Related`). A definition and a call take no step
on the other side, and all other steps are the same on both sides
(`related_step`).

**Results.**
* `related_step`: a step on the tokens is a step, or none, on the expanded ones.
* `finishes_of_related`: so a run that finishes does so on both sides.
* `transparent_expandMacros`: the expanded program has the same subroutines and
  the same image.
-/
namespace IndentAsm.Parse

open IndentAsm.Stream (Reads ReadsLine dropBlank startsBlank)
open IndentAsm.Frame (AtLineEnd)

/-- A state of a run on some tokens, and one of a run on the expanded tokens. -/
structure Related (n : Nat) (s e : State) : Prop where
  macros : e.macros = .empty
  subroutines : e.subroutines = s.subroutines
  place : e.place = s.place
  /-- Between definitions, the rest of the source is still to be expanded. The
  indent may have been fixed by a macro, which the expanded tokens lack. -/
  outside : s.place = .outside → (e.indent = none ∨ e.indent = s.indent) ∧
    ∃ b z, Scanned b ∧ Ending z ∧ s.stream.tokens = b ++ z ∧
      dropBlank e.stream.tokens = expandLines n s.macros true (lines b) ++ z
  inside : s.place ≠ .outside → e.indent = s.indent ∧
    ∃ z, Ending z ∧ Unfolds n s.macros z s.stream.frames e.stream.tokens

/-- The other run is at the counterpart of `v`, or gets there by a step. -/
def Follows (limit n : Nat) (e v : State) : Prop :=
  ∃ e', (e' = e ∨ Step limit e e') ∧ Related n v e'

variable {limit n : Nat} {source : List Token} {s e v : State}

theorem Inv.shaped (h : Inv limit source s) :
    ∀ name m, s.macros.get? name = some m → ∃ indent, Shaped indent m.body :=
  fun name m hm => ⟨s.indent, h.macros name m hm⟩

/-- A definition is dropped. -/
theorem follows_define {k : Nat} {m : Macro} {indent : Option String} {stream : Stream}
    (hr : Related n s e) (place : s.place = .outside)
    (read : definition s.indent s.stream.skipBlankLines = .ok ((m, indent), stream)) :
    Follows k n e { s with
      stream := stream
      indent := indent
      macros := s.macros.insert m.name m
      log := .macroDefined m.name m.params.length :: s.log } := by
  obtain ⟨hindent, b, z, hb, hz, hs, he⟩ := hr.outside place
  obtain ⟨b', hsuf, hd, hl⟩ := dropBlank_eq hz hb.no_eof
  have hb' := hb.of_suffix hsuf
  have hskip : s.stream.skipBlankLines.tokens = b' ++ z := by
    rw [Stream.tokens_skipBlankLines, hs, hd]
  obtain ⟨l, ls, c, hlines, hhead, hdef, rfl, hc, hstream, hexp⟩ :=
    definition_eq_ok hz hb'.no_eof hskip read
  obtain ⟨-, hkeep⟩ := shaped_definition read
  refine ⟨e, Or.inl rfl, hr.macros, hr.subroutines, hr.place, fun _ => ⟨?_, c, z, ?_⟩,
    fun hp => absurd place hp⟩
  · rcases hindent with hi | hi
    · exact Or.inl hi
    · cases hsi : s.indent with
      | none => exact Or.inl (hi.trans hsi)
      | some i => exact Or.inr ((hi.trans hsi).trans (hkeep i hsi).symm)
  · refine ⟨hb'.of_suffix hc, hz, hstream, ?_⟩
    rw [he, ← expandLines_dropWhile, ← hl, hlines, expandLines_definition hhead hdef, hexp]

/-- A header is read on both sides, with the blank lines and the indent behind
it. -/
theorem follows_header {k : Nat} {name colon t : Token} {u w stream : Stream}
    (hinv : Inv limit source s) (hr : Related n s e) (place : s.place = .outside)
    (ident : s.stream.skipBlankLines.expect .identifier = .ok (name, u))
    (hcolon : u.expect .colon = .ok (colon, w))
    (fresh : s.subroutines.any (·.name == name.lexeme) = false)
    (start : blockStart s.indent w = .ok (t, stream)) :
    Follows k n e
      { s with stream := stream, place := .inside name [], indent := some t.lexeme } := by
  obtain ⟨hindent, b, z, hb, hz, hs, he⟩ := hr.outside place
  obtain ⟨b', hsuf, hd, hl⟩ := dropBlank_eq hz hb.no_eof
  obtain ⟨hname, hnk⟩ := Stream.tokens_expect (by decide) ident
  obtain ⟨hcol, hck⟩ := Stream.tokens_expect (by decide) hcolon
  obtain ⟨-, ht, hti⟩ := blockStart_eq_ok start
  rw [Stream.tokens_skipBlankLines, hs, hd] at hname
  obtain ⟨b₁, rfl, hu⟩ := split_code_cons hz (by simp [hnk]) hname
  obtain ⟨b₂, rfl, hw⟩ := split_code_cons hz (by simp [hck]) (hu.symm.trans hcol)
  have hb₂ := (hb.of_suffix hsuf).tail
  obtain ⟨x, c, rfl, hx, hdc⟩ := newLine_of_blockStart hz hb₂ hck hw start
  -- the body starts in the source, so the other run finds the same indent
  obtain ⟨x₁, hx₁⟩ := s.stream.reads_skipBlankLines
  obtain ⟨x₂, hx₂⟩ := forward_blockStart _ _ _ _ start
  have hreads := ((hx₁.trans (Stream.reads_expect (by decide) ident)).trans
    (Stream.reads_expect (by decide) hcolon)).trans hx₂
  obtain ⟨out, hout, hunf⟩ := Unfolds.of_indent hz hb₂.tail.tail hinv.shaped ht hdc
    ((hinv.outside place).reads hinv.nested hreads) (hinv.nested.reads hreads)
  have hline : lines (name :: colon :: x :: c) = ⟨[name, colon], some x⟩ :: lines c :=
    @lines_append_newLine [name, colon] (by simp [hnk, hck]) x hx c
  have hexp : dropBlank e.stream.tokens =
      name :: colon :: x :: (expandLines n s.macros false (lines c) ++ z) := by
    rw [he, ← expandLines_dropWhile, ← hl, hline,
      expandLines_header (Line.isHeader_of_ne (by simp [hnk]) _ _)
        (by simp [Line.isDefinition, hnk])]
    simp
  rw [← Stream.tokens_skipBlankLines] at hexp
  obtain ⟨e₁, he₁, hte₁⟩ := Stream.expect_of_tokens hexp
  obtain ⟨e₂, he₂, hte₂⟩ := Stream.expect_of_tokens hte₁
  rw [hnk] at he₁
  rw [hck] at he₂
  have hblank : dropBlank e₂.tokens = t :: out := by
    rw [hte₂, Stream.dropBlank_newLine hx, hout]
  have hei : ∀ i ∈ e.indent, i = t.lexeme := by
    rcases hindent with hi | hi
    · simp [hi]
    · rw [hi]; exact hti
  obtain ⟨e₃, he₃, hte₃⟩ := blockStart_of_tokens hblank ht hei
  have hstep : Step k e
      { e with stream := e₃, place := .inside name [], indent := some t.lexeme } :=
    .header (hr.place.trans place) he₁ he₂ (by rw [hr.subroutines]; exact fresh) he₃
  refine ⟨_, Or.inr hstep, hr.macros, hr.subroutines, rfl, by simp, fun _ => ⟨rfl, z, hz, ?_⟩⟩
  dsimp only
  rw [hte₃]
  exact hunf

/-- An instruction is read on both sides. -/
theorem follows_operation {k : Nat} {name t : Token} {code : List Instruction} {op : Mnemonic}
    {i : Instruction} {u stream : Stream} (hinv : Inv limit source s) (hr : Related n s e)
    (place : s.place = .inside name code) (next : s.stream.next? = some (t, u))
    (kind : t.kind = .operation op) (read : instruction op u = .ok (i, stream))
    (ends : stream.peek.kind.endsLine = true) :
    Follows k n e { s with stream := stream, place := .inside name (i :: code) } := by
  obtain ⟨hindent, z, hz, hunf⟩ := hr.inside (by simp [place])
  obtain ⟨ts, below, hu, -, hstream⟩ := operation_in_frame hinv next read ends
  have hl := Stream.atLineEnd_frames ends
  rw [hstream] at hl
  obtain ⟨out, hout, hunf'⟩ := hunf.line_of_next? hz next (by rw [kind]; rfl) hu hl
  rw [expandLine_of_kind _ _ _ (by simp [kind]), List.cons_append] at hout
  -- the other run has the same line in front of it
  obtain ⟨eu, heu, hteu⟩ := Stream.next?_of_tokens hout
  have hnot : ∀ x ∈ u.line, x.kind.endsLine = false := fun x hx => Stream.not_ends_of_mem_lineOf hx
  have hline : eu.line = u.line := by
    rw [Stream.line, hteu, Stream.lineOf_append_of_not hnot,
      Stream.lineOf_of_head (hunf'.head hz hl), List.append_nil]
  obtain ⟨operands, hreads, hcongr⟩ := onLine_instruction op u i stream read
  obtain ⟨e', he', hre⟩ := hcongr eu hline
  have hnil := Stream.line_eq_nil_iff.2 ends
  have hends : e'.peek.kind.endsLine = true := by
    rw [← Stream.line_eq_nil_iff, line_congr hline hreads hre, hnil]
  have hte' : e'.tokens = out := by
    have hop : u.line = operands := by rw [hreads.line, hnil, List.append_nil]
    have htok := hre.tokens
    rw [hteu, hop] at htok
    exact (List.append_cancel_left htok).symm
  have hstep : Step k e { e with stream := e', place := .inside name (i :: code) } :=
    .operation (hr.place.trans place) heu kind he' hends
  refine ⟨_, Or.inr hstep, hr.macros, hr.subroutines, rfl, by simp, fun _ => ⟨hindent, z, hz, ?_⟩⟩
  dsimp only
  rw [hstream, hte']
  exact hunf'

/-- A call takes no step on the other side: its expansion is there already. -/
theorem follows_call {k : Nat} {name t : Token} {code : List Instruction} {event : Event}
    {u stream : Stream} (hn : limit ≤ n) (hinv : Inv limit source s) (hr : Related n s e)
    (place : s.place = .inside name code) (next : s.stream.next? = some (t, u))
    (kind : t.kind = .identifier) (read : call limit s.macros t u = .ok (event, stream)) :
    Follows k n e { s with stream := stream, log := event :: s.log } := by
  obtain ⟨hindent, z, hz, hunf⟩ := hr.inside (by simp [place])
  obtain ⟨m, args, w, ts, below, hm, ha, hu, hreads, hw, hdw, hd, hl, rfl, hshape, -⟩ :=
    call_in_frame hinv next read
  rw [hw] at hl
  obtain ⟨out, hout, hunf'⟩ := hunf.line_of_next? hz next (by rw [kind]; rfl) hu hl
  refine ⟨e, Or.inl rfl, hr.macros, hr.subroutines, hr.place, by simp [place],
    fun _ => ⟨hindent, z, hz, ?_⟩⟩
  obtain ⟨-, -, hargs, -⟩ := arguments_eq_ok ha
  have hfuel : n - u.depth = n - (u.depth + 1) + 1 := by omega
  rw [hfuel, expandLine_call _ _ kind hm, ← hargs] at hout
  have hnest := hinv.nested.reads ((Stream.reads_next? next).trans hreads)
  rw [hw] at hnest
  have hdepth : u.depth = below.length := hnest.depth_eq
  have hframes : (w.insert (m.expand args)).frames =
      ⟨m.expand args, (Frame.mk ts u.depth :: below).length⟩ :: ⟨ts, u.depth⟩ :: below := by
    rw [Stream.insert, hw, hdw, List.length_cons, hdepth]
  dsimp only
  rw [hframes]
  refine .expansion hshape.lined.no_eof hunf' ?_
  rw [hout, List.length_cons, hdepth]
  rfl

/-- A line break comes from the source, with the rest of the program behind it,
or from an expansion, with another line of code behind it. -/
theorem Related.newLine {name t : Token} {code : List Instruction} {u : Stream}
    (hinv : Inv limit source s) (hr : Related n s e) (place : s.place = .inside name code)
    (next : s.stream.next? = some (t, u)) (kind : t.kind = .newLine) : ∃ z eu, Ending z ∧
      e.stream.next? = some (t, eu) ∧
      ((AtSource u ∧ ∃ b, Scanned b ∧ u.tokens = b ++ z ∧
        eu.tokens = expandLines n s.macros false (lines b) ++ z) ∨
      ∃ i x xs below out, i.kind = .indent ∧ x.kind.endsLine = false ∧
        (∀ y ∈ x :: xs, y.kind ≠ .eof) ∧ AtLineEnd below ∧ u.depth = below.length ∧
        u.frames = ⟨i :: x :: xs, u.depth⟩ :: below ∧ Unfolds n s.macros z below out ∧
        dropBlank u.tokens = u.tokens ∧
        eu.tokens = i :: (expandCode s.macros (n - u.depth) (x :: xs) ++ out)) := by
  obtain ⟨-, z, hz, hunf⟩ := hr.inside (by simp [place])
  obtain ⟨ts, below, hu, hunf'⟩ := hunf.next? next
  rcases hunf'.newLine hz kind with ⟨rfl, b, hb, rfl, hout⟩ | ⟨out, hcode, hd, hbelow, hout⟩
  · obtain ⟨eu, heu, hteu⟩ := Stream.next?_of_tokens hout
    refine ⟨z, eu, hz, heu, Or.inl ⟨Or.inl (by rw [hu]; rfl), b, hb, ?_, hteu⟩⟩
    rw [Stream.tokens_eq, hu]
    exact List.append_nil _
  · obtain ⟨eu, heu, hteu⟩ := Stream.next?_of_tokens hout
    obtain ⟨ts', below', hu', hnest⟩ := hinv.next? next
    rw [hu, List.cons.injEq, Frame.mk.injEq] at hu'
    obtain ⟨⟨rfl, -⟩, rfl⟩ := hu'
    have hends := hnest.ends
    have hlined : Lined s.indent (t :: ts) := by
      generalize u.depth = d at hnest
      cases hnest with
      | source suffix => exact absurd rfl hbelow.ne_nil
      | expansion lined ends below => exact lined
    obtain ⟨i, x, xs, rfl, hi, hx, hb⟩ := dropBlank_of_lined hlined kind (Frame.flat below)
    refine ⟨z, eu, hz, heu, Or.inr ⟨i, x, xs, below, out, hi, hx,
      fun y hy => hcode y (List.mem_cons_of_mem _ hy), hends, hd, hu, hbelow, ?_, ?_⟩⟩
    · rw [Stream.tokens_eq, hu]
      exact hb
    · rw [hteu, (Unfolds.rewrites_code s.macros _).indent hi]
      rfl

/-- A line break with another line of the body behind it is read on both
sides. -/
theorem follows_goOn {k : Nat} {name t i : Token} {code : List Instruction} {u stream : Stream}
    (hinv : Inv limit source s) (hr : Related n s e) (place : s.place = .inside name code)
    (next : s.stream.next? = some (t, u)) (kind : t.kind = .newLine)
    (read : blockContinues s.indent u = .ok (some i, stream)) :
    Follows k n e { s with stream := stream, indent := some i.lexeme } := by
  obtain ⟨hindent, -⟩ := hr.inside (by simp [place])
  obtain ⟨hd, hi, hlex⟩ := blockContinues_eq_some read
  obtain ⟨taken, hreads⟩ := forward_blockContinues _ _ _ _ read
  obtain ⟨z, eu, hz, heu, hcases⟩ := hr.newLine hinv place next kind
  rw [← hindent] at hlex
  -- on both sides the indent is followed by the same line, expanded or not
  suffices h : ∃ out, dropBlank eu.tokens = i :: out ∧ Unfolds n s.macros z stream.frames out by
    obtain ⟨out, hout, hunf⟩ := h
    obtain ⟨e', he', hte'⟩ := blockContinues_of_indent hout hi hlex
    have hstep : Step k e { e with stream := e', indent := some i.lexeme } :=
      .goOn (hr.place.trans place) heu kind he'
    refine ⟨_, Or.inr hstep, hr.macros, hr.subroutines, hr.place, by simp [place],
      fun _ => ⟨rfl, z, hz, ?_⟩⟩
    dsimp only
    rw [hte']
    exact hunf
  rcases hcases with ⟨hsrc, b, hb, hu, hteu⟩ | ⟨j, x, xs, below, out, hj, hx, hcode, hends, hdep,
    hu, hbelow, hdu, hteu⟩
  · rw [hu] at hd
    rw [hteu]
    have hnest := hinv.nested.reads (Stream.reads_next? next)
    exact Unfolds.of_indent hz hb hinv.shaped hi hd (hsrc.reads hnest hreads) (hnest.reads hreads)
  · obtain ⟨y, ys, hy, hye⟩ := rewriteLines_starts
      (fun _ _ hl => expandLine_starts hinv.shaped (n - u.depth) hl)
      (rewriteAll (expandLine s.macros (n - u.depth))) hcode hx
    have hline : ReadsLine u [i] stream := by
      have htok := Stream.tokens_of_reads hreads
      rw [← hdu, hd, ← List.singleton_append] at htok
      exact ⟨taken, hreads, (List.append_cancel_right htok).symm,
        by simp [hi, Token.Kind.endsLine]⟩
    obtain ⟨ts', hts, hframes, -, -⟩ := Stream.frames_of_readsLine hu hends hline
    rw [List.cons_append, List.nil_append, List.cons.injEq] at hts
    obtain ⟨rfl, rfl⟩ := hts
    refine ⟨expandCode s.macros (n - u.depth) (x :: xs) ++ out, ?_, ?_⟩
    · rw [hteu, expandCode, hy]
      exact Stream.dropBlank_of_not (Stream.startsBlank_of_not_ends _ hi hye)
    · rw [hframes, hdep]
      exact .expansion hcode hbelow rfl

/-- A body that ends at a line break ends on both sides. -/
theorem follows_leave {k : Nat} {name t : Token} {code : List Instruction} {u stream : Stream}
    (hinv : Inv limit source s) (hr : Related n s e) (place : s.place = .inside name code)
    (next : s.stream.next? = some (t, u)) (kind : t.kind = .newLine)
    (read : blockContinues s.indent u = .ok (none, stream)) :
    Follows k n e (s.close name code stream) := by
  obtain ⟨hindent, -⟩ := hr.inside (by simp [place])
  obtain ⟨hs, hne⟩ := blockContinues_eq_none read
  obtain ⟨z, eu, hz, heu, hcases⟩ := hr.newLine hinv place next kind
  rcases hcases with ⟨-, b, hb, hu, hteu⟩ | ⟨i, x, xs, below, out, hi, -, -, -, -, hu, -, hdu, -⟩
  · obtain ⟨b', hsuf, hd, hl⟩ := dropBlank_eq hz hb.no_eof
    rw [hs, hu] at hne
    have hexp : dropBlank eu.tokens = expandLines n s.macros true (lines b) ++ z := by
      rw [hteu, dropBlank_expandLines_of_not_indent hz hb.no_eof hinv.shaped hne]
    have hhead : ∀ t ∈ (dropBlank eu.tokens).head?, t.kind ≠ .indent := by
      rw [hexp]
      exact fun t ht => (head_expandLines hz (fun l hl x hx => (mem_of_mem_lines hl hx).2) t ht).2
    obtain ⟨e', he', hte'⟩ := blockContinues_of_not_indent e.indent hhead
    have hstep : Step k e (e.close name code e') := .leave (hr.place.trans place) heu kind he'
    refine ⟨_, Or.inr hstep, hr.macros, ?_, rfl, fun _ => ⟨Or.inr hindent, b', z,
      hb.of_suffix hsuf, hz, ?_, ?_⟩, fun hp => absurd rfl hp⟩
    · exact congrArg (_ :: ·) hr.subroutines
    · show stream.tokens = b' ++ z
      rw [hs, hu, hd]
    · show dropBlank e'.tokens = expandLines n s.macros true (lines b') ++ z
      rw [hte', Stream.dropBlank_dropBlank, hexp, hl, expandLines_dropWhile]
  · -- in an expansion another line follows
    rw [hs, hdu, Stream.tokens_eq, hu] at hne
    exact absurd hi (hne i rfl)

/-- So does a body at the end of the program. -/
theorem follows_eof {k : Nat} {name : Token} {code : List Instruction} (hr : Related n s e)
    (place : s.place = .inside name code) (kind : s.stream.peek.kind = .eof) :
    Follows k n e (s.close name code s.stream.advance.2) := by
  obtain ⟨hindent, z, hz, hunf⟩ := hr.inside (by simp [place])
  obtain ⟨hs, he⟩ := hunf.ending (by
    intro t ht
    rw [← Stream.tokens_eq] at ht
    obtain ⟨ts, hts⟩ := List.head?_eq_some_iff.1 ht
    rwa [Stream.peek_of_tokens hts] at kind)
  rw [← Stream.tokens_eq] at hs
  have hkind : e.stream.peek.kind = .eof := hz.peek he
  have hstep : Step k e (e.close name code e.stream.advance.2) :=
    .eof (hr.place.trans place) hkind
  refine ⟨_, Or.inr hstep, hr.macros, ?_, rfl, fun _ => ⟨Or.inr hindent, [], [], ?_⟩,
    fun hp => absurd rfl hp⟩
  · exact congrArg (_ :: ·) hr.subroutines
  · refine ⟨.nil, Or.inl rfl, hz.advance hs, ?_⟩
    show dropBlank e.stream.advance.2.tokens = _
    rw [hz.advance he]
    rfl

/-! ## Whole runs -/

/-- The other run keeps up with every step. -/
theorem related_step {k : Nat} (hn : limit ≤ n) (hinv : Inv limit source s) (hr : Related n s e)
    (h : Step limit s v) : Follows k n e v := by
  cases h with
  | define place read fresh => exact follows_define hr place read
  | header place ident colon fresh start =>
    exact follows_header hinv hr place ident colon fresh start
  | goOn place next kind read => exact follows_goOn hinv hr place next kind read
  | leave place next kind read => exact follows_leave hinv hr place next kind read
  | operation place next kind read ends =>
    exact follows_operation hinv hr place next kind read ends
  | call place next kind read => exact follows_call hn hinv hr place next kind read
  | eof place kind => exact follows_eof hr place kind

/-- Where a run is complete, nothing is left to be expanded. -/
theorem Related.peek_eof (hr : Related n s e) (place : s.place = .outside)
    (kind : s.stream.skipBlankLines.peek.kind = .eof) :
    e.stream.skipBlankLines.peek.kind = .eof := by
  obtain ⟨-, b, z, hb, hz, hs, he⟩ := hr.outside place
  obtain ⟨b', hsuf, hd, hl⟩ := dropBlank_eq hz hb.no_eof
  have hskip : s.stream.skipBlankLines.tokens = b' ++ z := by
    rw [Stream.tokens_skipBlankLines, hs, hd]
  cases b' with
  | nil =>
    have htok : e.stream.skipBlankLines.tokens = z := by
      rw [Stream.tokens_skipBlankLines, he, ← expandLines_dropWhile, ← hl]
      rfl
    exact hz.peek htok
  | cons t ts =>
    rw [Stream.peek_of_tokens hskip] at kind
    exact absurd kind (hb.no_eof t (hsuf.subset List.mem_cons_self))

/-- A run that ends with a program does so on both sides, with the same
subroutines. -/
theorem finishes_of_related {k : Nat} {p : Program} (hn : limit ≤ n) (h : Finishes limit s p)
    (hinv : Inv limit source s) (hr : Related n s e) :
    ∃ q, Finishes k e q ∧ q.subroutines = p.subroutines ∧ q.macros = .empty := by
  induction h generalizing e with
  | @here s place kind =>
    refine ⟨e.program, .here (hr.place.trans place) (hr.peek_eof place kind), ?_, hr.macros⟩
    rw [State.program, State.program, hr.subroutines]
  | later step rest ih =>
    obtain ⟨e', hstep, hr'⟩ := related_step hn hinv hr step
    obtain ⟨q, hq, hsubs, hmacros⟩ := ih (inv_step hinv step) hr'
    rcases hstep with rfl | hstep
    · exact ⟨q, hq, hsubs, hmacros⟩
    · exact ⟨q, .later hstep hq, hsubs, hmacros⟩

/-- No block stands where a run goes on between definitions. -/
theorem Finishes.not_indent {p : Program} (h : Finishes limit s p) (hp : s.place = .outside) :
    ∀ t ∈ (dropBlank s.stream.tokens).head?, t.kind ≠ .indent := by
  intro t ht
  rw [← Stream.tokens_skipBlankLines] at ht
  obtain ⟨ts, hts⟩ := List.head?_eq_some_iff.1 ht
  have hpeek := Stream.peek_of_tokens hts
  cases h with
  | here place kind =>
    rw [hpeek] at kind
    simp [kind]
  | later step rest =>
    cases step with
    | define place read fresh =>
      obtain ⟨⟨x, u⟩, hx, -⟩ := bind_eq_ok.1 read
      obtain ⟨hxp, hxk⟩ := peek_of_expect hx
      rw [← hpeek, hxp, hxk]
      decide
    | header place ident colon fresh start =>
      obtain ⟨hxp, hxk⟩ := peek_of_expect ident
      rw [← hpeek, hxp, hxk]
      decide
    | goOn place => rw [hp] at place; cases place
    | leave place => rw [hp] at place; cases place
    | operation place => rw [hp] at place; cases place
    | call place => rw [hp] at place; cases place
    | eof place => rw [hp] at place; cases place

theorem expandMacros_append {n : Nat} {code : List Token} {last : Token}
    (hc : ∀ t ∈ code, t.kind ≠ .eof) (hl : last.kind = .eof) :
    expandMacros n (code ++ [last]) = expandLines n .empty false (lines code) ++ [last] := by
  have hc' : ∀ t ∈ code, (t.kind != .eof) = true := fun t ht => by simpa using hc t ht
  have hl' : (last.kind != .eof) = false := by simp [hl]
  rw [expandMacros, List.takeWhile_append_of_pos hc', List.dropWhile_append_of_pos hc',
    List.takeWhile_cons, List.dropWhile_cons, hl']
  simp

/-- The two runs start at counterparts. -/
theorem related_ofTokens {code : List Token} {last : Token} {p : Program} (hc : Scanned code)
    (hl : last.kind = .eof) (h : Finishes limit (.ofTokens (code ++ [last])) p) :
    Related n (.ofTokens (code ++ [last])) (.ofTokens (expandMacros n (code ++ [last]))) := by
  have hz : Ending [last] := Or.inr ⟨last, hl, rfl⟩
  have hne := h.not_indent rfl
  have htok (ts : List Token) : (State.ofTokens ts).stream.tokens = ts := Stream.tokens_ofTokens ts
  rw [htok] at hne
  refine ⟨rfl, rfl, rfl, fun _ => ⟨Or.inl rfl, code, [last], hc, hz, htok _, ?_⟩,
    fun hp => absurd rfl hp⟩
  rw [htok, expandMacros_append hc.no_eof hl]
  exact dropBlank_expandLines_of_not_indent hz hc.no_eof (by simp) hne

/-- Linking looks at nothing but the subroutines. -/
theorem link_eq_of_subroutines {p q : Program} (h : q.subroutines = p.subroutines) :
    q.link = p.link := by
  obtain ⟨subs, macros⟩ := p
  obtain ⟨subs', macros'⟩ := q
  subst h
  rfl

/-- Macros are transparent. Where a text is read as a program, the text with all
its macros expanded beforehand is read as one with the same subroutines, whatever
the limit then is, so it is linked to the same image or fails with the same
error. It is enough to follow calls as deep as the first limit allows. -/
theorem transparent_expandMacros {config : Config} {text : String} {tokens : List Token}
    {p : Program} (hscan : scan text = .ok tokens)
    (hread : (ofTokens config.maxDepth tokens).result = .ok p) {n : Nat}
    (hn : config.maxDepth ≤ n) (limit : Nat) :
    ∃ q, (ofTokens limit (expandMacros n tokens)).result = .ok q ∧
      q.subroutines = p.subroutines ∧ q.macros = .empty ∧ q.link = p.link := by
  obtain ⟨code, last, rfl, hl, hc⟩ := scan_eq_ok hscan
  have hfin := result_run_iff.1 hread
  obtain ⟨q, hq, hsubs, hmacros⟩ :=
    finishes_of_related hn hfin (inv_ofTokens config.maxDepth _) (related_ofTokens hc hl hfin)
  exact ⟨q, hq.result_eq, hsubs, hmacros, link_eq_of_subroutines hsubs⟩

-- a body of two lines, and a macro that is named by an argument
example :
    (scan "@macro leap(x): JMP x\n@macro twice(f, y):\n  f y\n  f y\nmain:\n  twice leap, main").map
        (fun tokens => (expandMacros 2 tokens).map Token.lexeme) =
    .ok ["main", ":", "\n", "  ", "JMP", "main", "\n", "  ", "JMP", "main", ""] := by decide +kernel

/-- The text of the macro that calls the one it is given. -/
def callThroughText : String :=
  "@macro leap(x): JMP x\n@macro apply(f, y): f y\nmain:\n  apply leap, main\n"

/-- Both of its calls are gone, and the jump is left, without a limit to reach. -/
theorem transparent_expandMacros_callThrough :
    scan callThroughText = .ok callThrough ∧
    expandMacros 64 callThrough =
      [⟨.identifier, "main", 3⟩, ⟨.colon, ":", 3⟩, ⟨.newLine, "\n", 3⟩, ⟨.indent, "  ", 4⟩,
        ⟨.operation .jmp, "JMP", 1⟩, ⟨.identifier, "main", 4⟩, ⟨.newLine, "\n", 4⟩,
        ⟨.eof, "", 5⟩] ∧
    ∃ q, (ofTokens 0 (expandMacros 64 callThrough)).result = .ok q ∧
      q.subroutines = [⟨"main", 3, [.jmp (some ⟨"main", 4⟩)]⟩] ∧ q.macros = .empty := by
  have hscan : scan callThroughText = .ok callThrough := by decide +kernel
  have hlast : (State.after 64 7 (.ofTokens callThrough)).map
      (fun s => (s.place, s.stream.skipBlankLines.peek.kind, s.subroutines)) =
        some (.outside, .eof, [⟨"main", 3, [.jmp (some ⟨"main", 4⟩)]⟩]) := by decide +kernel
  obtain ⟨s, hs, hv⟩ := Option.map_eq_some_iff.1 hlast
  simp only [Prod.mk.injEq] at hv
  obtain ⟨hplace, hkind, hsubs⟩ := hv
  have hfin := Finishes.of_reflTransGen (reflTransGen_of_after hs) (.here hplace hkind)
  have hread : (ofTokens (Config.mk 64).maxDepth callThrough).result = .ok s.program :=
    hfin.result_eq
  obtain ⟨q, hq, hqs, hqm, -⟩ := transparent_expandMacros hscan hread (Nat.le_refl 64) 0
  refine ⟨hscan, by decide +kernel, q, hq, ?_, hqm⟩
  rw [hqs, State.program, hsubs]
  rfl

end IndentAsm.Parse
