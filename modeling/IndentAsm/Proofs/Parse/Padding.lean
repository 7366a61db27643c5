import IndentAsm.Parse.Run
import IndentAsm.Proofs.Image.Renumber
import IndentAsm.Proofs.Token.Padding

/-!
# Reading between blank lines

A reader gives the same for a stream and for the stream with blank lines put in, on
renumbered lines: the same value, or the same error (`Matches`), and streams that again
differ in blank lines only (`Tracks`). Readers that stay in a line do not meet a blank line
at all. Those that go on behind a line break, at the start of a block and between its lines,
skip blank lines first. So a step of the reader of programs does the same on both sides,
and so does a whole run.

**Results.**
* `tracks_instruction`, `tracks_definition`, `matches_call`: the readers of which a step is made.
* `matches_step`: a step with blank lines put in.
* `matches_run`: a run with blank lines put in reads the same subroutines, or stops at the
  same error.
-/
namespace IndentAsm

def ParseError.mapLine (f : Nat → Nat) : ParseError → ParseError
  | expected what found => expected what (found.mapLine f)
  | unexpected found => unexpected (found.mapLine f)
  | invalidIndent indent => invalidIndent (indent.mapLine f)
  | invalidNumber literal => invalidNumber (literal.mapLine f)
  | numberTooLarge width literal => numberTooLarge width (literal.mapLine f)
  | unterminatedCall name found => unterminatedCall (name.mapLine f) (found.mapLine f)
  | macroArity name params args => macroArity (name.mapLine f) params args
  | macroDepth name limit => macroDepth (name.mapLine f) limit
  | duplicateSubroutine name => duplicateSubroutine (name.mapLine f)
  | duplicateMacro line name => duplicateMacro (f line) name
  | unsupportedInclude directive => unsupportedInclude (directive.mapLine f)

namespace Macro

def mapLine (f : Nat → Nat) (m : Macro) : Macro :=
  { m with line := f m.line, body := m.body.map (Token.mapLine f) }

theorem argument?_map {f : Token → Token} (hkind : ∀ t, (f t).kind = t.kind)
    (hname : ∀ t, t.kind = .identifier → (f t).lexeme = t.lexeme) {m m' : Macro}
    (hparams : m'.params = m.params) (args : List Token) (t : Token) :
    m'.argument? (args.map f) (f t) = (m.argument? args t).map f := by
  by_cases hk : t.kind = .identifier
  · simp only [argument?, hkind, hk, hname, hparams, if_true]
    cases m.params.idxOf? t.lexeme with
    | none => rfl
    | some i => simp
  · simp [argument?, hkind, hk]

/-- A change of tokens that keeps their kinds and names can be made before or after a macro is
expanded. -/
theorem expand_map {f : Token → Token} (hkind : ∀ t, (f t).kind = t.kind)
    (hname : ∀ t, t.kind = .identifier → (f t).lexeme = t.lexeme) (m m' : Macro)
    (hparams : m'.params = m.params) (hbody : m'.body = m.body.map f) (args : List Token) :
    m'.expand (args.map f) = (m.expand args).map f := by
  rw [expand, expand, hbody, List.map_map, List.map_map]
  refine List.map_congr_left fun t _ => ?_
  simp only [Function.comp_apply, argument?_map hkind hname hparams]
  cases m.argument? args t <;> rfl

/-- Tokens of the body and arguments keep the lines they stand on. -/
theorem expand_mapLine (f : Nat → Nat) (m : Macro) (args : List Token) :
    (m.mapLine f).expand (args.map (Token.mapLine f)) = (m.expand args).map (Token.mapLine f) :=
  expand_map (Token.kind_mapLine f) (fun t _ => Token.lexeme_mapLine f t) m (m.mapLine f) rfl rfl
    args

end Macro

namespace Parse

variable {f : Nat → Nat}

/-! ## The same value or the same error -/

/-- Two outcomes: related values, or the same error on renumbered lines. -/
inductive Matches {α β : Type} (f : Nat → Nat) (R : α → β → Prop) :
    Except ParseError α → Except ParseError β → Prop where
  | ok {a : α} {b : β} (h : R a b) : Matches f R (.ok a) (.ok b)
  | error (e : ParseError) : Matches f R (.error e) (.error (e.mapLine f))

namespace Matches

variable {α β γ δ : Type} {R : α → β → Prop} {S : γ → δ → Prop} {x : Except ParseError α}
  {y : Except ParseError β}

theorem bind {k : α → Except ParseError γ} {l : β → Except ParseError δ} (h : Matches f R x y)
    (hk : ∀ a b, R a b → Matches f S (k a) (l b)) : Matches f S (x >>= k) (y >>= l) := by
  cases h with
  | ok hab => exact hk _ _ hab
  | error e => exact .error e

theorem map {g : α → γ} {g' : β → δ} (h : Matches f R x y) (hg : ∀ a b, R a b → S (g a) (g' b)) :
    Matches f S (x.map g) (y.map g') := by
  cases h with
  | ok hab => exact .ok (hg _ _ hab)
  | error e => exact .error e

theorem error_left {e : ParseError} (h : Matches f R (.error e) y) : y = .error (e.mapLine f) := by
  cases h
  rfl

theorem ok_left {a : α} (h : Matches f R (.ok a) y) : ∃ b, y = .ok b ∧ R a b := by
  cases h with
  | ok hab => exact ⟨_, rfl, hab⟩

end Matches

/-- What is read from a stream and from a padded one: the value, changed by `g`, and streams
that differ in blank lines again. -/
structure Alike {α : Type} (f : Nat → Nat) (g : α → α) (p p' : α × Stream) : Prop where
  value : p'.1 = g p.1
  stream : p.2.Padded f false p'.2

/-- A reader that takes the same from a stream and from a padded one. -/
def Tracks {α : Type} (f : Nat → Nat) (g : α → α)
    (read : Stream → Except ParseError (α × Stream)) : Prop :=
  ∀ s s' : Stream, s.Padded f false s' → Matches f (Alike f g) (read s) (read s')

/-- What is made of the value that a reader gives. -/
theorem Tracks.map {α β : Type} {g : α → α} {g' : β → β}
    {read : Stream → Except ParseError (α × Stream)} (h : Tracks f g read) (k : α → β)
    (hk : ∀ a, k (g a) = g' (k a)) :
    Tracks f g' fun s => read s >>= fun p => .ok (k p.1, p.2) := by
  intro s s' hs
  refine (h s s' hs).bind ?_
  rintro ⟨a, u⟩ ⟨_, u'⟩ ⟨rfl, hu⟩
  exact .ok ⟨hk a, hu⟩

theorem matches_expect (kind : Token.Kind) (hk : kind ≠ .newLine) {s s' : Stream}
    (hs : s.Padded f false s') :
    Matches f (Alike f (Token.mapLine f))
      (s.expect kind) (s'.expect kind) := by
  unfold Stream.expect
  rw [hs.check, hs.peek]
  split
  · rename_i hc
    refine .ok ⟨?_, hs.advance_of_check hc hk⟩
    rw [Stream.fst_advance, Stream.fst_advance, hs.peek]
  · exact .error _

/-! ## Operands -/

theorem matches_numberOf (width : Width) (t : Token) :
    Matches f (fun n n' => n' = n) (numberOf width t) (numberOf width (t.mapLine f)) := by
  unfold numberOf
  rw [Token.lexeme_mapLine]
  split
  · exact .error (.invalidNumber t)
  · exact .error (.numberTooLarge width t)
  · split
    · exact .ok rfl
    · exact .error (.numberTooLarge width t)

theorem tracks_number (width : Width) : Tracks f id (number width) := by
  intro s s' hs
  refine (matches_expect .number (by decide) hs).bind ?_
  rintro ⟨t, u⟩ ⟨_, u'⟩ ⟨rfl, hu⟩
  refine (matches_numberOf width t).bind ?_
  rintro n _ rfl
  exact .ok ⟨rfl, hu⟩

theorem tracks_register : Tracks f id register := by
  intro s s' hs
  unfold register
  simp only [hs.peek, Token.kind_mapLine]
  split
  · rename_i r hr
    exact .ok ⟨rfl, hs.advance (by simp [hr])⟩
  · exact .error (.expected .register s.peek)

theorem tracks_source : Tracks f id source := by
  intro s s' hs
  unfold source
  simp only [hs.peek, Token.kind_mapLine]
  split
  · rename_i r hr
    exact .ok ⟨rfl, hs.advance (by simp [hr])⟩
  · exact (tracks_number .byte).map Source.immediate (fun _ => rfl) s s' hs
  · exact .error (.expected .source s.peek)

theorem tracks_label : Tracks f (Label.mapLine f) label := by
  intro s s' hs
  refine (matches_expect .identifier (by decide) hs).bind ?_
  rintro ⟨t, u⟩ ⟨_, u'⟩ ⟨rfl, hu⟩
  exact .ok ⟨rfl, hu⟩

theorem tracks_address : Tracks f (Address.mapLine f) address := by
  intro s s' hs
  unfold address
  simp only [hs.peek, Token.kind_mapLine]
  split
  · rename_i hk
    exact .ok ⟨rfl, hs.advance (by simp [hk])⟩
  · exact (tracks_number .word).map Address.immediate (fun _ => rfl) s s' hs
  · exact tracks_label.map Address.label (fun _ => rfl) s s' hs
  · exact .error (.expected .address s.peek)

theorem tracks_target : Tracks f (Option.map (Label.mapLine f)) target := by
  intro s s' hs
  unfold target
  rw [hs.check]
  split
  · exact tracks_label.map some (fun _ => rfl) s s' hs
  · exact .ok ⟨rfl, hs⟩

theorem tracks_access : Tracks f id access := by
  intro s s' hs
  refine (tracks_register s s' hs).bind ?_
  rintro ⟨_, u⟩ ⟨r, u'⟩ ⟨rfl, hu⟩
  dsimp only
  rw [hu.check]
  split
  · rename_i hc
    exact (tracks_number .word).map (fun n => (r, some n)) (fun _ => rfl) _ _
      (hu.advance_of_check hc (by decide))
  · exact .ok ⟨rfl, hu⟩

theorem tracks_transfer : Tracks f id transfer := by
  intro s s' hs
  refine (tracks_register s s' hs).bind ?_
  rintro ⟨_, u⟩ ⟨r, u'⟩ ⟨rfl, hu⟩
  refine (matches_expect .comma (by decide) hu).bind ?_
  rintro ⟨_, v⟩ ⟨_, v'⟩ ⟨-, hv⟩
  exact tracks_source.map (fun src => (r, src)) (fun _ => rfl) v v' hv

theorem tracks_instruction (op : Mnemonic) :
    Tracks f (Instruction.mapLine f) (instruction op) := by
  cases op with
  | nop | hlt => exact fun s s' hs => .ok ⟨rfl, hs⟩
  | lw => exact tracks_access.map (fun p => Instruction.lw p.1 p.2) fun _ => rfl
  | sw => exact tracks_access.map (fun p => Instruction.sw p.1 p.2) fun _ => rfl
  | mw => exact tracks_transfer.map (fun p => Instruction.mw p.1 p.2) fun _ => rfl
  | add => exact tracks_transfer.map (fun p => Instruction.add p.1 p.2) fun _ => rfl
  | sub => exact tracks_transfer.map (fun p => Instruction.sub p.1 p.2) fun _ => rfl
  | push => exact tracks_source.map Instruction.push fun _ => rfl
  | tel => exact tracks_source.map Instruction.tel fun _ => rfl
  | out => exact tracks_source.map Instruction.out fun _ => rfl
  | pop => exact tracks_register.map Instruction.pop fun _ => rfl
  | lda => exact tracks_address.map Instruction.lda fun _ => rfl
  | jmp => exact tracks_target.map Instruction.jmp fun _ => rfl
  | jo => exact tracks_target.map Instruction.jo fun _ => rfl
  | jz =>
    intro s s' hs
    refine (tracks_register s s' hs).bind ?_
    rintro ⟨_, u⟩ ⟨r, u'⟩ ⟨rfl, hu⟩
    exact tracks_target.map (Instruction.jz r) (fun _ => rfl) u u' hu

/-! ## Blocks and definitions -/

theorem matches_checkIndent (indent : Option String) (t : Token) :
    Matches f (fun _ _ => True) (checkIndent indent t) (checkIndent indent (t.mapLine f)) := by
  unfold checkIndent
  rw [Token.lexeme_mapLine]
  split
  · exact .ok trivial
  · exact .error (.invalidIndent t)

/-- A block starts behind any blank lines. -/
theorem matches_blockStart (indent : Option String) {atBreak : Bool} {s s' : Stream}
    (hs : s.Padded f atBreak s') :
    Matches f (Alike f (Token.mapLine f))
      (blockStart indent s) (blockStart indent s') := by
  refine (matches_expect .indent (by decide) hs.skipBlankLines).bind ?_
  rintro ⟨t, u⟩ ⟨_, u'⟩ ⟨rfl, hu⟩
  refine (matches_checkIndent indent t).bind fun _ _ _ => ?_
  exact .ok ⟨rfl, hu⟩

/-- A block goes on, or ends, behind any blank lines. -/
theorem matches_blockContinues (indent : Option String) {atBreak : Bool} {s s' : Stream}
    (hs : s.Padded f atBreak s') :
    Matches f (Alike f (Option.map (Token.mapLine f)))
      (blockContinues indent s) (blockContinues indent s') := by
  have hskip := hs.skipBlankLines
  unfold blockContinues
  dsimp only
  rw [hskip.check, hskip.peek]
  split
  · rename_i hc
    refine (matches_checkIndent indent _).bind fun _ _ _ => ?_
    exact .ok ⟨rfl, hskip.advance_of_check hc (by decide)⟩
  · exact .ok ⟨rfl, hskip⟩

theorem inlineBody_of_none {s : Stream} (h : s.next? = none) (body : Array Token) :
    inlineBody s body = (body.toList, s) := by
  rw [inlineBody]; split <;> simp_all

theorem inlineBody_of_some {s u : Stream} {t : Token} (h : s.next? = some (t, u))
    (body : Array Token) : inlineBody s body =
      if t.kind.endsLine then (body.toList, s) else inlineBody u (body.push t) := by
  rw [inlineBody]; split <;> simp_all

theorem alike_inlineBody {s s' : Stream} (hs : s.Padded f false s') (body : Array Token) :
    Alike f (List.map (Token.mapLine f)) (inlineBody s body)
      (inlineBody s' (body.map (Token.mapLine f))) := by
  fun_induction inlineBody s body generalizing s' with
  | case1 s body hn =>
    rw [inlineBody_of_none (hs.next?_of_none hn)]
    exact ⟨by simp, hs⟩
  | case2 s body t u hn hk =>
    obtain ⟨u', hn', -⟩ := hs.next?_of_some hn
    rw [inlineBody_of_some hn', Token.kind_mapLine, if_pos hk]
    exact ⟨by simp, hs⟩
  | case3 s body t u hn hk ih =>
    obtain ⟨u', hn', hu⟩ := hs.next?_of_some hn
    have hne : t.kind ≠ .newLine := fun h => hk (Token.Kind.endsLine_iff.2 (Or.inl h))
    rw [isBreak_of_ne hne] at hu
    rw [inlineBody_of_some hn', Token.kind_mapLine, if_neg hk, ← Array.map_push]
    exact ih hu

theorem blockBody_of_none {s : Stream} (h : s.next? = none) (indent : Option String)
    (body : Array Token) : blockBody indent s body = .ok (body.toList, s) := by
  rw [blockBody]; split <;> simp_all

theorem blockBody_of_some {s u : Stream} {t : Token} (h : s.next? = some (t, u))
    (indent : Option String) (body : Array Token) : blockBody indent s body =
      if t.kind = .eof then .ok (body.toList, s)
      else if t.kind = .newLine then do
        let (next, v) ← blockContinues indent u
        match next with
        | none => .ok (body.toList, v)
        | some i => blockBody indent v ((body.push t).push i)
      else blockBody indent u (body.push t) := by
  rw [blockBody]
  split
  · simp_all
  · rename_i t' u' h'
    cases h.symm.trans h'
    split
    · rfl
    · split
      · split <;> simp [*, bind, Except.bind]
      · rfl

theorem matches_blockBody (indent : Option String) {s s' : Stream} (hs : s.Padded f false s')
    (body : Array Token) :
    Matches f (Alike f (List.map (Token.mapLine f)))
      (blockBody indent s body) (blockBody indent s' (body.map (Token.mapLine f))) := by
  fun_induction blockBody indent s body generalizing s' with
  | case1 s body hn =>
    rw [blockBody_of_none (hs.next?_of_none hn)]
    exact .ok ⟨by simp, hs⟩
  | case2 s body t u hn hk =>
    obtain ⟨u', hn', -⟩ := hs.next?_of_some hn
    rw [blockBody_of_some hn', Token.kind_mapLine, if_pos hk]
    exact .ok ⟨by simp, hs⟩
  | case3 s body t u hn hk he e hc =>
    obtain ⟨u', hn', hu⟩ := hs.next?_of_some hn
    have hm := (hc ▸ matches_blockContinues indent hu).error_left
    rw [blockBody_of_some hn', Token.kind_mapLine, if_neg hk, if_pos he, hm]
    exact .error e
  | case4 s body t u hn hk he v hc =>
    obtain ⟨u', hn', hu⟩ := hs.next?_of_some hn
    obtain ⟨⟨_, v'⟩, hm, rfl, hv⟩ := (hc ▸ matches_blockContinues indent hu).ok_left
    rw [blockBody_of_some hn', Token.kind_mapLine, if_neg hk, if_pos he, hm]
    exact .ok ⟨by simp, hv⟩
  | case5 s body t u hn hk he i v hc ih =>
    obtain ⟨u', hn', hu⟩ := hs.next?_of_some hn
    obtain ⟨⟨_, v'⟩, hm, rfl, hv⟩ := (hc ▸ matches_blockContinues indent hu).ok_left
    rw [blockBody_of_some hn', Token.kind_mapLine, if_neg hk, if_pos he, hm]
    have hbody := ih hv
    rwa [Array.map_push, Array.map_push] at hbody
  | case6 s body t u hn hk he ih =>
    obtain ⟨u', hn', hu⟩ := hs.next?_of_some hn
    rw [isBreak_of_ne he] at hu
    rw [blockBody_of_some hn', Token.kind_mapLine, if_neg hk, if_neg he, ← Array.map_push]
    exact ih hu

theorem identifiers_of_error {s : Stream} {e : ParseError} (h : s.expect .identifier = .error e)
    (names : Array String) : identifiers s names = .error e := by
  rw [identifiers]; split <;> simp_all

theorem identifiers_of_ok {s u : Stream} {t : Token} (h : s.expect .identifier = .ok (t, u))
    (names : Array String) : identifiers s names =
      if u.check .comma then identifiers u.advance.2 (names.push t.lexeme)
      else .ok ((names.push t.lexeme).toList, u) := by
  rw [identifiers]; split <;> simp_all

theorem matches_identifiers {s s' : Stream} (hs : s.Padded f false s') (names : Array String) :
    Matches f (Alike f id)
      (identifiers s names) (identifiers s' names) := by
  fun_induction identifiers s names generalizing s' with
  | case1 s names e he =>
    have hm := (he ▸ matches_expect .identifier (by decide) hs).error_left
    rw [identifiers_of_error hm]
    exact .error e
  | case2 s names t u he hc ih =>
    obtain ⟨⟨_, u'⟩, hm, rfl, hu⟩ := (he ▸ matches_expect .identifier (by decide) hs).ok_left
    rw [identifiers_of_ok hm, hu.check, if_pos hc]
    exact ih (hu.advance_of_check hc (by decide))
  | case3 s names t u he hc =>
    obtain ⟨⟨_, u'⟩, hm, rfl, hu⟩ := (he ▸ matches_expect .identifier (by decide) hs).ok_left
    rw [identifiers_of_ok hm, hu.check, if_neg hc]
    exact .ok ⟨rfl, hu⟩

theorem tracks_parameters : Tracks f id parameters := by
  intro s s' hs
  unfold parameters
  rw [hs.check]
  split
  · rename_i hopen
    have hu := hs.advance_of_check hopen (by decide)
    dsimp only
    rw [hu.check]
    split
    · rename_i hclose
      exact .ok ⟨rfl, hu.advance_of_check hclose (by decide)⟩
    · refine (matches_identifiers hu #[]).bind ?_
      rintro ⟨_, v⟩ ⟨names, v'⟩ ⟨rfl, hv⟩
      refine (matches_expect .parenClose (by decide) hv).bind ?_
      rintro ⟨_, w⟩ ⟨_, w'⟩ ⟨-, hw⟩
      exact .ok ⟨rfl, hw⟩
  · exact .ok ⟨rfl, hs⟩

theorem tracks_macroBody (indent : Option String) :
    Tracks f (fun p => (p.1.map (Token.mapLine f), p.2)) (macroBody indent) := by
  intro s s' hs
  unfold macroBody
  rw [hs.peek, Token.kind_mapLine]
  split
  · refine (matches_blockStart indent hs).bind ?_
    rintro ⟨t, u⟩ ⟨_, u'⟩ ⟨rfl, hu⟩
    have hbody := matches_blockBody (some t.lexeme) hu #[]
    rw [Array.map_empty] at hbody
    refine hbody.bind ?_
    rintro ⟨body, v⟩ ⟨_, v'⟩ ⟨rfl, hv⟩
    exact .ok ⟨rfl, hv⟩
  · obtain ⟨hbody, hu⟩ := alike_inlineBody hs #[]
    rw [Array.map_empty] at hbody hu
    exact .ok ⟨congrArg (·, indent) hbody, hu⟩

theorem tracks_definition (indent : Option String) :
    Tracks f (fun p => (p.1.mapLine f, p.2)) (definition indent) := by
  intro s s' hs
  refine (matches_expect .macroKeyword (by decide) hs).bind ?_
  rintro ⟨_, u⟩ ⟨_, u'⟩ ⟨-, hu⟩
  refine (matches_expect .identifier (by decide) hu).bind ?_
  rintro ⟨name, v⟩ ⟨_, v'⟩ ⟨rfl, hv⟩
  refine (tracks_parameters v v' hv).bind ?_
  rintro ⟨_, w⟩ ⟨params, w'⟩ ⟨rfl, hw⟩
  refine (matches_expect .colon (by decide) hw).bind ?_
  rintro ⟨_, x⟩ ⟨_, x'⟩ ⟨-, hx⟩
  refine (tracks_macroBody indent x x' hx).bind ?_
  rintro ⟨⟨body, found⟩, y⟩ ⟨_, y'⟩ ⟨rfl, hy⟩
  exact .ok ⟨rfl, hy⟩

/-! ## Calls -/

theorem ne_newLine_of_isArgument {kind : Token.Kind} (h : isArgument kind = true) :
    kind ≠ .newLine := by
  rintro rfl
  simp [isArgument, Token.Kind.endsLine] at h

theorem matches_someArguments (name : Token) {s s' : Stream} (hs : s.Padded f false s')
    (args : Array Token) :
    Matches f (Alike f (List.map (Token.mapLine f)))
      (someArguments name s args)
      (someArguments (name.mapLine f) s' (args.map (Token.mapLine f))) := by
  fun_induction someArguments name s args generalizing s' with
  | case1 s args ha u found hc =>
    rename_i ih
    have hu := hs.advance (ne_newLine_of_isArgument ha)
    rw [someArguments_eq (name.mapLine f), hs.peek, Token.kind_mapLine, if_pos ha, hu.check,
      if_pos hc, ← Array.map_push]
    exact ih (hu.advance_of_check hc (by decide))
  | case2 s args ha u found hc =>
    rename_i hl
    have hu := hs.advance (ne_newLine_of_isArgument ha)
    rw [someArguments_eq (name.mapLine f), hs.peek, Token.kind_mapLine, if_pos ha, hu.check,
      if_neg hc, hu.peek, Token.kind_mapLine, if_pos hl]
    exact .ok ⟨by simp [found], hu⟩
  | case3 s args ha u hc =>
    rename_i hl
    have hu := hs.advance (ne_newLine_of_isArgument ha)
    rw [someArguments_eq (name.mapLine f), hs.peek, Token.kind_mapLine, if_pos ha, hu.check,
      if_neg hc, hu.peek, Token.kind_mapLine, if_neg hl]
    exact .error (.unterminatedCall name _)
  | case4 s args ha =>
    rw [someArguments_eq (name.mapLine f), hs.peek, Token.kind_mapLine, if_neg ha]
    exact .error (.expected .argument _)

theorem matches_arguments (name : Token) {s s' : Stream} (hs : s.Padded f false s') :
    Matches f (Alike f (List.map (Token.mapLine f)))
      (arguments name s) (arguments (name.mapLine f) s') := by
  unfold arguments
  rw [hs.peek, Token.kind_mapLine]
  split
  · exact .ok ⟨rfl, hs⟩
  · have hargs := matches_someArguments name hs #[]
    rwa [Array.map_empty] at hargs

/-- Macros with the same names, on renumbered lines. -/
def MacrosMatch (f : Nat → Nat) (macros macros' : NameMap Macro) : Prop :=
  ∀ name, macros'.get? name = (macros.get? name).map (Macro.mapLine f)

theorem MacrosMatch.contains {macros macros' : NameMap Macro} (h : MacrosMatch f macros macros')
    (name : String) : macros'.contains name = macros.contains name := by
  rw [NameMap.contains, NameMap.contains, h, Option.isSome_map]

theorem MacrosMatch.insert {macros macros' : NameMap Macro} (h : MacrosMatch f macros macros')
    (m : Macro) : MacrosMatch f (macros.insert m.name m)
      (macros'.insert (m.mapLine f).name (m.mapLine f)) := by
  intro name
  show (macros'.insert m.name (m.mapLine f)).get? name = _
  rw [NameMap.get?_insert, NameMap.get?_insert, h]
  split <;> rfl

/-- A call stands in a line, and its expansion has no room for blank lines. -/
theorem matches_call (limit : Nat) {macros macros' : NameMap Macro}
    (hm : MacrosMatch f macros macros') (name : Token) {s s' : Stream}
    (hs : s.Padded f false s') :
    Matches f (fun p p' => p.2.Padded f false p'.2)
      (call limit macros name s) (call limit macros' (name.mapLine f) s') := by
  refine (matches_arguments name hs).bind ?_
  rintro ⟨args, u⟩ ⟨_, u'⟩ ⟨rfl, hu⟩
  dsimp only
  rw [Token.lexeme_mapLine, hm]
  cases macros.get? name.lexeme with
  | none => exact .error (.unexpected name)
  | some m =>
    simp only [Option.map_some, List.length_map, hs.depth]
    have hparams : (m.mapLine f).params = m.params := rfl
    rw [hparams]
    split
    · exact .error (.macroArity name m.params.length args.length)
    · split
      · exact .error (.macroDepth name limit)
      · rw [Macro.expand_mapLine]
        exact .ok (hu.insert (m.expand args))

/-! ## Steps -/

def Place.mapLine (f : Nat → Nat) : Place → Place
  | outside => outside
  | inside name code => inside (name.mapLine f) (code.map (Instruction.mapLine f))

/-- A state, and the same state with blank lines put in. The log is of no account. -/
structure State.Padded (f : Nat → Nat) (s s' : State) : Prop where
  /-- Blank lines may stand right in front where the reader is between definitions. -/
  stream : ∃ atBreak, s.stream.Padded f atBreak s'.stream ∧ (atBreak = true → s.place = .outside)
  place : s'.place = s.place.mapLine f
  indent : s'.indent = s.indent
  macros : MacrosMatch f s.macros s'.macros
  subroutines : s'.subroutines = s.subroutines.map (Subroutine.mapLine f)

/-- Programs with the same subroutines, on renumbered lines. -/
def ProgramsMatch (f : Nat → Nat) (p p' : Program) : Prop :=
  p'.subroutines = p.subroutines.map (Subroutine.mapLine f)

inductive Outcome.Padded (f : Nat → Nat) : Outcome → Outcome → Prop where
  | running {s s' : State} (h : s.Padded f s') : Outcome.Padded f (.running s) (.running s')
  | finished {p p' : Program} (h : ProgramsMatch f p p') :
      Outcome.Padded f (.finished p) (.finished p')

theorem matches_define {s s' : State} (h : s.Padded f s') (m : Macro) (indent : Option String)
    {u u' : Stream} (hu : u.Padded f false u') :
    Matches f (State.Padded f) (s.define m indent u) (s'.define (m.mapLine f) indent u') := by
  unfold State.define
  have hname : (m.mapLine f).name = m.name := rfl
  rw [hname, h.macros.contains]
  split
  · exact .error (.duplicateMacro m.line m.name)
  · refine .ok ⟨⟨false, hu, by simp⟩, h.place, rfl, h.macros.insert m, h.subroutines⟩

theorem matches_header {s s' : State} (h : s.Padded f s') {u u' : Stream}
    (hu : u.Padded f false u') :
    Matches f (State.Padded f) (s.header u) (s'.header u') := by
  refine (matches_expect .identifier (by decide) hu).bind ?_
  rintro ⟨name, v⟩ ⟨_, v'⟩ ⟨rfl, hv⟩
  refine (matches_expect .colon (by decide) hv).bind ?_
  rintro ⟨_, w⟩ ⟨_, w'⟩ ⟨-, hw⟩
  dsimp only
  have hnames : s'.subroutines.any (·.name == (name.mapLine f).lexeme) =
      s.subroutines.any (·.name == name.lexeme) := by
    rw [h.subroutines, List.any_map]
    rfl
  rw [hnames]
  split
  · exact .error (.duplicateSubroutine name)
  · rw [h.indent]
    refine (matches_blockStart s.indent hw).bind ?_
    rintro ⟨t, x⟩ ⟨_, x'⟩ ⟨rfl, hx⟩
    exact .ok ⟨⟨false, hx, by simp⟩, rfl, rfl, h.macros, h.subroutines⟩

theorem matches_stepOutside {s s' : State} (h : s.Padded f s') :
    Matches f (Outcome.Padded f) s.stepOutside s'.stepOutside := by
  obtain ⟨atBreak, hs, -⟩ := h.stream
  have hskip := hs.skipBlankLines
  unfold State.stepOutside
  dsimp only
  rw [hskip.peek, Token.kind_mapLine]
  split
  · refine .ok (.finished ?_)
    show s'.subroutines.reverse = s.subroutines.reverse.map _
    rw [h.subroutines, List.map_reverse]
  · rw [h.indent]
    refine (tracks_definition s.indent _ _ hskip).bind ?_
    rintro ⟨⟨m, indent⟩, u⟩ ⟨_, u'⟩ ⟨rfl, hu⟩
    exact (matches_define h m indent hu).bind fun v v' hv => .ok (.running hv)
  · exact .error (.unsupportedInclude _)
  · exact (matches_header h hskip).bind fun v v' hv => .ok (.running hv)

theorem padded_close {s s' : State} (h : s.Padded f s') (name : Token) (code : List Instruction)
    {u u' : Stream} (hu : u.Padded f false u') :
    (s.close name code u).Padded f
      (s'.close (name.mapLine f) (code.map (Instruction.mapLine f)) u') where
  stream := ⟨false, hu, by simp⟩
  place := rfl
  indent := h.indent
  macros := h.macros
  subroutines := by
    show _ :: s'.subroutines = (_ :: s.subroutines).map _
    rw [h.subroutines, List.map_cons]
    simp [Subroutine.mapLine, Token.mapLine]

theorem matches_stepInside (limit : Nat) {s s' : State} (h : s.Padded f s')
    (hs : s.stream.Padded f false s'.stream) (name : Token) (code : List Instruction) :
    Matches f (State.Padded f) (s.stepInside limit name code)
      (s'.stepInside limit (name.mapLine f) (code.map (Instruction.mapLine f))) := by
  unfold State.stepInside
  dsimp only
  rw [Stream.fst_advance, Stream.fst_advance, hs.peek, Token.kind_mapLine]
  split
  · obtain ⟨atBreak, hu, -⟩ := hs.advance_any
    rw [h.indent]
    refine (matches_blockContinues s.indent hu).bind ?_
    rintro ⟨next, v⟩ ⟨_, v'⟩ ⟨rfl, hv⟩
    cases next with
    | none => exact .ok (padded_close h name code hv)
    | some i => exact .ok ⟨⟨false, hv, by simp⟩, h.place, rfl, h.macros, h.subroutines⟩
  · rename_i op hk
    refine (tracks_instruction op _ _ (hs.advance (by simp [hk]))).bind ?_
    rintro ⟨i, v⟩ ⟨_, v'⟩ ⟨rfl, hv⟩
    dsimp only
    rw [hv.peek, Token.kind_mapLine]
    split
    · exact .ok ⟨⟨false, hv, by simp⟩, rfl, h.indent, h.macros, h.subroutines⟩
    · exact .error (.expected .lineEnd _)
  · rename_i hk
    rw [Token.lexeme_mapLine, h.macros.contains]
    split
    · refine (matches_call limit h.macros s.stream.peek (hs.advance (by simp [hk]))).bind ?_
      rintro ⟨_, v⟩ ⟨_, v'⟩ hv
      exact .ok ⟨⟨false, hv, by simp⟩, h.place, h.indent, h.macros, h.subroutines⟩
    · exact .error (.unexpected _)
  · rename_i hk
    exact .ok (padded_close h name code (hs.advance (by simp [hk])))
  · exact .error (.unexpected _)

theorem matches_step (limit : Nat) {s s' : State} (h : s.Padded f s') :
    Matches f (Outcome.Padded f) (s.step limit) (s'.step limit) := by
  unfold State.step
  rw [h.place]
  cases hp : s.place with
  | outside => exact matches_stepOutside h
  | inside name code =>
    obtain ⟨atBreak, hs, hbreak⟩ := h.stream
    cases atBreak with
    | true =>
      rw [hp] at hbreak
      cases hbreak rfl
    | false => exact (matches_stepInside limit h hs name code).map fun v v' hv => .running hv

/-- With blank lines put in, the same subroutines are read, or the same error is found. -/
theorem matches_run (limit : Nat) {s s' : State} (h : s.Padded f s') :
    Matches f (ProgramsMatch f) (run limit s).result (run limit s').result := by
  fun_induction run limit s generalizing s' with
  | case1 s e hs =>
    rw [run_of_error (hs ▸ matches_step limit h).error_left]
    exact .error e
  | case2 s p hs =>
    obtain ⟨_, hs', hp⟩ := (hs ▸ matches_step limit h).ok_left
    cases hp with
    | finished hp =>
      rw [run_of_finished hs']
      exact .ok hp
  | case3 s v hs ih =>
    obtain ⟨_, hs', hv⟩ := (hs ▸ matches_step limit h).ok_left
    cases hv with
    | running hv =>
      rw [run_of_running hs']
      exact ih hv

end Parse

end IndentAsm
