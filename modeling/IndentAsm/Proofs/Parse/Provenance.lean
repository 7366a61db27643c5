import IndentAsm.Proofs.Parse.Operands
import IndentAsm.Proofs.Parse.Shape
import IndentAsm.Proofs.Parse.Step

/-!
# Where the tokens and names of a program come from

Macros move tokens about and never make new ones. The body of a macro is kept as it
stands in the source, and an expansion is made of tokens of the body and of the
arguments. So every token that is ever read stands in the source, and with it every name
that a program has, on its line: the names of its subroutines and those it refers to.

**Results.**
* `definition_body_subset`, `expand_subset`: the tokens of bodies and expansions.
* `drawn_step`: a step draws on the source only.
* `namedIn_of_result`: the names of a program that is read are identifiers of the
  source.
-/
namespace IndentAsm

/-- The name of a subroutine and those it refers to are identifiers among some tokens,
each on its line. -/
structure Subroutine.NamedIn (source : List Token) (sub : Subroutine) : Prop where
  name : ⟨.identifier, sub.name, sub.line⟩ ∈ source
  labels : ∀ i ∈ sub.instructions, ∀ l ∈ i.label?, ⟨.identifier, l.name, l.line⟩ ∈ source

/-- The label of an instruction is one of its operands. -/
theorem Grammar.Operands.label_mem {op : Mnemonic} {ts : List Token} {i : Instruction}
    (h : Operands op ts i) : ∀ l ∈ i.label?, ⟨.identifier, l.name, l.line⟩ ∈ ts := by
  have named {t : Token} {l : Label} (h : LabelOperand t l) :
      ⟨.identifier, l.name, l.line⟩ ∈ [t] := by
    obtain ⟨hk, rfl⟩ := h
    rw [← hk]
    exact List.mem_singleton_self t
  have target {ts : List Token} {target : Option Label} (h : Target ts target) :
      ∀ l ∈ target, ⟨.identifier, l.name, l.line⟩ ∈ ts := by
    intro l hl
    cases h with
    | absent => cases hl
    | present label =>
      cases hl
      exact named label
  cases op with
  | jmp | jo =>
    obtain ⟨_, ht, rfl⟩ := h
    exact target ht
  | jz =>
    obtain ⟨_, ⟨-, ht⟩, rfl⟩ := h
    exact fun l hl => List.mem_cons_of_mem _ (target ht l hl)
  | lda =>
    obtain ⟨_, ⟨t, rfl, ht⟩, rfl⟩ := h
    intro l hl
    cases ht with
    | label operand =>
      cases hl
      exact named operand
    | _ => cases hl
  | _ =>
    obtain ⟨_, -, rfl⟩ := h
    intro l hl
    cases hl

namespace Parse

/-! ## Tokens that are moved about -/

theorem tokens_subset_of_forward {α : Type} {read : Stream → Except ParseError (α × Stream)}
    (h : Forward read) {s s' : Stream} {a : α} (hr : read s = .ok (a, s')) :
    s'.tokens ⊆ s.tokens := by
  obtain ⟨taken, hreads⟩ := h s a s' hr
  rw [Stream.tokens_of_reads hreads]
  exact List.subset_append_right _ _

theorem tokens_insert (s : Stream) (ts : List Token) : (s.insert ts).tokens = ts ++ s.tokens := by
  simp [Stream.tokens, Function.comp_def]

theorem line_subset (s : Stream) : s.line ⊆ s.tokens :=
  (List.takeWhile_sublist _).subset

theorem dropBlank_subset (ts : List Token) : Stream.dropBlank ts ⊆ ts := by
  induction ts with
  | nil => exact List.Subset.refl []
  | cons t ts ih =>
    rw [Stream.dropBlank]
    split
    · exact List.Subset.trans ih (List.subset_cons_self t ts)
    · exact List.Subset.refl _

theorem blockBody_subset {indent : Option String} {s s' : Stream} {body : Array Token}
    {ts : List Token} (h : blockBody indent s body = .ok (ts, s')) :
    ts ⊆ body.toList ++ s.tokens := by
  fun_induction blockBody indent s body with
  | case1 s body hn => cases h; simp
  | case2 s body t u hn hk => cases h; simp
  | case3 s body t u hn hk he e hc => cases h
  | case4 s body t u hn hk he v hc => cases h; simp
  | case5 s body t u hn hk he i v hc ih =>
    have hline : i :: v.tokens ⊆ u.tokens :=
      (blockContinues_eq_some hc).1 ▸ dropBlank_subset u.tokens
    rw [Stream.tokens_of_next? hn]
    intro x hx
    have hx' := ih h hx
    simp only [Array.toList_push, List.append_assoc, List.cons_append, List.nil_append,
      List.mem_append, List.mem_cons] at hx' ⊢
    have := @hline x
    simp only [List.mem_cons] at this
    tauto
  | case6 s body t u hn hk he ih =>
    rw [Stream.tokens_of_next? hn]
    simpa using ih h

/-- The body of a macro stands in the source. -/
theorem macroBody_subset {indent indent' : Option String} {s s' : Stream} {body : List Token}
    (h : macroBody indent s = .ok ((body, indent'), s')) : body ⊆ s.tokens := by
  unfold macroBody at h
  split at h
  · obtain ⟨⟨t, u⟩, ht, h⟩ := bind_eq_ok.1 h
    obtain ⟨⟨ts, v⟩, hb, h⟩ := bind_eq_ok.1 h
    cases h
    exact List.Subset.trans (blockBody_subset hb)
      (tokens_subset_of_forward (forward_blockStart indent) ht)
  · cases h
    rw [(inlineBody_eq s #[]).1]
    exact line_subset s

theorem definition_body_subset {indent indent' : Option String} {s s' : Stream} {m : Macro}
    (h : definition indent s = .ok ((m, indent'), s')) : m.body ⊆ s.tokens := by
  obtain ⟨⟨t, u⟩, ht, h⟩ := bind_eq_ok.1 h
  obtain ⟨⟨name, v⟩, hv, h⟩ := bind_eq_ok.1 h
  obtain ⟨⟨params, w⟩, hw, h⟩ := bind_eq_ok.1 h
  obtain ⟨⟨c, x⟩, hx, h⟩ := bind_eq_ok.1 h
  obtain ⟨⟨⟨body, indent''⟩, y⟩, hb, h⟩ := bind_eq_ok.1 h
  cases h
  calc body ⊆ x.tokens := macroBody_subset hb
    _ ⊆ w.tokens := tokens_subset_of_forward (.expect .colon) hx
    _ ⊆ v.tokens := tokens_subset_of_forward forward_parameters hw
    _ ⊆ u.tokens := tokens_subset_of_forward (.expect .identifier) hv
    _ ⊆ s.tokens := tokens_subset_of_forward (.expect .macroKeyword) ht

/-- An expansion is made of the body and the arguments. -/
theorem expand_subset (m : Macro) (args : List Token) : m.expand args ⊆ m.body ++ args := by
  intro t ht
  obtain ⟨u, hu, rfl⟩ := List.mem_map.1 ht
  rcases argument?_getD m args u with h | ⟨-, h⟩
  · rw [h]
    exact List.mem_append_left _ hu
  · exact List.mem_append_right _ h

/-! ## Every state of a run -/

/-- All that was read so far, and all that is left to be read, stands in the source. -/
structure Drawn (source : List Token) (s : State) : Prop where
  unread : s.stream.tokens ⊆ source
  bodies : ∀ key m, s.macros.get? key = some m → m.body ⊆ source
  current : ∀ name code, s.place = .inside name code →
    Subroutine.NamedIn source ⟨name.lexeme, name.line, code⟩
  subroutines : ∀ sub ∈ s.subroutines, sub.NamedIn source

variable {limit : Nat} {source : List Token} {s v : State}

theorem drawn_ofTokens (tokens : List Token) : Drawn tokens (.ofTokens tokens) where
  unread := by rw [State.ofTokens, Stream.tokens_ofTokens]; exact List.Subset.refl tokens
  bodies key m h := by cases h
  current name code h := by cases h
  subroutines sub h := by cases h

theorem Drawn.close {name : Token} {code : List Instruction} (h : Drawn source s)
    (place : s.place = .inside name code) {stream : Stream} (hs : stream.tokens ⊆ source) :
    Drawn source (s.close name code stream) where
  unread := hs
  bodies := h.bodies
  current name code h := by cases h
  subroutines := by
    obtain ⟨hname, hlabels⟩ := h.current name code place
    refine List.forall_mem_cons.2 ⟨⟨hname, fun i hi => ?_⟩, h.subroutines⟩
    exact hlabels i (List.mem_reverse.1 hi)

/-- What stands behind blank lines stands in the source. -/
theorem Drawn.skip (h : Drawn source s) : s.stream.skipBlankLines.tokens ⊆ source := by
  rw [Stream.tokens_skipBlankLines]
  exact List.Subset.trans (dropBlank_subset _) h.unread

theorem Drawn.next (h : Drawn source s) {t : Token} {u : Stream}
    (next : s.stream.next? = some (t, u)) : u.tokens ⊆ source :=
  List.Subset.trans (Stream.tokens_of_next? next ▸ List.subset_cons_self t _) h.unread

/-- The body of a new macro stands in its definition. -/
theorem Drawn.bodies_insert (h : Drawn source s) {m : Macro} (hm : m.body ⊆ source) :
    ∀ key n, (s.macros.insert m.name m).get? key = some n → n.body ⊆ source := by
  intro key n hn
  rw [NameMap.get?_insert] at hn
  split at hn
  · cases hn
    exact hm
  · exact h.bodies key n hn

/-- An instruction refers to names of its line. -/
theorem label_mem_of_instruction {u stream : Stream} {op : Mnemonic} {i : Instruction}
    (hsign : ∀ t ∈ u.line, Signless t) (read : instruction op u = .ok (i, stream))
    (ends : stream.peek.kind.endsLine = true) :
    ∀ l ∈ i.label?, ⟨.identifier, l.name, l.line⟩ ∈ u.line := by
  have hops := (parses_instruction op u i hsign).1 ⟨stream, read, Stream.line_eq_nil_iff.2 ends⟩
  exact hops.label_mem

/-- A call leaves its expansion and what stands behind its arguments. -/
theorem Drawn.call (h : Drawn source s) {name : Token} {u stream : Stream} {event : Event}
    (hu : u.tokens ⊆ source) (read : call limit s.macros name u = .ok (event, stream)) :
    stream.tokens ⊆ source := by
  obtain ⟨m, args, w, hm, ha, -, -, rfl, -⟩ := call_eq_ok read
  have hargs : args ⊆ source := by
    rw [(arguments_eq_ok ha).2.2.1]
    exact fun t ht => hu (line_subset u (List.mem_of_mem_filter ht))
  rw [tokens_insert]
  refine List.append_subset.2 ⟨?_, fun x hx => ?_⟩
  · exact List.Subset.trans (expand_subset m args)
      (List.append_subset.2 ⟨h.bodies _ m hm, hargs⟩)
  · exact hu (tokens_subset_of_forward (forward_arguments name) ha hx)

/-- A step draws on the source only. -/
theorem drawn_step (hsign : ∀ t ∈ source, Signless t) (h : Drawn source s)
    (hs : Step limit s v) : Drawn source v := by
  cases hs with
  | @define m indent stream place read fresh =>
    refine ⟨fun x hx => h.skip ?_, ?_, fun name code hp => ?_, h.subroutines⟩
    · obtain ⟨t, taken, hr⟩ := definition_reads_some read
      rw [Stream.tokens_of_reads hr]
      exact List.mem_append_right _ hx
    · exact h.bodies_insert (List.Subset.trans (definition_body_subset read) h.skip)
    · cases place.symm.trans hp
  | @header name colon t u w stream place ident colon fresh start =>
    obtain ⟨hu, hk⟩ := Stream.tokens_expect (by decide) ident
    have hstream : stream.tokens ⊆ u.tokens := fun t ht =>
      tokens_subset_of_forward (.expect .colon) colon
        (tokens_subset_of_forward (forward_blockStart _) start ht)
    have hskip := h.skip
    rw [hu] at hskip
    refine ⟨fun t ht => hskip (List.mem_cons_of_mem name (hstream ht)), h.bodies, ?_, h.subroutines⟩
    rintro _ _ ⟨⟩
    refine ⟨hskip ?_, fun i hi => by cases hi⟩
    rw [← hk]
    exact List.mem_cons_self
  | goOn place next kind read =>
    refine ⟨?_, h.bodies, h.current, h.subroutines⟩
    exact fun t ht => h.next next (tokens_subset_of_forward (forward_blockContinues _) read ht)
  | leave place next kind read =>
    exact h.close place fun t ht =>
      h.next next (tokens_subset_of_forward (forward_blockContinues _) read ht)
  | @operation name t code op i u stream place next kind read ends =>
    obtain ⟨hname, hlabels⟩ := h.current name code place
    have hline : u.line ⊆ source := fun t ht => h.next next (line_subset u ht)
    refine ⟨?_, h.bodies, ?_, h.subroutines⟩
    · exact fun t ht => h.next next (tokens_subset_of_forward (forward_instruction op) read ht)
    · rintro _ _ ⟨⟩
      have hlabel := label_mem_of_instruction (fun t ht => hsign t (hline ht)) read ends
      exact ⟨hname, List.forall_mem_cons.2 ⟨fun l hl => hline (hlabel l hl), hlabels⟩⟩
  | call place next kind read =>
    exact ⟨h.call (h.next next) read, h.bodies, h.current, h.subroutines⟩
  | eof place kind =>
    obtain ⟨taken, hr⟩ := s.stream.advance_follows
    refine h.close place fun t ht => h.unread ?_
    rw [Stream.tokens_of_reads hr]
    exact List.mem_append_right _ ht

theorem Finishes.namedIn {p : Program} (hsign : ∀ t ∈ source, Signless t)
    (h : Finishes limit s p) (hd : Drawn source s) : ∀ sub ∈ p.subroutines, sub.NamedIn source := by
  induction h with
  | here place kind => exact fun sub hsub => hd.subroutines sub (List.mem_reverse.1 hsub)
  | later step _ ih => exact ih (drawn_step hsign hd step)

/-- The names of a program that is read are identifiers of the source. -/
theorem namedIn_of_result {tokens : List Token} {p : Program} (hsign : ∀ t ∈ tokens, Signless t)
    (h : (ofTokens limit tokens).result = .ok p) : ∀ sub ∈ p.subroutines, sub.NamedIn tokens :=
  (result_run_iff.1 h).namedIn hsign (drawn_ofTokens tokens)

end Parse

end IndentAsm
