import Mathlib.Data.List.Nodup
import IndentAsm.Proofs.Image.Resolved
import IndentAsm.Proofs.Parse.Literal
import IndentAsm.Proofs.Parse.Step

/-!
# What a program has passed when it is read

A subroutine or a macro with a name that is taken is refused at once, and every
operand is read with the width of its place, whether it stands in the source or
comes from an expansion. So the checks that are made one by one hold of all that
was read so far, in every state of a run, and of the program at its end.

**Results.**
* `fits_instruction`: the numbers of an instruction that is read have the width
  of their place.
* `checked_step`: a step keeps names distinct, macros under their own names, and
  all numbers in their range.
* `Finishes.checked`: so a program that is read has all of this.
-/
namespace IndentAsm

/-- What holds of a program that was read: its names are distinct, each macro is
found under its own name, and every number is in its range. -/
structure Program.Checked (p : Program) : Prop where
  distinct : (p.subroutines.map Subroutine.name).Nodup
  keyed : ∀ key m, p.macros.get? key = some m → m.name = key
  fits : p.Fits

namespace Parse

/-! ## Numbers -/

/-- A reader gives nothing but what `Q` holds of. -/
def Yields {α : Type} (read : Stream → Except ParseError (α × Stream)) (Q : α → Prop) : Prop :=
  ∀ s a s', read s = .ok (a, s') → Q a

namespace Yields

variable {α β : Type} {read : Stream → Except ParseError (α × Stream)} {Q : α → Prop}
  {R : β → Prop}

theorem anything (read : Stream → Except ParseError (α × Stream)) : Yields read fun _ => True :=
  fun _ _ _ _ => trivial

theorem pure {a : α} (h : Q a) :
    Yields (fun s => (return (a, s) : Except ParseError (α × Stream))) Q := by
  intro s b s' hb
  cases hb
  exact h

theorem bind {next : α → Stream → Except ParseError (β × Stream)} (h : Yields read Q)
    (h' : ∀ a, Q a → Yields (next a) R) :
    Yields (fun s => read s >>= fun (a, s) => next a s) R := by
  intro s b s' hb
  obtain ⟨⟨a, u⟩, hr, hn⟩ := bind_eq_ok.1 hb
  exact h' a (h s a u hr) u b s' hn

theorem map (h : Yields read Q) (f : α → β) (hf : ∀ a, Q a → R (f a)) :
    Yields (fun s => read s >>= fun (a, s) => return (f a, s)) R :=
  h.bind fun a ha => pure (hf a ha)

end Yields

theorem fits_number (width : Width) : Yields (number width) (Number.Fits width) := by
  intro s n s' h
  obtain ⟨⟨t, u⟩, -, h⟩ := bind_eq_ok.1 h
  obtain ⟨m, hm, h⟩ := bind_eq_ok.1 h
  cases h
  exact (numberOf_eq_ok_iff.1 hm).2

theorem fits_source : Yields source Source.Fits := by
  intro s src s' h
  unfold source at h
  split at h
  · cases h
    trivial
  · exact (fits_number .byte).map Source.immediate (fun _ hn => hn) s src s' h
  · cases h

theorem fits_address : Yields address fun a => (Instruction.lda a).Fits := by
  intro s a s' h
  unfold address at h
  split at h
  · cases h
    trivial
  · exact (fits_number .word).map (R := fun a => (Instruction.lda a).Fits) Address.immediate
      (fun _ hn => hn) s a s' h
  · exact (Yields.anything label).map (R := fun a => (Instruction.lda a).Fits) Address.label
      (fun _ _ => trivial) s a s' h
  · cases h

theorem fits_access : Yields access fun p => ∀ n ∈ p.2, n.Fits .word := by
  intro s p s' h
  obtain ⟨⟨r, t⟩, -, h⟩ := bind_eq_ok.1 h
  dsimp only at h
  split at h
  · obtain ⟨⟨n, u⟩, hn, h⟩ := bind_eq_ok.1 h
    cases h
    have hf := fits_number .word _ n _ hn
    simpa using hf
  · cases h
    simp

theorem fits_transfer : Yields transfer fun p => p.2.Fits :=
  (Yields.anything register).bind fun r _ => (Yields.anything (·.expect .comma)).bind fun _ _ =>
    fits_source.map (fun src => (r, src)) fun _ hs => hs

/-- The numbers of an instruction that is read have the width of their place. -/
theorem fits_instruction (op : Mnemonic) : Yields (instruction op) Instruction.Fits := by
  have make {α : Type} {read : Stream → Except ParseError (α × Stream)} {Q : α → Prop}
      (h : Yields read Q) (f : α → Instruction) (hf : ∀ a, Q a → (f a).Fits) := h.map f hf
  have access (f : Register → Option Number → Instruction) (hnone : ∀ r, (f r none).Fits)
      (hsome : ∀ r n, n.Fits .word → (f r (some n)).Fits) :=
    make fits_access (fun p => f p.1 p.2) fun p hp => by
      obtain ⟨r, _ | n⟩ := p
      · exact hnone r
      · exact hsome r n (hp n rfl)
  cases op with
  | nop => exact Yields.pure trivial
  | hlt => exact Yields.pure trivial
  | lw => exact access .lw (fun _ => trivial) fun _ _ hn => hn
  | sw => exact access .sw (fun _ => trivial) fun _ _ hn => hn
  | mw => exact make fits_transfer (fun p => .mw p.1 p.2) fun _ hp => hp
  | add => exact make fits_transfer (fun p => .add p.1 p.2) fun _ hp => hp
  | sub => exact make fits_transfer (fun p => .sub p.1 p.2) fun _ hp => hp
  | push => exact make fits_source .push fun _ hs => hs
  | tel => exact make fits_source .tel fun _ hs => hs
  | out => exact make fits_source .out fun _ hs => hs
  | pop => exact make (.anything register) .pop fun _ _ => trivial
  | lda => exact make fits_address .lda fun _ ha => ha
  | jmp => exact make (.anything target) .jmp fun _ _ => trivial
  | jo => exact make (.anything target) .jo fun _ _ => trivial
  | jz =>
    exact (Yields.anything register).bind fun r _ =>
      make (.anything target) (.jz r) fun _ _ => trivial

/-! ## Every state of a run -/

def Place.names : Place → List String
  | .outside => []
  | .inside name _ => [name.lexeme]

def Place.code : Place → List Instruction
  | .outside => []
  | .inside _ code => code

/-- What was checked of all that was read so far. -/
structure Checked (s : State) : Prop where
  distinct : (s.place.names ++ s.subroutines.map Subroutine.name).Nodup
  keyed : ∀ key m, s.macros.get? key = some m → m.name = key
  fits : ∀ sub ∈ s.subroutines, ∀ i ∈ sub.instructions, i.Fits
  fits_code : ∀ i ∈ s.place.code, i.Fits

variable {limit : Nat} {s v : State}

theorem checked_ofTokens (tokens : List Token) : Checked (.ofTokens tokens) where
  distinct := List.nodup_nil
  keyed key m h := by cases h
  fits sub h := by cases h
  fits_code i h := by cases h

/-- A body that is closed was checked while it was open. -/
theorem Checked.close {name : Token} {code : List Instruction} (h : Checked s)
    (place : s.place = .inside name code) (stream : Stream) :
    Checked (s.close name code stream) where
  distinct := by
    have hd := h.distinct
    rw [place] at hd
    exact hd
  keyed := h.keyed
  fits := by
    have hc := h.fits_code
    rw [place] at hc
    refine List.forall_mem_cons.2 ⟨fun i hi => ?_, h.fits⟩
    exact hc i (List.mem_reverse.1 hi)
  fits_code i hi := by cases hi

theorem checked_step (h : Checked s) (hs : Step limit s v) : Checked v := by
  cases hs with
  | define place read fresh =>
    refine ⟨h.distinct, fun key n hn => ?_, h.fits, h.fits_code⟩
    rw [NameMap.get?_insert] at hn
    split at hn
    · rename_i hk
      cases hn
      exact hk.symm
    · exact h.keyed key n hn
  | @header name _ _ _ _ _ place ident colon fresh start =>
    refine ⟨?_, h.keyed, h.fits, fun i hi => by cases hi⟩
    have hd := h.distinct
    rw [place] at hd
    refine List.nodup_cons.2 ⟨fun hm => ?_, hd⟩
    obtain ⟨sub, hsub, hname⟩ := List.mem_map.1 hm
    have hany : s.subroutines.any (·.name == name.lexeme) = true :=
      List.any_eq_true.2 ⟨sub, hsub, by rw [hname, beq_self_eq_true]⟩
    rw [fresh] at hany
    cases hany
  | goOn place next kind read => exact ⟨h.distinct, h.keyed, h.fits, h.fits_code⟩
  | leave place next kind read => exact h.close place _
  | operation place next kind read ends =>
    have hd := h.distinct
    have hc := h.fits_code
    rw [place] at hd hc
    refine ⟨hd, h.keyed, h.fits, List.forall_mem_cons.2 ⟨?_, hc⟩⟩
    exact fits_instruction _ _ _ _ read
  | call place next kind read => exact ⟨h.distinct, h.keyed, h.fits, h.fits_code⟩
  | eof place kind => exact h.close place _

/-- So a program that is read has passed all checks. -/
theorem Finishes.checked {p : Program} (h : Finishes limit s p) (hc : Checked s) : p.Checked := by
  induction h with
  | @here s place kind =>
    have hd := hc.distinct
    rw [place] at hd
    refine ⟨?_, hc.keyed, fun sub hsub => hc.fits sub (List.mem_reverse.1 hsub)⟩
    rw [State.program, List.map_reverse, List.nodup_reverse]
    exact hd
  | later step _ ih => exact ih (checked_step hc step)

theorem checked_of_result {tokens : List Token} {p : Program}
    (h : (ofTokens limit tokens).result = .ok p) : p.Checked :=
  (result_run_iff.1 h).checked (checked_ofTokens tokens)

end Parse

end IndentAsm
