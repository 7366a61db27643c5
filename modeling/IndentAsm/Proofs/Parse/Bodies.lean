import IndentAsm.Proofs.Parse.Nesting
import IndentAsm.Proofs.Parse.Provenance

/-!
# No body is empty

A body starts behind an indent with something else on its line, since blank lines are
skipped in front of it. That something is an instruction, or a macro call, and a call
leaves an expansion that again starts with something on the line. So a body cannot end
before its first instruction was read.

**Results.**
* `filled_step`: as long as a body has no instruction, its line goes on.
* `filled_of_result`: so every subroutine of a program that is read has an
  instruction.
-/
namespace IndentAsm.Parse

/-- The subroutines read so far have instructions, and a body that has none so far has
more of its line to be read. -/
structure Filled (s : State) : Prop where
  current : ∀ name, s.place = .inside name [] → s.stream.peek.kind.endsLine = false
  subroutines : ∀ sub ∈ s.subroutines, sub.instructions ≠ []

variable {limit : Nat} {source : List Token} {s v : State}

theorem filled_ofTokens (tokens : List Token) : Filled (.ofTokens tokens) where
  current name h := by cases h
  subroutines sub h := by cases h

/-- At the end of a line, the body has an instruction. -/
theorem Filled.code_ne_nil (h : Filled s) {name : Token} {code : List Instruction}
    (place : s.place = .inside name code) (ends : s.stream.peek.kind.endsLine = true) :
    code ≠ [] := by
  rintro rfl
  rw [h.current name place] at ends
  cases ends

theorem Filled.close (h : Filled s) {name : Token} {code : List Instruction}
    (hne : code ≠ []) (stream : Stream) : Filled (s.close name code stream) where
  current name h := by cases h
  subroutines := List.forall_mem_cons.2 ⟨by simpa using hne, h.subroutines⟩

theorem filled_step (hi : Inv limit source s) (h : Filled s) (hs : Step limit s v) : Filled v := by
  have hends {t : Token} {u : Stream} (next : s.stream.next? = some (t, u))
      (kind : t.kind = .newLine) : s.stream.peek.kind.endsLine = true := by
    rw [Stream.peek_of_tokens (Stream.tokens_of_next? next), kind]
    rfl
  cases hs with
  | define place read fresh =>
    refine ⟨fun name hp => ?_, h.subroutines⟩
    cases place.symm.trans hp
  | @header name colon t u w stream place ident colon fresh start =>
    refine ⟨fun _ _ => ?_, h.subroutines⟩
    -- the indent that is left by the blank lines has something behind it
    obtain ⟨hd, hk, -⟩ := blockStart_eq_ok start
    have hns := Stream.startsBlank_dropBlank w.tokens
    rw [hd] at hns
    obtain ⟨x, xs, hx, hxe⟩ := Stream.not_ends_of_not_startsBlank hk hns
    show stream.peek.kind.endsLine = false
    rw [Stream.peek_of_tokens hx]
    exact hxe
  | @goOn name t i code u stream place next kind read =>
    refine ⟨fun name' hp => ?_, h.subroutines⟩
    have hne := h.code_ne_nil place (hends next kind)
    cases place.symm.trans hp
    exact absurd rfl hne
  | leave place next kind read => exact h.close (h.code_ne_nil place (hends next kind)) _
  | operation place next kind read ends =>
    refine ⟨fun name hp => ?_, h.subroutines⟩
    cases hp
  | @call name t code event u stream place next kind read =>
    refine ⟨fun _ _ => ?_, h.subroutines⟩
    obtain ⟨m, args, w, -, -, -, -, -, -, -, -, -, -, rfl, hshape, -⟩ := call_in_frame hi next read
    obtain ⟨x, xs, hx, hxe⟩ := hshape.starts
    have htok : (w.insert (m.expand args)).tokens = x :: (xs ++ w.tokens) := by
      rw [tokens_insert, hx, List.cons_append]
    show (w.insert (m.expand args)).peek.kind.endsLine = false
    rw [Stream.peek_of_tokens htok]
    exact hxe
  | eof place kind =>
    refine h.close (h.code_ne_nil place ?_) _
    rw [kind]
    rfl

theorem Finishes.filled {p : Program} (h : Finishes limit s p) (hi : Inv limit source s)
    (hf : Filled s) : ∀ sub ∈ p.subroutines, sub.instructions ≠ [] := by
  induction h with
  | here place kind => exact fun sub hsub => hf.subroutines sub (List.mem_reverse.1 hsub)
  | later step _ ih => exact ih (inv_step hi step) (filled_step hi hf step)

/-- Every subroutine of a program that is read has an instruction. -/
theorem filled_of_result {tokens : List Token} {p : Program}
    (h : (ofTokens limit tokens).result = .ok p) : ∀ sub ∈ p.subroutines, sub.instructions ≠ [] :=
  (result_run_iff.1 h).filled (inv_ofTokens limit tokens) (filled_ofTokens tokens)

end IndentAsm.Parse
