import IndentAsm.Proofs.Parse.Nesting

/-!
# Raising the limit on nesting

The limit stands in one place of the reader, behind all other checks of a macro
call. Two runs on the same tokens, the second with a limit that is not lower,
take the same steps up to the first call that is too deep for the first of them.
If there is none, they end alike: with the same program, or with the same error.

`Agree` is what one step, and then a whole run, keeps between the two: the run
with the lower limit stops because of it, or both do the same.

**Results.**
* `agree_call`: the two limits on one call.
* `agree_step`, `agree_run`: and on a step, and on a run.
* `ofTokens_eq_and_isLowerSet`: a result that is no error about the limit stays
  the same with every higher limit, and the limits that are too low are all those
  below some bound.
-/
namespace IndentAsm.Parse

/-- The error of a call inside too many expansions. -/
def TooDeep {α : Type} (x : Except ParseError α) : Prop :=
  ∃ name limit, x = .error (.macroDepth name limit)

/-- What is done with a lower limit, and what is done with a higher one. -/
def Agree {α : Type} (low high : Except ParseError α) : Prop :=
  TooDeep low ∨ high = low

variable {limit limit' : Nat}

namespace Agree

variable {α β : Type} {low high : Except ParseError α}

theorem refl (x : Except ParseError α) : Agree x x := Or.inr rfl

theorem bind (h : Agree low high) (f : α → Except ParseError β) :
    Agree (low >>= f) (high >>= f) := by
  rcases h with ⟨name, limit, rfl⟩ | rfl
  · exact Or.inl ⟨name, limit, rfl⟩
  · exact refl _

theorem map (h : Agree low high) (f : α → β) : Agree (low.map f) (high.map f) := by
  rcases h with ⟨name, limit, rfl⟩ | rfl
  · exact Or.inl ⟨name, limit, rfl⟩
  · exact refl _

end Agree

/-- Of all checks of a call, only the last one asks for the limit. -/
theorem agree_call (h : limit ≤ limit') (macros : NameMap Macro) (name : Token) (s : Stream) :
    Agree (call limit macros name s) (call limit' macros name s) := by
  unfold call
  cases ha : arguments name s with
  | error e => exact Agree.refl _
  | ok p =>
    obtain ⟨args, u⟩ := p
    simp only [bind, Except.bind]
    cases macros.get? name.lexeme with
    | none => exact Agree.refl _
    | some m =>
      dsimp only
      by_cases hn : args.length ≠ m.params.length
      · rw [if_pos hn, if_pos hn]
        exact Agree.refl _
      · rw [if_neg hn, if_neg hn]
        by_cases hd : limit ≤ s.depth
        · rw [if_pos hd]
          exact Or.inl ⟨name, limit, rfl⟩
        · rw [if_neg hd, if_neg (by omega : ¬ limit' ≤ s.depth)]
          exact Agree.refl _

theorem agree_stepInside (h : limit ≤ limit') (s : State) (name : Token)
    (code : List Instruction) :
    Agree (s.stepInside limit name code) (s.stepInside limit' name code) := by
  unfold State.stepInside
  dsimp only
  -- no branch but that of an identifier has the limit in it
  split <;> try exact Agree.refl _
  split
  · exact (agree_call h _ _ _).bind _
  · exact Agree.refl _

theorem agree_step (h : limit ≤ limit') (s : State) :
    Agree (s.step limit) (s.step limit') := by
  unfold State.step
  cases s.place with
  | outside => exact Agree.refl _
  | inside name code => exact (agree_stepInside h s name code).map _

/-- A run that is not stopped by its limit is the run with any higher one. -/
theorem agree_run (h : limit ≤ limit') (s : State) :
    TooDeep (run limit s).result ∨ run limit' s = run limit s := by
  fun_induction run limit s with
  | case1 s e hs =>
    rcases agree_step h s with ⟨name, l, hd⟩ | he
    · cases hs.symm.trans hd
      exact Or.inl ⟨name, l, rfl⟩
    · exact Or.inr (run_of_error (he.trans hs))
  | case2 s p hs =>
    rcases agree_step h s with ⟨name, l, hd⟩ | he
    · cases hs.symm.trans hd
    · exact Or.inr (run_of_finished (he.trans hs))
  | case3 s v hs ih =>
    rcases agree_step h s with ⟨name, l, hd⟩ | he
    · cases hs.symm.trans hd
    · rcases ih with hd | hv
      · exact Or.inl hd
      · exact Or.inr ((run_of_running (he.trans hs)).trans hv)

/-- A result that is no error about the limit is the result with every higher
limit, and so are the events on the way to it. So the limits that some tokens
exceed are all those up to a bound. -/
theorem ofTokens_eq_and_isLowerSet (tokens : List Token) :
    (∀ limit limit', limit ≤ limit' → ¬ TooDeep (ofTokens limit tokens).result →
      ofTokens limit' tokens = ofTokens limit tokens) ∧
    IsLowerSet {limit | TooDeep (ofTokens limit tokens).result} := by
  refine ⟨fun limit limit' hle hn => ?_, fun high low hle hd => ?_⟩
  · exact (agree_run hle _).resolve_left hn
  · -- were the lower limit high enough, so would be the higher one
    rcases agree_run hle (.ofTokens tokens) with h | h
    · exact h
    · have heq : ofTokens high tokens = ofTokens low tokens := h
      show TooDeep (ofTokens low tokens).result
      exact heq ▸ hd

/-- Two levels are just enough for two calls, one inside the other. One is too
few, and so is none. -/
theorem ofTokens_callThrough_limits :
    ¬ TooDeep (ofTokens 2 callThrough).result ∧
    ofTokens 64 callThrough = ofTokens 2 callThrough ∧
    TooDeep (ofTokens 1 callThrough).result ∧ TooDeep (ofTokens 0 callThrough).result := by
  have htwo : (State.after 2 7 (.ofTokens callThrough)).map
      (fun s => (s.place, s.stream.skipBlankLines.peek.kind)) = some (.outside, .eof) := by
    decide +kernel
  have hone : (State.after 1 4 (.ofTokens callThrough)).bind (State.error? 1) =
      some (.macroDepth ⟨.identifier, "leap", 4⟩ 1) := by decide +kernel
  obtain ⟨s, hs, hv⟩ := Option.map_eq_some_iff.1 htwo
  obtain ⟨hp, hk⟩ := Prod.mk.inj hv
  have hfine : ¬ TooDeep (ofTokens 2 callThrough).result := by
    rw [ofTokens, run_of_after hs, run_of_finished (step_eq_finished_iff.2 ⟨hp, hk, rfl⟩)]
    rintro ⟨name, limit, h⟩
    cases h
  have hdeep : TooDeep (ofTokens 1 callThrough).result := ⟨_, _, error_of_after hone⟩
  obtain ⟨hmono, hlower⟩ := ofTokens_eq_and_isLowerSet callThrough
  exact ⟨hfine, hmono 2 64 (by decide) hfine, hdeep, hlower (Nat.zero_le 1) hdeep⟩

end IndentAsm.Parse
