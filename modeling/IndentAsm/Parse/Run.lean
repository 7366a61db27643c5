import IndentAsm.Parse.Progress

/-!
# Reading a whole program

`run` takes steps until the program is complete or an error stops it. It ends
for all tokens and every limit on nesting, recursive macros included.

**Results.**
* `run_of_running`, `run_of_finished`, `run_of_error`: what a run is, after
  each outcome of its first step.
-/
namespace IndentAsm.Parse

/-- Takes steps to the end. The events are those of the steps that succeed. -/
def run (limit : Nat) (s : State) : Logged (Except ParseError Program) :=
  match _h : s.step limit with
  | .error e => ⟨.error e, s.log.reverse⟩
  | .ok (.finished p) => ⟨.ok p, s.log.reverse⟩
  | .ok (.running s') => run limit s'
termination_by s.measure limit
decreasing_by exact step_smaller _h

theorem run_of_error {limit : Nat} {s : State} {e : ParseError} (h : s.step limit = .error e) :
    run limit s = ⟨.error e, s.log.reverse⟩ := by
  rw [run]; split <;> simp_all

theorem run_of_finished {limit : Nat} {s : State} {p : Program}
    (h : s.step limit = .ok (.finished p)) : run limit s = ⟨.ok p, s.log.reverse⟩ := by
  rw [run]; split <;> simp_all

theorem run_of_running {limit : Nat} {s s' : State} (h : s.step limit = .ok (.running s')) :
    run limit s = run limit s' := by
  rw [run]; split <;> simp_all

/-- The program that some tokens are, where macro calls may be nested `limit`
deep. -/
def ofTokens (limit : Nat) (tokens : List Token) : Logged (Except ParseError Program) :=
  run limit (.ofTokens tokens)

end IndentAsm.Parse
