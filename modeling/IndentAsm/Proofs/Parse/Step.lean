import Mathlib.Logic.Relation
import IndentAsm.Parse.Run

/-!
# Steps and runs as relations

`State.step` computes what a step leads to. `Step` says the same as a relation
with one constructor for each thing a step can do, so that a proof about steps
is a proof about seven small cases. A run is a chain of steps: `State.after` is
where it is after so many of them, `Reachable` holds of the states it passes
through, and `Finishes` of the program it ends with.

**Results.**
* `step_eq_running_iff`, `step_eq_finished_iff`: `Step` is exactly what
  `State.step` does where it goes on, and a step finishes exactly at the end
  token between definitions.
* `exists_last`: every run has a last state, where it stops with its result.
* `result_run_iff`: a run gives a program exactly if it `Finishes` with it.
-/
namespace IndentAsm.Parse

/-- What a step can do that does not end the run. -/
inductive Step (limit : Nat) : State → State → Prop where
  /-- Between definitions, a macro definition. -/
  | define {s : State} {m : Macro} {indent : Option String} {stream : Stream}
      (place : s.place = .outside)
      (read : definition s.indent s.stream.skipBlankLines = .ok ((m, indent), stream))
      (fresh : s.macros.contains m.name = false) :
      Step limit s { s with
        stream := stream
        indent := indent
        macros := s.macros.insert m.name m
        log := .macroDefined m.name m.params.length :: s.log }
  /-- Between definitions, the header of a subroutine and the first indent of
  its body. -/
  | header {s : State} {name colon t : Token} {u v stream : Stream}
      (place : s.place = .outside)
      (ident : s.stream.skipBlankLines.expect .identifier = .ok (name, u))
      (colon : u.expect .colon = .ok (colon, v))
      (fresh : s.subroutines.any (·.name == name.lexeme) = false)
      (start : blockStart s.indent v = .ok (t, stream)) :
      Step limit s { s with stream := stream, place := .inside name [], indent := some t.lexeme }
  /-- A line break with another line of the body behind it. -/
  | goOn {s : State} {name t i : Token} {code : List Instruction} {u stream : Stream}
      (place : s.place = .inside name code)
      (next : s.stream.next? = some (t, u))
      (kind : t.kind = .newLine)
      (read : blockContinues s.indent u = .ok (some i, stream)) :
      Step limit s { s with stream := stream, indent := some i.lexeme }
  /-- A line break at the end of the body. -/
  | leave {s : State} {name t : Token} {code : List Instruction} {u stream : Stream}
      (place : s.place = .inside name code)
      (next : s.stream.next? = some (t, u))
      (kind : t.kind = .newLine)
      (read : blockContinues s.indent u = .ok (none, stream)) :
      Step limit s (s.close name code stream)
  /-- An instruction. -/
  | operation {s : State} {name t : Token} {code : List Instruction} {op : Mnemonic}
      {i : Instruction} {u stream : Stream}
      (place : s.place = .inside name code)
      (next : s.stream.next? = some (t, u))
      (kind : t.kind = .operation op)
      (read : instruction op u = .ok (i, stream))
      (ends : stream.peek.kind.endsLine = true) :
      Step limit s { s with stream := stream, place := .inside name (i :: code) }
  /-- A macro call. -/
  | call {s : State} {name t : Token} {code : List Instruction} {event : Event}
      {u stream : Stream}
      (place : s.place = .inside name code)
      (next : s.stream.next? = some (t, u))
      (kind : t.kind = .identifier)
      (read : call limit s.macros t u = .ok (event, stream)) :
      Step limit s { s with stream := stream, log := event :: s.log }
  /-- The end token inside a body. -/
  | eof {s : State} {name : Token} {code : List Instruction}
      (place : s.place = .inside name code)
      (kind : s.stream.peek.kind = .eof) :
      Step limit s (s.close name code s.stream.advance.2)

variable {limit : Nat} {s v : State}

theorem next?_of_kind {s : Stream} {k : Token.Kind} (hk : s.advance.1.kind = k) (hne : k ≠ .eof) :
    s.next? = some s.advance := by
  cases hn : s.next? with
  | none =>
    have ha : s.advance = (s.eof, s) := by rw [Stream.advance, hn]; rfl
    rw [ha] at hk
    exact absurd (hk.symm.trans s.eof_kind) hne
  | some p => rw [Stream.advance, hn]; rfl

theorem contains_of_call {macros : NameMap Macro} {name : Token} {u u' : Stream} {e : Event}
    (h : call limit macros name u = .ok (e, u')) : macros.contains name.lexeme = true := by
  obtain ⟨m, -, -, hm, -⟩ := call_eq_ok h
  rw [NameMap.contains, hm, Option.isSome_some]

/-! ## The relation is what the function does -/

theorem stepOutside_eq_running (hp : s.place = .outside)
    (h : s.stepOutside = .ok (.running v)) : Step limit s v := by
  unfold State.stepOutside at h
  dsimp only at h
  split at h
  · cases h
  · obtain ⟨⟨⟨m, indent⟩, stream⟩, hd, h⟩ := bind_eq_ok.1 h
    obtain ⟨u, hu, h⟩ := bind_eq_ok.1 h
    cases h
    unfold State.define at hu
    split at hu
    · cases hu
    · rename_i hf
      cases hu
      exact .define hp hd (by simpa using hf)
  · cases h
  · obtain ⟨u, hu, h⟩ := bind_eq_ok.1 h
    cases h
    obtain ⟨⟨name, a⟩, ha, hu⟩ := bind_eq_ok.1 hu
    obtain ⟨⟨c, b⟩, hb, hu⟩ := bind_eq_ok.1 hu
    dsimp only at hu
    split at hu
    · cases hu
    · rename_i hf
      obtain ⟨⟨t, stream⟩, hs, hu⟩ := bind_eq_ok.1 hu
      cases hu
      exact .header hp ha hb (by simpa using hf) hs

theorem stepInside_eq_ok {name : Token} {code : List Instruction} (hp : s.place = .inside name code)
    (h : s.stepInside limit name code = .ok v) : Step limit s v := by
  unfold State.stepInside at h
  dsimp only at h
  split at h
  · rename_i hk
    have hn := next?_of_kind hk (by simp)
    obtain ⟨⟨next, stream⟩, hc, h⟩ := bind_eq_ok.1 h
    cases next with
    | some i => cases h; exact .goOn hp hn hk hc
    | none => cases h; exact .leave hp hn hk hc
  · rename_i op hk
    have hn := next?_of_kind hk (by simp)
    obtain ⟨⟨i, stream⟩, hi, h⟩ := bind_eq_ok.1 h
    dsimp only at h
    split at h
    · rename_i he
      cases h
      exact .operation hp hn hk hi he
    · cases h
  · rename_i hk
    have hn := next?_of_kind hk (by simp)
    split at h
    · obtain ⟨⟨e, stream⟩, hc, h⟩ := bind_eq_ok.1 h
      cases h
      exact .call hp hn hk hc
    · cases h
  · rename_i hk
    cases h
    exact .eof hp (by rwa [← Stream.fst_advance])
  · cases h

theorem step_of_outside (hp : s.place = .outside) : s.step limit = s.stepOutside := by
  unfold State.step
  rw [hp]

theorem step_of_inside {name : Token} {code : List Instruction} (hp : s.place = .inside name code) :
    s.step limit = (s.stepInside limit name code).map .running := by
  unfold State.step
  rw [hp]

theorem stepOutside_of_kind {kind : Token.Kind}
    (hk : s.stream.skipBlankLines.peek.kind = kind) (he : kind ≠ .eof)
    (hm : kind ≠ .macroKeyword) (hi : kind ≠ .includeKeyword) :
    s.stepOutside = (s.header s.stream.skipBlankLines).map .running := by
  unfold State.stepOutside
  dsimp only
  rw [hk]
  cases kind with
  | eof => exact absurd rfl he
  | macroKeyword => exact absurd rfl hm
  | includeKeyword => exact absurd rfl hi
  | _ => cases s.header s.stream.skipBlankLines <;> rfl

theorem peek_of_expect {u u' : Stream} {kind : Token.Kind} {t : Token}
    (h : u.expect kind = .ok (t, u')) : u.peek = t ∧ t.kind = kind := by
  obtain ⟨ha, ht⟩ := Stream.expect_eq_ok h
  exact ⟨by rw [← Stream.fst_advance, ha], ht⟩

theorem advance_of_next? {u u' : Stream} {t : Token} (h : u.next? = some (t, u')) :
    u.advance = (t, u') := by
  rw [Stream.advance, h]; rfl

theorem Step.eq_running (h : Step limit s v) : s.step limit = .ok (.running v) := by
  cases h with
  | define place read fresh =>
    obtain ⟨⟨t, u⟩, ht, -⟩ := bind_eq_ok.1 read
    obtain ⟨hp, hk⟩ := peek_of_expect ht
    rw [step_of_outside place]
    simp only [State.stepOutside, hp, hk, read, bind, Except.bind, State.define, fresh,
      Bool.false_eq_true, if_false, pure, Except.pure]
  | header place ident colon fresh start =>
    obtain ⟨hp, hk⟩ := peek_of_expect ident
    rw [step_of_outside place, stepOutside_of_kind (hp ▸ hk) (by simp) (by simp) (by simp)]
    simp only [State.header, ident, colon, fresh, start, bind, Except.bind, Bool.false_eq_true,
      if_false, pure, Except.pure, Except.map]
  | goOn place next kind read =>
    rw [step_of_inside place]
    simp only [State.stepInside, advance_of_next? next, kind, read, bind, Except.bind, pure,
      Except.pure, Except.map]
  | leave place next kind read =>
    rw [step_of_inside place]
    simp only [State.stepInside, advance_of_next? next, kind, read, bind, Except.bind, pure,
      Except.pure, Except.map]
  | operation place next kind read ends =>
    rw [step_of_inside place]
    simp only [State.stepInside, advance_of_next? next, kind, read, ends, bind, Except.bind,
      if_true, pure, Except.pure, Except.map]
  | call place next kind read =>
    rw [step_of_inside place]
    simp only [State.stepInside, advance_of_next? next, kind, contains_of_call read, read, bind,
      Except.bind, if_true, pure, Except.pure, Except.map]
  | eof place kind =>
    rw [step_of_inside place]
    simp only [State.stepInside, Stream.fst_advance, kind, Except.map]

/-- A step goes on exactly as `Step` says. -/
theorem step_eq_running_iff : s.step limit = .ok (.running v) ↔ Step limit s v := by
  refine ⟨fun h => ?_, Step.eq_running⟩
  cases hp : s.place with
  | outside =>
    rw [step_of_outside hp] at h
    exact stepOutside_eq_running hp h
  | inside name code =>
    rw [step_of_inside hp] at h
    cases hs : s.stepInside limit name code with
    | error e => simp [hs, Except.map] at h
    | ok u =>
      simp only [hs, Except.map, Except.ok.injEq, Outcome.running.injEq] at h
      exact h ▸ stepInside_eq_ok hp hs

/-- A step finishes exactly where the end token stands between definitions. -/
theorem step_eq_finished_iff {p : Program} : s.step limit = .ok (.finished p) ↔
    s.place = .outside ∧ s.stream.skipBlankLines.peek.kind = .eof ∧ p = s.program := by
  constructor
  · intro h
    cases hp : s.place with
    | inside name code =>
      rw [step_of_inside hp] at h
      cases hs : s.stepInside limit name code <;> simp [hs, Except.map] at h
    | outside =>
      rw [step_of_outside hp] at h
      unfold State.stepOutside at h
      dsimp only at h
      split at h
      · rename_i hk
        cases h
        exact ⟨rfl, hk, rfl⟩
      · obtain ⟨_, _, hd⟩ := bind_eq_ok.1 h
        obtain ⟨_, _, hr⟩ := bind_eq_ok.1 hd
        cases hr
      · cases h
      · obtain ⟨_, _, hr⟩ := bind_eq_ok.1 h
        cases hr
  · rintro ⟨hp, hk, rfl⟩
    rw [step_of_outside hp]
    simp only [State.stepOutside, hk]

/-! ## Runs -/

/-- The state after `n` steps, if the run goes on that long. -/
def State.after (limit : Nat) : Nat → State → Option State
  | 0, s => some s
  | n + 1, s =>
    match s.step limit with
    | .ok (.running v) => State.after limit n v
    | _ => none

/-- The states that a run on some tokens passes through. -/
def Reachable (limit : Nat) (tokens : List Token) : State → Prop :=
  Relation.ReflTransGen (Step limit) (.ofTokens tokens)

theorem after_succ (h : Step limit s v) (n : Nat) :
    State.after limit (n + 1) s = State.after limit n v := by
  rw [State.after, h.eq_running]

theorem reflTransGen_of_after {n : Nat} (h : State.after limit n s = some v) :
    Relation.ReflTransGen (Step limit) s v := by
  induction n generalizing s with
  | zero => cases h; exact .refl
  | succ n ih =>
    rw [State.after] at h
    split at h
    · rename_i u hu
      exact .head (step_eq_running_iff.1 hu) (ih h)
    · cases h

theorem reachable_of_after {n : Nat} {tokens : List Token}
    (h : State.after limit n (.ofTokens tokens) = some s) : Reachable limit tokens s :=
  reflTransGen_of_after h

/-- A run is the run from any state it passes through. -/
theorem run_of_after {n : Nat} (h : State.after limit n s = some v) :
    run limit s = run limit v := by
  induction n generalizing s with
  | zero => cases h; rfl
  | succ n ih =>
    rw [State.after] at h
    split at h
    · rename_i u hu
      rw [run_of_running hu, ih h]
    · cases h

/-- The error that the next step ends with, if it does. -/
def State.error? (limit : Nat) (s : State) : Option ParseError :=
  match s.step limit with
  | .error e => some e
  | .ok _ => none

theorem step_of_error? {e : ParseError} (h : s.error? limit = some e) :
    s.step limit = .error e := by
  unfold State.error? at h
  split at h
  · rename_i e' he
    cases h
    exact he
  · cases h

/-- The error of a run that is evaluated up to the step it ends with. -/
theorem error_of_after {n : Nat} {tokens : List Token} {e : ParseError}
    (h : (State.after limit n (.ofTokens tokens)).bind (State.error? limit) = some e) :
    (ofTokens limit tokens).result = .error e := by
  obtain ⟨s, hs, he⟩ := Option.bind_eq_some_iff.1 h
  rw [ofTokens, run_of_after hs, run_of_error (step_of_error? he)]

def Stops (limit : Nat) (s : State) : Except ParseError Program → Prop
  | .ok p => s.step limit = .ok (.finished p)
  | .error e => s.step limit = .error e

/-- Every run has a last state, where it stops with its result. -/
theorem exists_last (limit : Nat) (s : State) : ∃ n v, State.after limit n s = some v ∧
    Stops limit v (run limit s).result ∧ ∀ k, n < k → State.after limit k s = none := by
  fun_induction run limit s with
  | case1 s e hs =>
    refine ⟨0, s, rfl, hs, fun k hk => ?_⟩
    obtain ⟨j, rfl⟩ := Nat.exists_eq_succ_of_ne_zero (Nat.ne_of_gt hk)
    rw [State.after, hs]
  | case2 s p hs =>
    refine ⟨0, s, rfl, hs, fun k hk => ?_⟩
    obtain ⟨j, rfl⟩ := Nat.exists_eq_succ_of_ne_zero (Nat.ne_of_gt hk)
    rw [State.after, hs]
  | case3 s v hs ih =>
    obtain ⟨n, w, hw, hr, hk⟩ := ih
    have hstep := after_succ (step_eq_running_iff.1 hs)
    refine ⟨n + 1, w, (hstep n).trans hw, hr, fun k hlt => ?_⟩
    obtain ⟨j, rfl⟩ := Nat.exists_eq_succ_of_ne_zero (Nat.ne_of_gt (Nat.zero_lt_of_lt hlt))
    rw [hstep j]
    exact hk j (by omega)

inductive Finishes (limit : Nat) : State → Program → Prop where
  | here {s : State} (place : s.place = .outside)
      (kind : s.stream.skipBlankLines.peek.kind = .eof) : Finishes limit s s.program
  | later {s v : State} {p : Program} (step : Step limit s v) (rest : Finishes limit v p) :
      Finishes limit s p

theorem Finishes.of_reflTransGen {p : Program} (h : Relation.ReflTransGen (Step limit) s v)
    (hf : Finishes limit v p) : Finishes limit s p := by
  induction h using Relation.ReflTransGen.head_induction_on with
  | refl => exact hf
  | head step _ ih => exact .later step ih

theorem Finishes.result_eq {p : Program} (h : Finishes limit s p) :
    (run limit s).result = .ok p := by
  induction h with
  | here place kind => rw [run_of_finished (step_eq_finished_iff.2 ⟨place, kind, rfl⟩)]
  | later step _ ih => rw [run_of_running step.eq_running, ih]

/-- A run gives a program exactly if it finishes with it. -/
theorem result_run_iff {p : Program} : (run limit s).result = .ok p ↔ Finishes limit s p := by
  refine ⟨fun h => ?_, Finishes.result_eq⟩
  fun_induction run limit s with
  | case1 s e hs => cases h
  | case2 s q hs =>
    cases h
    obtain ⟨place, kind, rfl⟩ := step_eq_finished_iff.1 hs
    exact .here place kind
  | case3 s v hs ih => exact .later (step_eq_running_iff.1 hs) (ih h)

/-- A run that stands at the end token after so many steps gives what was read by
then. -/
theorem result_of_after {n : Nat} {tokens : List Token} {subs : List Subroutine}
    (h : (State.after limit n (.ofTokens tokens)).map
      (fun s => (s.place, s.stream.skipBlankLines.peek.kind, s.subroutines)) =
        some (.outside, .eof, subs)) :
    ∃ p, (ofTokens limit tokens).result = .ok p ∧ p.subroutines = subs.reverse := by
  obtain ⟨s, hs, hv⟩ := Option.map_eq_some_iff.1 h
  simp only [Prod.mk.injEq] at hv
  obtain ⟨hplace, hkind, rfl⟩ := hv
  exact ⟨s.program, (Finishes.of_reflTransGen (reflTransGen_of_after hs)
    (.here hplace hkind)).result_eq, rfl⟩

end IndentAsm.Parse
