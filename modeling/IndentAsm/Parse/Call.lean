import IndentAsm.Diagnostic.Event
import IndentAsm.NameMap
import IndentAsm.Parse.Operand
import IndentAsm.Program.Macro

/-!
# Macro calls

A call is the name of a macro and its arguments, single tokens with commas
between them, to the end of the line. The expansion is put in front of the
end of the line. The depth of a call is that of its name.

Faults are found in a fixed order: first those of the argument list, from left
to right, then a wrong number of arguments, then too deep a nesting.

**Results.**
* `forward_arguments`: the arguments are read from the front of the unread
  tokens.
* `call_eq_ok`: what a call that succeeds leaves unread.
-/
namespace IndentAsm.Parse

open IndentAsm.Stream (Reads)

/-- Whether a token of this kind can be an argument. -/
def isArgument (kind : Token.Kind) : Bool :=
  kind != .comma && kind != .indent && !kind.endsLine

theorem ne_eof_of_isArgument {kind : Token.Kind} (h : isArgument kind = true) : kind ≠ .eof := by
  rintro rfl
  simp [isArgument, Token.Kind.endsLine] at h

/-- Reads the arguments of a call of `name`, at least one, behind those in
`args`. -/
def someArguments (name : Token) (s : Stream) (args : Array Token) :
    Except ParseError (List Token × Stream) :=
  if _h : isArgument s.peek.kind then
    let s' := s.advance.2
    let found := args.push s.peek
    if s'.check .comma then someArguments name s'.advance.2 found
    else if s'.peek.kind.endsLine then .ok (found.toList, s')
    else .error (.unterminatedCall name s'.peek)
  else .error (.expected .argument s.peek)
termination_by s.unread.length
decreasing_by
  have h1 := Stream.reads_advance_of_ne (s := s)
    (by rw [Stream.fst_advance]; exact ne_eof_of_isArgument _h)
  obtain ⟨_, h2⟩ := s.advance.2.advance_follows
  have := h2.length_le
  rw [h1.unread, List.length_append, List.length_singleton]
  omega

theorem someArguments_eq (name : Token) (s : Stream) (args : Array Token) :
    someArguments name s args =
      if isArgument s.peek.kind then
        if s.advance.2.check .comma then someArguments name s.advance.2.advance.2 (args.push s.peek)
        else if s.advance.2.peek.kind.endsLine then .ok ((args.push s.peek).toList, s.advance.2)
        else .error (.unterminatedCall name s.advance.2.peek)
      else .error (.expected .argument s.peek) := by
  rw [someArguments]
  simp only [dite_eq_ite]

def arguments (name : Token) (s : Stream) : Except ParseError (List Token × Stream) :=
  if s.peek.kind.endsLine then .ok ([], s) else someArguments name s #[]

/-- Reads the arguments of a call, behind its name, and puts the expansion in
front of what is left. -/
def call (limit : Nat) (macros : NameMap Macro) (name : Token) (s : Stream) :
    Except ParseError (Event × Stream) := do
  let (args, s') ← arguments name s
  match macros.get? name.lexeme with
  | none => .error (.unexpected name)
  | some m =>
    if args.length ≠ m.params.length then
      .error (.macroArity name m.params.length args.length)
    else if limit ≤ s.depth then .error (.macroDepth name limit)
    else
      let tokens := m.expand args
      return (.macroExpanded name tokens.length (s.depth + 1), s'.insert tokens)

/-! ## Reading goes forward -/

theorem forward_someArguments (name : Token) (args : Array Token) :
    Forward fun s => someArguments name s args := by
  intro s found s' h
  dsimp only at h
  fun_induction someArguments name s args with
  | case1 s args ha u found' hc ih =>
    obtain ⟨x, hx⟩ := s.advance_follows
    obtain ⟨y, hy⟩ := u.advance_follows
    obtain ⟨z, hz⟩ := ih h
    exact ⟨_, (hx.trans hy).trans hz⟩
  | case2 s args ha u found' hc hl =>
    simp only [Except.ok.injEq, Prod.mk.injEq] at h
    exact h.2 ▸ s.advance_follows
  | case3 => cases h
  | case4 => cases h

theorem forward_arguments (name : Token) : Forward (arguments name) := by
  intro s args s' h
  unfold arguments at h
  split at h
  · cases h
    exact ⟨[], Reads.refl _⟩
  · exact forward_someArguments name #[] s args s' h

/-- A call that succeeds is one of a macro that is defined, with as many
arguments as it has parameters, and not nested too deep. It takes its
arguments and puts the expansion in their place. -/
theorem call_eq_ok {limit : Nat} {macros : NameMap Macro} {name : Token} {s s' : Stream}
    {e : Event} (h : call limit macros name s = .ok (e, s')) :
    ∃ m args u, macros.get? name.lexeme = some m ∧ arguments name s = .ok (args, u) ∧
      args.length = m.params.length ∧ s.depth < limit ∧ s' = u.insert (m.expand args) ∧
      e = .macroExpanded name (m.expand args).length (s.depth + 1) := by
  obtain ⟨⟨args, u⟩, ha, h⟩ := bind_eq_ok.1 h
  dsimp only at h
  split at h
  · cases h
  · rename_i m hm
    split at h
    · cases h
    · rename_i hn
      split at h
      · cases h
      · rename_i hd
        cases h
        exact ⟨m, args, u, hm, ha, by simpa using hn, by omega, rfl, rfl⟩

end IndentAsm.Parse
