import IndentAsm.Parse.Block
import IndentAsm.Parse.Call
import IndentAsm.Program.Basic

/-!
# Reading a program, step by step

The reader stands between definitions, or inside the body of a subroutine. A
`State.step` reads a macro definition or the header of a subroutine in the one
place, and a line break, an instruction or a macro call in the other. The end
of a body leads back between definitions, and the program is complete where
the end token stands there.
-/
namespace IndentAsm.Parse

/-- Where the reader stands. -/
inductive Place where
  /-- Between definitions. -/
  | outside
  /-- In the body of the subroutine `name`, behind the instructions `code`, of
  which the last comes first. -/
  | inside (name : Token) (code : List Instruction)
  deriving DecidableEq, Repr, Inhabited

/-- A program that is being read. -/
structure State where
  stream : Stream
  place : Place
  /-- The indent of all blocks, once one was read. -/
  indent : Option String
  /-- The macros defined so far. -/
  macros : NameMap Macro
  /-- The subroutines read so far, of which the last comes first. -/
  subroutines : List Subroutine
  /-- The events so far, of which the last comes first. -/
  log : List Event

namespace State

def ofTokens (tokens : List Token) : State :=
  ⟨.ofTokens tokens, .outside, none, .empty, [], []⟩

instance : Inhabited State := ⟨ofTokens []⟩

def program (s : State) : Program :=
  ⟨s.subroutines.reverse, s.macros⟩

/-- The state behind the end of a subroutine. -/
def close (s : State) (name : Token) (code : List Instruction) (stream : Stream) : State :=
  let sub : Subroutine := ⟨name.lexeme, name.line, code.reverse⟩
  { s with
    stream := stream
    place := .outside
    subroutines := sub :: s.subroutines
    log := sub.warnings ++ s.log }

end State

inductive Outcome where
  | running (s : State)
  | finished (p : Program)

def State.define (s : State) (m : Macro) (indent : Option String) (stream : Stream) :
    Except ParseError State :=
  if s.macros.contains m.name then .error (.duplicateMacro m.line m.name)
  else .ok { s with
    stream := stream
    indent := indent
    macros := s.macros.insert m.name m
    log := .macroDefined m.name m.params.length :: s.log }

/-- Reads the header of a subroutine, to behind the first indent of its body. -/
def State.header (s : State) (stream : Stream) : Except ParseError State := do
  let (name, stream) ← stream.expect .identifier
  let (_, stream) ← stream.expect .colon
  if s.subroutines.any (·.name == name.lexeme) then .error (.duplicateSubroutine name)
  else
    let (t, stream) ← blockStart s.indent stream
    return { s with stream := stream, place := .inside name [], indent := some t.lexeme }

def State.stepOutside (s : State) : Except ParseError Outcome :=
  let stream := s.stream.skipBlankLines
  match stream.peek.kind with
  | .eof => .ok (.finished s.program)
  | .macroKeyword => do
    let ((m, indent), stream) ← definition s.indent stream
    let s ← s.define m indent stream
    return .running s
  | .includeKeyword => .error (.unsupportedInclude stream.peek)
  | _ => do
    let s ← s.header stream
    return .running s

def State.stepInside (limit : Nat) (s : State) (name : Token) (code : List Instruction) :
    Except ParseError State :=
  let t := s.stream.advance.1
  let stream := s.stream.advance.2
  match t.kind with
  | .newLine => do
    let (next, stream) ← blockContinues s.indent stream
    match next with
    | some i => return { s with stream := stream, indent := some i.lexeme }
    | none => return s.close name code stream
  | .operation op => do
    let (i, stream) ← instruction op stream
    if stream.peek.kind.endsLine then
      return { s with stream := stream, place := .inside name (i :: code) }
    else .error (.expected .lineEnd stream.peek)
  | .identifier =>
    if s.macros.contains t.lexeme then do
      let (event, stream) ← call limit s.macros t stream
      return { s with stream := stream, log := event :: s.log }
    else .error (.unexpected t)
  | .eof => .ok (s.close name code stream)
  | _ => .error (.unexpected t)

/-- A step of the reader, where macro calls may be nested `limit` deep. -/
def State.step (limit : Nat) (s : State) : Except ParseError Outcome :=
  match s.place with
  | .outside => s.stepOutside
  | .inside name code => (s.stepInside limit name code).map .running

end IndentAsm.Parse
