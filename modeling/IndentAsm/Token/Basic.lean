import IndentAsm.Machine

/-!
# Tokens

A token is a kind, the piece of text it was read from, and the line that
piece stands on. Diagnostics describe a token by its kind (`Kind.text`) and
quote it (`Token.quote`).
-/
namespace IndentAsm

inductive Token.Kind where
  | identifier
  | number
  | comma
  | colon
  | parenOpen
  | parenClose
  /-- Blanks at the start of a line. -/
  | indent
  | newLine
  /-- The directive that opens a macro definition. -/
  | macroKeyword
  /-- The directive that would include another file. -/
  | includeKeyword
  /-- The address after the instruction it stands in. -/
  | nextAddr
  | operation (op : Mnemonic)
  | register (reg : Register)
  | eof
  deriving DecidableEq, Repr, Inhabited

structure Token where
  kind : Token.Kind
  /-- The text of the token. -/
  lexeme : String
  /-- The line it stands on, counted from 1. -/
  line : Nat
  deriving DecidableEq, Repr, Inhabited

namespace Token

namespace Kind

def keyword? (word : String) : Option Kind :=
  if word = "@macro" then some macroKeyword
  else if word = "@include" then some includeKeyword
  else if word = "NextAddr" then some nextAddr
  else (Mnemonic.ofName? word).map operation <|> (Register.ofName? word).map register

/-- How diagnostics name a kind of token. -/
def text : Kind → String
  | identifier => "identifier"
  | number => "number"
  | comma => "\",\""
  | colon => "\":\""
  | parenOpen => "\"(\""
  | parenClose => "\")\""
  | indent => "indent"
  | newLine => "new line"
  | macroKeyword => "\"@macro\""
  | includeKeyword => "\"@include\""
  | nextAddr => "\"NextAddr\""
  | operation op => "instruction \"" ++ op.name ++ "\""
  | register reg => "register \"" ++ reg.name ++ "\""
  | eof => "end of file"

def endsLine : Kind → Bool
  | newLine => true
  | eof => true
  | _ => false

theorem endsLine_iff {k : Kind} : k.endsLine = true ↔ k = newLine ∨ k = eof := by
  cases k <;> simp [endsLine]

theorem not_endsLine_iff {k : Kind} : k.endsLine = false ↔ k ≠ newLine ∧ k ≠ eof := by
  cases k <;> simp [endsLine]

end Kind

/-- How diagnostics quote a token: by its text, a new line and the end by a
name. -/
def quote (t : Token) : String :=
  match t.kind with
  | .newLine => "\\n"
  | .eof => "end"
  | _ => t.lexeme

end Token

end IndentAsm
