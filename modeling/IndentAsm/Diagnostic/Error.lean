import IndentAsm.Text.Quoted
import IndentAsm.Token.Basic
import IndentAsm.Program.Operand

/-!
# Errors

Assembling stops at the first error of one of three stages: the text has no
tokens, the tokens are no program, or the program has no image. An error
carries its cause as data. Its wording always has three parts, the `line`,
the `cause` and what is quoted as its `subject`, put together by `report`.
-/
namespace IndentAsm

def report (line : Nat) (cause subject : String) : String :=
  "[line " ++ toString line ++ "] Error " ++ cause ++ ": " ++ subject

/-- Why a text has no tokens. -/
inductive LexError where
  | unexpectedCharacter (line : Nat) (char : Char)
  /-- A word that starts with `@` and is no keyword. -/
  | unknownDirective (line : Nat) (word : String)
  deriving DecidableEq, Repr, Inhabited

namespace LexError

def line : LexError → Nat
  | unexpectedCharacter line _ => line
  | unknownDirective line _ => line

def cause : LexError → String
  | unexpectedCharacter .. => "Unexpected character"
  | unknownDirective .. => "Unknown directive"

def subject : LexError → String
  | unexpectedCharacter _ char => char.toString
  | unknownDirective _ word => word

def message (e : LexError) : String := report e.line e.cause e.subject

end LexError

/-- What should stand where another token was found. -/
inductive Expectation where
  /-- A token of one kind. -/
  | kind (kind : Token.Kind)
  /-- The end of the line. -/
  | lineEnd
  | register
  /-- The operand of the forms that take a register or a byte. -/
  | source
  /-- The operand of `LDA`. -/
  | address
  /-- An argument of a macro call. -/
  | argument
  deriving DecidableEq, Repr, Inhabited

def Expectation.text : Expectation → String
  | kind k => k.text
  | lineEnd => "a new line"
  | register => "a register"
  | source => "a register or a number"
  | address => "\"NextAddr\", a number or a subroutine name"
  | argument => "a macro argument"

/-- Why tokens are no program. -/
inductive ParseError where
  | expected (what : Expectation) (found : Token)
  | unexpected (found : Token)
  /-- An indent other than the one of the blocks before. -/
  | invalidIndent (indent : Token)
  /-- A number without digits, or with a digit that its base does not have. -/
  | invalidNumber (literal : Token)
  | numberTooLarge (width : Width) (literal : Token)
  /-- Two arguments of a macro call without a comma between them. -/
  | unterminatedCall (name found : Token)
  | macroArity (name : Token) (params args : Nat)
  /-- A macro call inside `limit` other expansions. -/
  | macroDepth (name : Token) (limit : Nat)
  | duplicateSubroutine (name : Token)
  | duplicateMacro (line : Nat) (name : String)
  | unsupportedInclude (directive : Token)
  deriving DecidableEq, Repr, Inhabited

namespace ParseError

def line : ParseError → Nat
  | expected _ found => found.line
  | unexpected found => found.line
  | invalidIndent indent => indent.line
  | invalidNumber literal => literal.line
  | numberTooLarge _ literal => literal.line
  | unterminatedCall _ found => found.line
  | macroArity name _ _ => name.line
  | macroDepth name _ => name.line
  | duplicateSubroutine name => name.line
  | duplicateMacro line _ => line
  | unsupportedInclude directive => directive.line

def cause : ParseError → String
  | expected what found => "Expected " ++ what.text ++ " but found " ++ found.kind.text
  | unexpected found => "Unexpected " ++ found.kind.text
  | invalidIndent _ => "Indent does not match the enclosing block"
  | invalidNumber _ => "Invalid number"
  | numberTooLarge width _ => "Number does not fit in " ++ width.text
  | unterminatedCall name _ =>
    "Expected a new line after the arguments to \"" ++ name.lexeme ++ "\""
  | macroArity _ params args =>
    "Macro takes " ++ toString params ++ " argument(s) but " ++ toString args ++ " were given"
  | macroDepth _ limit => "Macros are nested deeper than " ++ toString limit ++ " levels"
  | duplicateSubroutine _ => "Subroutine is already defined"
  | duplicateMacro .. => "Macro is already defined"
  | unsupportedInclude _ => "Including other files is not supported"

/-- The token or name at fault, as it is quoted. -/
def subject : ParseError → String
  | expected _ found => found.quote
  | unexpected found => found.quote
  | invalidIndent indent => Text.quoted indent.lexeme
  | invalidNumber literal => literal.lexeme
  | numberTooLarge _ literal => literal.lexeme
  | unterminatedCall _ found => found.quote
  | macroArity name _ _ => name.lexeme
  | macroDepth name _ => name.lexeme
  | duplicateSubroutine name => name.lexeme
  | duplicateMacro _ name => name
  | unsupportedInclude directive => directive.quote

def message (e : ParseError) : String := report e.line e.cause e.subject

end ParseError

/-- Why a program has no image. -/
inductive LinkError where
  /-- A reference to a name that no subroutine has. -/
  | undefinedLabel (label : Label)
  /-- The subroutine with which the code outgrows 16-bit addresses. -/
  | addressOverflow (line : Nat) (name : String)
  deriving DecidableEq, Repr, Inhabited

namespace LinkError

def line : LinkError → Nat
  | undefinedLabel label => label.line
  | addressOverflow line _ => line

def cause : LinkError → String
  | undefinedLabel _ => "Could not find subroutine"
  | addressOverflow .. => "Program does not fit in 64K, overflowing at"

def subject : LinkError → String
  | undefinedLabel label => label.name
  | addressOverflow _ name => name

def message (e : LinkError) : String := report e.line e.cause e.subject

end LinkError

inductive Error where
  | lex (error : LexError)
  | parse (error : ParseError)
  | link (error : LinkError)
  deriving DecidableEq, Repr, Inhabited

namespace Error

def line : Error → Nat
  | lex e => e.line
  | parse e => e.line
  | link e => e.line

def message : Error → String
  | lex e => e.message
  | parse e => e.message
  | link e => e.message

end Error

end IndentAsm
