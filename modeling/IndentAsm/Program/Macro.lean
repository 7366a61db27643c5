import IndentAsm.Token.Basic

/-!
# Macros

A macro stands for the tokens of its body. A call puts its arguments in place
of the identifiers that name a parameter, all at once, and leaves every other
token as it is, its line included.

**Results.**
* `Macro.length_expand`: an expansion has as many tokens as the body.
-/
namespace IndentAsm

structure Macro where
  name : String
  /-- The line of its name. -/
  line : Nat
  params : List String
  body : List Token
  deriving DecidableEq, Repr, Inhabited

namespace Macro

/-- The argument that takes the place of a token of the body: the one at the
first position where the token names a parameter. -/
def argument? (m : Macro) (args : List Token) (t : Token) : Option Token :=
  if t.kind = .identifier then (m.params.idxOf? t.lexeme).bind fun i => args[i]? else none

/-- The body with the arguments in place of the parameters. -/
def expand (m : Macro) (args : List Token) : List Token :=
  m.body.map fun t => (m.argument? args t).getD t

/-- How the printed program shows a macro. -/
def text (m : Macro) : String :=
  "Macro(" ++ m.name ++ String.join (m.params.map (" " ++ ·)) ++ ")"

@[simp] theorem length_expand (m : Macro) (args : List Token) :
    (m.expand args).length = m.body.length := by
  simp [expand]

end Macro

end IndentAsm
