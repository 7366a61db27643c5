import IndentAsm.Program.Operand

/-!
# The values of numbers

A number is written in base 10, behind `0x` in base 16 and behind `0b` in base
2; underscores may stand anywhere and mean nothing. Its digits are read from
left to right, and the first fault on the way decides: a digit that the base
does not have, or a value that 32 bits do not hold.
-/
namespace IndentAsm.Literal

/-- Why a number has no value. -/
inductive Fault where
  /-- It has no digits, or a digit that its base does not have. -/
  | malformed
  | tooLarge
  deriving DecidableEq, Repr, Inhabited

/-- The value of a digit of any base up to 16. -/
def hexValue? (c : Char) : Option Nat :=
  if c.isDigit then some (c.toNat - '0'.toNat)
  else if 'a' ≤ c ∧ c ≤ 'f' then some (c.toNat - 'a'.toNat + 10)
  else if 'A' ≤ c ∧ c ≤ 'F' then some (c.toNat - 'A'.toNat + 10)
  else none

def digit? (base : Nat) (c : Char) : Option Nat :=
  (hexValue? c).filter (· < base)

/-- The base of a number without underscores, and what follows its mark. -/
def splitBase (cs : List Char) : Nat × List Char :=
  match cs with
  | '0' :: c :: rest =>
    if c = 'x' ∨ c = 'X' then (16, rest)
    else if c = 'b' ∨ c = 'B' then (2, rest)
    else (10, cs)
  | _ => (10, cs)

/-- Numbers are read as long as they are below this bound. -/
def bound : Nat := 0x100000000

/-- Reads digits behind others of value `acc`. -/
def readDigits (base : Nat) (acc : Nat) : List Char → Except Fault Nat
  | [] => .ok acc
  | c :: cs =>
    match digit? base c with
    | none => .error .malformed
    | some d =>
      if acc * base + d < bound then readDigits base (acc * base + d) cs else .error .tooLarge

/-- The digits behind a sign. -/
def dropPlus : List Char → List Char
  | '+' :: cs => cs
  | cs => cs

def value (lexeme : String) : Except Fault Nat :=
  let found := splitBase (lexeme.toList.filter (· != '_'))
  match dropPlus found.2 with
  | [] => .error .malformed
  | digits => readDigits found.1 0 digits

end IndentAsm.Literal
