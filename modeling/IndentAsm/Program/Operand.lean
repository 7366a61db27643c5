import IndentAsm.Machine

/-!
# Operands

What an instruction works on: numbers of one or two bytes, the register or
byte of the two-operand forms, jump targets, and the address loaded by `LDA`.
-/
namespace IndentAsm

/-- How many bits a number has in the image. -/
inductive Width where
  | byte
  | word
  deriving DecidableEq, Repr, Inhabited

namespace Width

def size : Width → Nat
  | byte => 1
  | word => 2

def max : Width → Nat
  | byte => 0xFF
  | word => 0xFFFF

/-- How diagnostics name a width. -/
def text : Width → String
  | byte => "an 8-bit immediate"
  | word => "a 16-bit immediate"

theorem max_le (w : Width) : w.max ≤ 0xFFFF := by cases w <;> decide

end Width

structure Number where
  value : UInt16
  width : Width
  deriving DecidableEq, Repr, Inhabited

namespace Number

def size (n : Number) : Nat := n.width.size

/-- The number in decimal. -/
def text (n : Number) : String := toString n.value.toNat

end Number

/-- A reference to a subroutine by name. -/
structure Label where
  name : String
  /-- The line of the reference. -/
  line : Nat
  deriving DecidableEq, Repr, Inhabited

/-- The operand of the forms that take a register or a byte. -/
inductive Source where
  | register (reg : Register)
  | immediate (number : Number)
  deriving DecidableEq, Repr, Inhabited

namespace Source

/-- Bytes the operand takes after the first byte where it is the only
operand. -/
def size : Source → Nat
  | register _ => 0
  | immediate number => number.size

def text : Source → String
  | register reg => reg.name
  | immediate number => number.text

end Source

/-- The operand of `LDA`. -/
inductive Address where
  /-- The address of the instruction that follows. -/
  | next
  | immediate (number : Number)
  | label (target : Label)
  deriving DecidableEq, Repr, Inhabited

namespace Address

def text : Address → String
  | next => "NextAddr"
  | immediate number => number.text
  | label target => target.name

end Address

end IndentAsm
