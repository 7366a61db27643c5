/-!
# The machine: mnemonics and registers

An instruction starts with a byte whose high nibble is the mnemonic's opcode
and whose low bits may select one of four registers. `0b1100` is the only
opcode left unused.

**Results.**
* `Mnemonic.opcode_lt`, `Register.code_lt`: an opcode fits in a nibble and a
  register code in two bits.
-/
namespace IndentAsm

inductive Mnemonic where
  | nop | lw | sw | mw | push | pop | lda | jmp | jz | jo | add | sub | tel | out | hlt
  deriving DecidableEq, Repr, Inhabited

namespace Mnemonic

/-- All mnemonics, in opcode order. -/
def all : List Mnemonic :=
  [nop, lw, sw, mw, push, pop, lda, jmp, jz, jo, add, sub, tel, out, hlt]

def name : Mnemonic → String
  | nop => "NOP"
  | lw => "LW"
  | sw => "SW"
  | mw => "MW"
  | push => "PUSH"
  | pop => "POP"
  | lda => "LDA"
  | jmp => "JMP"
  | jz => "JZ"
  | jo => "JO"
  | add => "ADD"
  | sub => "SUB"
  | tel => "TEL"
  | out => "OUT"
  | hlt => "HLT"

/-- The mnemonic with a given name. Names are case sensitive. -/
def ofName? (word : String) : Option Mnemonic :=
  all.find? (·.name == word)

/-- The 4-bit tag in the high nibble of an instruction's first byte. -/
def opcode : Mnemonic → UInt8
  | nop => 0
  | lw => 1
  | sw => 2
  | mw => 3
  | push => 4
  | pop => 5
  | lda => 6
  | jmp => 7
  | jz => 8
  | jo => 9
  | add => 10
  | sub => 11
  | tel => 13
  | out => 14
  | hlt => 15

theorem opcode_lt (m : Mnemonic) : m.opcode < 16 := by cases m <;> decide

end Mnemonic

inductive Register where
  | a | b | h | l
  deriving DecidableEq, Repr, Inhabited

namespace Register

/-- All registers, in code order. -/
def all : List Register := [a, b, h, l]

def name : Register → String
  | a => "A"
  | b => "B"
  | h => "H"
  | l => "L"

/-- The register with a given name. Names are case sensitive. -/
def ofName? (word : String) : Option Register :=
  all.find? (·.name == word)

/-- The register select field. -/
def code : Register → UInt8
  | a => 0
  | b => 1
  | h => 2
  | l => 3

theorem code_lt (r : Register) : r.code < 4 := by cases r <;> decide

end Register

end IndentAsm
