import IndentAsm.Diagnostic.Error
import IndentAsm.Image.SymbolTable
import IndentAsm.Program.Instruction

/-!
# The bytes of an instruction

The first byte is the opcode, a bit that tells of an immediate operand, and a
register. A second register stands in the top bits of a byte of its own, a
number or an address in the one or two bytes it needs.
-/
namespace IndentAsm

def firstByte (op : Mnemonic) (immediate : Bool) (reg : Option Register) : UInt8 :=
  op.opcode <<< 4 ||| (if immediate then 8 else 0) ||| (reg.map Register.code).getD 0

def secondByte (reg : Register) : UInt8 :=
  reg.code <<< 5

def Number.bytes (n : Number) : List UInt8 :=
  match n.width with
  | .byte => [n.value.toUInt8]
  | .word => bigEndian n.value

def Label.encode (table : SymbolTable) (l : Label) : Except LinkError (List UInt8) :=
  match table.bytes? l.name with
  | some bytes => .ok bytes
  | none => .error (.undefinedLabel l)

/-- The bytes of the operand of `LDA`, which start at `here`. -/
def Address.encode (table : SymbolTable) (here : UInt16) : Address → Except LinkError (List UInt8)
  | next => .ok (bigEndian (here + 2))
  | immediate n => .ok n.bytes
  | label l => l.encode table

namespace Instruction

/-- The bytes of an instruction whose only operand is a register or a byte. -/
def encodeSource (op : Mnemonic) : Source → List UInt8
  | .register reg => [firstByte op false (some reg)]
  | .immediate n => firstByte op true none :: n.bytes

/-- The bytes of an instruction on a register and a register or a byte. -/
def encodeTransfer (op : Mnemonic) (dst : Register) : Source → List UInt8
  | .register src => [firstByte op false (some dst), secondByte src]
  | .immediate n => firstByte op true (some dst) :: n.bytes

def encodeAccess (op : Mnemonic) (reg : Register) : Option Number → List UInt8
  | none => [firstByte op false (some reg)]
  | some n => firstByte op true (some reg) :: n.bytes

def encodeJump (table : SymbolTable) (op : Mnemonic) (reg : Option Register) :
    Option Label → Except LinkError (List UInt8)
  | none => .ok [firstByte op false reg]
  | some l => (l.encode table).map (firstByte op true reg :: ·)

/-- The bytes of an instruction that starts at `here`. -/
def encode (table : SymbolTable) (here : Nat) (i : Instruction) : Except LinkError (List UInt8) :=
  let op := i.operation
  match i with
  | nop | hlt => .ok [firstByte op false none]
  | pop reg => .ok [firstByte op false (some reg)]
  | push src | tel src | out src => .ok (encodeSource op src)
  | mw dst src | add dst src | sub dst src => .ok (encodeTransfer op dst src)
  | lw reg address | sw reg address => .ok (encodeAccess op reg address)
  | lda address =>
    (address.encode table (here + 1).toUInt16).map (firstByte op true none :: ·)
  | jmp target | jo target => encodeJump table op none target
  | jz reg target => encodeJump table op (some reg) target

end Instruction

end IndentAsm
