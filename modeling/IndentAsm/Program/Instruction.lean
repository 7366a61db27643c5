import IndentAsm.Program.Operand

/-!
# Instructions

One constructor for each mnemonic, with the operands its form takes. A jump
or memory access without a target uses the address in registers `H` and `L`.

**Results.**
* `Instruction.size_pos`: no instruction is empty, so distinct positions in
  the code have distinct addresses.
* `codeSize_append`: the size of code is that of its parts together.
-/
namespace IndentAsm

inductive Instruction where
  | nop
  | lw (reg : Register) (address : Option Number)
  | sw (reg : Register) (address : Option Number)
  | mw (reg : Register) (src : Source)
  | push (src : Source)
  | pop (reg : Register)
  | lda (address : Address)
  | jmp (target : Option Label)
  | jz (reg : Register) (target : Option Label)
  | jo (target : Option Label)
  | add (reg : Register) (src : Source)
  | sub (reg : Register) (src : Source)
  | tel (src : Source)
  | out (src : Source)
  | hlt
  deriving DecidableEq, Repr, Inhabited

namespace Instruction

def operation : Instruction → Mnemonic
  | nop => .nop
  | lw .. => .lw
  | sw .. => .sw
  | mw .. => .mw
  | push _ => .push
  | pop _ => .pop
  | lda _ => .lda
  | jmp _ => .jmp
  | jz .. => .jz
  | jo _ => .jo
  | add .. => .add
  | sub .. => .sub
  | tel _ => .tel
  | out _ => .out
  | hlt => .hlt

def jumpSize : Option Label → Nat
  | none => 1
  | some _ => 3

/-- Bytes the instruction takes in the image. It does not depend on where
labels come to stand. -/
def size : Instruction → Nat
  | nop | hlt | pop _ => 1
  | push src | tel src | out src => 1 + src.size
  | mw .. | add .. | sub .. => 2
  | lw _ address | sw _ address => 1 + (address.map Number.size).getD 0
  | lda _ => 3
  | jmp target | jo target | jz _ target => jumpSize target

/-- Whether control never runs on into what is laid out next. -/
def endsFlow : Instruction → Bool
  | hlt | jmp _ => true
  | _ => false

/-- The subroutine an instruction refers to. -/
def label? : Instruction → Option Label
  | lda (.label target) => some target
  | jmp target | jo target | jz _ target => target
  | _ => none

def text (i : Instruction) : String :=
  let op := i.operation.name
  match i with
  | nop | hlt | jmp none | jo none => op
  | lw reg none | sw reg none | pop reg | jz reg none => op ++ " " ++ reg.name
  | lw reg (some n) | sw reg (some n) => op ++ " " ++ reg.name ++ ", " ++ n.text
  | mw reg src | add reg src | sub reg src => op ++ " " ++ reg.name ++ ", " ++ src.text
  | push src | tel src | out src => op ++ " " ++ src.text
  | lda address => op ++ " " ++ address.text
  | jmp (some target) | jo (some target) => op ++ " " ++ target.name
  | jz reg (some target) => op ++ " " ++ reg.name ++ " " ++ target.name

theorem jumpSize_pos (target : Option Label) : 0 < jumpSize target := by
  cases target <;> simp [jumpSize]

theorem size_pos (i : Instruction) : 0 < i.size := by
  cases i <;> simp only [size, jumpSize_pos] <;> omega

end Instruction

def codeSize (code : List Instruction) : Nat :=
  code.foldr (fun i n => i.size + n) 0

@[simp] theorem codeSize_nil : codeSize [] = 0 := rfl

@[simp] theorem codeSize_cons (i : Instruction) (code : List Instruction) :
    codeSize (i :: code) = i.size + codeSize code := rfl

@[simp] theorem codeSize_append (code code' : List Instruction) :
    codeSize (code ++ code') = codeSize code + codeSize code' := by
  induction code with
  | nil => simp
  | cons i rest ih => simp only [List.cons_append, codeSize_cons, ih]; omega

end IndentAsm
