import IndentAsm.Image.Encode
import IndentAsm.Program.Basic

/-!
# Instructions as the image holds them

A resolved instruction has a number in the place of every label and of the
next address. Its bytes are given by arithmetic: the opcode counts 16, an
immediate operand 8 and the register 1 in the first byte, and a word is its
quotient and its remainder by 256. What labels stand for is a parameter,
`start`.

**Results.**
* `Instruction.length_bytes_resolve`: a resolved instruction has as many bytes
  as the size of the instruction it comes from.
* `Instruction.encode_of_defined`: encoding writes the bytes of the resolved
  instruction, if the table has the address of the label in it.
* `Instruction.encode_of_undefined`: and otherwise it names that label.
-/
namespace IndentAsm

/-- What follows the first byte of an instruction in the image. -/
inductive Field where
  | none
  /-- The second register of a pair. -/
  | pair (reg : Register)
  | byte (value : Nat)
  | word (value : Nat)
  deriving DecidableEq, Repr, Inhabited

namespace Field

/-- Whether the first byte tells of an immediate operand. -/
def isImmediate : Field → Bool
  | none | pair _ => false
  | byte _ | word _ => true

def bytes : Field → List UInt8
  | none => []
  | pair reg => [UInt8.ofNat (32 * reg.code.toNat)]
  | byte value => [UInt8.ofNat value]
  | word value => [UInt8.ofNat (value / 256), UInt8.ofNat (value % 256)]

end Field

/-- An instruction with a number for every operand. -/
structure Resolved where
  op : Mnemonic
  reg : Option Register
  field : Field
  deriving DecidableEq, Repr, Inhabited

namespace Resolved

def head (r : Resolved) : Nat :=
  16 * r.op.opcode.toNat + (if r.field.isImmediate then 8 else 0) +
    (r.reg.map fun reg => reg.code.toNat).getD 0

def bytes (r : Resolved) : List UInt8 :=
  UInt8.ofNat r.head :: r.field.bytes

end Resolved

/-! ## Operands of the right width -/

/-- A number of a width, and in its range. -/
def Number.Fits (width : Width) (n : Number) : Prop :=
  n.width = width ∧ n.value.toNat ≤ width.max

instance (width : Width) (n : Number) : Decidable (n.Fits width) :=
  inferInstanceAs (Decidable (_ ∧ _))

/-- The number in a source operand is a byte. -/
def Source.Fits : Source → Prop
  | register _ => True
  | immediate n => n.Fits .byte

instance (src : Source) : Decidable src.Fits :=
  match src with
  | .register _ => inferInstanceAs (Decidable True)
  | .immediate n => inferInstanceAs (Decidable (n.Fits .byte))

/-- Every number in an instruction has the width of its place: a word as an
address, a byte everywhere else. -/
def Instruction.Fits : Instruction → Prop
  | lw _ (some n) | sw _ (some n) | lda (.immediate n) => n.Fits .word
  | mw _ src | add _ src | sub _ src | push src | tel src | out src => src.Fits
  | _ => True

instance : (i : Instruction) → Decidable i.Fits
  | .lw _ (some n) | .sw _ (some n) | .lda (.immediate n) =>
    inferInstanceAs (Decidable (n.Fits .word))
  | .mw _ src | .add _ src | .sub _ src | .push src | .tel src | .out src =>
    inferInstanceAs (Decidable src.Fits)
  | .lw _ none | .sw _ none | .lda .next | .lda (.label _) | .nop | .hlt | .pop _ | .jmp _
  | .jo _ | .jz .. => inferInstanceAs (Decidable True)

def Program.Fits (p : Program) : Prop :=
  ∀ s ∈ p.subroutines, ∀ i ∈ s.instructions, i.Fits

instance (p : Program) : Decidable p.Fits :=
  inferInstanceAs (Decidable (∀ s ∈ p.subroutines, ∀ i ∈ s.instructions, i.Fits))

/-! ## Resolving -/

namespace Source

/-- An instruction whose only operand is a register or a byte. -/
def resolve (op : Mnemonic) : Source → Resolved
  | register reg => ⟨op, some reg, .none⟩
  | immediate n => ⟨op, none, .byte n.value.toNat⟩

/-- An instruction on a register and a register or a byte. -/
def resolvePair (op : Mnemonic) (dst : Register) : Source → Resolved
  | register src => ⟨op, some dst, .pair src⟩
  | immediate n => ⟨op, some dst, .byte n.value.toNat⟩

end Source

/-- The number that the operand of `LDA` stands for, in an instruction whose
first byte is at `here`. -/
def Address.resolve (start : String → Nat) (here : Nat) : Address → Nat
  | next => here + 3
  | immediate n => n.value.toNat
  | label l => start l.name

namespace Instruction

/-- What follows the first byte of a jump. -/
def targetField (start : String → Nat) : Option Label → Field
  | none => .none
  | some l => .word (start l.name)

/-- What follows the first byte of an access to memory. -/
def accessField : Option Number → Field
  | none => .none
  | some n => .word n.value.toNat

/-- The instruction as the image holds it, from `here` on, where the subroutine
`name` starts at `start name`. -/
def resolve (start : String → Nat) (here : Nat) (i : Instruction) : Resolved :=
  let op := i.operation
  match i with
  | nop | hlt => ⟨op, none, .none⟩
  | pop reg => ⟨op, some reg, .none⟩
  | push src | tel src | out src => src.resolve op
  | mw dst src | add dst src | sub dst src => src.resolvePair op dst
  | lw reg address | sw reg address => ⟨op, some reg, accessField address⟩
  | lda address => ⟨op, none, .word (address.resolve start here)⟩
  | jmp target | jo target => ⟨op, none, targetField start target⟩
  | jz reg target => ⟨op, some reg, targetField start target⟩

end Instruction

/-- Code as the image holds it, from `here` on. -/
def resolveCode (start : String → Nat) : Nat → List Instruction → List Resolved
  | _, [] => []
  | here, i :: rest => i.resolve start here :: resolveCode start (here + i.size) rest

def codeBytes (start : String → Nat) (here : Nat) (code : List Instruction) : List UInt8 :=
  (resolveCode start here code).flatMap Resolved.bytes

/-! ## The bytes of resolved code -/

@[simp] theorem Resolved.length_bytes_mk (op : Mnemonic) (reg : Option Register) (f : Field) :
    (Resolved.mk op reg f).bytes.length = 1 + f.bytes.length := by
  simp only [bytes, List.length_cons]
  omega

theorem Instruction.length_bytes_resolve (start : String → Nat) (here : Nat) {i : Instruction}
    (hi : i.Fits) : (i.resolve start here).bytes.length = i.size := by
  have single (op : Mnemonic) {src : Source} (hs : src.Fits) :
      (src.resolve op).bytes.length = 1 + src.size := by
    cases src with
    | register reg => simp [Source.resolve, Field.bytes, Source.size]
    | immediate n => simp [Source.resolve, Field.bytes, Source.size, Number.size, hs.1, Width.size]
  have pair (op : Mnemonic) (dst : Register) (src : Source) :
      (src.resolvePair op dst).bytes.length = 2 := by
    cases src <;> simp [Source.resolvePair, Field.bytes]
  have access (op : Mnemonic) (reg : Register) {address : Option Number}
      (ha : ∀ n, address = some n → n.Fits .word) :
      (Resolved.mk op (some reg) (accessField address)).bytes.length =
        1 + (address.map Number.size).getD 0 := by
    cases address with
    | none => simp [accessField, Field.bytes]
    | some n => simp [accessField, Field.bytes, Number.size, (ha n rfl).1, Width.size]
  have jump (op : Mnemonic) (reg : Option Register) (target : Option Label) :
      (Resolved.mk op reg (targetField start target)).bytes.length = jumpSize target := by
    cases target <;> simp [targetField, Field.bytes, jumpSize]
  cases i with
  | nop | hlt | pop _ => rfl
  | push src | tel src | out src => exact single _ hi
  | mw dst src | add dst src | sub dst src => exact pair _ dst src
  | lw reg address | sw reg address =>
    refine access _ reg fun n hn => ?_
    subst hn
    exact hi
  | lda address => rfl
  | jmp target | jo target => exact jump _ none target
  | jz reg target => exact jump _ (some reg) target

theorem length_codeBytes (start : String → Nat) (here : Nat) {code : List Instruction}
    (hc : ∀ i ∈ code, i.Fits) : (codeBytes start here code).length = codeSize code := by
  induction code generalizing here with
  | nil => rfl
  | cons i rest ih =>
    have hi := i.length_bytes_resolve start here (hc i (.head _))
    have hr := ih (here + i.size) fun j hj => hc j (.tail _ hj)
    simp only [codeBytes, resolveCode, List.flatMap_cons, List.length_append] at hr ⊢
    rw [hi, hr, codeSize_cons]

theorem resolveCode_append (start : String → Nat) (here : Nat) (code code' : List Instruction) :
    resolveCode start here (code ++ code') =
      resolveCode start here code ++ resolveCode start (here + codeSize code) code' := by
  induction code generalizing here with
  | nil => simp [resolveCode]
  | cons i rest ih =>
    simp only [List.cons_append, resolveCode, ih, codeSize_cons, Nat.add_assoc]

theorem codeBytes_append (start : String → Nat) (here : Nat) (code code' : List Instruction) :
    codeBytes start here (code ++ code') =
      codeBytes start here code ++ codeBytes start (here + codeSize code) code' := by
  rw [codeBytes, resolveCode_append, List.flatMap_append]; rfl

theorem codeBytes_cons (start : String → Nat) (here : Nat) (i : Instruction)
    (rest : List Instruction) :
    codeBytes start here (i :: rest) =
      (i.resolve start here).bytes ++ codeBytes start (here + i.size) rest := rfl

/-! ## Encoding writes the bytes of the resolved instruction -/

/-- The bits of the first byte do not overlap, so putting them together is
adding. -/
theorem Resolved.bytes_eq (r : Resolved) :
    r.bytes = firstByte r.op r.field.isImmediate r.reg :: r.field.bytes := by
  obtain ⟨op, reg, field⟩ := r
  simp only [Resolved.bytes, Resolved.head, List.cons.injEq, and_true]
  generalize field.isImmediate = immediate
  cases immediate <;> rcases reg with _ | reg
  all_goals cases op
  all_goals first | rfl | (cases reg <;> rfl)

/-- Two bytes hold a number up to multiples of 65536, and so does a word. -/
theorem bigEndian_toUInt16 (n : Nat) : bigEndian n.toUInt16 = (Field.word n).bytes := by
  have hn : n.toUInt16.toNat = n % 65536 := UInt16.toNat_ofNat'
  simp only [bigEndian, Field.bytes, List.cons.injEq, and_true]
  refine ⟨UInt8.toNat_inj.1 ?_, UInt8.toNat_inj.1 ?_⟩
  · rw [UInt16.toNat_toUInt8, UInt16.toNat_shiftRight, UInt8.toNat_ofNat', hn]
    simp only [UInt16.reduceToNat, Nat.reduceMod, Nat.shiftRight_eq_div_pow]
    omega
  · rw [UInt16.toNat_toUInt8, UInt8.toNat_ofNat', hn]
    omega

theorem Number.bytes_of_word {n : Number} (h : n.Fits .word) :
    n.bytes = (Field.word n.value.toNat).bytes := by
  rw [Number.bytes, h.1, ← bigEndian_toUInt16]
  simp

theorem Number.bytes_of_byte {n : Number} (h : n.Fits .byte) :
    n.bytes = (Field.byte n.value.toNat).bytes := by
  simp [Number.bytes, h.1, Field.bytes]

/-- Every address in the table is the one that `start` tells. -/
def SymbolTable.Gives (table : SymbolTable) (start : String → Nat) : Prop :=
  ∀ name address, table.get? name = some address → address = (start name).toUInt16

theorem Label.encode_of_gives {table : SymbolTable} {start : String → Nat} (ht : table.Gives start)
    {l : Label} (hl : (table.get? l.name).isSome) :
    l.encode table = .ok (Field.word (start l.name)).bytes := by
  obtain ⟨address, ha⟩ := Option.isSome_iff_exists.1 hl
  rw [Label.encode, SymbolTable.bytes?, ha, ht _ _ ha, ← bigEndian_toUInt16]
  rfl

theorem Label.encode_of_not {table : SymbolTable} {l : Label} (hl : table.get? l.name = none) :
    l.encode table = .error (.undefinedLabel l) := by
  rw [Label.encode, SymbolTable.bytes?, hl]
  rfl

namespace Instruction

theorem encodeSource_eq (op : Mnemonic) {src : Source} (hs : src.Fits) :
    encodeSource op src = (src.resolve op).bytes := by
  rw [Resolved.bytes_eq]
  cases src with
  | register reg => rfl
  | immediate n => rw [encodeSource, Number.bytes_of_byte hs]; rfl

theorem encodeTransfer_eq (op : Mnemonic) (dst : Register) {src : Source} (hs : src.Fits) :
    encodeTransfer op dst src = (src.resolvePair op dst).bytes := by
  rw [Resolved.bytes_eq]
  cases src with
  | register src => cases src <;> rfl
  | immediate n => rw [encodeTransfer, Number.bytes_of_byte hs]; rfl

theorem encodeAccess_eq (op : Mnemonic) (reg : Register) {address : Option Number}
    (ha : ∀ n, address = some n → n.Fits .word) :
    encodeAccess op reg address = (Resolved.mk op (some reg) (accessField address)).bytes := by
  rw [Resolved.bytes_eq]
  cases address with
  | none => rfl
  | some n => rw [encodeAccess, Number.bytes_of_word (ha n rfl)]; rfl

variable {table : SymbolTable} {start : String → Nat}

theorem encodeJump_eq (ht : table.Gives start) (op : Mnemonic) (reg : Option Register)
    {target : Option Label} (hd : ∀ l, target = some l → (table.get? l.name).isSome) :
    encodeJump table op reg target =
      .ok (Resolved.mk op reg (targetField start target)).bytes := by
  rw [Resolved.bytes_eq]
  cases target with
  | none => rfl
  | some l => rw [encodeJump, Label.encode_of_gives ht (hd l rfl)]; rfl

theorem encodeAddress_eq (ht : table.Gives start) (here : Nat) {address : Address}
    (hf : (lda address).Fits)
    (hd : ∀ l, (lda address).label? = some l → (table.get? l.name).isSome) :
    address.encode table (here + 1).toUInt16 =
      .ok (Field.word (address.resolve start here)).bytes := by
  cases address with
  | next =>
    have h : (here + 1).toUInt16 + 2 = (here + 3).toUInt16 := by
      apply UInt16.toNat_inj.1
      rw [UInt16.toNat_add]
      simp [Nat.add_assoc]
    rw [Address.encode, h, bigEndian_toUInt16]
    rfl
  | immediate n => exact congrArg Except.ok (Number.bytes_of_word hf)
  | label l => exact Label.encode_of_gives ht (hd l rfl)

/-- Where the table has the label of an instruction, encoding writes the bytes
of the resolved instruction. -/
theorem encode_of_defined (ht : table.Gives start) (here : Nat) {i : Instruction} (hf : i.Fits)
    (hd : ∀ l, i.label? = some l → (table.get? l.name).isSome) :
    i.encode table here = .ok (i.resolve start here).bytes := by
  cases i with
  | nop | hlt | pop _ => rw [Resolved.bytes_eq]; rfl
  | push src | tel src | out src => exact congrArg Except.ok (encodeSource_eq _ hf)
  | mw dst src | add dst src | sub dst src =>
    exact congrArg Except.ok (encodeTransfer_eq _ dst hf)
  | lw reg address | sw reg address =>
    refine congrArg Except.ok (encodeAccess_eq _ reg fun n hn => ?_)
    subst hn
    exact hf
  | lda address =>
    simp only [encode, encodeAddress_eq ht here hf hd, Resolved.bytes_eq]
    rfl
  | jmp target | jo target => exact encodeJump_eq ht _ none hd
  | jz reg target => exact encodeJump_eq ht _ (some reg) hd

/-- Where the table does not have it, encoding fails at the label. -/
theorem encode_of_undefined (here : Nat) {i : Instruction} {l : Label} (hl : i.label? = some l)
    (hd : table.get? l.name = none) : i.encode table here = .error (.undefinedLabel l) := by
  have jump (op : Mnemonic) (reg : Option Register) {target : Option Label}
      (h : target = some l) : encodeJump table op reg target = .error (.undefinedLabel l) := by
    rw [h, encodeJump, Label.encode_of_not hd]
    rfl
  cases i with
  | lda address =>
    cases address with
    | label l' =>
      cases hl
      simp only [encode, Address.encode, Label.encode_of_not hd]
      rfl
    | next | immediate _ => cases hl
  | jmp target | jo target => exact jump _ none hl
  | jz reg target => exact jump _ (some reg) hl
  | _ => cases hl

end Instruction

end IndentAsm
