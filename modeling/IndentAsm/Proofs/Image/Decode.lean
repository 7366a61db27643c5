import IndentAsm.Proofs.Image.Placement

/-!
# Reading an image back

The first byte of an instruction tells all the rest: its high nibble is the opcode,
the next bit tells of an immediate operand, and the two together are a `Form`, which
says whether the low bits select a register and what follows. `decode` cuts an image
into instructions that way. It refuses what no instruction is written as: the unused
opcode, a bit that the form leaves clear, an image that ends too early.

Nothing that is lost in the image can be read back, so what is read is the resolved
code, with numbers in the place of labels and next addresses.

**Results.**
* `read?_bytes`, `bytes_of_read?`: an instruction is read exactly from its bytes,
  whatever follows them.
* `decode_eq_some_iff`: code is decoded exactly from its bytes.
* `Instruction.wellFormed_resolve`: the instructions of a program are of these
  forms, if their operands are in range.
* `decode_of_link`: an image is decoded as the resolved code of its program, and has
  no other reading.
-/
namespace IndentAsm

/-! ## Forms -/

/-- What can follow the first byte of an instruction. -/
inductive Field.Kind where
  | none
  | pair
  | byte
  | word
  deriving DecidableEq, Repr, Inhabited

structure Form where
  /-- Whether the low bits of the first byte select a register. -/
  hasRegister : Bool
  /-- What follows the first byte. -/
  field : Field.Kind
  deriving DecidableEq, Repr, Inhabited

/-- The forms of a mnemonic, without and with an immediate operand. -/
def Mnemonic.form? : Mnemonic → Bool → Option Form
  | nop, false | hlt, false | jmp, false | jo, false => some ⟨false, .none⟩
  | pop, false | lw, false | sw, false | jz, false => some ⟨true, .none⟩
  | push, false | tel, false | out, false => some ⟨true, .none⟩
  | push, true | tel, true | out, true => some ⟨false, .byte⟩
  | mw, false | add, false | sub, false => some ⟨true, .pair⟩
  | mw, true | add, true | sub, true => some ⟨true, .byte⟩
  | lw, true | sw, true | jz, true => some ⟨true, .word⟩
  | lda, true | jmp, true | jo, true => some ⟨false, .word⟩
  | nop, true | hlt, true | pop, true | lda, false => none

def Field.kind : Field → Field.Kind
  | none => .none
  | pair _ => .pair
  | byte _ => .byte
  | word _ => .word

def Field.Kind.isImmediate : Field.Kind → Bool
  | none | pair => false
  | byte | word => true

/-- A number fits in the bytes it has in the image. -/
def Field.InRange : Field → Prop
  | none | pair _ => True
  | byte value => value ≤ 0xFF
  | word value => value ≤ 0xFFFF

/-- An instruction of the machine: it has a form, and its number is in range. -/
structure Resolved.WellFormed (r : Resolved) : Prop where
  form : r.op.form? r.field.isImmediate = some ⟨r.reg.isSome, r.field.kind⟩
  inRange : r.field.InRange

/-! ## Reading -/

def Mnemonic.ofOpcode? (n : Nat) : Option Mnemonic :=
  all.find? (·.opcode.toNat == n)

def Register.ofCode? (n : Nat) : Option Register :=
  all.find? (·.code.toNat == n)

/-- Reads the register in the low bits of a first byte. Bits that select none are
clear. -/
def Form.register? (form : Form) (bits : Nat) : Option (Option Register) :=
  if form.hasRegister then (Register.ofCode? bits).map some
  else if bits = 0 then some none
  else none

/-- Reads what follows the first byte, and gives the bytes behind it. -/
def Field.Kind.read? : Field.Kind → List UInt8 → Option (Field × List UInt8)
  | none, rest => some (.none, rest)
  | pair, b :: rest =>
    if b.toNat % 32 = 0 then (Register.ofCode? (b.toNat / 32)).map fun reg => (.pair reg, rest)
    else .none
  | byte, b :: rest => some (.byte b.toNat, rest)
  | word, high :: low :: rest => some (.word (256 * high.toNat + low.toNat), rest)
  | _, _ => .none

namespace Resolved

/-- Reads an instruction behind its first byte `b`. -/
def readFrom? (b : Nat) (rest : List UInt8) : Option (Resolved × List UInt8) := do
  let op ← Mnemonic.ofOpcode? (b / 16)
  let form ← op.form? (b / 8 % 2 == 1)
  let reg ← form.register? (b % 8)
  let (field, rest) ← form.field.read? rest
  return (⟨op, reg, field⟩, rest)

/-- Reads an instruction, and gives the bytes behind it. -/
def read? : List UInt8 → Option (Resolved × List UInt8)
  | [] => none
  | b :: rest => readFrom? b.toNat rest

end Resolved

/-! ## A first byte and its parts -/

theorem Mnemonic.ofOpcode?_opcode (op : Mnemonic) : ofOpcode? op.opcode.toNat = some op := by
  cases op <;> rfl

theorem Mnemonic.opcode_of_ofOpcode? {n : Nat} {op : Mnemonic} (h : ofOpcode? n = some op) :
    op.opcode.toNat = n := by
  simpa using List.find?_some h

theorem Register.ofCode?_code (reg : Register) : ofCode? reg.code.toNat = some reg := by
  cases reg <;> rfl

theorem Register.code_of_ofCode? {n : Nat} {reg : Register} (h : ofCode? n = some reg) :
    reg.code.toNat = n := by
  simpa using List.find?_some h

/-- The code of a register that may be missing. -/
def registerBits (reg : Option Register) : Nat := (reg.map fun reg => reg.code.toNat).getD 0

theorem registerBits_lt (reg : Option Register) : registerBits reg < 4 := by
  cases reg with
  | none => decide
  | some reg => exact UInt8.lt_iff_toNat_lt.1 reg.code_lt

theorem Form.register?_eq_some_iff {form : Form} {bits : Nat} {reg : Option Register} :
    form.register? bits = some reg ↔ form.hasRegister = reg.isSome ∧ bits = registerBits reg := by
  unfold register?
  cases hr : form.hasRegister with
  | true =>
    rw [if_pos rfl, Option.map_eq_some_iff]
    constructor
    · rintro ⟨r, hr, rfl⟩
      exact ⟨rfl, (Register.code_of_ofCode? hr).symm⟩
    · rintro ⟨hs, rfl⟩
      obtain ⟨r, rfl⟩ := Option.isSome_iff_exists.1 hs.symm
      exact ⟨r, r.ofCode?_code, rfl⟩
  | false =>
    by_cases hb : bits = 0
    · cases reg <;> simp [hb, registerBits]
    · cases reg <;> simp [hb, registerBits]

theorem Resolved.head_eq (r : Resolved) : r.head =
    16 * r.op.opcode.toNat + (if r.field.isImmediate then 8 else 0) + registerBits r.reg := rfl

/-- The parts of a first byte do not run into each other. -/
theorem Resolved.head_parts (r : Resolved) : r.head < 256 ∧ r.head / 16 = r.op.opcode.toNat ∧
    (r.head / 8 % 2 == 1) = r.field.isImmediate ∧ r.head % 8 = registerBits r.reg := by
  have hop : r.op.opcode.toNat < 16 := UInt8.lt_iff_toNat_lt.1 r.op.opcode_lt
  have hreg := registerBits_lt r.reg
  rw [r.head_eq]
  cases r.field.isImmediate with
  | true =>
    simp only [if_true, beq_iff_eq]
    omega
  | false =>
    simp only [Bool.false_eq_true, if_false, beq_eq_false_iff_ne, ne_eq]
    omega

/-- The form alone says whether there is an immediate operand. -/
theorem Mnemonic.isImmediate_of_form? {op : Mnemonic} {immediate : Bool} {form : Form}
    (h : op.form? immediate = some form) : form.field.isImmediate = immediate := by
  cases op <;> cases immediate <;> cases h <;> rfl

theorem Field.isImmediate_eq (f : Field) : f.isImmediate = f.kind.isImmediate := by
  cases f <;> rfl

/-! ## Operands -/

/-- An operand is read from its bytes. -/
theorem Field.read?_bytes {f : Field} (h : f.InRange) (rest : List UInt8) :
    f.kind.read? (f.bytes ++ rest) = some (f, rest) := by
  cases f with
  | none => rfl
  | pair reg => cases reg <;> rfl
  | byte value =>
    have hv : value % 256 = value := Nat.mod_eq_of_lt (Nat.lt_succ_of_le h)
    simp [kind, Field.bytes, Kind.read?, hv]
  | word value =>
    have hv : value ≤ 0xFFFF := h
    have hhigh : value / 256 % 256 = value / 256 := by omega
    have hlow : value % 256 % 256 = value % 256 := by omega
    simp only [kind, Field.bytes, List.cons_append, List.nil_append, Kind.read?,
      UInt8.toNat_ofNat', Nat.reducePow, hhigh, hlow, Nat.div_add_mod]

/-- And from no other bytes. -/
theorem Field.bytes_of_read? {kind : Field.Kind} {bytes rest : List UInt8} {f : Field}
    (h : kind.read? bytes = some (f, rest)) :
    f.kind = kind ∧ f.InRange ∧ bytes = f.bytes ++ rest := by
  unfold Kind.read? at h
  split at h
  · cases h
    exact ⟨rfl, trivial, rfl⟩
  · rename_i b rest'
    split at h
    · rename_i hb
      obtain ⟨reg, hreg, h⟩ := Option.map_eq_some_iff.1 h
      cases h
      refine ⟨rfl, trivial, ?_⟩
      have hcode := Register.code_of_ofCode? hreg
      have hbyte : 32 * reg.code.toNat = b.toNat := by omega
      simp [Field.bytes, hbyte]
    · cases h
  · rename_i b rest'
    cases h
    exact ⟨rfl, Nat.le_of_lt_succ b.toNat_lt, by simp [Field.bytes]⟩
  · rename_i high low rest'
    cases h
    have hh := high.toNat_lt
    have hl := low.toNat_lt
    have hdiv : (256 * high.toNat + low.toNat) / 256 = high.toNat := by omega
    have hmod : (256 * high.toNat + low.toNat) % 256 = low.toNat := by omega
    refine ⟨rfl, ?_, ?_⟩
    · show 256 * high.toNat + low.toNat ≤ 0xFFFF
      omega
    · simp [Field.bytes, hdiv, hmod]
  · cases h

/-! ## Instructions -/

namespace Resolved

/-- An instruction is read from its bytes. -/
theorem read?_bytes {r : Resolved} (h : r.WellFormed) (rest : List UInt8) :
    read? (r.bytes ++ rest) = some (r, rest) := by
  obtain ⟨hlt, hop, himm, hreg⟩ := r.head_parts
  have hb : (UInt8.ofNat r.head).toNat = r.head := by
    rw [UInt8.toNat_ofNat']
    exact Nat.mod_eq_of_lt hlt
  have hregister : Form.register? ⟨r.reg.isSome, r.field.kind⟩ (r.head % 8) = some r.reg :=
    Form.register?_eq_some_iff.2 ⟨rfl, hreg⟩
  rw [Resolved.bytes, List.cons_append, read?, hb, readFrom?, hop, himm, Mnemonic.ofOpcode?_opcode]
  simp only [Option.bind_eq_bind, Option.bind_some, h.form, hregister,
    Field.read?_bytes h.inRange rest]
  rfl

/-- And from no other bytes. -/
theorem bytes_of_read? {r : Resolved} {bytes rest : List UInt8}
    (h : read? bytes = some (r, rest)) : r.WellFormed ∧ bytes = r.bytes ++ rest := by
  cases bytes with
  | nil => cases h
  | cons b bytes =>
    obtain ⟨op, hop, h⟩ := Option.bind_eq_some_iff.1 h
    obtain ⟨form, hform, h⟩ := Option.bind_eq_some_iff.1 h
    obtain ⟨reg, hreg, h⟩ := Option.bind_eq_some_iff.1 h
    obtain ⟨⟨field, rest'⟩, hfield, h⟩ := Option.bind_eq_some_iff.1 h
    cases h
    obtain ⟨hkind, hrange, rfl⟩ := Field.bytes_of_read? hfield
    obtain ⟨hhas, hbits⟩ := Form.register?_eq_some_iff.1 hreg
    have hcode := Mnemonic.opcode_of_ofOpcode? hop
    have himm : (b.toNat / 8 % 2 == 1) = field.isImmediate := by
      rw [Field.isImmediate_eq, hkind, Mnemonic.isImmediate_of_form? hform]
    have hhead : Resolved.head ⟨op, reg, field⟩ = b.toNat := by
      rw [head_eq, hcode, ← hbits, ← himm]
      have hlt := b.toNat_lt
      by_cases hbit : b.toNat / 8 % 2 = 1
      · simp only [hbit, beq_self_eq_true, if_true]
        omega
      · simp only [beq_eq_false_iff_ne.2 hbit, Bool.false_eq_true, if_false]
        omega
    refine ⟨⟨?_, hrange⟩, ?_⟩
    · rw [← himm, hform, ← hhas, hkind]
    · rw [Resolved.bytes, hhead, UInt8.ofNat_toNat, List.cons_append]

theorem length_bytes_pos (r : Resolved) : 0 < r.bytes.length := Nat.succ_pos _

theorem read?_length {r : Resolved} {bytes rest : List UInt8} (h : read? bytes = some (r, rest)) :
    rest.length < bytes.length := by
  rw [(bytes_of_read? h).2, List.length_append]
  have := r.length_bytes_pos
  omega

end Resolved

/-! ## Code -/

/-- Reads an image to its end, as one instruction after another. -/
def decode (bytes : List UInt8) : Option (List Resolved) :=
  if bytes = [] then some []
  else
    match _h : Resolved.read? bytes with
    | none => none
    | some (r, rest) => (decode rest).map (r :: ·)
termination_by bytes.length
decreasing_by exact Resolved.read?_length _h

def resolvedBytes (code : List Resolved) : List UInt8 := code.flatMap Resolved.bytes

theorem decode_cons {r : Resolved} (h : r.WellFormed) (rest : List UInt8) :
    decode (r.bytes ++ rest) = (decode rest).map (r :: ·) := by
  have hne : r.bytes ++ rest ≠ [] := by simp [Resolved.bytes]
  rw [decode, if_neg hne]
  split
  · rename_i hn
    rw [Resolved.read?_bytes h] at hn
    cases hn
  · rename_i r' rest' hr
    rw [Resolved.read?_bytes h] at hr
    cases hr
    rfl

theorem decode_resolvedBytes {code : List Resolved} (h : ∀ r ∈ code, r.WellFormed) :
    decode (resolvedBytes code) = some code := by
  induction code with
  | nil => rw [decode]; rfl
  | cons r code ih =>
    rw [List.forall_mem_cons] at h
    rw [resolvedBytes, List.flatMap_cons, decode_cons h.1]
    exact congrArg (Option.map (r :: ·)) (ih h.2)

theorem eq_resolvedBytes_of_decode {bytes : List UInt8} {code : List Resolved}
    (h : decode bytes = some code) :
    (∀ r ∈ code, r.WellFormed) ∧ resolvedBytes code = bytes := by
  fun_induction decode bytes generalizing code with
  | case1 =>
    cases h
    exact ⟨by simp, rfl⟩
  | case2 bytes hne hn => cases h
  | case3 bytes hne r rest hr ih =>
    obtain ⟨code, hcode, rfl⟩ := Option.map_eq_some_iff.1 h
    obtain ⟨hall, hbytes⟩ := ih hcode
    obtain ⟨hform, rfl⟩ := Resolved.bytes_of_read? hr
    refine ⟨List.forall_mem_cons.2 ⟨hform, hall⟩, ?_⟩
    rw [resolvedBytes, List.flatMap_cons]
    exact congrArg (r.bytes ++ ·) hbytes

/-- Code is decoded exactly from its bytes. -/
theorem decode_eq_some_iff {bytes : List UInt8} {code : List Resolved} :
    decode bytes = some code ↔ (∀ r ∈ code, r.WellFormed) ∧ resolvedBytes code = bytes := by
  refine ⟨eq_resolvedBytes_of_decode, ?_⟩
  rintro ⟨h, rfl⟩
  exact decode_resolvedBytes h

/-! ## The resolved code of a program -/

theorem Source.wellFormed_resolve {op : Mnemonic} {src : Source} (hs : src.Fits)
    (hreg : op.form? false = some ⟨true, .none⟩) (himm : op.form? true = some ⟨false, .byte⟩) :
    (src.resolve op).WellFormed := by
  cases src with
  | register reg => exact ⟨hreg, trivial⟩
  | immediate n => exact ⟨himm, hs.2⟩

theorem Source.wellFormed_resolvePair {op : Mnemonic} {dst : Register} {src : Source}
    (hs : src.Fits) (hreg : op.form? false = some ⟨true, .pair⟩)
    (himm : op.form? true = some ⟨true, .byte⟩) : (src.resolvePair op dst).WellFormed := by
  cases src with
  | register reg => exact ⟨hreg, trivial⟩
  | immediate n => exact ⟨himm, hs.2⟩

theorem Instruction.wellFormed_access {op : Mnemonic} {reg : Register} {address : Option Number}
    (hbare : op.form? false = some ⟨true, .none⟩) (himm : op.form? true = some ⟨true, .word⟩)
    (ha : ∀ n, address = some n → n.Fits .word) :
    (Resolved.mk op (some reg) (accessField address)).WellFormed := by
  cases address with
  | none => exact ⟨hbare, trivial⟩
  | some n => exact ⟨himm, (ha n rfl).2⟩

theorem Instruction.wellFormed_jump {start : String → Nat} {op : Mnemonic} {reg : Option Register}
    {target : Option Label} (hbare : op.form? false = some ⟨reg.isSome, .none⟩)
    (hword : op.form? true = some ⟨reg.isSome, .word⟩)
    (ht : ∀ l, target = some l → start l.name ≤ lastAddress) :
    (Resolved.mk op reg (targetField start target)).WellFormed := by
  cases target with
  | none => exact ⟨hbare, trivial⟩
  | some l => exact ⟨hword, ht l rfl⟩

/-- The instructions of a program are of the forms of the machine. The numbers that
take the place of labels and next addresses have to be addresses. -/
theorem Instruction.wellFormed_resolve {start : String → Nat} {here : Nat} {i : Instruction}
    (hf : i.Fits) (hlabel : ∀ l, i.label? = some l → start l.name ≤ lastAddress)
    (hnext : here + i.size ≤ lastAddress) : (i.resolve start here).WellFormed := by
  cases i with
  | nop | hlt | pop _ => exact ⟨rfl, trivial⟩
  | push src | tel src | out src => exact Source.wellFormed_resolve hf rfl rfl
  | mw dst src | add dst src | sub dst src => exact Source.wellFormed_resolvePair hf rfl rfl
  | lw reg address | sw reg address =>
    refine wellFormed_access rfl rfl fun n hn => ?_
    subst hn
    exact hf
  | lda address =>
    refine ⟨rfl, ?_⟩
    cases address with
    | next => exact hnext
    | immediate n => exact hf.2
    | label l => exact hlabel l rfl
  | jmp target | jo target => exact wellFormed_jump rfl rfl hlabel
  | jz reg target => exact wellFormed_jump rfl rfl hlabel

theorem wellFormed_resolveCode {start : String → Nat} {here : Nat} {code : List Instruction}
    (hf : ∀ i ∈ code, i.Fits)
    (hlabel : ∀ i ∈ code, ∀ l, i.label? = some l → start l.name ≤ lastAddress)
    (hend : here + codeSize code ≤ lastAddress) :
    ∀ r ∈ resolveCode start here code, r.WellFormed := by
  induction code generalizing here with
  | nil => simp [resolveCode]
  | cons i rest ih =>
    rw [List.forall_mem_cons] at hf hlabel
    rw [codeSize_cons] at hend
    refine List.forall_mem_cons.2 ⟨i.wellFormed_resolve hf.1 hlabel.1 (by omega), ?_⟩
    exact ih hf.2 hlabel.2 (by omega)

theorem startIn_le {subs : List Subroutine} {name : String} {a : Nat}
    (h : startIn subs name = some a) : a ≤ totalSize subs := by
  induction subs generalizing a with
  | nil => cases h
  | cons s rest ih =>
    rw [startIn] at h
    rw [totalSize_cons]
    split at h
    · rename_i b hb
      cases h
      exact Nat.add_le_add_left (ih hb) _
    · split at h
      · cases h
        exact Nat.zero_le _
      · cases h

namespace Program

/-- The code of a program with a number in the place of every label and of every next
address, in the order of the image. -/
def resolved (p : Program) : List Resolved := resolveCode p.start 0 p.code

theorem start_le_size (p : Program) (name : String) : p.start name ≤ p.size := by
  rw [start, ← p.totalSize_layout]
  cases h : startIn p.layout name with
  | none => exact Nat.zero_le _
  | some a => exact startIn_le h

theorem wellFormed_resolved {p : Program} (hf : p.Fits) (hs : p.size ≤ lastAddress) :
    ∀ r ∈ p.resolved, r.WellFormed := by
  refine wellFormed_resolveCode (p.fits_code hf) (fun i _ l _ => ?_) ?_
  · exact Nat.le_trans (p.start_le_size l.name) hs
  · rw [code, codeSize_flatMap, p.totalSize_layout, Nat.zero_add]
    exact hs

end Program

/-- The image of a program consists of the bytes of its resolved code, and is decoded
as that. So another program with this image has the same resolved code, and no other
code of the machine has these bytes. -/
theorem decode_of_link {p : Program} {image : List UInt8} (hf : p.Fits)
    (h : p.link.result = .ok image) :
    decode image = some p.resolved ∧ resolvedBytes p.resolved = image ∧
      (∀ q : Program, q.Fits → q.link.result = .ok image → q.resolved = p.resolved) ∧
      ∀ code : List Resolved, (∀ r ∈ code, r.WellFormed) → resolvedBytes code = image →
        code = p.resolved := by
  have reading {q : Program} (hq : q.Fits) (hl : q.link.result = .ok image) :
      (∀ r ∈ q.resolved, r.WellFormed) ∧ resolvedBytes q.resolved = image := by
    obtain ⟨-, -, hsize, -, rfl, -⟩ := link_eq_ok hq hl
    exact ⟨q.wellFormed_resolved hq hsize, rfl⟩
  have hdecode := decode_eq_some_iff.2 (reading hf h)
  refine ⟨hdecode, (reading hf h).2, fun q hq hl => ?_, fun code hc hb => ?_⟩
  · exact Option.some.inj ((decode_eq_some_iff.2 (reading hq hl)).symm.trans hdecode)
  · exact Option.some.inj ((decode_eq_some_iff.2 ⟨hc, hb⟩).symm.trans hdecode)

/-- A program with every kind of operand, and with two subroutines of one name. -/
def everyOperand : Program :=
  ⟨[⟨"loop", 1, [.add .a (.register .l), .jz .b (some ⟨"loop", 3⟩), .jmp none]⟩,
    ⟨"main", 4, [.lda .next, .push (.immediate ⟨7, .byte⟩), .lda (.immediate ⟨0xFFFF, .word⟩)]⟩,
    ⟨"loop", 7, [.sw .h (some ⟨0x1234, .word⟩), .tel (.register .a), .hlt]⟩], .empty⟩

/-- Its resolved code is what its image is decoded as. -/
theorem decode_everyOperand :
    everyOperand.resolved =
      [⟨.lda, none, .word 3⟩, ⟨.push, none, .byte 7⟩, ⟨.lda, none, .word 0xFFFF⟩,
        ⟨.add, some .a, .pair .l⟩, ⟨.jz, some .b, .word 14⟩, ⟨.jmp, none, .none⟩,
        ⟨.sw, some .h, .word 0x1234⟩, ⟨.tel, some .a, .none⟩, ⟨.hlt, none, .none⟩] ∧
    decode [0x68, 0, 3, 0x48, 7, 0x68, 0xFF, 0xFF, 0xA0, 0x60, 0x89, 0, 14, 0x70, 0x2A, 0x12, 0x34,
      0xD0, 0xF0] = some everyOperand.resolved :=
  ⟨by decide, (decode_of_link (by decide) (by decide)).1⟩

end IndentAsm
