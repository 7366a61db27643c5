import IndentAsm.Image.Link

/-!
# Lines do not reach the image

A program carries the lines of its names for the sake of diagnostics. Renumbering them
by any function leaves the image as it is, and renumbers the line of an error. What is
in a label shows in the bytes of an instruction only through the address of its name
(`Instruction.encode_mapLabel`).

**Results.**
* `Instruction.encode_mapLabel`: an instruction with another label has the same bytes, if
  the other name has the same address.
* `placeFrom_mapLine`, `emit_mapLine`: what each pass of linking does, on renumbered lines.
* `Program.link_of_mapLine`: linking a renumbered program gives the same image, or the
  same error renumbered.
-/
namespace IndentAsm

/-! ## Changed labels -/

/-- An instruction with another label in place of its own. -/
def Instruction.mapLabel (g : Label → Label) : Instruction → Instruction
  | lda (.label l) => lda (.label (g l))
  | jmp target => jmp (target.map g)
  | jz reg target => jz reg (target.map g)
  | jo target => jo (target.map g)
  | i => i

@[simp] theorem Instruction.label?_mapLabel (g : Label → Label) (i : Instruction) :
    (i.mapLabel g).label? = i.label?.map g := by
  cases i with
  | lda address => cases address <;> rfl
  | _ => rfl

theorem Instruction.mapLabel_mapLabel (g h : Label → Label) (i : Instruction) :
    (i.mapLabel g).mapLabel h = i.mapLabel (h ∘ g) := by
  cases i with
  | lda address => cases address <;> rfl
  | jmp target | jz _ target | jo target => cases target <;> rfl
  | _ => rfl

@[simp] theorem Instruction.size_mapLabel (g : Label → Label) (i : Instruction) :
    (i.mapLabel g).size = i.size := by
  cases i with
  | lda address => cases address <;> rfl
  | jmp target | jz _ target | jo target => cases target <;> rfl
  | _ => rfl

@[simp] theorem codeSize_mapLabel (g : Label → Label) (code : List Instruction) :
    codeSize (code.map (·.mapLabel g)) = codeSize code := by
  induction code with
  | nil => rfl
  | cons i code ih => simp [ih]

/-- Bytes put in front leave an error alone. -/
theorem mapError_map {α β ε ε' : Type} (g : ε → ε') (h : α → β) (x : Except ε α) :
    (x.mapError g).map h = (x.map h).mapError g := by
  cases x <;> rfl

section

variable {g : Label → Label} {e : LinkError → LinkError} {table table' : SymbolTable}

theorem Label.encode_map (he : ∀ l, e (.undefinedLabel l) = .undefinedLabel (g l)) {l : Label}
    (hl : table'.get? (g l).name = table.get? l.name) :
    (g l).encode table' = (l.encode table).mapError e := by
  simp only [Label.encode, SymbolTable.bytes?, hl]
  cases table.get? l.name with
  | none => exact congrArg Except.error (he l).symm
  | some address => rfl

/-- Another label whose name has the same address gives the same bytes. Where the name has
none, the error has the other label. -/
theorem Instruction.encode_mapLabel (he : ∀ l, e (.undefinedLabel l) = .undefinedLabel (g l))
    {i : Instruction} (hi : ∀ l, i.label? = some l → table'.get? (g l).name = table.get? l.name)
    (here : Nat) : (i.mapLabel g).encode table' here = (i.encode table here).mapError e := by
  have jump (op : Mnemonic) (reg : Option Register) {target : Option Label}
      (ht : ∀ l, target = some l → table'.get? (g l).name = table.get? l.name) :
      encodeJump table' op reg (target.map g) = (encodeJump table op reg target).mapError e := by
    cases target with
    | none => rfl
    | some l => simp only [Option.map_some, encodeJump, Label.encode_map he (ht l rfl), mapError_map]
  cases i with
  | lda address =>
    cases address with
    | next => rfl
    | immediate n => rfl
    | label l =>
      simp only [mapLabel, encode, Address.encode, Label.encode_map he (hi l rfl), mapError_map,
        operation]
  | jmp target | jz _ target | jo target => exact jump _ _ hi
  | _ => rfl

theorem emit_mapLabel (he : ∀ l, e (.undefinedLabel l) = .undefinedLabel (g l))
    {code : List Instruction}
    (hcode : ∀ i ∈ code, ∀ l, i.label? = some l → table'.get? (g l).name = table.get? l.name)
    (sink : Array UInt8) :
    emit table' (code.map (·.mapLabel g)) sink = (emit table code sink).mapError e := by
  induction code generalizing sink with
  | nil => rfl
  | cons i code ih =>
    rw [List.forall_mem_cons] at hcode
    rw [List.map_cons, emit, emit, Instruction.encode_mapLabel he hcode.1]
    cases i.encode table sink.size with
    | error e => rfl
    | ok bytes => exact ih hcode.2 _

end

/-! ## Renumbered lines -/

def Label.mapLine (f : Nat → Nat) (l : Label) : Label := { l with line := f l.line }

def Address.mapLine (f : Nat → Nat) : Address → Address
  | next => next
  | immediate n => immediate n
  | label l => label (l.mapLine f)

/-- Only labels carry a line. -/
def Instruction.mapLine (f : Nat → Nat) : Instruction → Instruction
  | lda address => lda (address.mapLine f)
  | jmp target => jmp (target.map (·.mapLine f))
  | jz reg target => jz reg (target.map (·.mapLine f))
  | jo target => jo (target.map (·.mapLine f))
  | i => i

def Subroutine.mapLine (f : Nat → Nat) (s : Subroutine) : Subroutine :=
  { s with line := f s.line, instructions := s.instructions.map (·.mapLine f) }

def LinkError.mapLine (f : Nat → Nat) : LinkError → LinkError
  | undefinedLabel l => undefinedLabel (l.mapLine f)
  | addressOverflow line name => addressOverflow (f line) name

variable (f : Nat → Nat)

@[simp] theorem Subroutine.name_mapLine (s : Subroutine) : (s.mapLine f).name = s.name := rfl

@[simp] theorem Subroutine.isEntry_mapLine (s : Subroutine) : (s.mapLine f).isEntry = s.isEntry :=
  rfl

theorem Instruction.mapLine_eq (i : Instruction) : i.mapLine f = i.mapLabel (·.mapLine f) := by
  cases i with
  | lda address => cases address <;> rfl
  | _ => rfl

theorem map_mapLine_eq (code : List Instruction) :
    code.map (·.mapLine f) = code.map (·.mapLabel (·.mapLine f)) :=
  List.map_congr_left fun i _ => i.mapLine_eq f

theorem Instruction.mapLine_mapLine (g : Nat → Nat) (i : Instruction) :
    (i.mapLine f).mapLine g = i.mapLine (g ∘ f) := by
  simp only [mapLine_eq, mapLabel_mapLabel]
  rfl

@[simp] theorem Subroutine.size_mapLine (s : Subroutine) : (s.mapLine f).size = s.size := by
  simp only [Subroutine.size, Subroutine.mapLine, map_mapLine_eq, codeSize_mapLabel]

/-! ## The two passes -/

/-- Addresses go by name, and the error names the same subroutine. -/
theorem placeFrom_mapLine (offset : Nat) (table : SymbolTable) (subs : List Subroutine) :
    placeFrom offset table (subs.map (·.mapLine f)) =
      ((placeFrom offset table subs).1,
        (placeFrom offset table subs).2.mapError (LinkError.mapLine f)) := by
  induction subs generalizing offset table with
  | nil => rfl
  | cons s subs ih =>
    simp only [List.map_cons, placeFrom, Subroutine.size_mapLine, Subroutine.name_mapLine, ih]
    split
    · rfl
    · split
      · rfl
      · rfl

theorem emit_mapLine (table : SymbolTable) (code : List Instruction) (sink : Array UInt8) :
    emit table (code.map (·.mapLine f)) sink =
      (emit table code sink).mapError (LinkError.mapLine f) := by
  rw [map_mapLine_eq]
  exact emit_mapLabel (g := (·.mapLine f)) (fun _ => rfl) (fun _ _ _ _ => rfl) sink

/-! ## Whole programs -/

namespace Program

variable {f} {p q : Program}

theorem layout_of_mapLine (h : q.subroutines = p.subroutines.map (·.mapLine f)) :
    q.layout = p.layout.map (·.mapLine f) := by
  simp only [layout, h, List.filter_map, List.map_append, Function.comp_def,
    Subroutine.isEntry_mapLine]

theorem code_of_mapLine (h : q.subroutines = p.subroutines.map (·.mapLine f)) :
    q.code = p.code.map (·.mapLine f) := by
  simp only [code, layout_of_mapLine h, List.flatMap_map, List.map_flatMap]
  rfl

/-- A renumbered program has the image of the other, or fails with the error of the
other, renumbered. Its macros are of no account. -/
theorem link_of_mapLine (h : q.subroutines = p.subroutines.map (·.mapLine f)) :
    q.link.result = p.link.result.mapError (LinkError.mapLine f) := by
  unfold link assignAddresses
  rw [layout_of_mapLine h, placeFrom_mapLine, code_of_mapLine h]
  obtain ⟨table, placed⟩ := placeFrom 0 .empty p.layout
  cases placed with
  | error e => rfl
  | ok size =>
    have hplaced : (Except.ok size).mapError (LinkError.mapLine f) = .ok size := rfl
    simp only [hplaced, emit_mapLine]
    cases emit table p.code #[] <;> rfl

end Program

end IndentAsm
