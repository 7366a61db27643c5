import IndentAsm.Image.Encode
import IndentAsm.Program.Basic

/-!
# From a program to its image

Linking goes over the layout twice. The first time it gives each subroutine
the address at which it starts, the second time it writes the bytes, so that
references may go forward. The end of the image has to be an address too.

A table of addresses that a failed first pass leaves behind has the addresses
given so far, that of the subroutine at fault included.

**Results.**
* `emit_append`: the bytes of code are those of its parts, one after another.
* `emit_eq_error`: writing fails at an instruction, with all before it written.
* `Program.link_eq_ok_iff`, `Program.link_eq_error_iff`: linking fails with the
  first pass to fail, and otherwise gives what the second one writes.
-/
namespace IndentAsm

def lastAddress : Nat := 0xFFFF

/-- Gives the subroutines of a layout their addresses, the first one at
`offset`. Gives the end of the last. -/
def placeFrom (offset : Nat) (table : SymbolTable) :
    List Subroutine → SymbolTable × Except LinkError Nat
  | [] => (table, .ok offset)
  | s :: rest =>
    if lastAddress < offset then (table, .error (.addressOverflow s.line s.name))
    else
      let table := table.insert s.name offset.toUInt16
      if lastAddress < offset + s.size then (table, .error (.addressOverflow s.line s.name))
      else placeFrom (offset + s.size) table rest

/-- Gives the subroutines of a layout their addresses, on top of those in
`table`. Gives the size of the layout. -/
def assignAddresses (table : SymbolTable) (layout : List Subroutine) :
    SymbolTable × Except LinkError Nat :=
  placeFrom 0 table layout

def placementEvents (table : SymbolTable) (size : Nat) : List Event :=
  .placed table.size size :: table.byAddress.map fun (name, address) => .bound name address

/-- Writes the bytes of code behind those of `sink`. -/
def emit (table : SymbolTable) : List Instruction → Array UInt8 → Except LinkError (Array UInt8)
  | [], sink => .ok sink
  | i :: rest, sink =>
    match i.encode table sink.size with
    | .error e => .error e
    | .ok bytes => emit table rest (sink ++ bytes)

theorem emit_append (table : SymbolTable) (code code' : List Instruction) (sink : Array UInt8) :
    emit table (code ++ code') sink = emit table code sink >>= emit table code' := by
  induction code generalizing sink with
  | nil => rfl
  | cons i rest ih =>
    simp only [List.cons_append, emit]
    split
    · rfl
    · exact ih _

theorem emit_eq_error {table : SymbolTable} {code : List Instruction} {sink : Array UInt8}
    {e : LinkError} (h : emit table code sink = .error e) :
    ∃ before i after sink', code = before ++ i :: after ∧ emit table before sink = .ok sink' ∧
      i.encode table sink'.size = .error e := by
  induction code generalizing sink with
  | nil => cases h
  | cons i rest ih =>
    rw [emit] at h
    cases hi : i.encode table sink.size with
    | error e' =>
      rw [hi] at h
      cases h
      exact ⟨[], i, rest, sink, rfl, rfl, hi⟩
    | ok bytes =>
      rw [hi] at h
      obtain ⟨before, j, after, sink', hrest, hemit, hj⟩ := ih h
      refine ⟨i :: before, j, after, sink', by rw [hrest, List.cons_append], ?_, hj⟩
      rw [emit, hi]
      exact hemit

namespace Program

/-- The instructions in the order they have in the image. -/
def code (p : Program) : List Instruction :=
  p.layout.flatMap Subroutine.instructions

def link (p : Program) : Logged (Except LinkError (List UInt8)) :=
  match assignAddresses .empty p.layout with
  | (_, .error e) => ⟨.error e, p.layoutWarnings⟩
  | (table, .ok size) =>
    let log := p.layoutWarnings ++ placementEvents table size
    match emit table p.code #[] with
    | .error e => ⟨.error e, log⟩
    | .ok image => ⟨.ok image.toList, log ++ [.emitted image.size]⟩

theorem link_eq_ok_iff {p : Program} {image : List UInt8} : p.link.result = .ok image ↔
    ∃ table size sink, assignAddresses .empty p.layout = (table, .ok size) ∧
      emit table p.code #[] = .ok sink ∧ image = sink.toList := by
  unfold link
  obtain ⟨table, outcome⟩ := assignAddresses .empty p.layout
  cases outcome with
  | error e => simp
  | ok size => cases hemit : emit table p.code #[] <;> simp [hemit, eq_comm]

theorem link_eq_error_iff {p : Program} {e : LinkError} : p.link.result = .error e ↔
    (assignAddresses .empty p.layout).2 = .error e ∨
      ∃ table size, assignAddresses .empty p.layout = (table, .ok size) ∧
        emit table p.code #[] = .error e := by
  unfold link
  obtain ⟨table, outcome⟩ := assignAddresses .empty p.layout
  cases outcome with
  | error e' => simp
  | ok size => cases hemit : emit table p.code #[] <;> simp [hemit]

end Program

end IndentAsm
