import IndentAsm.NameMap

/-!
# Symbol tables

The addresses at which subroutines start, by name. In the image an address is
two bytes, the high one first.
-/
namespace IndentAsm

/-- A 16-bit word as bytes, the high one first. -/
def bigEndian (w : UInt16) : List UInt8 :=
  [(w >>> 8).toUInt8, w.toUInt8]

abbrev SymbolTable := NameMap UInt16

namespace SymbolTable

/-- Gives a name an address. Also gives the address it had. -/
def rebind (t : SymbolTable) (name : String) (address : UInt16) : Option UInt16 × SymbolTable :=
  (t.get? name, t.insert name address)

/-- The address of a name as it stands in the image. -/
def bytes? (t : SymbolTable) (name : String) : Option (List UInt8) :=
  (t.get? name).map bigEndian

def byName (t : SymbolTable) : List (String × UInt16) :=
  t.entries.mergeSort fun a b => a.1 ≤ b.1

/-- The entries in the order of their addresses, those at one address in the
order of their names. -/
def byAddress (t : SymbolTable) : List (String × UInt16) :=
  t.entries.mergeSort fun a b => a.2 < b.2 || (a.2 == b.2 && a.1 ≤ b.1)

end SymbolTable

end IndentAsm
