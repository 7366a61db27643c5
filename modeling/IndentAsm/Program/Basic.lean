import IndentAsm.NameMap
import IndentAsm.Diagnostic.Event
import IndentAsm.Program.Instruction
import IndentAsm.Program.Macro

/-!
# Programs

A program is a list of subroutines, in the order of their declaration, and
the macros defined along the way. The image starts with `main`; the other
subroutines follow in the order of their declaration (`Program.layout`).

**Results.**
* `Program.layout_perm`: the layout holds every subroutine, as often as the
  program does.
* `Program.totalSize_layout`: the layout has the size of the program.
-/
namespace IndentAsm

structure Subroutine where
  name : String
  /-- The line of its name. -/
  line : Nat
  instructions : List Instruction
  deriving DecidableEq, Repr, Inhabited

namespace Subroutine

def size (s : Subroutine) : Nat :=
  codeSize s.instructions

/-- How the printed program shows a subroutine. -/
def text (s : Subroutine) : String :=
  "Subroutine(" ++ s.name ++ ")"

/-- The name of the subroutine that execution starts with. -/
def entryPoint : String := "main"

def isEntry (s : Subroutine) : Bool :=
  s.name == entryPoint

/-- The warnings about how a subroutine ends. -/
def warnings (s : Subroutine) : List Event :=
  match s.instructions.getLast? with
  | none => [.emptySubroutine s.line s.name]
  | some i => if i.endsFlow then [] else [.fallsThrough s.line s.name]

end Subroutine

def totalSize (subs : List Subroutine) : Nat :=
  subs.foldr (fun s n => s.size + n) 0

@[simp] theorem totalSize_nil : totalSize [] = 0 := rfl

@[simp] theorem totalSize_cons (s : Subroutine) (subs : List Subroutine) :
    totalSize (s :: subs) = s.size + totalSize subs := rfl

/-- The size does not depend on the order. -/
theorem totalSize_perm {subs subs' : List Subroutine} (h : subs.Perm subs') :
    totalSize subs = totalSize subs' := by
  induction h with
  | nil => rfl
  | cons s _ ih => simp only [totalSize_cons, ih]
  | swap s t subs => simp only [totalSize_cons]; omega
  | trans _ _ ih ih' => exact ih.trans ih'

structure Program where
  subroutines : List Subroutine
  macros : NameMap Macro

namespace Program

instance : Inhabited Program := ⟨⟨[], .empty⟩⟩

/-- The subroutines in the order they have in the image. -/
def layout (p : Program) : List Subroutine :=
  p.subroutines.filter Subroutine.isEntry ++ p.subroutines.filter (!·.isEntry)

/-- The warning that there is no entry point. -/
def layoutWarnings (p : Program) : List Event :=
  match p.subroutines with
  | [] => []
  | first :: _ =>
    if p.subroutines.any Subroutine.isEntry then [] else [.noEntryPoint first.name]

def size (p : Program) : Nat :=
  totalSize p.subroutines

def sortedMacros (p : Program) : List Macro :=
  p.macros.values.mergeSort fun m n => m.line ≤ n.line

/-- The lines of the printed program below its first one. -/
def treeLines (p : Program) : List String :=
  p.sortedMacros.map (fun m => "  " ++ m.text) ++
    p.subroutines.flatMap fun s =>
      ("  " ++ s.text) :: s.instructions.map fun i => "    " ++ i.text

def tree (p : Program) : String :=
  String.join (("Program" :: p.treeLines).map (· ++ "\n"))

theorem layout_perm (p : Program) : p.layout.Perm p.subroutines :=
  List.filter_append_perm _ _

theorem totalSize_layout (p : Program) : totalSize p.layout = p.size :=
  totalSize_perm p.layout_perm

end Program

end IndentAsm
