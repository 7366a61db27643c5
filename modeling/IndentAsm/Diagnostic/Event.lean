import IndentAsm.Token.Basic

/-!
# Events

Besides its result, each stage tells what it does as a list of events, each
with a `Level` of urgency, the component it comes from, and its wording. What
is shown of them is for the caller to choose (`Level.admits`).
-/
namespace IndentAsm

inductive Level where
  | error | warn | info | debug | trace
  deriving DecidableEq, Repr, Inhabited

namespace Level

/-- The number of levels that are more urgent. -/
def rank : Level → Nat
  | error => 0
  | warn => 1
  | info => 2
  | debug => 3
  | trace => 4

def name : Level → String
  | error => "ERROR"
  | warn => "WARN"
  | info => "INFO"
  | debug => "DEBUG"
  | trace => "TRACE"

/-- Whether events of level `l` are shown where `threshold` is asked for. -/
def admits (threshold l : Level) : Bool :=
  l.rank ≤ threshold.rank

end Level

/-- The parts of the assembler that tell events. -/
inductive Component where
  | scanner | reader | expander | layout | linker | command
  deriving DecidableEq, Repr, Inhabited

/-- The name under which a component's events are shown. -/
def Component.path : Component → String
  | scanner => "bread_asm::lexer"
  | reader => "bread_asm::parser"
  | expander => "bread_asm::parser::macros"
  | layout => "bread_asm::ast"
  | linker => "bread_asm::linker"
  | command => "bread_asm"

inductive Event where
  | scanned (tokens : Nat)
  | macroDefined (name : String) (params : Nat)
  | macroExpanded (name : Token) (tokens depth : Nat)
  /-- A subroutine whose last instruction runs on into what follows it. -/
  | fallsThrough (line : Nat) (name : String)
  | emptySubroutine (line : Nat) (name : String)
  /-- There is no entry point, and `first` is laid out at address zero. -/
  | noEntryPoint (first : String)
  | placed (subroutines bytes : Nat)
  /-- A row of the address table. -/
  | bound (name : String) (address : UInt16)
  | emitted (bytes : Nat)
  | assembled (bytes : Nat)
  deriving DecidableEq, Repr, Inhabited

namespace Event

def level : Event → Level
  | scanned _ => .trace
  | macroDefined .. | macroExpanded .. | placed .. | bound .. | emitted _ => .debug
  | fallsThrough .. | emptySubroutine .. | noEntryPoint _ => .warn
  | assembled _ => .info

def component : Event → Component
  | scanned _ => .scanner
  | macroDefined .. | fallsThrough .. | emptySubroutine .. => .reader
  | macroExpanded .. => .expander
  | noEntryPoint _ => .layout
  | placed .. | bound .. | emitted _ => .linker
  | assembled _ => .command

/-- An address in four upper-case hexadecimal digits. -/
def hexAddress (address : UInt16) : String :=
  let digits := (Nat.toDigits 16 address.toNat).map Char.toUpper
  String.ofList (List.replicate (4 - digits.length) '0' ++ digits)

def message : Event → String
  | scanned tokens => "scanned " ++ toString tokens ++ " tokens"
  | macroDefined name params =>
    "defined macro \"" ++ name ++ "\" with " ++ toString params ++ " parameter(s)"
  | macroExpanded name tokens depth =>
    "[line " ++ toString name.line ++ "] expanding \"" ++ name.lexeme ++ "\" into " ++
      toString tokens ++ " token(s) at depth " ++ toString depth
  | fallsThrough line name =>
    "[line " ++ toString line ++ "] Subroutine \"" ++ name ++ "\" does not end with HLT or JMP"
  | emptySubroutine line name =>
    "[line " ++ toString line ++ "] Subroutine \"" ++ name ++ "\" is empty"
  | noEntryPoint first =>
    "No \"main\" subroutine, execution starts at \"" ++ first ++ "\""
  | placed subroutines bytes =>
    toString subroutines ++ " subroutine(s), " ++ toString bytes ++ " byte(s)"
  | bound name address => "  $" ++ hexAddress address ++ " " ++ name
  | emitted bytes => "emitted " ++ toString bytes ++ " byte(s)"
  | assembled bytes => "assembled " ++ toString bytes ++ " byte(s)"

end Event

/-- A result together with the events on the way to it. -/
structure Logged (α : Type) where
  result : α
  log : List Event
  deriving Repr

instance {α : Type} [Inhabited α] : Inhabited (Logged α) := ⟨⟨default, []⟩⟩

end IndentAsm
