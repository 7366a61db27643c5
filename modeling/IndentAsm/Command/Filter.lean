import IndentAsm.Diagnostic.Event
import IndentAsm.Text.Blank

/-!
# Filters

A filter chooses the events that are shown. It is written as directives with
commas between them, blanks around each aside. A level admits all that is as
urgent; `scope=level` does so for the components whose names start with the
scope; a scope without a level admits all that they tell. Where several
directives concern a component, the one with the longest scope decides, and of
two with the same scope the later one.
-/
namespace IndentAsm.Command

/-- Says what is shown of the events of some components. -/
structure Directive where
  /-- What the names of the components start with. -/
  scope : String
  /-- The least urgent level that is shown. Without one, nothing is. -/
  level : Option Level
  deriving DecidableEq, Repr, Inhabited

namespace Directive

/-- The level that a word names, in either case of letters. -/
def levelOfWord? (word : String) : Option (Option Level) :=
  [("off", none), ("error", some Level.error), ("warn", some .warn), ("info", some .info),
    ("debug", some .debug), ("trace", some .trace)].lookup (word.map Char.toLower)

/-- The directive that a text is, or the part of the text that is at fault. -/
def ofText (text : String) : Except String Directive :=
  match text.splitOn "=" with
  | [word] =>
    match levelOfWord? word with
    | some level => .ok ⟨"", level⟩
    | none => .ok ⟨word, some .trace⟩
  | [scope, word] =>
    let word := Text.trim word
    if word.isEmpty then .ok ⟨scope, some .trace⟩
    else
      match levelOfWord? word with
      | some level => .ok ⟨scope, level⟩
      | none => .error word
  | _ => .error text

end Directive

structure Filter where
  directives : List Directive
  deriving DecidableEq, Repr, Inhabited

namespace Filter

def ofLevel (level : Level) : Filter :=
  ⟨[⟨"", some level⟩]⟩

/-- The parts of a text that should be directives. -/
def parts (text : String) : List (Except String Directive) :=
  (((text.splitOn ",").map Text.trim).filter (!·.isEmpty)).map Directive.ofText

/-- The filter that a text is. One without a directive leaves errors only. -/
def ofText (text : String) : Filter :=
  match (parts text).filterMap Except.toOption with
  | [] => ofLevel .error
  | directives => ⟨directives⟩

/-- The faults of a text, in the order in which they stand. Each is left out of
the filter. -/
def faults (text : String) : List String :=
  (parts text).filterMap fun
    | .ok _ => none
    | .error fault => some fault

/-- The directive that decides on the events of a component. -/
def directive? (f : Filter) (c : Component) : Option Directive :=
  f.directives.foldl (fun best d =>
    if c.path.startsWith d.scope && best.all (·.scope.length ≤ d.scope.length) then some d
    else best) none

def admits (f : Filter) (e : Event) : Bool :=
  match (f.directive? e.component).bind Directive.level with
  | some level => level.admits e.level
  | none => false

end Filter

end IndentAsm.Command
