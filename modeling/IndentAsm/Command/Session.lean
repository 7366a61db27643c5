import IndentAsm.Assemble
import IndentAsm.Command.Arguments
import IndentAsm.Command.Filter
import IndentAsm.Command.Path
import IndentAsm.Command.SystemError

/-!
# Sessions

What the command does, as a tree of requests to the system: each request goes
on in a way that hangs on its answer. The same session can be run in a `World`
in memory and on the machine.

How arguments are read, which events are shown and how a path is told are no
matter of sessions: they are `Conventions`, and a session can be had under any.
`Conventions.standard` are those of the command.

Nothing is written before the image is complete.
-/
namespace IndentAsm.Command

inductive Session where
  /-- Writes text to standard error, which cannot fail: there is no answer. -/
  | report (text : String) (next : Session)
  /-- Reads a file. -/
  | read (path : String) (next : Except SystemError (List UInt8) → Session)
  /-- Writes bytes to standard output. -/
  | print (bytes : List UInt8) (next : Except SystemError Unit → Session)
  /-- Writes a file. -/
  | save (path : String) (bytes : List UInt8) (next : Except SaveError Unit → Session)
  | exit (status : UInt8)

/-! ## What is shown -/

/-- What the command knows of its surroundings. -/
structure Environment where
  /-- The working directory. -/
  cwd : String
  /-- The filter of the events to be shown, where one is asked for. -/
  filter : Option String
  deriving DecidableEq, Repr, Inhabited

/-- What sessions leave to others. -/
structure Conventions where
  /-- What arguments ask for, if they are well formed. -/
  request? : List String → Option Request
  /-- Whether a filter, by its text, admits an event. -/
  admits : String → Event → Bool
  /-- The parts of the text of a filter that are at fault. -/
  faults : String → List String
  /-- A path as it is told, from the working directory and the path itself. -/
  absolute : String → String → String

def Conventions.standard : Conventions where
  request? := Command.request?
  admits text e := (Filter.ofText text).admits e
  faults := Filter.faults
  absolute := Command.absolute

/-- The filter of the events to be shown. One in the environment goes before the flags. -/
def filterText (env : Environment) (options : Options) : String :=
  env.filter.getD (if options.verbose then "debug" else "warn")

/-- The lines that name the faults of a filter. -/
def faultText (c : Conventions) (filter : String) : String :=
  String.join <| (c.faults filter).map fun fault =>
    "warning: invalid logging spec '" ++ fault ++ "', ignoring it\n"

def eventLine (e : Event) : String :=
  let name := e.level.name
  "[" ++ name ++ String.ofList (List.replicate (5 - name.length) ' ') ++ " " ++
    e.component.path ++ "] " ++ e.message ++ "\n"

/-- The lines that show those of some events that a filter admits. -/
def eventText (c : Conventions) (filter : String) (events : List Event) : String :=
  String.join ((events.filter (c.admits filter)).map eventLine)

/-! ## The session -/

def success : UInt8 := 0

/-- The status where a file could not be read or written. -/
def failure : UInt8 := 1

/-- The status where the arguments are not well formed. -/
def usageError : UInt8 := 2

/-- The status where the source text has an error. -/
def assemblyError : UInt8 := 64

def versionText : String := "bread-asm 0.1.0\n"

/-- How the command is called. The words are this library's own, where an
argument parser would make up a text of its own from the flags. -/
def usageText : String :=
  "Usage: bread-asm [OPTIONS] <FILE>\n" ++
  "  -o, --output <OUTPUT>         Path to output binary file (Default: stdout)\n" ++
  "      --print-tree              Print the parsed program tree to stderr\n" ++
  "  -v, --verbose                 Log addresses and macro expansions\n" ++
  "      --max-macro-depth <DEPTH> How deeply macro calls may nest [default: 64]\n" ++
  "  -h, --help                    Print help information\n" ++
  "  -V, --version                 Print version information\n"

namespace Session

def fail (text : String) (status : UInt8) : Session :=
  .report (text ++ "\n") (.exit status)

/-- Writes an image to where it should go. -/
def deliver (options : Options) (image : List UInt8) : Session :=
  match options.output with
  | none => .print image fun
    | .ok () => .exit success
    | .error e => fail ("Failed to write output: " ++ e.message) failure
  | some path => .save path image fun
    | .ok () => .exit success
    | .error (.create e) =>
      fail ("Cannot open file \"" ++ path ++ "\" for writing: " ++ e.message) failure
    | .error (.write e) => fail ("Failed to write output: " ++ e.message) failure

def failRead (options : Options) (reason : String) : Session :=
  fail ("Cannot open file \"" ++ options.file ++ "\" for reading: " ++ reason) failure

section
variable (c : Conventions) (env : Environment) (options : Options)

def failAssembly (e : Error) : Session :=
  fail ("In \"" ++ c.absolute env.cwd options.file ++ "\"\n\n" ++ e.message) assemblyError

def tell (events : List Event) (next : Session) : Session :=
  .report (eventText c (filterText env options) events) next

def linkProgram (p : Program) : Session :=
  let linked := link p
  match linked.result with
  | .error e => tell c env options linked.log (failAssembly c env options e)
  | .ok image =>
    tell c env options (linked.log ++ [.assembled image.length]) (deliver options image)

def assembleText (text : String) : Session :=
  let parsed := parse { maxDepth := options.maxDepth } text
  tell c env options parsed.log <|
    match parsed.result with
    | .error e => failAssembly c env options e
    | .ok p =>
      if options.printTree then .report p.tree (linkProgram c env options p)
      else linkProgram c env options p

def assembleFile : Session :=
  .report (faultText c (filterText env options)) <| .read options.file fun
    | .error e => failRead options e.message
    | .ok bytes =>
      match String.fromUTF8? ⟨bytes.toArray⟩ with
      | none => failRead options "stream did not contain valid UTF-8"
      | some text => assembleText c env options text

end

/-- What is done with arguments under some conventions. -/
def ofArgumentsUnder (c : Conventions) (env : Environment) (args : List String) : Session :=
  match c.request? args with
  | none => .report usageText (.exit usageError)
  | some .version => .print versionText.toUTF8.toList fun _ => .exit success
  | some .help => .print usageText.toUTF8.toList fun _ => .exit success
  | some (.assemble options) => assembleFile c env options

def ofArguments (env : Environment) (args : List String) : Session :=
  ofArgumentsUnder .standard env args

end Session

end IndentAsm.Command
