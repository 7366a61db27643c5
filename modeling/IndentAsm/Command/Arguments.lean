/-!
# Command line arguments

One argument names the file to assemble; the others are flags. A flag has a
long name behind two dashes, some have a letter behind one dash, and letters
may be put together. The value of a flag stands in the argument that follows,
behind an equals sign, or right behind the letter. Behind `--` every argument
is a file.

Arguments are read from left to right. A flag that is not known, a value for a
flag that takes none, and a second file end the reading at once, and so does a
request for the version or for help. A flag that is repeated, a value that is
missing or is no number, and a missing file are found at the end.
-/
namespace IndentAsm.Command

structure Options where
  /-- The file to read. -/
  file : String
  /-- The file to write, where it is not standard output. -/
  output : Option String
  /-- Whether to show the program that was read. -/
  printTree : Bool
  /-- Whether to tell events up to level `debug`. -/
  verbose : Bool
  /-- How deep macro calls may be nested. -/
  maxDepth : Nat
  deriving DecidableEq, Repr, Inhabited

inductive Request where
  | assemble (options : Options)
  | version
  | help
  deriving DecidableEq, Repr, Inhabited

inductive ValueFlag where
  | output | maxDepth
  deriving DecidableEq, Repr, Inhabited

inductive Flag where
  | printTree | verbose | version | help
  | valued (flag : ValueFlag)
  deriving DecidableEq, Repr, Inhabited

def Flag.ofName? (name : String) : Option Flag :=
  [("print-tree", Flag.printTree), ("verbose", .verbose), ("version", .version), ("help", .help),
    ("output", .valued .output), ("max-macro-depth", .valued .maxDepth)].lookup name

def Flag.ofLetter? (c : Char) : Option Flag :=
  [('v', Flag.verbose), ('V', .version), ('h', .help), ('o', .valued .output)].lookup c

/-- What was read of the arguments. -/
structure Given where
  file : Option String := none
  output : Option String := none
  maxDepth : Option String := none
  printTree : Bool := false
  verbose : Bool := false
  /-- A flag was repeated, or had no value. -/
  faulty : Bool := false
  deriving DecidableEq, Repr, Inhabited

namespace Given

def addFlag (g : Given) : Flag → Given
  | .printTree => { g with printTree := true, faulty := g.faulty || g.printTree }
  | .verbose => { g with verbose := true, faulty := g.faulty || g.verbose }
  | _ => g

def addValue (g : Given) (flag : ValueFlag) (value : String) : Given :=
  match flag with
  | .output => { g with output := some value, faulty := g.faulty || g.output.isSome }
  | .maxDepth => { g with maxDepth := some value, faulty := g.faulty || g.maxDepth.isSome }

/-- Notes that no value came for the flag that waits for one. -/
def lacking (g : Given) (waiting : Option ValueFlag) : Given :=
  { g with faulty := g.faulty || waiting.isSome }

end Given

/-- A depth: decimal digits behind an optional plus sign, up to 64 bits. -/
def depth? (text : String) : Option Nat :=
  let digits := match text.toList with
    | '+' :: cs => cs
    | cs => cs
  if digits.isEmpty || !digits.all Char.isDigit then none
  else
    let n := digits.foldl (fun n c => 10 * n + (c.toNat - '0'.toNat)) 0
    if n < 0x10000000000000000 then some n else none

/-- What the arguments ask for once all have been read. -/
def Given.request? (g : Given) : Option Request := do
  guard !g.faulty
  let file ← g.file
  let maxDepth ← match g.maxDepth with
    | none => some 64
    | some text => depth? text
  return .assemble ⟨file, g.output, g.printTree, g.verbose, maxDepth⟩

inductive Reading where
  | rejected
  | asked (request : Request)
  /-- Reading goes on, with a flag that waits for its value. -/
  | more (g : Given) (waiting : Option ValueFlag)
  deriving DecidableEq, Repr, Inhabited

def Given.flag (g : Given) : Flag → Reading
  | .version => .asked .version
  | .help => .asked .help
  | .valued f => .more g (some f)
  | f => .more (g.addFlag f) none

/-- Reads letters that were put together. -/
def letters (g : Given) : List Char → Reading
  | [] => .more g none
  | c :: cs =>
    match Flag.ofLetter? c with
    | none => .rejected
    | some (.valued f) =>
      match cs with
      | [] => .more g (some f)
      | '=' :: value => .more (g.addValue f (String.ofList value)) none
      | value => .more (g.addValue f (String.ofList value)) none
    | some f =>
      match g.flag f with
      | .more g _ => letters g cs
      | other => other

def longFlag (g : Given) (cs : List Char) : Reading :=
  let name := String.ofList (cs.takeWhile (· != '='))
  match Flag.ofName? name, cs.dropWhile (· != '=') with
  | none, _ => .rejected
  | some f, [] => g.flag f
  | some (.valued f), _ :: value => .more (g.addValue f (String.ofList value)) none
  | some _, _ :: _ => .rejected

def fileArgument (g : Given) (arg : String) : Reading :=
  match g.file with
  | none => .more { g with file := some arg } none
  | some _ => .rejected

/-- Reads an argument that is not `--`, where a flag may wait for its value. -/
def argument (g : Given) (waiting : Option ValueFlag) (arg : String) : Reading :=
  match arg.toList, waiting with
  | '-' :: '-' :: cs, _ => longFlag (g.lacking waiting) cs
  | '-' :: c :: cs, _ => letters (g.lacking waiting) (c :: cs)
  | _, some f => .more (g.addValue f arg) none
  | _, none => fileArgument g arg

/-- Reads the arguments, those behind `--` as files. -/
def readArguments (g : Given) (waiting : Option ValueFlag) (filesOnly : Bool) :
    List String → Option Request
  | [] => (g.lacking waiting).request?
  | arg :: rest =>
    if !filesOnly && arg == "--" then readArguments (g.lacking waiting) none true rest
    else
      match if filesOnly then fileArgument g arg else argument g waiting arg with
      | .rejected => none
      | .asked request => some request
      | .more g waiting => readArguments g waiting filesOnly rest

/-- What the arguments ask for, if they are well formed. -/
def request? (args : List String) : Option Request :=
  readArguments {} none false args

end IndentAsm.Command
