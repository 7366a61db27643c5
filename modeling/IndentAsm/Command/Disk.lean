import IndentAsm.Command.Path
import IndentAsm.Command.SystemError

/-!
# Disks

An in-memory tree of files. Paths lead through it as on the machine: every
name but the last has to be a directory, and what fails says why
(`SystemError`). Beside the files stand the devices, among them the standard
streams.

**Results.**
* `Disk.read_eq_ok_iff`: what can be read is a file, whose content it gives, or
  a device, from which nothing comes.
-/
namespace IndentAsm.Command

/-- What stands in the tree without being a file. -/
inductive Device where
  /-- Swallows what is written. -/
  | null
  /-- Has no room. -/
  | full
  | stdin | stdout | stderr
  deriving DecidableEq, Repr, Inhabited

/-- The names of the devices, from the root. The standard streams are also
reached by their numbers. -/
def Device.table : List (List String × Device) :=
  [(["dev", "null"], .null), (["dev", "full"], .full), (["dev", "stdin"], .stdin),
    (["dev", "stdout"], .stdout), (["dev", "stderr"], .stderr), (["dev", "fd", "0"], .stdin),
    (["dev", "fd", "1"], .stdout), (["dev", "fd", "2"], .stderr),
    (["proc", "self", "fd", "0"], .stdin), (["proc", "self", "fd", "1"], .stdout),
    (["proc", "self", "fd", "2"], .stderr)]

/-- The directories that stand at the root of every machine. -/
def rootDirectories : List String :=
  ["bin", "boot", "dev", "etc", "home", "lib", "media", "mnt", "opt", "proc", "root", "run",
    "sbin", "srv", "sys", "tmp", "usr", "var"]

inductive Node where
  | directory
  | file (content : List UInt8)
  | device (device : Device)
  deriving DecidableEq, Repr, Inhabited

/-- Where the content of an output goes. -/
inductive Target where
  /-- To the file with these names from the root, old or new. -/
  | file (names : List String)
  | device (device : Device)
  deriving DecidableEq, Repr, Inhabited

structure Disk where
  /-- The names of the working directory, from the root. -/
  cwd : List String
  /-- The files, by their names from the root. -/
  files : List (List String × List UInt8)
  deriving DecidableEq, Repr, Inhabited

namespace Disk

def maxNameSize : Nat := 255

def maxPathSize : Nat := 4095

/-- Whether names lead to a directory. Each file and each device is in one,
and so is each directory. -/
def isDirectory (d : Disk) (names : List String) : Bool :=
  names.isPrefixOf d.cwd || rootDirectories.any (names.isPrefixOf [·]) ||
    Device.table.any (names.isPrefixOf ·.1.dropLast) ||
    d.files.any (names.isPrefixOf ·.1.dropLast)

/-- What names lead to, from the root. -/
def node? (d : Disk) (names : List String) : Option Node :=
  if d.isDirectory names then some .directory
  else
    match Device.table.lookup names with
    | some device => some (.device device)
    | none => (d.files.lookup names).map .file

def walk (d : Disk) (place : List String) : List String → Except SystemError (List String)
  | [] => .ok place
  | name :: rest =>
    if name = "" ∨ name = "." then d.walk place rest
    else if name = ".." then d.walk place.dropLast rest
    else if maxNameSize < name.utf8ByteSize then .error .nameTooLong
    else
      match d.node? (place ++ [name]) with
      | none => .error .notFound
      | some .directory => d.walk (place ++ [name]) rest
      | some _ => if rest.isEmpty then .ok (place ++ [name]) else .error .notDirectory

/-- The directory in which a path starts, for a path that can be looked up. -/
def start (d : Disk) (path : String) : Except SystemError (List String) :=
  if path.isEmpty then .error .notFound
  else if maxPathSize < path.utf8ByteSize then .error .nameTooLong
  else .ok (if isAbsolute path then [] else d.cwd)

def find (d : Disk) (path : String) : Except SystemError Node := do
  let names ← d.walk (← d.start path) (splitPath path)
  match d.node? names with
  | some node => return node
  | none => throw .notFound

/-- The content of a file. Nothing comes from a device. -/
def read (d : Disk) (path : String) : Except SystemError (List UInt8) := do
  match ← d.find path with
  | .directory => throw .isDirectory
  | .file content => return content
  | .device _ => return []

def walkDirectory (d : Disk) (place names : List String) : Except SystemError (List String) := do
  let found ← d.walk place names
  if d.isDirectory found then return found else throw .notDirectory

/-- The names of the directories on the way and the last name, the empty names
behind it aside. -/
def splitLast (names : List String) : List String × String :=
  match names.reverse.dropWhile (· == "") with
  | [] => ([], ".")
  | name :: parents => (parents.reverse, name)

/-- What is opened to write a name in a directory. -/
def targetIn (d : Disk) (parent : List String) (name : String) : Except SystemError Target :=
  if maxNameSize < name.utf8ByteSize then .error .nameTooLong
  else
    match d.node? (parent ++ [name]) with
    | some .directory => .error .isDirectory
    | some (.device device) => .ok (.device device)
    | _ => .ok (.file (parent ++ [name]))

/-- What is opened to write a path. A path that ends in a slash, or in a name
for a directory, leads to nothing that can be written. -/
def target (d : Disk) (path : String) : Except SystemError Target := do
  let place ← d.start path
  let names := splitPath path
  let last := splitLast names
  let parent ← d.walkDirectory place last.1
  if names.getLast? = some "" ∨ last.2 = "." ∨ last.2 = ".." then .error .isDirectory
  else d.targetIn parent last.2

/-- Puts a file on the disk, in place of one that has its names. -/
def put (d : Disk) (names : List String) (content : List UInt8) : Disk :=
  if d.files.any (·.1 == names) then
    { d with files := d.files.map fun f => if f.1 = names then (names, content) else f }
  else { d with files := d.files ++ [(names, content)] }

theorem read_eq_ok_iff {d : Disk} {path : String} {content : List UInt8} :
    d.read path = .ok content ↔ d.find path = .ok (.file content) ∨
      (∃ device, d.find path = .ok (.device device)) ∧ content = [] := by
  unfold read
  cases hf : d.find path with
  | error e => simp [bind, Except.bind]
  | ok node =>
    cases node <;> simp [bind, Except.bind, pure, Except.pure, throw, throwThe,
      MonadExceptOf.throw, eq_comm]

end Disk

end IndentAsm.Command
