import IndentAsm.Command.Disk
import IndentAsm.Command.Session

/-!
# Worlds

A disk and the standard streams, in which a session can be run without
touching the machine. Apart from what the disk rules out, the machine may
refuse a request for reasons of its own (`Faults`): a permission is missing,
or there is no room. Standard error takes all that is told: a session has no
way to go on where it does not, and such a machine is not described here.

**Results.**
* `World.save_of_error`, `World.save_of_file`, `World.save_of_device`: what a
  request to save leads to, by where its path leads.
-/
namespace IndentAsm.Command

/-- Why something is not written to its end. -/
structure Stop where
  /-- The number of bytes for which there is room. -/
  room : Nat
  reason : SystemError
  deriving DecidableEq, Repr, Inhabited

/-- What is written of some content, and whether that is all of it. -/
def Stop.cut (stop : Option Stop) (content : List UInt8) : List UInt8 × Except SystemError Unit :=
  match stop with
  | none => (content, .ok ())
  | some stop =>
    if stop.room < content.length then (content.take stop.room, .error stop.reason)
    else (content, .ok ())

theorem Stop.cut_of_room {stop : Option Stop} {content : List UInt8}
    (h : ∀ s ∈ stop, content.length ≤ s.room) : Stop.cut stop content = (content, .ok ()) := by
  cases stop with
  | none => rfl
  | some s => rw [Stop.cut, if_neg (Nat.not_lt.2 (h s rfl))]

theorem Stop.cut_of_lt {stop : Stop} {content : List UInt8} (h : stop.room < content.length) :
    Stop.cut (some stop) content = (content.take stop.room, .error stop.reason) := by
  rw [Stop.cut, if_pos h]

/-- What the machine refuses for reasons of its own. It takes all that is told on
standard error. -/
structure Faults where
  /-- Why a path cannot be read. -/
  read : String → Option SystemError := fun _ => none
  /-- Why a path cannot be opened to be written. -/
  create : String → Option SystemError := fun _ => none
  /-- Why a path that was opened is not written to its end. -/
  write : String → Option Stop := fun _ => none
  /-- Why standard output is not written to its end. -/
  print : Option Stop := none
  deriving Inhabited

/-- A disk, and what has been written to the two standard streams. -/
structure World where
  disk : Disk
  stdout : List UInt8
  stderr : List UInt8
  deriving DecidableEq, Repr, Inhabited

namespace World

/-- The content of a file, if it can be read. -/
def read (faults : Faults) (w : World) (path : String) : Except SystemError (List UInt8) :=
  match faults.read path with
  | some e => .error e
  | none => w.disk.read path

/-- Where the content of an output goes, if it can be opened. -/
def target (faults : Faults) (w : World) (path : String) : Except SystemError Target :=
  match faults.create path with
  | some e => .error e
  | none => w.disk.target path

def print (faults : Faults) (w : World) (content : List UInt8) : World × Except SystemError Unit :=
  let written := Stop.cut faults.print content
  ({ w with stdout := w.stdout ++ written.1 }, written.2)

/-- Writes to a device. What is written to standard input is not seen again. -/
def write (faults : Faults) (w : World) (content : List UInt8) :
    Device → World × Except SystemError Unit
  | .null | .stdin => (w, .ok ())
  | .full => (w, if content.isEmpty then .ok () else .error .noSpace)
  | .stdout => w.print faults content
  | .stderr => ({ w with stderr := w.stderr ++ content }, .ok ())

/-- Opens an output and writes its content. What was in a file before is gone
as soon as the file is open. -/
def save (faults : Faults) (w : World) (path : String) (content : List UInt8) :
    World × Except SaveError Unit :=
  match w.target faults path with
  | .error e => (w, .error (.create e))
  | .ok (.file names) =>
    let written := Stop.cut (faults.write path) content
    ({ w with disk := w.disk.put names written.1 }, written.2.mapError .write)
  | .ok (.device device) =>
    let written := w.write faults content device
    (written.1, written.2.mapError .write)

/-- Runs a session on a machine with some faults. Gives its status and the
world it leaves. -/
def runUnder (faults : Faults) (w : World) : Session → UInt8 × World
  | .report text next => runUnder faults { w with stderr := w.stderr ++ text.toUTF8.toList } next
  | .read path next => runUnder faults w (next (w.read faults path))
  | .print bytes next =>
    let printed := w.print faults bytes
    runUnder faults printed.1 (next printed.2)
  | .save path bytes next =>
    let saved := w.save faults path bytes
    runUnder faults saved.1 (next saved.2)
  | .exit status => (status, w)

/-- Runs a session where nothing fails but what the disk rules out. -/
def run (w : World) (session : Session) : UInt8 × World :=
  w.runUnder {} session

section
variable {faults : Faults} {w : World} {path : String} {content : List UInt8}

theorem save_of_error {e : SystemError} (h : w.target faults path = .error e) :
    w.save faults path content = (w, .error (.create e)) := by
  rw [save, h]

theorem save_of_file {names : List String} (h : w.target faults path = .ok (.file names)) :
    w.save faults path content =
      ({ w with disk := w.disk.put names (Stop.cut (faults.write path) content).1 },
        (Stop.cut (faults.write path) content).2.mapError .write) := by
  rw [save, h]

theorem save_of_device {device : Device} (h : w.target faults path = .ok (.device device)) :
    w.save faults path content =
      ((w.write faults content device).1, (w.write faults content device).2.mapError .write) := by
  rw [save, h]

end

end World

end IndentAsm.Command
