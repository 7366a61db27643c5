import IndentAsm.Command.Session

/-!
# The command

Runs the session of the command line arguments on the machine.
-/
namespace IndentAsm.Command

def SystemError.ofIO : IO.Error → SystemError
  | .alreadyExists _ code text | .otherError code text | .resourceBusy code text
  | .resourceVanished code text | .unsupportedOperation code text | .hardwareFault code text
  | .unsatisfiedConstraints code text | .illegalOperation code text | .protocolError code text
  | .timeExpired code text | .interrupted _ code text | .noFileOrDirectory _ code text
  | .invalidArgument _ code text | .permissionDenied _ code text
  | .resourceExhausted _ code text | .inappropriateType _ code text
  | .noSuchThing _ code text => ⟨code.toNat, text⟩
  | .unexpectedEof => ⟨0, "unexpected end of file"⟩
  | .userError text => ⟨0, text⟩

/-- The outcome of an action, its failure included. -/
def attempt {α : Type} (action : IO α) : IO (Except SystemError α) := do
  match ← action.toBaseIO with
  | .ok a => return .ok a
  | .error e => return .error (.ofIO e)

/-- Opens a file and writes all of its content. -/
def saveFile (path : String) (content : ByteArray) : IO (Except SaveError Unit) := do
  match ← attempt (IO.FS.Handle.mk path .write) with
  | .error e => return .error (.create e)
  | .ok handle =>
    let written ← attempt do
      handle.write content
      handle.flush
    return written.mapError .write

def Session.perform : Session → IO UInt32
  | .report text next => do
    IO.eprint text
    next.perform
  | .read path next => do
    let content ← attempt do
      let handle ← IO.FS.Handle.mk path .read
      handle.readBinToEnd
    (next (content.map ByteArray.toList)).perform
  | .print bytes next => do
    let stdout ← IO.getStdout
    let written ← attempt do
      stdout.write ⟨bytes.toArray⟩
      stdout.flush
    (next written).perform
  | .save path bytes next => do
    let saved ← saveFile path ⟨bytes.toArray⟩
    (next saved).perform
  | .exit status => return status.toUInt32

end IndentAsm.Command

open IndentAsm.Command in
/-- Assembles the file that the arguments name. -/
def main (args : List String) : IO UInt32 := do
  let cwd ← IO.currentDir
  let filter ← IO.getEnv "RUST_LOG"
  (Session.ofArguments ⟨cwd.toString, filter⟩ args).perform
