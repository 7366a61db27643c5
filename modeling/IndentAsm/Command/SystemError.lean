/-!
# System errors

The reasons for which the system refuses a request, each with its number.
-/
namespace IndentAsm.Command

/-- Why the system refused a request. -/
structure SystemError where
  code : Nat
  text : String
  deriving DecidableEq, Repr, Inhabited

namespace SystemError

/-- A name on the way leads to nothing. -/
def notFound : SystemError := ⟨2, "No such file or directory"⟩

/-- A path goes on behind something that is no directory. -/
def notDirectory : SystemError := ⟨20, "Not a directory"⟩

/-- A directory stands where a file is needed. -/
def isDirectory : SystemError := ⟨21, "Is a directory"⟩

/-- There is no room for what is written. -/
def noSpace : SystemError := ⟨28, "No space left on device"⟩

/-- A path, or a name in it, is longer than the system can look up. -/
def nameTooLong : SystemError := ⟨36, "File name too long"⟩

/-- The wording of a reason, with its number. -/
def message (e : SystemError) : String :=
  e.text ++ " (os error " ++ toString e.code ++ ")"

end SystemError

inductive SaveError where
  /-- It could not be opened. -/
  | create (error : SystemError)
  | write (error : SystemError)
  deriving DecidableEq, Repr, Inhabited

end IndentAsm.Command
