/-!
# Paths

A path is names with slashes between them. A path that starts with a slash
starts at the root, any other in the working directory.
-/
namespace IndentAsm.Command

/-- The names of a path, the empty ones between neighbouring slashes too. -/
def splitPath (path : String) : List String :=
  (path.toList.splitOn '/').map String.ofList

def isAbsolute (path : String) : Bool :=
  path.startsWith "/"

/-- Follows one name from a place, going by the names alone. -/
def follow (place : List String) (name : String) : List String :=
  if name = "" ∨ name = "." then place
  else if name = ".." then place.dropLast
  else place ++ [name]

/-- The names from the root to where a path leads from `cwd`, going by the
names alone. -/
def absoluteNames (cwd path : String) : List String :=
  let start := if isAbsolute path then [] else (splitPath cwd).foldl follow []
  (splitPath path).foldl follow start

/-- A path from the root, without detours. -/
def absolute (cwd path : String) : String :=
  "/" ++ "/".intercalate (absoluteNames cwd path)

end IndentAsm.Command
