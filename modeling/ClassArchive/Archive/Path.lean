/-!
Paths as they are written. A single dot says nothing about where a path leads, yet a path that
ends in one, or in a slash, can only be that of a directory; so the steps keep all of them.
-/
set_option autoImplicit false

namespace ClassArchive

/-- The pieces of a path between its slashes. -/
structure Path where
  steps : List String
  deriving DecidableEq, Repr

namespace Path

def parse (text : String) : Path := ⟨(text.toList.splitOn '/').map String.ofList⟩

def text (path : Path) : String := String.intercalate "/" path.steps

def staysAt (step : String) : Bool := step = "" || step = "."

def names (path : Path) : List String := path.steps.filter fun step => !staysAt step

def isAbsolute (path : Path) : Bool := path.steps.head? = some "" && 1 < path.steps.length

/-- A path that starts where the first one leads. One from the root stands for itself. -/
def join (base path : Path) : Path :=
  if path.isAbsolute then path
  else if base.steps.getLast? = some "" then ⟨base.steps.dropLast ++ path.steps⟩
  else ⟨base.steps ++ path.steps⟩

def parent (path : Path) : Path :=
  let trimmed := fun (reversed : List String) => reversed.dropWhile fun step => staysAt step
  ⟨(trimmed ((trimmed path.steps.reverse).drop 1)).reverse⟩

def endsInDot (path : Path) : Bool :=
  (path.steps.reverse.dropWhile (· = "")).head? = some "."

def maxBytes : Nat := 4095

def isUsable (path : Path) : Bool :=
  path.text.utf8ByteSize ≤ maxBytes && !path.text.toList.contains '\x00'

/-- What stands after the last dot of a name that does not start with this dot. -/
def suffix? (name : String) : Option String :=
  let reversed := name.toList.reverse
  match reversed.dropWhile (· ≠ '.') with
  | [] | [_] => none
  | _ => some (String.ofList (reversed.takeWhile (· ≠ '.')).reverse)

def isPacked (path : Path) : Bool :=
  match path.names.getLast? with
  | some name => suffix? name = some "jar" || suffix? name = some "zip"
  | none => false

end Path

end ClassArchive
