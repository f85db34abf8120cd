import ClassArchive.Archive.Packed
import ClassArchive.Archive.Path

/-!
Archives on a disk. A disk holds directories and files; a file either holds plain data or is an
archive packed into one file. An archive is saved packed if its path ends in `.jar` or `.zip`, and
as a directory with one file for each entry otherwise. Every step of a path is taken on the disk,
so a path leads somewhere only if what it passes through is there.
-/
set_option autoImplicit false

namespace ClassArchive

inductive DiskNode where
  | directory
  | data (bytes : Bytes)
  | packed (entries : List Entry)
  deriving DecidableEq, Repr

/-- The names on the way down from the root. -/
abbrev Location := List String

/-- A location as one text. Names hold no slash, so no two locations have the same. -/
def Location.text (location : Location) : String := String.intercalate "/" location

structure Disk where
  /-- All but the root, which is always a directory, by the texts of their locations. -/
  nodes : Std.TreeMap String DiskNode := ∅

namespace Disk

def node? (disk : Disk) (location : Location) : Option DiskNode :=
  if location = [] then some .directory else disk.nodes[Location.text location]?

def put (disk : Disk) (location : Location) (node : DiskNode) : Disk :=
  { nodes := disk.nodes.insert (Location.text location) node }

def step? (disk : Disk) (location : Location) (step : String) : Option Location :=
  if disk.node? location ≠ some .directory then none
  else if Path.staysAt step then some location
  else if step = ".." then some location.dropLast
  else if (disk.node? (location ++ [step])).isSome then some (location ++ [step])
  else none

def locate? (disk : Disk) (steps : List String) : Option Location := steps.foldlM disk.step? []

def atPath? (disk : Disk) (path : Path) : Option (Location × DiskNode) := do
  guard path.isUsable
  let location ← disk.locate? path.steps
  let node ← disk.node? location
  return (location, node)

def isDirectory (disk : Disk) (path : Path) : Bool :=
  match disk.atPath? path with
  | some (_, .directory) => true
  | _ => false

/-- An action on a disk. What was written before a failure stays. -/
abbrev Action := EStateM ArchiveError Disk

def refuse {α : Type} : Action α := throw .storage

/-- Whether a name can be given to something new: it has at most 255 bytes. -/
def canName (name : String) : Bool := name.utf8ByteSize ≤ 255

def enterDirectory (location : Location) (name : String) : Action Location := fun disk =>
  if name = ".." then .ok location.dropLast disk
  else
    let child := location ++ [name]
    match disk.node? child with
    | some .directory => .ok child disk
    | some _ => .error .storage disk
    | none =>
        if canName name then .ok child (disk.put child .directory) else .error .storage disk

/-- Makes a directory and the ones above it, as far as they are not there. A path that ends in a
dot is that of a directory which has to be there. -/
def makeDirectories (path : Path) : Action Unit := do
  if !path.isUsable then refuse
  else if path.endsInDot then
    discard (path.names.dropLast.foldlM enterDirectory [])
    if !(← get).isDirectory path then refuse
  else discard (path.names.foldlM enterDirectory [])

def namesFile (step : String) : Bool := !Path.staysAt step && step ≠ ".." && canName step

def writeFile (path : Path) (node : DiskNode) : Action Unit := fun disk =>
  match path.steps.getLast?, disk.locate? path.steps.dropLast with
  | some name, some location =>
      let target := location ++ [name]
      if path.isUsable && namesFile name && disk.node? location = some .directory
          && disk.node? target ≠ some .directory then
        .ok () (disk.put target node)
      else .error .storage disk
  | _, _ => .error .storage disk

def packedNode (entries : List Entry) : DiskNode :=
  if entries = [] then .data Packed.empty else .packed (entries.map Packed.entry)

/-- The path of an entry below a directory. Slashes at the end of its name do not count. -/
def entryPath (root : Path) (name : String) : Path :=
  root.join (.parse (String.ofList (name.toList.reverse.dropWhile (· = '/')).reverse))

def saveEntry (root : Path) (e : Entry) : Action Unit := do
  let target := entryPath root e.name
  match e.content with
  | .directory => makeDirectories target
  | .file data =>
      makeDirectories target.parent
      writeFile target (.data data)

def save (path : Path) (a : Archive) : Action Unit := do
  if path.isPacked then writeFile path (packedNode a.entries)
  else
    makeDirectories path
    a.entries.forM (saveEntry path)

def nameBelow? (root : Location) (text : String) : Option String :=
  if root = [] then some text
  else
    let front := (Location.text root ++ "/").toList
    if front.isPrefixOf text.toList then some (String.ofList (text.toList.drop front.length))
    else none

/-- The entry of a node below a directory. The bytes of a packed archive are not modelled. -/
def entryBelow (root : Location) (node : String × DiskNode) : Option Entry :=
  (nameBelow? root node.1).map fun name =>
    match node.2 with
    | .directory => { name := name ++ "/", content := .directory }
    | .data bytes => { name, content := .file bytes }
    | .packed _ => { name, content := .file [] }

def openArchive (path : Path) : Action Archive := fun disk =>
  match disk.atPath? path with
  | none => .error .storage disk
  | some (root, .directory) =>
      .ok (.ofEntries path.text (disk.nodes.toList.filterMap (entryBelow root))) disk
  | some (_, .data bytes) =>
      match Packed.entries bytes with
      | .ok entries => .ok (.ofEntries path.text entries) disk
      | .error e => .error e disk
  | some (_, .packed entries) => .ok (.ofEntries path.text entries) disk

end Disk

end ClassArchive
