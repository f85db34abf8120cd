import ClassArchive.Renaming.Names
import ClassArchive.Hierarchy.Platform
import ClassArchive.ClassFile.Framing

/-!
The hierarchy as it is after a renaming, read from archives in which every class still has the name
from before.
-/
set_option autoImplicit false

namespace ClassArchive

namespace Renamer

/-- The new name, or the old one where the mapping lacks a new one. -/
def classNameOrSame (r : Renamer) (name : String) : String :=
  match r.className name with
  | .ok mapped => mapped
  | .error _ => name

def node (r : Renamer) (h : ClassHeader) : TypeNode :=
  { name := r.classNameOrSame h.name
    superName := h.superName.map r.classNameOrSame
    interfaces := h.interfaces.map r.classNameOrSame
    isInterface := Access.isInterface h.access }

def archiveNode? (r : Renamer) (name : String) (a : Archive) : Option TypeNode := do
  let e ← a.find? (classEntryName name)
  let h ← (ClassHeader.decode e.bytes).toOption
  return r.node h

/-- The places where nodes are looked for: the archive, its dependencies, the platform. -/
def nodeSources (r : Renamer) (a : Archive) (dependencies : Layers) : List Loader :=
  [fun name => r.archiveNode? name a, fun name => dependencies.findSome? (r.archiveNode? name),
   Platform.loader]

def oldName? (r : Renamer) (name : String) : Option String :=
  (r.mapping.className? r.target r.source name).filter (· ≠ name)

/-- Looks in every source for the name as it is given and then for the name from before. -/
def loader (r : Renamer) (a : Archive) (dependencies : Layers) : Loader := fun name =>
  (r.nodeSources a dependencies).findSome? fun source =>
    source name <|> (r.oldName? name).bind source

end Renamer

end ClassArchive
