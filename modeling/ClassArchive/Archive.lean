import ClassArchive.ArchiveError
import ClassArchive.Reader
import Std.Data.TreeMap

/-!
Archives of named entries, kept in the order of their names, and layers of archives in which the
first one that holds a name answers for it.
-/
set_option autoImplicit false

namespace ClassArchive

inductive Content where
  | directory
  | file (data : Bytes)
  deriving DecidableEq, Repr

structure Entry where
  name : String
  content : Content
  deriving DecidableEq, Repr

def classSuffix : String := ".class"

def dropSuffix? (suffix text : String) : Option String :=
  if suffix.toList.isSuffixOf text.toList then
    some (String.ofList (text.toList.take (text.toList.length - suffix.toList.length)))
  else none

def classEntryName (name : String) : String := name ++ classSuffix

namespace Entry

def className? (e : Entry) : Option String :=
  match e.content with
  | .directory => none
  | .file _ => dropSuffix? classSuffix e.name

def isClass (e : Entry) : Bool := e.className?.isSome

def bytes (e : Entry) : Bytes :=
  match e.content with
  | .directory => []
  | .file data => data

end Entry

structure Archive where
  name : String
  contents : Std.TreeMap String Content := ∅

namespace Archive

def find? (a : Archive) (name : String) : Option Entry :=
  a.contents[name]?.map fun content => { name, content }

def contains (a : Archive) (name : String) : Bool := a.contents.contains name

def insert (a : Archive) (e : Entry) : Archive :=
  { a with contents := a.contents.insert e.name e.content }

def erase (a : Archive) (name : String) : Archive := { a with contents := a.contents.erase name }

theorem find?_insert_self (a : Archive) (e : Entry) : (a.insert e).find? e.name = some e := by
  simp [find?, insert]

theorem find?_insert_of_ne (a : Archive) (e : Entry) {name : String} (h : e.name ≠ name) :
    (a.insert e).find? name = a.find? name := by
  simp [find?, insert, Std.TreeMap.getElem?_insert, h]

def names (a : Archive) : List String := a.contents.keys

def entries (a : Archive) : List Entry :=
  a.contents.toList.map fun (name, content) => { name, content }

def size (a : Archive) : Nat := a.contents.size

def ofEntries (name : String) (entries : List Entry) : Archive := entries.foldl insert { name }

def classEntries (a : Archive) : List Entry := a.entries.filter Entry.isClass

end Archive

/-- A change of an archive. What was changed before a failure stays changed. -/
abbrev Archive.Update := EStateM ArchiveError Archive

/-- Archives in the order in which they are asked. -/
abbrev Layers := List Archive

namespace Layers

def find? (layers : Layers) (name : String) : Option Entry := layers.findSome? (·.find? name)

def entries (layers : Layers) : List Entry := layers.flatMap (·.entries)

def dependencies (layers : Layers) : Layers := layers.drop 1

end Layers

def requireEntry (name : String) : Option Entry → Except ArchiveError Entry
  | some e => .ok e
  | none => .error (.missingEntry name)

end ClassArchive
