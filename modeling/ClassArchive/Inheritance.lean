import ClassArchive.Archive
import ClassArchive.ClassFile
import ClassArchive.Hierarchy

/-!
The classes of an archive with their parents. Each class is read once, the first time a walk meets
its name. A walk goes up at most 256 links and leaves the class beyond without parents.
-/
set_option autoImplicit false

namespace ClassArchive

structure Ancestry where
  superName : Option String := none
  interfaces : List String := []
  deriving DecidableEq, Repr

namespace Ancestry

def parents (a : Ancestry) : List String := a.superName.toList ++ a.interfaces

def ofHeader (h : ClassHeader) : Ancestry :=
  { superName := h.superName, interfaces := h.interfaces }

end Ancestry

abbrev HeaderSource := String → Option ClassHeader

def Layers.headers (layers : Layers) : HeaderSource := fun name => do
  let e ← layers.find? (classEntryName name)
  (ClassHeader.decode e.bytes).toOption

structure Inheritance where
  nodes : Std.TreeMap String Ancestry := ∅

namespace Inheritance

def contains (tree : Inheritance) (name : String) : Bool := tree.nodes.contains name

def find? (tree : Inheritance) (name : String) : Option Ancestry := tree.nodes[name]?

def insert (tree : Inheritance) (name : String) (a : Ancestry) : Inheritance :=
  { nodes := tree.nodes.insert name a }

def size (tree : Inheritance) : Nat := tree.nodes.size

/-- Adds a class and what is above it, up to the given number of links. -/
def resolveWithin (headers : HeaderSource) : Nat → Inheritance → String → Inheritance
  | depth, tree, name =>
      if tree.contains name then tree
      else
        match depth with
        | 0 => tree.insert name {}
        | depth + 1 =>
            match headers name with
            | none => tree.insert name {}
            | some h =>
                h.parents.foldl (resolveWithin headers depth) (tree.insert name (.ofHeader h))

def resolve (headers : HeaderSource) (tree : Inheritance) (name : String) : Inheritance :=
  resolveWithin headers maxHierarchyDepth tree name

/-- Adds the class of an entry under the name that it gives itself. -/
def addEntry (headers : HeaderSource) (tree : Inheritance) (e : Entry) : Inheritance :=
  match ClassHeader.decode e.bytes with
  | .error _ => tree
  | .ok h =>
      if tree.contains h.name then tree
      else
        h.parents.foldl (resolveWithin headers (maxHierarchyDepth - 1))
          (tree.insert h.name (.ofHeader h))

def build (a : Archive) (headers : HeaderSource) : Inheritance :=
  a.classEntries.foldl (addEntry headers) {}

def detached (headers : HeaderSource) (name : String) : Inheritance := resolve headers {} name

def unlisted (tree : Inheritance) (order : List String) : List String :=
  tree.nodes.keys.filter (· ∉ order)

theorem unlisted_length_lt {tree : Inheritance} {order : List String} {name : String}
    {a : Ancestry} (ha : tree.find? name = some a) (hn : name ∉ order) :
    (tree.unlisted (name :: order)).length < (tree.unlisted order).length := by
  have hmem : name ∈ tree.nodes.keys := by
    rw [Std.TreeMap.mem_keys]
    rw [Std.TreeMap.mem_iff_isSome_getElem?]
    simp only [find?] at ha
    simp [ha]
  have hcut : tree.unlisted (name :: order) = (tree.unlisted order).filter (· ≠ name) := by
    simp [unlisted, List.filter_filter]
  rw [hcut, List.length_filter_lt_length_iff_exists]
  exact ⟨name, by simp [unlisted, hmem, hn], by simp⟩

/-- Lists the pending classes and what is above them, depth first, each class once. The classes
already listed stand in reverse. -/
def listOnto (tree : Inheritance) (pending order : List String) : List String :=
  match pending with
  | [] => order.reverse
  | name :: rest =>
      if hn : name ∈ order then listOnto tree rest order
      else
        match ha : tree.find? name with
        | none => listOnto tree rest order
        | some a =>
            have := unlisted_length_lt ha hn
            listOnto tree (a.parents ++ rest) (name :: order)
  termination_by ((tree.unlisted order).length, pending.length)

/-- The classes in which to look for a member of a class: the class itself, then those above its
superclass, then those above each interface. -/
def searchOrder (tree : Inheritance) (name : String) : List String := tree.listOnto [name] []

end Inheritance

end ClassArchive
