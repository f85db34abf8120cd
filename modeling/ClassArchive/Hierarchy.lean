import ClassArchive.FrameError

/-!
Class hierarchies as a loader from names to nodes. Walks go up at most 256 links and never follow a
name twice, so they end on every loader, also on one whose links form a cycle.
-/
set_option autoImplicit false

namespace ClassArchive

def objectClass : String := "java/lang/Object"

def maxHierarchyDepth : Nat := 256

structure TypeNode where
  name : String
  superName : Option String
  interfaces : List String := []
  isInterface : Bool := false
  deriving DecidableEq, Repr

namespace TypeNode

def parents (node : TypeNode) : List String := node.superName.toList ++ node.interfaces

end TypeNode

/-- The node of a class, where one is known. -/
abbrev Loader := String → Option TypeNode

namespace Loader

/-- The state of a search: whether the target was met, and the names already followed. -/
structure Search where
  found : Bool
  seen : List String
  deriving DecidableEq, Repr

/-- Searches for the target from a name upwards, the last interface first and the superclass last.
The target counts even at the depth where the walk ends. -/
def searchFrom (load : Loader) (target : String) : Nat → Search → String → Search
  | depth, search, name =>
      if search.found then search
      else if name = target then { search with found := true }
      else
        match depth with
        | 0 => search
        | depth + 1 =>
            if name ∈ search.seen then search
            else
              let search := { search with seen := name :: search.seen }
              match load name with
              | none => search
              | some node => node.parents.reverse.foldl (searchFrom load target depth) search

def isAssignable (load : Loader) (target source : String) : Bool :=
  target = source || target = objectClass ||
    (searchFrom load target maxHierarchyDepth ⟨false, []⟩ source).found

/-- The superclasses of a name onto those below it, which stand in reverse. -/
def chainOnto (load : Loader) : Nat → List String → String → Except FrameError (List String)
  | depth, below, name =>
      if name = objectClass then .ok (below.reverse ++ [name])
      else
        match depth with
        | 0 => .error (.unknownType name)
        | depth + 1 =>
            if name ∈ below then .error (.unknownType name)
            else
              match load name with
              | none => .error (.unknownType name)
              | some node => chainOnto load depth (name :: below) (node.superName.getD objectClass)

/-- The class, its superclass and so on up to the root. A class without a known superclass stands
right under the root; a class that cannot be loaded is an error. -/
def superclassChain (load : Loader) (name : String) : Except FrameError (List String) :=
  chainOnto load maxHierarchyDepth [] name

def node (load : Loader) (name : String) : Except FrameError TypeNode :=
  match load name with
  | some node => .ok node
  | none => .error (.unknownType name)

/-- The nearest superclass of both. An interface above the other type is their join; any other
join with an interface is the root. -/
def commonSuperClass (load : Loader) (a b : String) : Except FrameError String := do
  if a = b then return a
  if a = objectClass ∨ b = objectClass then return objectClass
  let nodeA ← load.node a
  let nodeB ← load.node b
  if nodeA.isInterface || nodeB.isInterface then
    if nodeA.isInterface && load.isAssignable a b then return a
    if nodeB.isInterface && load.isAssignable b a then return b
    return objectClass
  let chainB ← load.superclassChain b
  let chainA ← load.superclassChain a
  return (chainA.find? (· ∈ chainB)).getD objectClass

def orElse (first second : Loader) : Loader := fun name => first name <|> second name

end Loader

end ClassArchive
