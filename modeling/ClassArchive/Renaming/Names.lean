import ClassArchive.TypeText
import ClassArchive.Mapping
import ClassArchive.Inheritance

/-!
Names carried from one namespace of a mapping to another. A mapping lists a member with the class
that declares it, so a member is looked up along the search order of the class through which it is
named. What the mapping does not know keeps its name.
-/
set_option autoImplicit false

namespace ClassArchive

structure Renamer where
  mapping : Mapping
  source : String
  target : String
  /-- The classes whose ancestors are known already. -/
  tree : Inheritance
  /-- Where the ancestors of other classes are read. -/
  headers : HeaderSource

namespace Renamer

def className (r : Renamer) (name : String) : Except ArchiveError String :=
  match r.mapping.class? r.source name with
  | none => .ok name
  | some c =>
      match c.names[r.target]? with
      | some mapped => .ok mapped
      | none => .error (.malformedMapping name s!"no class name in namespace {r.target}")

def descriptor (r : Renamer) (descriptor : String) : Except ArchiveError String :=
  (Descriptor.scan descriptor).rename r.className descriptor

def methodDescriptor (r : Renamer) (descriptor : String) : Except ArchiveError String := do
  let _ ← ArchiveError.lift (MethodDescriptor.parse descriptor)
  r.descriptor descriptor

/-- Renames what a class entry names: a class, or an array by its descriptor. -/
def typeName (r : Renamer) (name : String) : Except ArchiveError String :=
  if name.toList.head? = some '[' then r.descriptor name else r.className name

def signature (r : Renamer) (signature : String) : Except ArchiveError String :=
  (Signature.scan signature).rename r.className signature

def searchOrder (r : Renamer) (owner : String) : List String :=
  if r.tree.contains owner then r.tree.searchOrder owner
  else (Inheritance.detached r.headers owner).searchOrder owner

def findMember? {α : Type} (r : Renamer) (owner : String) (lookup : ClassMapping → Option α) :
    Option α :=
  (r.searchOrder owner).findSome? fun name => (r.mapping.class? r.source name).bind lookup

def methodById (r : Renamer) (owner : String) (id : MethodId) : Except ArchiveError String :=
  match r.findMember? owner (·.method? r.source id) with
  | none => .ok id.name
  | some method =>
      match method.names[r.target]? with
      | some mapped => .ok mapped.id.name
      | none =>
          .error (.malformedMapping s!"{owner}.{id.name}"
            s!"no return type in namespace {r.target}")

/-- Renames a method named through the owner. Constructors, static initializers and the methods of
arrays keep their names. -/
def methodName (r : Renamer) (owner name descriptor : String) : Except ArchiveError String := do
  if name = constructorName ∨ name = staticInitializerName ∨ owner.toList.head? = some '[' then
    return name
  let id ← ArchiveError.lift (MethodId.ofDescriptor name descriptor)
  r.methodById owner id

/-- Renames an element of an annotation type, which is a method without parameters. -/
def annotationElement (r : Renamer) (owner name : String) : Except ArchiveError String :=
  r.methodById owner { name, parameters := [] }

/-- Renames a field named through the owner. Its type takes no part. -/
def fieldName (r : Renamer) (owner name : String) : Except ArchiveError String :=
  match r.findMember? owner (·.field? r.source name) with
  | none => .ok name
  | some field =>
      match field.names[r.target]? with
      | some mapped => .ok mapped.name
      | none =>
          .error (.malformedMapping s!"{owner}.{name}" s!"no field name in namespace {r.target}")

def inPackage? (name : String) : Option String :=
  if '/' ∈ name.toList then some (afterLast '/' name) else none

/-- The simple name of an inner class after renaming. It stays if the class keeps its name or only
moves between packages; else it is what follows the last dollar sign and the digits behind it. -/
def innerClassName (r : Renamer) (name simple : String) : Except ArchiveError String := do
  let mapped ← r.className name
  if mapped = name then return simple
  if (inPackage? name).isSome ∧ inPackage? name = inPackage? mapped then return simple
  if '$' ∈ mapped.toList then
    return String.ofList ((afterLast '$' mapped).toList.dropWhile Char.isDigit)
  else return simple

end Renamer

end ClassArchive
