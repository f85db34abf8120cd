import ClassArchive.ArchiveError
import ClassArchive.Descriptor
import Std.Data.TreeMap
import Std.Data.TreeSet

/-!
Names of classes, methods and fields in several namespaces. An element is found from its name in
any namespace in which it has one. Within a namespace a name stands for one class, and within a
class for one field, or one method of the same parameters.
-/
set_option autoImplicit false

namespace ClassArchive

structure Identifier (κ : Type) where
  ns : String
  id : κ
  deriving DecidableEq, Repr

/-- A method in one namespace. The result type takes no part in telling methods apart. -/
structure MethodId where
  name : String
  parameters : List String
  deriving DecidableEq, Repr

section Order

variable {α β γ κ : Type} [Ord β] [Ord γ] [Ord κ]

theorem lawfulEqCmp_lex [Std.LawfulEqOrd β] [Std.LawfulEqOrd γ] {f : α → β} {g : α → γ}
    (h : ∀ a b, f a = f b → g a = g b → a = b) :
    Std.LawfulEqCmp (compareLex (compareOn f) (compareOn g)) where
  compare_self := compareLex_eq_eq.2 ⟨Std.ReflOrd.compare_self, Std.ReflOrd.compare_self⟩
  eq_of_compare hab :=
    have hparts := compareLex_eq_eq.1 hab
    h _ _ (Std.LawfulEqOrd.eq_of_compare hparts.1) (Std.LawfulEqOrd.eq_of_compare hparts.2)

instance : Ord (Identifier κ) := ⟨compareLex (compareOn Identifier.ns) (compareOn Identifier.id)⟩

instance [Std.TransOrd κ] : Std.TransOrd (Identifier κ) :=
  inferInstanceAs (Std.TransCmp (compareLex (compareOn Identifier.ns) (compareOn Identifier.id)))

instance [Std.LawfulEqOrd κ] : Std.LawfulEqOrd (Identifier κ) :=
  lawfulEqCmp_lex fun ⟨_, _⟩ ⟨_, _⟩ hns hid => Identifier.mk.injEq .. ▸ ⟨hns, hid⟩

instance : Ord MethodId := ⟨compareLex (compareOn MethodId.name) (compareOn MethodId.parameters)⟩

instance : Std.TransOrd MethodId :=
  inferInstanceAs
    (Std.TransCmp (compareLex (compareOn MethodId.name) (compareOn MethodId.parameters)))

instance : Std.LawfulEqOrd MethodId :=
  lawfulEqCmp_lex fun ⟨_, _⟩ ⟨_, _⟩ hname hparameters =>
    MethodId.mk.injEq .. ▸ ⟨hname, hparameters⟩

end Order

namespace MethodId

def ofDescriptor (name descriptor : String) : Except FormatError MethodId := do
  let d ← MethodDescriptor.parse descriptor
  return { name, parameters := d.parameters }

def descriptor (id : MethodId) (result : String) : String :=
  MethodDescriptor.render { parameters := id.parameters, result }

end MethodId

structure MethodName where
  id : MethodId
  result : String
  deriving DecidableEq, Repr

structure FieldName where
  name : String
  type : String
  deriving DecidableEq, Repr

abbrev ByNamespace := Std.TreeMap String

/-- Elements in the order in which they were added, and each of them under all its identifiers. -/
structure Registry (κ α : Type) [Ord κ] where
  entries : List α := []
  index : Std.TreeMap (Identifier κ) α := ∅

namespace Registry

variable {κ α : Type} [Ord κ]

def find? (r : Registry κ α) (ns : String) (id : κ) : Option α := r.index[Identifier.mk ns id]?

def enter (a : α) (index : Std.TreeMap (Identifier κ) α) (key : Identifier κ) :
    Except (Identifier κ) (Std.TreeMap (Identifier κ) α) :=
  if index.contains key then .error key else .ok (index.insert key a)

/-- Adds an element under each of its identifiers, or tells which of them is taken. -/
def add (r : Registry κ α) (keys : List (Identifier κ)) (a : α) :
    Except (Identifier κ) (Registry κ α) := do
  return { entries := r.entries ++ [a], index := ← keys.foldlM (enter a) r.index }

end Registry

structure MethodMapping where
  names : ByNamespace MethodName := ∅
  /-- The names of some parameters, by index. -/
  parameters : Std.TreeMap Nat (ByNamespace String) := ∅

structure FieldMapping where
  names : ByNamespace FieldName := ∅

structure ClassMapping where
  names : ByNamespace String := ∅
  methods : Registry MethodId MethodMapping := {}
  fields : Registry String FieldMapping := {}

structure Mapping where
  classes : Registry String ClassMapping := {}
  /-- The namespaces in which some class has a name. -/
  namespaces : Std.TreeSet String := ∅

namespace MethodMapping

def identifiers (m : MethodMapping) : List (Identifier MethodId) :=
  m.names.toList.map fun (ns, name) => ⟨ns, name.id⟩

def descriptor? (m : MethodMapping) (ns : String) : Option String :=
  m.names[ns]?.map fun name => name.id.descriptor name.result

def parameterName? (m : MethodMapping) (index : Nat) (ns : String) : Option String := do
  (← m.parameters[index]?)[ns]?

def lastParameter? (m : MethodMapping) : Option Nat := m.parameters.maxKey?

end MethodMapping

def FieldMapping.identifiers (f : FieldMapping) : List (Identifier String) :=
  f.names.toList.map fun (ns, name) => ⟨ns, name.name⟩

namespace ClassMapping

def identifiers (c : ClassMapping) : List (Identifier String) :=
  c.names.toList.map fun (ns, name) => ⟨ns, name⟩

def method? (c : ClassMapping) (ns : String) (id : MethodId) : Option MethodMapping :=
  c.methods.find? ns id

def field? (c : ClassMapping) (ns name : String) : Option FieldMapping :=
  c.fields.find? ns name

end ClassMapping

namespace Mapping

def class? (m : Mapping) (ns name : String) : Option ClassMapping :=
  m.classes.find? ns name

def className? (m : Mapping) (source target name : String) : Option String := do
  (← m.class? source name).names[target]?

end Mapping

/-! ### Building

A draft lists names in the order in which they are given. The last name given for a namespace
counts. -/

structure MethodDraft where
  /-- Namespace, name and descriptor. -/
  names : List (String × String × String) := []
  /-- Index, namespace and name. -/
  parameters : List (Nat × String × String) := []

structure FieldDraft where
  /-- Namespace, name and descriptor. -/
  names : List (String × String × String) := []

structure ClassDraft where
  /-- Namespace and name. -/
  names : List (String × String) := []
  methods : List MethodDraft := []
  fields : List FieldDraft := []

def blameMember {α : Type} (owner name : String) : Except FormatError α → Except ArchiveError α
  | .ok a => .ok a
  | .error e => .error (.malformedMapping s!"{owner}.{name}" e.message)

namespace MethodDraft

def addName (owner : String) (names : ByNamespace MethodName)
    (given : String × String × String) : Except ArchiveError (ByNamespace MethodName) := do
  let (ns, name, descriptor) := given
  let d ← blameMember owner name (MethodDescriptor.parse descriptor)
  return names.insert ns
    { id := { name, parameters := d.parameters }, result := d.result }

def addParameter (parameters : Std.TreeMap Nat (ByNamespace String))
    (given : Nat × String × String) : Std.TreeMap Nat (ByNamespace String) :=
  let (index, ns, name) := given
  parameters.insert index ((parameters.getD index ∅).insert ns name)

def build (owner : String) (draft : MethodDraft) : Except ArchiveError MethodMapping := do
  return { names := ← draft.names.foldlM (addName owner) ∅,
           parameters := draft.parameters.foldl addParameter ∅ }

end MethodDraft

namespace FieldDraft

def addName (owner : String) (names : ByNamespace FieldName)
    (given : String × String × String) : Except ArchiveError (ByNamespace FieldName) := do
  let (ns, name, descriptor) := given
  blameMember owner name (Descriptor.checkField descriptor)
  return names.insert ns { name, type := descriptor }

def build (owner : String) (draft : FieldDraft) : Except ArchiveError FieldMapping := do
  return { names := ← draft.names.foldlM (addName owner) ∅ }

end FieldDraft

namespace ClassDraft

/-- The first name given, by which errors name the class. -/
def owner (draft : ClassDraft) : String :=
  match draft.names with
  | (_, name) :: _ => name
  | [] => ""

def addMethod (owner : String) (methods : Registry MethodId MethodMapping) (draft : MethodDraft) :
    Except ArchiveError (Registry MethodId MethodMapping) := do
  let method ← draft.build owner
  (methods.add method.identifiers method).mapError fun taken =>
    .malformedMapping s!"{owner}.{taken.id.name}" s!"method mapped twice in namespace {taken.ns}"

def addField (owner : String) (fields : Registry String FieldMapping) (draft : FieldDraft) :
    Except ArchiveError (Registry String FieldMapping) := do
  let field ← draft.build owner
  (fields.add field.identifiers field).mapError fun taken =>
    .malformedMapping s!"{owner}.{taken.id}" s!"field mapped twice in namespace {taken.ns}"

def build (draft : ClassDraft) : Except ArchiveError ClassMapping := do
  let methods ← draft.methods.foldlM (addMethod draft.owner) {}
  let fields ← draft.fields.foldlM (addField draft.owner) {}
  return { names := Std.TreeMap.ofList draft.names, methods, fields }

end ClassDraft

namespace Mapping

def addClass (m : Mapping) (draft : ClassDraft) : Except ArchiveError Mapping := do
  let c ← draft.build
  let classes ← (m.classes.add c.identifiers c).mapError fun taken =>
    .malformedMapping taken.id s!"class mapped twice in namespace {taken.ns}"
  return { classes, namespaces := m.namespaces.insertMany c.names.keys }

def build (drafts : List ClassDraft) : Except ArchiveError Mapping :=
  drafts.foldlM addClass {}

end Mapping

end ClassArchive
