import ClassArchive.Proofs.DescriptorTrees
import ClassArchive.Proofs.BuiltMapping

/-!
Generic signatures as trees, after their grammar, the texts of these trees and the renaming of the
classes in them. The names in a tree may be any texts, so that a renamed tree is a tree again; a
valid tree has names that the grammar allows.
-/
set_option autoImplicit false

namespace ClassArchive

inductive Variance where
  | exact
  | upper
  | lower
  deriving DecidableEq, Repr

def Variance.chars : Variance → List Char
  | .exact => []
  | .upper => ['+']
  | .lower => ['-']

mutual

/-- A type in a generic signature. The name of a class holds its package, and the classes inside it
follow with type arguments of their own. -/
inductive GenericType where
  | base (letter : Char)
  | typeVariable (name : String)
  | array (element : GenericType)
  | object (name : String) (arguments : TypeArguments) (inner : InnerTypes)

inductive TypeArguments where
  | none
  | any (rest : TypeArguments)
  | type (variance : Variance) (type : GenericType) (rest : TypeArguments)

inductive InnerTypes where
  | none
  | more (name : String) (arguments : TypeArguments) (rest : InnerTypes)

end

/-- Where a type names a class: by its whole name, or by its name inside another class. -/
inductive ClassUse where
  | outermost (name : String)
  | inside (outer inner : String)
  deriving DecidableEq, Repr

def ClassUse.binaryName : ClassUse → String
  | .outermost name => name
  | .inside outer inner => outer ++ "$" ++ inner

def TypeArguments.bracket (chars : List Char) : TypeArguments → List Char
  | .none => []
  | _ => '<' :: chars ++ ['>']

mutual

def GenericType.chars : GenericType → List Char
  | .base letter => [letter]
  | .typeVariable name => 'T' :: name.toList ++ [';']
  | .array element => '[' :: element.chars
  | .object name arguments inner =>
      'L' :: name.toList ++ arguments.bracket arguments.chars ++ inner.chars ++ [';']

def TypeArguments.chars : TypeArguments → List Char
  | .none => []
  | .any rest => '*' :: rest.chars
  | .type variance type rest => variance.chars ++ type.chars ++ rest.chars

def InnerTypes.chars : InnerTypes → List Char
  | .none => []
  | .more name arguments rest =>
      '.' :: name.toList ++ arguments.bracket arguments.chars ++ rest.chars

end

mutual

def GenericType.classUses : GenericType → List ClassUse
  | .base _ | .typeVariable _ => []
  | .array element => element.classUses
  | .object name arguments inner =>
      .outermost name :: (arguments.classUses ++ inner.classUses name)

def TypeArguments.classUses : TypeArguments → List ClassUse
  | .none => []
  | .any rest => rest.classUses
  | .type _ type rest => type.classUses ++ rest.classUses

def InnerTypes.classUses (outer : String) : InnerTypes → List ClassUse
  | .none => []
  | .more name arguments rest =>
      .inside outer name :: (arguments.classUses ++ rest.classUses (outer ++ "$" ++ name))

end

/-- A name without the characters that the grammar is made of. -/
def IsIdentifier (name : String) : Prop := name ≠ "" ∧ ∀ c ∈ name.toList, c ∉ ".;[/<>:".toList

/-- The same for a name that may hold slashes. -/
def IsQualified (name : String) : Prop := name ≠ "" ∧ ∀ c ∈ name.toList, c ∉ ".;[<>:".toList

-- the characters of the name are tried, not all characters
instance (name : String) : Decidable (IsIdentifier name) :=
  have := List.decidableBAll (· ∉ ".;[/<>:".toList) name.toList
  inferInstanceAs (Decidable (_ ∧ _))

instance (name : String) : Decidable (IsQualified name) :=
  have := List.decidableBAll (· ∉ ".;[<>:".toList) name.toList
  inferInstanceAs (Decidable (_ ∧ _))

namespace GenericType

def isReference : GenericType → Bool
  | .base _ => false
  | _ => true

def isClass : GenericType → Bool
  | .object _ _ _ => true
  | _ => false

def isThrowable : GenericType → Bool
  | .object _ _ _ | .typeVariable _ => true
  | _ => false

end GenericType

mutual

def GenericType.Valid : GenericType → Prop
  | .base letter => Descriptor.isBase letter = true
  | .typeVariable name => IsIdentifier name
  | .array element => element.Valid
  | .object name arguments inner => IsQualified name ∧ arguments.Valid ∧ inner.Valid

def TypeArguments.Valid : TypeArguments → Prop
  | .none => True
  | .any rest => rest.Valid
  | .type _ type rest => type.Valid ∧ type.isReference = true ∧ rest.Valid

def InnerTypes.Valid : InnerTypes → Prop
  | .none => True
  | .more name arguments rest => IsIdentifier name ∧ arguments.Valid ∧ rest.Valid

end

mutual

instance GenericType.decidableValid : (t : GenericType) → Decidable t.Valid
  | .base letter => inferInstanceAs (Decidable (Descriptor.isBase letter = true))
  | .typeVariable name => inferInstanceAs (Decidable (IsIdentifier name))
  | .array element => element.decidableValid
  | .object name arguments inner =>
      have := arguments.decidableValid
      have := inner.decidableValid
      inferInstanceAs (Decidable (IsQualified name ∧ arguments.Valid ∧ inner.Valid))

instance TypeArguments.decidableValid : (arguments : TypeArguments) → Decidable arguments.Valid
  | .none => .isTrue trivial
  | .any rest => rest.decidableValid
  | .type _ type rest =>
      have := type.decidableValid
      have := rest.decidableValid
      inferInstanceAs (Decidable (type.Valid ∧ type.isReference = true ∧ rest.Valid))

instance InnerTypes.decidableValid : (inner : InnerTypes) → Decidable inner.Valid
  | .none => .isTrue trivial
  | .more name arguments rest =>
      have := arguments.decidableValid
      have := rest.decidableValid
      inferInstanceAs (Decidable (IsIdentifier name ∧ arguments.Valid ∧ rest.Valid))

end

/-- A type parameter. The bound by a class may be missing, and a colon then stands alone. -/
structure TypeParameter where
  name : String
  classBound : Option GenericType
  interfaceBounds : List GenericType

namespace TypeParameter

def bounds (p : TypeParameter) : List GenericType := p.classBound.toList ++ p.interfaceBounds

def boundChars (p : TypeParameter) : List Char :=
  ':' :: p.classBound.elim [] GenericType.chars ++
    p.interfaceBounds.flatMap fun bound => ':' :: bound.chars

def chars (p : TypeParameter) : List Char := p.name.toList ++ p.boundChars

def Valid (p : TypeParameter) : Prop :=
  IsIdentifier p.name ∧ p.bounds ≠ [] ∧ ∀ t ∈ p.bounds, t.Valid ∧ t.isReference = true

instance (p : TypeParameter) : Decidable p.Valid := inferInstanceAs (Decidable (_ ∧ _ ∧ _))

end TypeParameter

inductive GenericSignature where
  | ofField (type : GenericType)
  | ofClass (parameters : List TypeParameter) (superclass : GenericType)
      (interfaces : List GenericType)
  /-- Without a result, `V` stands for it. -/
  | ofMethod (parameters : List TypeParameter) (types : List GenericType)
      (result : Option GenericType) (throws : List GenericType)

namespace GenericSignature

def parameterChars : List TypeParameter → List Char
  | [] => []
  | parameters => '<' :: parameters.flatMap TypeParameter.chars ++ ['>']

def methodChars (types : List GenericType) (result : Option GenericType)
    (throws : List GenericType) : List Char :=
  '(' :: types.flatMap GenericType.chars ++ ')' :: result.elim ['V'] GenericType.chars ++
    throws.flatMap fun t => '^' :: t.chars

def chars : GenericSignature → List Char
  | .ofField type => type.chars
  | .ofClass parameters superclass interfaces =>
      parameterChars parameters ++ (superclass :: interfaces).flatMap GenericType.chars
  | .ofMethod parameters types result throws =>
      parameterChars parameters ++ methodChars types result throws

def text (s : GenericSignature) : String := String.ofList s.chars

def types : GenericSignature → List GenericType
  | .ofField type => [type]
  | .ofClass parameters superclass interfaces =>
      parameters.flatMap TypeParameter.bounds ++ superclass :: interfaces
  | .ofMethod parameters types result throws =>
      parameters.flatMap TypeParameter.bounds ++ types ++ result.toList ++ throws

def classUses (s : GenericSignature) : List ClassUse := s.types.flatMap GenericType.classUses

def Valid : GenericSignature → Prop
  | .ofField type => type.Valid ∧ type.isReference = true
  | .ofClass parameters superclass interfaces => (∀ p ∈ parameters, p.Valid) ∧
      ∀ t ∈ superclass :: interfaces, t.Valid ∧ t.isClass = true
  | .ofMethod parameters types result throws => (∀ p ∈ parameters, p.Valid) ∧
      (∀ t ∈ types, t.Valid) ∧ (∀ t ∈ result, t.Valid) ∧
      ∀ t ∈ throws, t.Valid ∧ t.isThrowable = true

instance : (s : GenericSignature) → Decidable s.Valid
  | .ofField _ => inferInstanceAs (Decidable (_ ∧ _))
  | .ofClass _ _ _ => inferInstanceAs (Decidable (_ ∧ _))
  | .ofMethod _ _ _ _ => inferInstanceAs (Decidable (_ ∧ _ ∧ _ ∧ _))

end GenericSignature

/-! ### Renamed trees -/

section RenamedBy

variable (f : String → Except ArchiveError String)

mutual

/-- Whether the second type is the first with every class renamed. -/
inductive GenericType.RenamedBy : GenericType → GenericType → Prop
  | base {letter : Char} : GenericType.RenamedBy (.base letter) (.base letter)
  | typeVariable {name : String} :
      GenericType.RenamedBy (.typeVariable name) (.typeVariable name)
  | array {element renamed : GenericType} : GenericType.RenamedBy element renamed →
      GenericType.RenamedBy (.array element) (.array renamed)
  | object {name mapped : String} {arguments renamed : TypeArguments} {inner inner' : InnerTypes} :
      f name = .ok mapped → TypeArguments.RenamedBy arguments renamed →
      InnerTypes.RenamedBy name mapped inner inner' →
      GenericType.RenamedBy (.object name arguments inner) (.object mapped renamed inner')

inductive TypeArguments.RenamedBy : TypeArguments → TypeArguments → Prop
  | none : TypeArguments.RenamedBy .none .none
  | any {rest rest' : TypeArguments} : TypeArguments.RenamedBy rest rest' →
      TypeArguments.RenamedBy (.any rest) (.any rest')
  | type {variance : Variance} {type renamed : GenericType} {rest rest' : TypeArguments} :
      GenericType.RenamedBy type renamed → TypeArguments.RenamedBy rest rest' →
      TypeArguments.RenamedBy (.type variance type rest) (.type variance renamed rest')

/-- The same for the classes inside a class with the given old and new name: what follows the dollar
sign in a new name is the new part behind the dot. -/
inductive InnerTypes.RenamedBy : String → String → InnerTypes → InnerTypes → Prop
  | none {outer mapped : String} : InnerTypes.RenamedBy outer mapped .none .none
  | more {outer mapped name part : String} {arguments renamed : TypeArguments}
      {rest rest' : InnerTypes} :
      f (outer ++ "$" ++ name) = .ok (mapped ++ "$" ++ part) →
      TypeArguments.RenamedBy arguments renamed →
      InnerTypes.RenamedBy (outer ++ "$" ++ name) (mapped ++ "$" ++ part) rest rest' →
      InnerTypes.RenamedBy outer mapped (.more name arguments rest) (.more part renamed rest')

end

structure TypeParameter.RenamedBy (p q : TypeParameter) : Prop where
  name : q.name = p.name
  classBound : Option.Rel (GenericType.RenamedBy f) p.classBound q.classBound
  interfaceBounds : List.Forall₂ (GenericType.RenamedBy f) p.interfaceBounds q.interfaceBounds

inductive GenericSignature.RenamedBy : GenericSignature → GenericSignature → Prop
  | ofField {type renamed : GenericType} : GenericType.RenamedBy f type renamed →
      GenericSignature.RenamedBy (.ofField type) (.ofField renamed)
  | ofClass {parameters parameters' : List TypeParameter} {superclass renamed : GenericType}
      {interfaces interfaces' : List GenericType} :
      List.Forall₂ (TypeParameter.RenamedBy f) parameters parameters' →
      GenericType.RenamedBy f superclass renamed →
      List.Forall₂ (GenericType.RenamedBy f) interfaces interfaces' →
      GenericSignature.RenamedBy (.ofClass parameters superclass interfaces)
        (.ofClass parameters' renamed interfaces')
  | ofMethod {parameters parameters' : List TypeParameter} {types types' : List GenericType}
      {result result' : Option GenericType} {throws throws' : List GenericType} :
      List.Forall₂ (TypeParameter.RenamedBy f) parameters parameters' →
      List.Forall₂ (GenericType.RenamedBy f) types types' →
      Option.Rel (GenericType.RenamedBy f) result result' →
      List.Forall₂ (GenericType.RenamedBy f) throws throws' →
      GenericSignature.RenamedBy (.ofMethod parameters types result throws)
        (.ofMethod parameters' types' result' throws')

/-- Whether the class has a new name, and the new name is inside that of the class around it. -/
def ClassUse.Renamable : ClassUse → Prop
  | .outermost name => ∃ mapped, f name = .ok mapped
  | .inside outer inner => ∃ mapped part,
      f outer = .ok mapped ∧ f (outer ++ "$" ++ inner) = .ok (mapped ++ "$" ++ part)

end RenamedBy

variable {f : String → Except ArchiveError String}

mutual

theorem GenericType.exists_renamedBy : ∀ (t : GenericType),
    (∀ c ∈ t.classUses, c.Renamable f) → ∃ u, t.RenamedBy f u
  | .base _, _ => ⟨_, .base⟩
  | .typeVariable _, _ => ⟨_, .typeVariable⟩
  | .array element, h => by
    obtain ⟨renamed, helement⟩ := element.exists_renamedBy h
    exact ⟨_, .array helement⟩
  | .object name arguments inner, h => by
    obtain ⟨⟨mapped, hmapped⟩, h⟩ := List.forall_mem_cons.1 h
    obtain ⟨harguments, hinner⟩ := List.forall_mem_append.1 h
    obtain ⟨arguments', harguments⟩ := arguments.exists_renamedBy harguments
    obtain ⟨inner', hinner⟩ := inner.exists_renamedBy hmapped hinner
    exact ⟨_, .object hmapped harguments hinner⟩

theorem TypeArguments.exists_renamedBy : ∀ (as : TypeArguments),
    (∀ c ∈ as.classUses, c.Renamable f) → ∃ bs, as.RenamedBy f bs
  | .none, _ => ⟨_, .none⟩
  | .any rest, h => by
    obtain ⟨rest', hrest⟩ := rest.exists_renamedBy h
    exact ⟨_, .any hrest⟩
  | .type _ type rest, h => by
    obtain ⟨htype, hrest⟩ := List.forall_mem_append.1 h
    obtain ⟨renamed, htype⟩ := type.exists_renamedBy htype
    obtain ⟨rest', hrest⟩ := rest.exists_renamedBy hrest
    exact ⟨_, .type htype hrest⟩

theorem InnerTypes.exists_renamedBy : ∀ (is : InnerTypes) {outer mapped : String},
    f outer = .ok mapped → (∀ c ∈ is.classUses outer, c.Renamable f) →
    ∃ js, is.RenamedBy f outer mapped js
  | .none, _, _, _, _ => ⟨_, .none⟩
  | .more name arguments rest, outer, mapped, houter, h => by
    obtain ⟨⟨mapped', part, houter', hinside⟩, h⟩ := List.forall_mem_cons.1 h
    obtain rfl : mapped' = mapped := Except.ok.inj (houter'.symm.trans houter)
    obtain ⟨harguments, hrest⟩ := List.forall_mem_append.1 h
    obtain ⟨arguments', harguments⟩ := arguments.exists_renamedBy harguments
    obtain ⟨rest', hrest⟩ := rest.exists_renamedBy hinside hrest
    exact ⟨_, .more hinside harguments hrest⟩

end

mutual

theorem GenericType.RenamedBy.classUses : ∀ {t u : GenericType}, t.RenamedBy f u →
    List.Forall₂ (fun c d => f c.binaryName = .ok d.binaryName) t.classUses u.classUses
  | _, _, .base | _, _, .typeVariable => .nil
  | _, _, .array h => h.classUses
  | _, _, .object hmapped harguments hinner =>
    .cons hmapped (List.rel_append harguments.classUses hinner.classUses)

theorem TypeArguments.RenamedBy.classUses : ∀ {as bs : TypeArguments}, as.RenamedBy f bs →
    List.Forall₂ (fun c d => f c.binaryName = .ok d.binaryName) as.classUses bs.classUses
  | _, _, .none => .nil
  | _, _, .any h => h.classUses
  | _, _, .type htype hrest => List.rel_append htype.classUses hrest.classUses

theorem InnerTypes.RenamedBy.classUses : ∀ {outer mapped : String} {is js : InnerTypes},
    is.RenamedBy f outer mapped js →
    List.Forall₂ (fun c d => f c.binaryName = .ok d.binaryName) (is.classUses outer)
      (js.classUses mapped)
  | _, _, _, _, .none => .nil
  | _, _, _, _, .more hinside harguments hrest =>
    .cons hinside (List.rel_append harguments.classUses hrest.classUses)

end

namespace TypeParameter

theorem exists_renamedBy {p : TypeParameter} (h : ∀ t ∈ p.bounds, ∃ u, t.RenamedBy f u) :
    ∃ q, p.RenamedBy f q := by
  obtain ⟨hclass, hinterfaces⟩ := List.forall_mem_append.1 h
  obtain ⟨classBound, hclass⟩ := exists_optionRel fun t ht => hclass t (by simpa using ht)
  obtain ⟨interfaceBounds, hinterfaces⟩ := exists_forall₂.2 hinterfaces
  exact ⟨⟨p.name, classBound, interfaceBounds⟩, rfl, hclass, hinterfaces⟩

theorem RenamedBy.bounds {p q : TypeParameter} (h : p.RenamedBy f q) :
    List.Forall₂ (GenericType.RenamedBy f) p.bounds q.bounds :=
  List.rel_append (forall₂_toList h.classBound) h.interfaceBounds

end TypeParameter

namespace GenericSignature

theorem exists_renamedBy {s : GenericSignature} (h : ∀ c ∈ s.classUses, c.Renamable f) :
    ∃ s', s.RenamedBy f s' := by
  have htypes : ∀ t ∈ s.types, ∃ u, t.RenamedBy f u := fun t ht =>
    t.exists_renamedBy fun c hc => h c (List.mem_flatMap.2 ⟨t, ht, hc⟩)
  have hall : ∀ {ps : List TypeParameter}, ps.flatMap TypeParameter.bounds ⊆ s.types →
      ∃ qs, List.Forall₂ (TypeParameter.RenamedBy f) ps qs := fun hps =>
    exists_forall₂.2 fun p hp => TypeParameter.exists_renamedBy fun t ht =>
      htypes t (hps (List.mem_flatMap.2 ⟨p, hp, ht⟩))
  cases s with
  | ofField type =>
    obtain ⟨renamed, htype⟩ := htypes type (by simp [types])
    exact ⟨_, .ofField htype⟩
  | ofClass parameters superclass interfaces =>
    obtain ⟨parameters', hparameters⟩ := hall (List.subset_append_left _ _)
    obtain ⟨renamed, hclass⟩ := htypes superclass (by simp [types])
    obtain ⟨interfaces', hinterfaces⟩ := exists_forall₂.2 fun t (ht : t ∈ interfaces) =>
      htypes t (by simp [types, ht])
    exact ⟨_, .ofClass hparameters hclass hinterfaces⟩
  | ofMethod parameters ts result throws =>
    simp only [types, List.append_assoc] at htypes hall
    obtain ⟨parameters', hparameters⟩ := hall (List.subset_append_left _ _)
    simp only [List.forall_mem_append] at htypes
    obtain ⟨-, hts, hresult, hthrows⟩ := htypes
    obtain ⟨ts', hts⟩ := exists_forall₂.2 hts
    obtain ⟨result', hresult⟩ := exists_optionRel fun t ht => hresult t (by simpa using ht)
    obtain ⟨throws', hthrows⟩ := exists_forall₂.2 hthrows
    exact ⟨_, .ofMethod hparameters hts hresult hthrows⟩

theorem RenamedBy.types {s s' : GenericSignature} (h : s.RenamedBy f s') :
    List.Forall₂ (GenericType.RenamedBy f) s.types s'.types := by
  cases h with
  | ofField htype => exact .cons htype .nil
  | ofClass hparameters hclass hinterfaces =>
    exact List.rel_append (List.rel_flatMap hparameters fun _ _ => TypeParameter.RenamedBy.bounds)
      (.cons hclass hinterfaces)
  | ofMethod hparameters htypes hresult hthrows =>
    have hbounds := List.rel_flatMap hparameters fun _ _ => TypeParameter.RenamedBy.bounds
    exact List.rel_append (List.rel_append (List.rel_append hbounds htypes)
      (forall₂_toList hresult)) hthrows

theorem RenamedBy.classUses {s s' : GenericSignature} (h : s.RenamedBy f s') :
    List.Forall₂ (fun c d => f c.binaryName = .ok d.binaryName) s.classUses s'.classUses :=
  List.rel_flatMap h.types fun _ _ => GenericType.RenamedBy.classUses

end GenericSignature

end ClassArchive
