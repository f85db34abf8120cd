import ClassArchive.Proofs.RenamedPool
import ClassArchive.Proofs.AttributePayloads

/-!
What a renaming makes of attributes. An attribute is compared with its renamed form by what the
indices of the one denote in the old pool and those of the other in the new. Names are appended
while payloads are rewritten, so what a step says of its answer has to hold in every pool that grows
out of the one it leaves.
-/
set_option autoImplicit false

namespace ClassArchive

theorem Descriptor.className?_eq_some {d owner : String} :
    className? d = some owner ↔ d = "L" ++ owner ++ ";" := by
  have htext : d = "L" ++ owner ++ ";" ↔ d.toList = 'L' :: (owner.toList ++ [';']) := by
    rw [← String.toList_inj]
    simp
  rw [htext]
  unfold className?
  split
  · next cs hd =>
    rw [hd, List.cons_inj_right]
    constructor
    · intro h
      split at h
      · next hlast =>
        obtain ⟨init, rfl⟩ := List.getLast?_eq_some_iff.1 hlast
        cases h
        simp
      · cases h
    · rintro rfl
      simp
  · next hd => simpa using fun h => hd _ h

/-! ### Renamed attributes -/

namespace ClassRenamer.PayloadKind

def Names : PayloadKind → String → Prop
  | .signature, name => name = signatureAttribute
  | .code, name => name = Code.attributeName
  | .locals, name => name = LocalVariable.tableName
  | .localTypes, name => name = LocalVariable.typeTableName
  | .annotations, name =>
      name = AnnotationInfo.visibleName ∨ name = AnnotationInfo.invisibleName
  | .parameterAnnotations, name =>
      name = AnnotationInfo.visibleParameterName ∨ name = AnnotationInfo.invisibleParameterName
  | .elementDefault, name => name = ElementValue.defaultName
  | .innerClasses, name => name = InnerClass.tableName
  | .enclosingMethod, name => name = enclosingMethodAttribute
  | .record, name => name = RecordComponent.tableName
  | .other, _ => False

theorem ofName_of_names {name : String} {kind : PayloadKind} (h : kind.Names name) :
    ofName name = kind := by
  cases kind with
  | other => exact h.elim
  | annotations | parameterAnnotations => rcases h with rfl | rfl <;> decide
  | _ =>
    cases h
    decide

theorem ofName_of_not_names {name : String} (h : ∀ kind : PayloadKind, ¬ kind.Names name) :
    ofName name = .other := by
  unfold ofName
  exact (if_neg (h .signature)).trans <| (if_neg (h .code)).trans <| (if_neg (h .locals)).trans <|
    (if_neg (h .localTypes)).trans <| (if_neg (h .annotations)).trans <|
    (if_neg (h .parameterAnnotations)).trans <| (if_neg (h .elementDefault)).trans <|
    (if_neg (h .innerClasses)).trans <| (if_neg (h .enclosingMethod)).trans <|
    if_neg (h .record)

theorem names_of_ofName {name : String} {kind : PayloadKind} (h : ofName name = kind)
    (hkind : kind ≠ .other) : kind.Names name := by
  by_contra hnot
  refine hkind (h.symm.trans (ofName_of_not_names fun kind' hkind' => hnot ?_))
  rwa [← h, ofName_of_names hkind']

theorem not_names_of_other {name : String} (h : ofName name = .other) (kind : PayloadKind) :
    ¬ kind.Names name := by
  intro hkind
  rw [ofName_of_names hkind] at h
  subst h
  exact hkind

end ClassRenamer.PayloadKind

section Renamed

variable (names : Renamer) (className : String) (old new : Pool)

/-- Whether the second index denotes the new form of the text that the first one denoted. -/
def RenamedText (f : String → Except ArchiveError String) (i j : UInt16) : Prop :=
  ∃ s t, old.text i = .ok s ∧ f s = .ok t ∧ new.text j = .ok t

/-- The same for a pair. Its descriptor takes part in finding the new name. -/
def RenamedPair (name : String → String → Except ArchiveError String)
    (descriptor : String → Except ArchiveError String) (i j : UInt16) : Prop :=
  ∃ s d s' d', old.nameAndType i = .ok (s, d) ∧ name s d = .ok s' ∧ descriptor d = .ok d' ∧
    new.nameAndType j = .ok (s', d')

def RenamedNames (name : String → String → Except ArchiveError String)
    (descriptor : String → Except ArchiveError String) (i j : UInt16 × UInt16) : Prop :=
  ∃ s d s' d', old.text i.1 = .ok s ∧ old.text i.2 = .ok d ∧ name s d = .ok s' ∧
    descriptor d = .ok d' ∧ new.text j.1 = .ok s' ∧ new.text j.2 = .ok d'

/-- A member of the class that a descriptor names. If it names none, the index stays. -/
inductive RenamedWithin (f : String → String → Except ArchiveError String) (descriptor : String) :
    UInt16 → UInt16 → Prop
  | ofClass {owner : String} {i j : UInt16} : descriptor = "L" ++ owner ++ ";" →
      RenamedText old new (f owner) i j → RenamedWithin f descriptor i j
  | ofOther {i : UInt16} : (∀ owner, descriptor ≠ "L" ++ owner ++ ";") →
      RenamedWithin f descriptor i i

mutual

inductive RenamedValue : ElementValue → ElementValue → Prop
  | const {tag : UInt8} {index : UInt16} : RenamedValue (.const tag index) (.const tag index)
  | enum {type type' name name' : UInt16} {descriptor : String} :
      old.text type = .ok descriptor → RenamedText old new names.descriptor type type' →
      RenamedWithin old new names.fieldName descriptor name name' →
      RenamedValue (.enum type name) (.enum type' name')
  | classLiteral {descriptor descriptor' : UInt16} :
      RenamedText old new names.descriptor descriptor descriptor' →
      RenamedValue (.classLiteral descriptor) (.classLiteral descriptor')
  | nested {type type' : UInt16} {descriptor : String}
      {elements elements' : List (UInt16 × ElementValue)} :
      old.text type = .ok descriptor → RenamedText old new names.descriptor type type' →
      RenamedElements descriptor elements elements' →
      RenamedValue (.nested type elements) (.nested type' elements')
  | array {values values' : List ElementValue} : RenamedValues values values' →
      RenamedValue (.array values) (.array values')

inductive RenamedElements : String → List (UInt16 × ElementValue) →
    List (UInt16 × ElementValue) → Prop
  | nil {descriptor : String} : RenamedElements descriptor [] []
  | cons {descriptor : String} {name name' : UInt16} {value value' : ElementValue}
      {rest rest' : List (UInt16 × ElementValue)} :
      RenamedWithin old new names.annotationElement descriptor name name' →
      RenamedValue value value' → RenamedElements descriptor rest rest' →
      RenamedElements descriptor ((name, value) :: rest) ((name', value') :: rest')

inductive RenamedValues : List ElementValue → List ElementValue → Prop
  | nil : RenamedValues [] []
  | cons {value value' : ElementValue} {rest rest' : List ElementValue} :
      RenamedValue value value' → RenamedValues rest rest' →
      RenamedValues (value :: rest) (value' :: rest')

end

def RenamedAnnotationInfo (a a' : AnnotationInfo) : Prop :=
  ∃ descriptor, old.text a.type = .ok descriptor ∧
    RenamedText old new names.descriptor a.type a'.type ∧
    RenamedElements names old new descriptor a.elements a'.elements

def RenamedLocal (f : String → Except ArchiveError String) (v v' : LocalVariable) : Prop :=
  RenamedText old new f v.descriptor v'.descriptor ∧ v' = { v with descriptor := v'.descriptor }

inductive RenamedInnerClass : InnerClass → InnerClass → Prop
  | anonymous {c : InnerClass} : c.name = 0 → RenamedInnerClass c c
  | named {c : InnerClass} {inner : String} {name : UInt16} : c.name ≠ 0 →
      old.className c.inner = .ok inner →
      RenamedText old new (names.innerClassName inner) c.name name →
      RenamedInnerClass c { c with name }

inductive RenamedComponent (R : Attribute → Attribute → Prop) :
    RecordComponent → RecordComponent → Prop
  | intro {name descriptor name' descriptor' : UInt16} {attributes attributes' : List Attribute} :
      RenamedNames old new (fun name _ => names.fieldName className name) names.descriptor
        (name, descriptor) (name', descriptor') →
      List.Forall₂ R attributes attributes' →
      RenamedComponent R ⟨name, descriptor, attributes⟩ ⟨name', descriptor', attributes'⟩

inductive RenamedAttribute : Attribute → Attribute → Prop
  | signature {index i j : UInt16} : old.text index = .ok signatureAttribute →
      RenamedText old new names.signature i j → RenamedAttribute ⟨index, be16 i⟩ ⟨index, be16 j⟩
  | code {index : UInt16} {data data' : Bytes} {body : Code} {attributes : List Attribute} :
      old.text index = .ok Code.attributeName → Code.decode data = .ok body →
      Code.decode data' = .ok { body with attributes } →
      List.Forall₂ RenamedAttribute body.attributes attributes →
      RenamedAttribute ⟨index, data⟩ ⟨index, data'⟩
  | locals {index : UInt16} {data data' : Bytes} {table table' : List LocalVariable} :
      old.text index = .ok LocalVariable.tableName →
      LocalVariable.decodeTable LocalVariable.tableName data = .ok table →
      LocalVariable.decodeTable LocalVariable.tableName data' = .ok table' →
      List.Forall₂ (RenamedLocal old new names.descriptor) table table' →
      RenamedAttribute ⟨index, data⟩ ⟨index, data'⟩
  | localTypes {index : UInt16} {data data' : Bytes} {table table' : List LocalVariable} :
      old.text index = .ok LocalVariable.typeTableName →
      LocalVariable.decodeTable LocalVariable.typeTableName data = .ok table →
      LocalVariable.decodeTable LocalVariable.typeTableName data' = .ok table' →
      List.Forall₂ (RenamedLocal old new names.signature) table table' →
      RenamedAttribute ⟨index, data⟩ ⟨index, data'⟩
  | annotations {index : UInt16} {name : String} {data data' : Bytes}
      {table table' : List AnnotationInfo} : old.text index = .ok name →
      name = AnnotationInfo.visibleName ∨ name = AnnotationInfo.invisibleName →
      AnnotationInfo.decodeTable name data = .ok table →
      AnnotationInfo.decodeTable name data' = .ok table' →
      List.Forall₂ (RenamedAnnotationInfo names old new) table table' →
      RenamedAttribute ⟨index, data⟩ ⟨index, data'⟩
  | parameterAnnotations {index : UInt16} {name : String} {data data' : Bytes}
      {tables tables' : List (List AnnotationInfo)} : old.text index = .ok name →
      name = AnnotationInfo.visibleParameterName ∨ name = AnnotationInfo.invisibleParameterName →
      AnnotationInfo.decodeParameters name data = .ok tables →
      AnnotationInfo.decodeParameters name data' = .ok tables' →
      List.Forall₂ (List.Forall₂ (RenamedAnnotationInfo names old new)) tables tables' →
      RenamedAttribute ⟨index, data⟩ ⟨index, data'⟩
  | elementDefault {index : UInt16} {data data' : Bytes} {value value' : ElementValue} :
      old.text index = .ok ElementValue.defaultName → ElementValue.decode data = .ok value →
      ElementValue.decode data' = .ok value' → RenamedValue names old new value value' →
      RenamedAttribute ⟨index, data⟩ ⟨index, data'⟩
  | innerClasses {index : UInt16} {data data' : Bytes} {table table' : List InnerClass} :
      old.text index = .ok InnerClass.tableName → InnerClass.decodeTable data = .ok table →
      InnerClass.decodeTable data' = .ok table' →
      List.Forall₂ (RenamedInnerClass names old new) table table' →
      RenamedAttribute ⟨index, data⟩ ⟨index, data'⟩
  /-- A class that stands in no method. -/
  | enclosingClass {index owner : UInt16} : old.text index = .ok enclosingMethodAttribute →
      RenamedAttribute ⟨index, be16 owner ++ be16 0⟩ ⟨index, be16 owner ++ be16 0⟩
  | enclosingMethod {index owner pair pair' : UInt16} {ownerName : String} :
      old.text index = .ok enclosingMethodAttribute → pair ≠ 0 →
      old.className owner = .ok ownerName →
      RenamedPair old new (names.methodName ownerName) names.methodDescriptor pair pair' →
      RenamedAttribute ⟨index, be16 owner ++ be16 pair⟩ ⟨index, be16 owner ++ be16 pair'⟩
  | record {index : UInt16} {data data' : Bytes} {table table' : List RecordComponent} :
      old.text index = .ok RecordComponent.tableName →
      RecordComponent.decodeTable data = .ok table →
      RecordComponent.decodeTable data' = .ok table' →
      List.Forall₂ (RenamedComponent names className old new RenamedAttribute) table table' →
      RenamedAttribute ⟨index, data⟩ ⟨index, data'⟩
  | other {index : UInt16} {name : String} {data : Bytes} : old.text index = .ok name →
      (∀ kind : ClassRenamer.PayloadKind, ¬ kind.Names name) →
      RenamedAttribute ⟨index, data⟩ ⟨index, data⟩

end Renamed

/-! A renamed value is encoded where the old one is: lists keep their lengths and constants their
tags. -/

section Fits

variable {names : Renamer} {old new : Pool}

theorem RenamedElements.length_eq {descriptor : String} :
    ∀ {es es' : List (UInt16 × ElementValue)},
    RenamedElements names old new descriptor es es' → es.length = es'.length
  | _, _, .nil => rfl
  | _, _, .cons _ _ hrest => congrArg (· + 1) hrest.length_eq

theorem RenamedValues.length_eq : ∀ {vs vs' : List ElementValue},
    RenamedValues names old new vs vs' → vs.length = vs'.length
  | _, _, .nil => rfl
  | _, _, .cons _ hrest => congrArg (· + 1) hrest.length_eq

mutual

theorem RenamedValue.fits : ∀ {v v' : ElementValue}, RenamedValue names old new v v' →
    v.Fits → v'.Fits
  | _, _, .const, h => h
  | _, _, .enum _ _ _, _ => .enum
  | _, _, .classLiteral _, _ => .classLiteral
  | _, _, .nested _ _ helements, .nested hlength hall =>
    .nested (helements.length_eq ▸ hlength) (helements.fits hall)
  | _, _, .array hvalues, .array hlength hall =>
    .array (hvalues.length_eq ▸ hlength) (hvalues.fits hall)

theorem RenamedElements.fits {descriptor : String} : ∀ {es es' : List (UInt16 × ElementValue)},
    RenamedElements names old new descriptor es es' → (∀ e ∈ es, e.2.Fits) → ∀ e ∈ es', e.2.Fits
  | _, _, .nil, h => h
  | _, _, .cons _ hvalue hrest, h => by
    obtain ⟨hfirst, hothers⟩ := List.forall_mem_cons.1 h
    exact List.forall_mem_cons.2 ⟨hvalue.fits hfirst, hrest.fits hothers⟩

theorem RenamedValues.fits : ∀ {vs vs' : List ElementValue}, RenamedValues names old new vs vs' →
    (∀ v ∈ vs, v.Fits) → ∀ v ∈ vs', v.Fits
  | _, _, .nil, h => h
  | _, _, .cons hvalue hrest, h => by
    obtain ⟨hfirst, hothers⟩ := List.forall_mem_cons.1 h
    exact List.forall_mem_cons.2 ⟨hvalue.fits hfirst, hrest.fits hothers⟩

end

theorem RenamedAnnotationInfo.fits {a a' : AnnotationInfo}
    (h : RenamedAnnotationInfo names old new a a') (ha : a.Fits) : a'.Fits := by
  obtain ⟨_, _, _, helements⟩ := h
  exact ⟨helements.length_eq ▸ ha.1, helements.fits ha.2⟩

theorem forall_mem_of_forall₂ {α β : Type} {R : α → β → Prop} {P : α → Prop} {Q : β → Prop}
    {xs : List α} {ys : List β} (h : List.Forall₂ R xs ys) (hR : ∀ x y, R x y → P x → Q y)
    (hxs : ∀ x ∈ xs, P x) : ∀ y ∈ ys, Q y := by
  induction h with
  | nil => simp
  | cons hxy _ ih =>
    rw [List.forall_mem_cons] at hxs ⊢
    exact ⟨hR _ _ hxy hxs.1, ih hxs.2⟩

end Fits

/-! ### Steps of a renaming -/

namespace ClassRenamer

/-- Whether every run from a live pool only appends shared constants to it, and gives an answer that
has the property in every pool that extends the last. -/
def Ensures (r : ClassRenamer) {α : Type} (x : Renaming α) (post : Pool → α → Prop) : Prop :=
  ∀ ⦃p q : Pool⦄ ⦃a : α⦄, r.Live p → x p = .ok (a, q) →
    Pool.Stocked p q ∧ ∀ new, q.Extends new → post new a

section Steps

variable {r : ClassRenamer} {α β : Type}

theorem ensures_pure {a : α} {post : Pool → α → Prop} (h : ∀ new, post new a) :
    r.Ensures (pure a) post := by
  intro p q b _ hrun
  cases hrun
  exact ⟨.refl, fun new _ => h new⟩

/-- What the first step says of its answer still holds in the pools that extend the last. -/
theorem Ensures.bind {x : Renaming α} {f : α → Renaming β} {P : Pool → α → Prop}
    {Q : Pool → β → Prop} (hx : r.Ensures x P)
    (hf : ∀ a, r.Ensures (f a) fun new b => P new a → Q new b) : r.Ensures (x >>= f) Q := by
  intro p q b hp hrun
  obtain ⟨a, mid, ha, hb⟩ := state_bind_eq_ok.1 hrun
  obtain ⟨hmid, hP⟩ := hx hp ha
  obtain ⟨hq, hQ⟩ := hf a (hp.grown hmid) hb
  exact ⟨hmid.trans hq, fun new hnew => hQ new hnew (hP new (hq.extends.trans hnew))⟩

theorem Ensures.map {x : Renaming α} {f : α → β} {P : Pool → α → Prop} {Q : Pool → β → Prop}
    (hx : r.Ensures x P) (hf : ∀ new a, P new a → Q new (f a)) : r.Ensures (f <$> x) Q := by
  intro p q b hp hrun
  obtain ⟨a, mid, ha, hb⟩ := state_map_eq_ok.1 hrun
  cases hb
  obtain ⟨hq, hP⟩ := hx hp ha
  exact ⟨hq, fun new hnew => hf new a (hP new hnew)⟩

theorem Ensures.mono {x : Renaming α} {P Q : Pool → α → Prop} (hx : r.Ensures x P)
    (h : ∀ new a, P new a → Q new a) : r.Ensures x Q := by
  intro p q a hp hrun
  obtain ⟨hq, hP⟩ := hx hp hrun
  exact ⟨hq, fun new hnew => h new a (hP new hnew)⟩

theorem Ensures.and {x : Renaming α} {P : Pool → α → Prop} {Q : α → Prop} (hx : r.Ensures x P)
    (hy : x.Yields Q) : r.Ensures x fun new a => P new a ∧ Q a := by
  intro p q a hp hrun
  obtain ⟨hq, hP⟩ := hx hp hrun
  exact ⟨hq, fun new hnew => ⟨hP new hnew, (hy p a q hrun).2⟩⟩

theorem ensures_mapM {f : α → Renaming β} {R : Pool → α → β → Prop} (xs : List α)
    (h : ∀ x ∈ xs, r.Ensures (f x) fun new => R new x) :
    r.Ensures (xs.mapM f) fun new => List.Forall₂ (R new) xs := by
  induction xs with
  | nil => exact ensures_pure fun _ => .nil
  | cons x xs ih =>
    rw [List.mapM_cons]
    refine (h x (by simp)).bind fun y => ?_
    refine (ih fun z hz => h z (by simp [hz])).bind fun ys => ensures_pure ?_
    intro new hys hy
    exact .cons hy hys

end Steps

end ClassRenamer

theorem Renaming.Yields.ensures {r : ClassRenamer} {α β : Type} {x : Renaming α}
    {f : α → Renaming β} {P : α → Prop} {Q : Pool → β → Prop} (hx : x.Yields P)
    (hf : ∀ a, P a → r.Ensures (f a) Q) : r.Ensures (x >>= f) Q := by
  intro p q b hp hrun
  obtain ⟨a, mid, ha, hb⟩ := state_bind_eq_ok.1 hrun
  obtain ⟨hmid, hP⟩ := hx p a mid ha
  obtain ⟨hq, hQ⟩ := hf a hP (hp.grown hmid) hb
  exact ⟨hmid.trans hq, hQ⟩

namespace ClassRenamer

open Renaming

variable (r : ClassRenamer)

theorem ensures_replaceText (i : UInt16) (s : String) :
    r.Ensures (r.replaceText i s) fun new j => new.text j = .ok s := by
  intro p q j hp hrun
  obtain ⟨hq, htext⟩ := text_replaceText hp hrun
  exact ⟨hq, fun new hnew => hnew.keepsNames.text htext⟩

theorem ensures_renameText (f : String → Except ArchiveError String) (i : UInt16) :
    r.Ensures (r.renameText f i) fun new => RenamedText r.snapshot new f i := by
  refine (yields_read _).ensures fun s hs => (yields_rename _).ensures fun t ht => ?_
  exact (r.ensures_replaceText i t).mono fun _ _ htext => ⟨s, t, hs, ht, htext⟩

theorem ensures_replacePair (i : UInt16) (s t : String) :
    r.Ensures (r.replacePair i s t) fun new j => new.nameAndType j = .ok (s, t) := by
  intro p q j hp hrun
  obtain ⟨hq, hpair⟩ := nameAndType_replacePair hp hrun
  exact ⟨hq, fun new hnew => hnew.keepsNames.nameAndType hpair⟩

theorem ensures_renameField (name descriptor : UInt16) :
    r.Ensures (r.renameField name descriptor) fun new =>
      RenamedNames r.snapshot new (fun name _ => r.names.fieldName r.className name)
        r.names.descriptor (name, descriptor) := by
  refine (yields_read _).ensures fun s hs => (yields_read _).ensures fun d hd => ?_
  refine (yields_rename _).ensures fun s' hs' => ?_
  refine (r.ensures_replaceText name s').bind fun i => ?_
  refine (r.ensures_renameText r.names.descriptor descriptor).bind fun j => ensures_pure ?_
  rintro new ⟨_, d', hd', hrenamed, hj⟩ hi
  cases hd.symm.trans hd'
  exact ⟨s, d, s', d', hs, hd, hs', hrenamed, hi, hj⟩

/-! ### Annotations -/

theorem ensures_renameWithin (f : String → String → Except ArchiveError String)
    (descriptor : String) (i : UInt16) :
    r.Ensures (r.renameWithin f (Descriptor.className? descriptor) i) fun new =>
      RenamedWithin r.snapshot new f descriptor i := by
  cases howner : Descriptor.className? descriptor with
  | some owner =>
    have hdescriptor := Descriptor.className?_eq_some.1 howner
    exact (r.ensures_renameText (f owner) i).mono fun _ _ htext => .ofClass hdescriptor htext
  | none =>
    refine ensures_pure fun new => .ofOther fun owner hd => ?_
    rw [Descriptor.className?_eq_some.2 hd] at howner
    cases howner

mutual

theorem ensures_renameValue : ∀ v : ElementValue,
    r.Ensures (r.renameValue v) fun new => RenamedValue r.names r.snapshot new v
  | .const tag index => by
    rw [renameValue]
    exact ensures_pure fun _ => .const
  | .enum type name => by
    rw [renameValue]
    refine (yields_read _).ensures fun d hd => ?_
    refine (r.ensures_renameWithin r.names.fieldName d name).bind fun name' => ?_
    refine (r.ensures_renameText r.names.descriptor type).bind fun type' => ensures_pure ?_
    intro new htype hname
    exact .enum hd htype hname
  | .classLiteral descriptor => by
    rw [renameValue]
    exact (r.ensures_renameText _ _).map fun _ _ h => .classLiteral h
  | .nested type elements => by
    rw [renameValue]
    refine (yields_read _).ensures fun d hd => ?_
    refine (ensures_renameElements d elements).bind fun elements' => ?_
    refine (r.ensures_renameText r.names.descriptor type).bind fun type' => ensures_pure ?_
    intro new htype helements
    exact .nested hd htype helements
  | .array values => by
    rw [renameValue]
    exact (ensures_renameValues values).map fun _ _ h => .array h

theorem ensures_renameElements (descriptor : String) : ∀ es : List (UInt16 × ElementValue),
    r.Ensures (r.renameElements (Descriptor.className? descriptor) es) fun new =>
      RenamedElements r.names r.snapshot new descriptor es
  | [] => by
    rw [renameElements]
    exact ensures_pure fun _ => .nil
  | (name, value) :: rest => by
    rw [renameElements]
    refine (r.ensures_renameWithin r.names.annotationElement descriptor name).bind fun name' => ?_
    refine (ensures_renameValue value).bind fun value' => ?_
    refine (ensures_renameElements descriptor rest).bind fun rest' => ensures_pure ?_
    intro new hrest hvalue hname
    exact .cons hname hvalue hrest

theorem ensures_renameValues : ∀ vs : List ElementValue,
    r.Ensures (r.renameValues vs) fun new => RenamedValues r.names r.snapshot new vs
  | [] => by
    rw [renameValues]
    exact ensures_pure fun _ => .nil
  | value :: rest => by
    rw [renameValues]
    refine (ensures_renameValue value).bind fun value' => ?_
    refine (ensures_renameValues rest).bind fun rest' => ensures_pure ?_
    intro new hrest hvalue
    exact .cons hvalue hrest

end

theorem ensures_renameAnnotations (a : AnnotationInfo) :
    r.Ensures (r.renameAnnotations a) fun new =>
      RenamedAnnotationInfo r.names r.snapshot new a := by
  refine (yields_read _).ensures fun d hd => ?_
  refine (r.ensures_renameElements d a.elements).bind fun elements => ?_
  refine (r.ensures_renameText r.names.descriptor a.type).bind fun type => ensures_pure ?_
  intro new htype helements
  exact ⟨d, hd, htype, helements⟩

/-! ### Tables -/

theorem ensures_renameLocal (f : String → Except ArchiveError String) (v : LocalVariable) :
    r.Ensures (r.renameLocal f v) fun new => RenamedLocal r.snapshot new f v :=
  (r.ensures_renameText f v.descriptor).bind fun _ => ensures_pure fun _ h => ⟨h, rfl⟩

theorem ensures_renameInnerClass (c : InnerClass) :
    r.Ensures (r.renameInnerClass c) fun new => RenamedInnerClass r.names r.snapshot new c := by
  unfold renameInnerClass
  split
  · next hname => exact ensures_pure fun _ => .anonymous hname
  · next hname =>
    refine (yields_read _).ensures fun inner hinner => ?_
    refine (r.ensures_renameText (r.names.innerClassName inner) c.name).bind fun name => ?_
    exact ensures_pure fun _ h => .named hname hinner h

/-! ### Payloads -/

theorem eq_be16_of_singleIndex {name : String} {data : Bytes} {i : UInt16}
    (h : singleIndex name data = .ok i) : data = be16 i := by
  unfold singleIndex at h
  split at h
  · cases h
    exact (be16_word16 _ _).symm
  · cases h

theorem ensures_renameSignature (name : String) (data : Bytes) :
    r.Ensures (r.renameSignature name data) fun new data' => ∃ i j,
      data = be16 i ∧ data' = be16 j ∧ RenamedText r.snapshot new r.names.signature i j := by
  refine (yields_read _).ensures fun i hi => ?_
  refine (r.ensures_renameText r.names.signature i).bind fun j => ensures_pure ?_
  intro new hj
  exact ⟨i, j, eq_be16_of_singleIndex hi, rfl, hj⟩

theorem ensures_renameLocals (f : String → Except ArchiveError String) (name : String)
    (data : Bytes) :
    r.Ensures (r.renameLocals f name data) fun new data' => ∃ table table',
      LocalVariable.decodeTable name data = .ok table ∧
      LocalVariable.decodeTable name data' = .ok table' ∧
      List.Forall₂ (RenamedLocal r.snapshot new f) table table' := by
  refine (yields_read _).ensures fun table htable => ?_
  refine (ensures_mapM table fun v _ => r.ensures_renameLocal f v).bind fun table' => ?_
  refine ensures_pure fun new hall => ⟨table, table', htable, ?_, hall⟩
  obtain ⟨-, hlength⟩ := LocalVariable.decodeTable_eq_ok.1 htable
  exact LocalVariable.decodeTable_eq_ok.2 ⟨rfl, hall.length_eq ▸ hlength⟩

theorem ensures_renameAnnotationTable (name : String) (data : Bytes) :
    r.Ensures (r.renameAnnotationTable name data) fun new data' => ∃ table table',
      AnnotationInfo.decodeTable name data = .ok table ∧
      AnnotationInfo.decodeTable name data' = .ok table' ∧
      List.Forall₂ (RenamedAnnotationInfo r.names r.snapshot new) table table' := by
  refine (yields_read _).ensures fun table htable => ?_
  refine (ensures_mapM table fun a _ => r.ensures_renameAnnotations a).bind fun table' => ?_
  refine ensures_pure fun new hall => ⟨table, table', htable, ?_, hall⟩
  obtain ⟨-, hlength, hfits⟩ := AnnotationInfo.decodeTable_eq_ok.1 htable
  exact AnnotationInfo.decodeTable_eq_ok.2 ⟨rfl, hall.length_eq ▸ hlength,
    forall_mem_of_forall₂ hall (fun _ _ => RenamedAnnotationInfo.fits) hfits⟩

theorem ensures_renameParameterAnnotations (name : String) (data : Bytes) :
    r.Ensures (r.renameParameterAnnotations name data) fun new data' => ∃ tables tables',
      AnnotationInfo.decodeParameters name data = .ok tables ∧
      AnnotationInfo.decodeParameters name data' = .ok tables' ∧
      List.Forall₂ (List.Forall₂ (RenamedAnnotationInfo r.names r.snapshot new)) tables
        tables' := by
  refine (yields_read _).ensures fun tables htables => ?_
  refine (ensures_mapM tables fun table _ =>
    ensures_mapM table fun a _ => r.ensures_renameAnnotations a).bind fun tables' => ?_
  refine ensures_pure fun new hall => ⟨tables, tables', htables, ?_, hall⟩
  obtain ⟨-, hlength, hfits⟩ := AnnotationInfo.decodeParameters_eq_ok.1 htables
  refine AnnotationInfo.decodeParameters_eq_ok.2 ⟨rfl, hall.length_eq ▸ hlength,
    forall_mem_of_forall₂ hall (fun table table' htable hfit => ?_) hfits⟩
  exact ⟨htable.length_eq ▸ hfit.1,
    forall_mem_of_forall₂ htable (fun _ _ => RenamedAnnotationInfo.fits) hfit.2⟩

theorem ensures_renameDefault (data : Bytes) :
    r.Ensures (r.renameDefault data) fun new data' => ∃ value value',
      ElementValue.decode data = .ok value ∧ ElementValue.decode data' = .ok value' ∧
      RenamedValue r.names r.snapshot new value value' := by
  refine (yields_read _).ensures fun value hvalue => ?_
  refine (r.ensures_renameValue value).bind fun value' => ?_
  refine ensures_pure fun new h => ⟨value, value', hvalue, ?_, h⟩
  exact ElementValue.decode_eq_ok.2 ⟨rfl, h.fits (ElementValue.decode_eq_ok.1 hvalue).2⟩

theorem ensures_renameInnerClasses (data : Bytes) :
    r.Ensures (r.renameInnerClasses data) fun new data' => ∃ table table',
      InnerClass.decodeTable data = .ok table ∧ InnerClass.decodeTable data' = .ok table' ∧
      List.Forall₂ (RenamedInnerClass r.names r.snapshot new) table table' := by
  refine (yields_read _).ensures fun table htable => ?_
  refine (ensures_mapM table fun c _ => r.ensures_renameInnerClass c).bind fun table' => ?_
  refine ensures_pure fun new hall => ⟨table, table', htable, ?_, hall⟩
  obtain ⟨-, hlength⟩ := InnerClass.decodeTable_eq_ok.1 htable
  exact InnerClass.decodeTable_eq_ok.2 ⟨rfl, hall.length_eq ▸ hlength⟩

abbrev Image (new : Pool) : Attribute → Attribute → Prop :=
  RenamedAttribute r.names r.className r.snapshot new

theorem ensures_renameEnclosing {index : UInt16}
    (hname : r.snapshot.text index = .ok enclosingMethodAttribute) (data : Bytes) :
    r.Ensures (r.renameEnclosing data) fun new data' =>
      r.Image new ⟨index, data⟩ ⟨index, data'⟩ := by
  unfold renameEnclosing
  split
  · next a b c d =>
    have hdata : [a, b, c, d] = be16 (word16 a b) ++ be16 (word16 c d) := by
      rw [be16_word16, be16_word16]
      rfl
    rw [hdata]
    simp only
    split
    · next hpair =>
      rw [hpair]
      exact ensures_pure fun _ => .enclosingClass hname
    · next hpair =>
      refine (yields_read _).ensures fun owner howner => ?_
      refine (yields_read _).ensures fun ⟨s, d⟩ hold => ?_
      refine (yields_rename _).ensures fun s' hs' => (yields_rename _).ensures fun d' hd' => ?_
      refine (r.ensures_replacePair _ s' d').bind fun pair' => ensures_pure ?_
      intro new hnew
      exact .enclosingMethod hname hpair howner ⟨s, d, s', d', hold, hs', hd', hnew⟩
  · exact fun p q a _ hrun => absurd hrun (by simp [Renaming.read])

/-! ### Attributes inside payloads -/

theorem payload_lt_encodeList {attributes : List Attribute} {a : Attribute} (ha : a ∈ attributes) :
    a.payload.length < (Attribute.encodeList attributes).length := by
  have hpart := length_le_flatMap Attribute.encode ha
  simp only [Attribute.encode, List.length_append, be16, be32, List.length_cons,
    List.length_nil] at hpart
  simp only [Attribute.encodeList, encode16, List.length_append]
  omega

/-- Whether attributes with payloads shorter than the bound are renamed, and keep their shapes. -/
structure RenamesBelow (bound : Nat) (inside : List Attribute → Renaming (List Attribute)) :
    Prop where
  shapes : KeepsShapes inside
  images : ∀ attributes, (∀ a ∈ attributes, a.payload.length < bound) →
    r.Ensures (inside attributes) fun new => List.Forall₂ (r.Image new) attributes

variable {r} {bound : Nat} {inside : List Attribute → Renaming (List Attribute)} {data : Bytes}

theorem RenamesBelow.ensures (h : r.RenamesBelow bound inside) {attributes : List Attribute}
    (hlength : (Attribute.encodeList attributes).length ≤ bound) :
    r.Ensures (inside attributes) fun new as =>
      List.Forall₂ (r.Image new) attributes as ∧ List.Forall₂ SameShape attributes as :=
  (h.images attributes fun _ ha =>
    Nat.lt_of_lt_of_le (payload_lt_encodeList ha) hlength).and (h.shapes attributes)

theorem RenamesBelow.ensures_renameBody (h : r.RenamesBelow bound inside)
    (hdata : data.length ≤ bound) :
    r.Ensures (renameBody inside data) fun new data' => ∃ body attributes,
      Code.decode data = .ok body ∧ Code.decode data' = .ok { body with attributes } ∧
      List.Forall₂ (r.Image new) body.attributes attributes := by
  refine (yields_read _).ensures fun body hbody => ?_
  have hlength : (Attribute.encodeList body.attributes).length ≤ bound := by
    rw [(Code.decode_eq_ok.1 hbody).1, Code.encode, List.length_append] at hdata
    omega
  refine (h.ensures hlength).bind fun attributes => ensures_pure ?_
  rintro new ⟨himages, hshapes⟩
  exact ⟨body, attributes, hbody, (decode_of_sameShape hbody hshapes).2, himages⟩

theorem RenamesBelow.ensures_renameComponent (h : r.RenamesBelow bound inside)
    {c : RecordComponent} (hlength : (Attribute.encodeList c.attributes).length ≤ bound) :
    r.Ensures (r.renameComponent inside c) fun new c' =>
      RenamedComponent r.names r.className r.snapshot new (r.Image new) c c' ∧
      List.Forall₂ SameShape c.attributes c'.attributes := by
  refine (r.ensures_renameField c.name c.descriptor).bind fun pair => ?_
  refine (h.ensures hlength).bind fun attributes => ensures_pure ?_
  rintro new ⟨himages, hshapes⟩ hnames
  exact ⟨.intro hnames himages, hshapes⟩

theorem RenamesBelow.ensures_renameRecord (h : r.RenamesBelow bound inside)
    (hdata : data.length ≤ bound) :
    r.Ensures (r.renameRecord inside data) fun new data' => ∃ table table',
      RecordComponent.decodeTable data = .ok table ∧
      RecordComponent.decodeTable data' = .ok table' ∧
      List.Forall₂ (RenamedComponent r.names r.className r.snapshot new (r.Image new)) table
        table' := by
  refine (yields_read _).ensures fun table htable => ?_
  obtain ⟨hencode, hlength, hfit⟩ := (RecordComponent.codes.list16.payload_eq_ok _).1 htable
  have hinside : ∀ c ∈ table, (Attribute.encodeList c.attributes).length ≤ bound := by
    intro c hc
    have hpart := length_le_flatMap RecordComponent.encode hc
    rw [RecordComponent.encode, List.length_append] at hpart
    rw [hencode, encode16, List.length_append] at hdata
    omega
  refine (ensures_mapM table fun c hc => h.ensures_renameComponent (hinside c hc)).bind
    fun table' => ensures_pure fun new hall => ⟨table, table', htable, ?_, ?_⟩
  · -- the new table is read back, as its attributes have the lengths that the old ones had
    exact (RecordComponent.codes.list16.payload_eq_ok _).2 ⟨rfl, hall.length_eq ▸ hlength,
      forall_mem_of_forall₂ hall (fun _ _ hc => fit_of_sameShape hc.2) hfit⟩
  · exact hall.imp fun _ _ hc => hc.1

variable (r)

/-- An attribute inside a payload is shorter, so the depth that the length gives is enough. -/
theorem ensures_renamePayload {depth : Nat} {index : UInt16} {name : String} {data : Bytes}
    (hname : r.snapshot.text index = .ok name) (hdepth : data.length < depth) :
    r.Ensures (r.renamePayload depth name data) fun new data' =>
      r.Image new ⟨index, data⟩ ⟨index, data'⟩ := by
  induction depth generalizing index name data with
  | zero => exact absurd hdepth (Nat.not_lt_zero _)
  | succ depth ih =>
    -- what stands inside the payload is shorter than it, so the depth left is enough for that
    have hinside : r.RenamesBelow depth (r.renameInside (r.renamePayload depth)) := by
      refine ⟨r.keepsShapes_renameInside (r.yields_renamePayload depth), fun attributes hlt => ?_⟩
      refine ensures_mapM attributes fun a ha => ?_
      refine (yields_read _).ensures fun name hname => ?_
      exact (ih hname (hlt a ha)).bind fun data' => ensures_pure fun _ himage => himage
    have hdata : data.length ≤ depth := Nat.le_of_lt_succ hdepth
    rw [renamePayload]
    cases hkind : PayloadKind.ofName name with
    | signature =>
      obtain rfl : name = signatureAttribute := PayloadKind.names_of_ofName hkind (by decide)
      refine (r.ensures_renameSignature _ data).mono ?_
      rintro new data' ⟨i, j, rfl, rfl, htext⟩
      exact .signature hname htext
    | code =>
      obtain rfl : name = Code.attributeName := PayloadKind.names_of_ofName hkind (by decide)
      refine (hinside.ensures_renameBody hdata).mono ?_
      rintro new data' ⟨body, attributes, hbody, hbody', hall⟩
      exact .code hname hbody hbody' hall
    | locals =>
      obtain rfl : name = LocalVariable.tableName := PayloadKind.names_of_ofName hkind (by decide)
      refine (r.ensures_renameLocals _ _ data).mono ?_
      rintro new data' ⟨table, table', htable, htable', hall⟩
      exact .locals hname htable htable' hall
    | localTypes =>
      obtain rfl : name = LocalVariable.typeTableName :=
        PayloadKind.names_of_ofName hkind (by decide)
      refine (r.ensures_renameLocals _ _ data).mono ?_
      rintro new data' ⟨table, table', htable, htable', hall⟩
      exact .localTypes hname htable htable' hall
    | annotations =>
      refine (r.ensures_renameAnnotationTable name data).mono ?_
      rintro new data' ⟨table, table', htable, htable', hall⟩
      exact .annotations hname (PayloadKind.names_of_ofName hkind (by decide)) htable htable' hall
    | parameterAnnotations =>
      refine (r.ensures_renameParameterAnnotations name data).mono ?_
      rintro new data' ⟨tables, tables', htables, htables', hall⟩
      exact .parameterAnnotations hname (PayloadKind.names_of_ofName hkind (by decide)) htables
        htables' hall
    | elementDefault =>
      obtain rfl : name = ElementValue.defaultName := PayloadKind.names_of_ofName hkind (by decide)
      refine (r.ensures_renameDefault data).mono ?_
      rintro new data' ⟨value, value', hvalue, hvalue', hrenamed⟩
      exact .elementDefault hname hvalue hvalue' hrenamed
    | innerClasses =>
      obtain rfl : name = InnerClass.tableName := PayloadKind.names_of_ofName hkind (by decide)
      refine (r.ensures_renameInnerClasses data).mono ?_
      rintro new data' ⟨table, table', htable, htable', hall⟩
      exact .innerClasses hname htable htable' hall
    | enclosingMethod =>
      obtain rfl : name = enclosingMethodAttribute := PayloadKind.names_of_ofName hkind (by decide)
      exact r.ensures_renameEnclosing hname data
    | record =>
      obtain rfl : name = RecordComponent.tableName := PayloadKind.names_of_ofName hkind (by decide)
      refine (hinside.ensures_renameRecord hdata).mono ?_
      rintro new data' ⟨table, table', htable, htable', hall⟩
      exact .record hname htable htable' hall
    | other => exact ensures_pure fun _ => .other hname (PayloadKind.not_names_of_other hkind)

theorem ensures_renameAttribute (a : Attribute) :
    r.Ensures (r.renameAttribute a) fun new => r.Image new a := by
  refine (yields_read _).ensures fun name hname => ?_
  refine (r.ensures_renamePayload hname (Nat.lt_succ_self _)).bind fun data' => ?_
  exact ensures_pure fun _ himage => himage

end ClassRenamer

end ClassArchive
