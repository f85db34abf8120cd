import ClassArchive.Proofs.AttributePayloads
import ClassArchive.Proofs.InheritedMembers
import ClassArchive.Proofs.MappingNames
import ClassArchive.Proofs.RenamedPool
import ClassArchive.Proofs.ScannedText

/-!
A renaming that changes no name changes nothing. What it looks up in the mapping is listed along the
class: the names in the pool, in the members and in the payloads of attributes at every level. If
each of these stays, no text is replaced, so nothing is appended to the pool, and every payload is
written as it was read.
-/
set_option autoImplicit false

namespace ClassArchive

inductive Lookup where
  | className (name : String)
  | method (owner : String) (id : MethodId)
  | field (owner name : String)
  deriving DecidableEq, Repr

namespace Lookup

def after {α : Type} (value : Except FormatError α) (next : α → List Lookup) : List Lookup :=
  match value with
  | .ok a => next a
  | .error _ => []

theorem after_of_ok {α : Type} {value : Except FormatError α} {next : α → List Lookup} {a : α}
    (h : value = .ok a) : after value next = next a := by
  rw [h, after]

def inPieces (pieces : List Piece) : List Lookup :=
  (pieces.flatMap Piece.classNames).map .className

def inDescriptor (descriptor : String) : List Lookup := inPieces (Descriptor.scan descriptor).pieces

def inSignature (signature : String) : List Lookup := inPieces (Signature.scan signature).pieces

def inTypeName (name : String) : List Lookup :=
  if name.toList.head? = some '[' then inDescriptor name else [.className name]

def ofMethod (owner name descriptor : String) : List Lookup :=
  if Renamer.KeepsName owner name then []
  else after (MethodId.ofDescriptor name descriptor) fun id => [.method owner id]

end Lookup

namespace Renamer

/-- Whether a name stays as it is, unless it cannot be renamed. -/
def Fixes (r : Renamer) : Lookup → Prop
  | .className name => ∀ mapped, r.className name = .ok mapped → mapped = name
  | .method owner id => ∀ mapped, r.methodById owner id = .ok mapped → mapped = id.name
  | .field owner name => ∀ mapped, r.fieldName owner name = .ok mapped → mapped = name

instance decidableAnswers {ε : Type} (answer : Except ε String) (name : String) :
    Decidable (∀ mapped, answer = .ok mapped → mapped = name) :=
  match answer with
  | .ok mapped => decidable_of_iff (mapped = name) (by simp)
  | .error _ => isTrue (by simp)

instance (r : Renamer) : DecidablePred r.Fixes
  | .className name => decidableAnswers (r.className name) name
  | .method owner id => decidableAnswers (r.methodById owner id) id.name
  | .field owner name => decidableAnswers (r.fieldName owner name) name

def FixesAll (r : Renamer) (lookups : List Lookup) : Prop := ∀ lookup ∈ lookups, r.Fixes lookup

instance (r : Renamer) : DecidablePred r.FixesAll := fun lookups =>
  inferInstanceAs (Decidable (∀ lookup ∈ lookups, r.Fixes lookup))

/-! ### Texts -/

section Texts

variable {r : Renamer}

@[simp] theorem fixesAll_append {first second : List Lookup} :
    r.FixesAll (first ++ second) ↔ r.FixesAll first ∧ r.FixesAll second :=
  List.forall_mem_append

@[simp] theorem fixesAll_cons {first : Lookup} {rest : List Lookup} :
    r.FixesAll (first :: rest) ↔ r.Fixes first ∧ r.FixesAll rest :=
  List.forall_mem_cons

theorem FixesAll.of_flatMap {α : Type} {xs : List α} {f : α → List Lookup}
    (h : r.FixesAll (xs.flatMap f)) {x : α} (hx : x ∈ xs) : r.FixesAll (f x) :=
  fun lookup hlookup => h lookup (List.mem_flatMap.2 ⟨x, hx, hlookup⟩)

/-- Whether a renaming of texts keeps a text if it fixes what the text makes it look up. -/
def Respects (r : Renamer) (f : String → Except ArchiveError String)
    (lookups : String → List Lookup) : Prop :=
  ∀ text renamed, r.FixesAll (lookups text) → f text = .ok renamed → renamed = text

theorem fixes_of_inPieces {pieces : List Piece} (h : r.FixesAll (Lookup.inPieces pieces)) :
    ∀ piece ∈ pieces, ∀ name ∈ piece.classNames, ∀ mapped, r.className name = .ok mapped →
      mapped = name :=
  fun piece hpiece name hname =>
    h (.className name) (List.mem_map_of_mem (List.mem_flatMap.2 ⟨piece, hpiece, hname⟩))

theorem respects_descriptor (r : Renamer) : r.Respects r.descriptor Lookup.inDescriptor := by
  intro text renamed hfixes h
  have hcovers : (Descriptor.scan text).Covers text.toList :=
    Descriptor.covers_scanFrom none text.toList
  exact hcovers.eq_of_rename (fun _ => Descriptor.rest_scanFrom) (fixes_of_inPieces hfixes) h

theorem respects_signature (r : Renamer) : r.Respects r.signature Lookup.inSignature := by
  intro text renamed hfixes h
  exact (Signature.covers_scan text).eq_of_rename (fun _ => Signature.rest_scan)
    (fixes_of_inPieces hfixes) h

theorem respects_methodDescriptor (r : Renamer) :
    r.Respects r.methodDescriptor Lookup.inDescriptor := by
  intro text renamed hfixes h
  obtain ⟨_, _, h⟩ := bind_eq_ok.1 h
  exact r.respects_descriptor text renamed hfixes h

theorem respects_typeName (r : Renamer) : r.Respects r.typeName Lookup.inTypeName := by
  intro text renamed hfixes h
  unfold typeName at h
  unfold Lookup.inTypeName at hfixes
  split at h
  · next hhead =>
    rw [if_pos hhead] at hfixes
    exact r.respects_descriptor text renamed hfixes h
  · next hhead =>
    rw [if_neg hhead] at hfixes
    exact (fixesAll_cons.1 hfixes).1 renamed h

theorem respects_innerClassName (r : Renamer) (name : String) :
    r.Respects (r.innerClassName name) fun _ => [.className name] := by
  intro text renamed hfixes h
  obtain ⟨mapped, hmapped, h⟩ := bind_eq_ok.1 h
  rw [if_pos ((fixesAll_cons.1 hfixes).1 mapped hmapped)] at h
  cases h
  rfl

theorem respects_fieldName (r : Renamer) (owner : String) :
    r.Respects (r.fieldName owner) fun name => [.field owner name] :=
  fun _ renamed hfixes h => (fixesAll_cons.1 hfixes).1 renamed h

theorem respects_annotationElement (r : Renamer) (owner : String) :
    r.Respects (r.annotationElement owner) fun name => [.method owner { name, parameters := [] }] :=
  fun _ renamed hfixes h => (fixesAll_cons.1 hfixes).1 renamed h

theorem methodName_eq_self {owner name descriptor renamed : String}
    (hfixes : r.FixesAll (Lookup.ofMethod owner name descriptor))
    (h : r.methodName owner name descriptor = .ok renamed) : renamed = name := by
  unfold Lookup.ofMethod at hfixes
  by_cases hkept : KeepsName owner name
  · rw [r.methodName_of_kept hkept] at h
    cases h
    rfl
  · rw [if_neg hkept] at hfixes
    unfold KeepsName at hkept
    rw [methodName, if_neg hkept] at h
    obtain ⟨id, hid, h⟩ := bind_eq_ok.1 h
    have hid := lift_eq_ok.1 hid
    rw [Lookup.after_of_ok hid] at hfixes
    obtain ⟨d, _, hname⟩ := bind_eq_ok.1 hid
    cases hname
    exact (fixesAll_cons.1 hfixes).1 renamed h

end Texts

end Renamer

/-! ### Renamings that leave the pool -/

namespace Renaming

/-- Whether every run that succeeds leaves the pool as it is and gives an answer with the
property. -/
def Idles {α : Type} (x : Renaming α) (post : α → Prop) : Prop :=
  ∀ p a q, x p = .ok (a, q) → q = p ∧ post a

theorem idles_pure {α : Type} {post : α → Prop} {a : α} (h : post a) :
    (pure a : Renaming α).Idles post := by
  intro p b q hb
  cases hb
  exact ⟨rfl, h⟩

theorem Idles.bind {α β : Type} {x : Renaming α} {f : α → Renaming β} {P : α → Prop}
    {Q : β → Prop} (hx : x.Idles P) (hf : ∀ a, P a → (f a).Idles Q) : (x >>= f).Idles Q := by
  intro p b r h
  obtain ⟨a, q, ha, hb⟩ := state_bind_eq_ok.1 h
  obtain ⟨rfl, hpost⟩ := hx p a q ha
  exact hf a hpost q b r hb

theorem Idles.map {α β : Type} {x : Renaming α} {f : α → β} {P : α → Prop} {Q : β → Prop}
    (hx : x.Idles P) (hf : ∀ a, P a → Q (f a)) : (f <$> x).Idles Q := by
  intro p b r h
  obtain ⟨a, q, ha, hb⟩ := state_map_eq_ok.1 h
  cases hb
  obtain ⟨hsame, hpost⟩ := hx p a r ha
  exact ⟨hsame, hf a hpost⟩

theorem idles_read {α : Type} (e : Except FormatError α) : (read e).Idles fun a => e = .ok a := by
  intro p a q h
  cases e with
  | error e => simp [read] at h
  | ok b =>
    cases h
    exact ⟨rfl, rfl⟩

theorem idles_rename (e : Except ArchiveError String) :
    (ClassRenamer.rename e).Idles fun s => e = .ok s := by
  intro p a q h
  cases e with
  | error e => cases h
  | ok b =>
    cases h
    exact ⟨rfl, rfl⟩

theorem idles_mapM {α : Type} {f : α → Renaming α} (xs : List α)
    (h : ∀ x ∈ xs, (f x).Idles (· = x)) : (xs.mapM f).Idles (· = xs) := by
  induction xs with
  | nil => exact idles_pure rfl
  | cons x xs ih =>
    rw [List.mapM_cons]
    refine (h x (by simp)).bind ?_
    rintro _ rfl
    refine (ih fun z hz => h z (by simp [hz])).bind ?_
    rintro _ rfl
    exact idles_pure rfl

theorem idles_forM {α : Type} {f : α → Renaming Unit} (xs : List α)
    (h : ∀ x ∈ xs, (f x).Idles fun _ => True) : (xs.forM f).Idles fun _ => True := by
  induction xs with
  | nil => exact idles_pure trivial
  | cons x xs ih =>
    change (f x >>= fun _ => xs.forM f).Idles _
    exact (h x (by simp)).bind fun _ _ => ih fun z hz => h z (by simp [hz])

end Renaming

namespace ClassRenamer

open Renaming
open Lookup (after after_of_ok inDescriptor inSignature inTypeName ofMethod)

/-! ### What is looked up -/

section Lookups

variable (r : ClassRenamer)

def textLookups (lookups : String → List Lookup) (index : UInt16) : List Lookup :=
  after (r.snapshot.text index) lookups

def lambdaLookups (name : String) : Option LambdaMethod → List Lookup
  | some method => ofMethod method.interface name method.descriptor
  | none => []

def constantLookups (index : UInt16) : Constant → List Lookup
  | .classInfo name => r.textLookups inTypeName name
  | .fieldRef _ _ =>
      after (r.snapshot.member index) fun m => .field m.owner m.name :: inDescriptor m.descriptor
  | .methodRef _ _ | .interfaceMethodRef _ _ =>
      after (r.snapshot.member index) fun m =>
        ofMethod m.owner m.name m.descriptor ++ inDescriptor m.descriptor
  | .methodType descriptor => r.textLookups inDescriptor descriptor
  | .invokeDynamic bootstrap pair =>
      after (r.snapshot.nameAndType pair) fun (name, descriptor) =>
        after (r.lambdaAt? bootstrap descriptor) (lambdaLookups name) ++ inDescriptor descriptor
  | .dynamic _ pair =>
      after (r.snapshot.nameAndType pair) fun (_, descriptor) => inDescriptor descriptor
  | _ => []

def withinLookups (lookups : String → String → Lookup) (owner : Option String) (index : UInt16) :
    List Lookup :=
  match owner with
  | some owner => r.textLookups (fun name => [lookups owner name]) index
  | none => []

/-- What an element is looked up as: a method without parameters. -/
def elementLookup (owner name : String) : Lookup := .method owner { name, parameters := [] }

mutual

def valueLookups : ElementValue → List Lookup
  | .const _ _ => []
  | .enum type name =>
      after (r.snapshot.text type) fun descriptor =>
        r.withinLookups .field (Descriptor.className? descriptor) name ++ inDescriptor descriptor
  | .classLiteral descriptor => r.textLookups inDescriptor descriptor
  | .nested type elements =>
      after (r.snapshot.text type) fun descriptor =>
        elementsLookups (Descriptor.className? descriptor) elements ++ inDescriptor descriptor
  | .array values => valuesLookups values

def elementsLookups (owner : Option String) : List (UInt16 × ElementValue) → List Lookup
  | [] => []
  | (name, value) :: rest =>
      r.withinLookups elementLookup owner name ++ valueLookups value ++ elementsLookups owner rest

def valuesLookups : List ElementValue → List Lookup
  | [] => []
  | value :: rest => valueLookups value ++ valuesLookups rest

end

def annotationLookups (a : AnnotationInfo) : List Lookup :=
  after (r.snapshot.text a.type) fun descriptor =>
    r.elementsLookups (Descriptor.className? descriptor) a.elements ++ inDescriptor descriptor

def innerClassLookups (c : InnerClass) : List Lookup :=
  if c.name = 0 then []
  else after (r.snapshot.className c.inner) fun inner => [.className inner]

def enclosingLookups : Bytes → List Lookup
  | [a, b, c, d] =>
      if word16 c d = 0 then []
      else
        after (r.snapshot.className (word16 a b)) fun owner =>
          after (r.snapshot.nameAndType (word16 c d)) fun (name, descriptor) =>
            ofMethod owner name descriptor ++ inDescriptor descriptor
  | _ => []

def fieldLookups (name descriptor : UInt16) : List Lookup :=
  r.textLookups (fun field => [.field r.className field]) name ++
    r.textLookups inDescriptor descriptor

def insideLookups (payload : String → Bytes → List Lookup) (attributes : List Attribute) :
    List Lookup :=
  attributes.flatMap fun a => after (r.snapshot.text a.name) fun name => payload name a.payload

/-- What the payload of the named attribute makes a renaming look up, down to the given depth. -/
def payloadLookups : Nat → String → Bytes → List Lookup
  | 0, _, _ => []
  | depth + 1, name, data =>
      let inside := r.insideLookups (payloadLookups depth)
      match PayloadKind.ofName name with
      | .signature => after (singleIndex name data) (r.textLookups inSignature)
      | .code => after (Code.decode data) fun body => inside body.attributes
      | .locals =>
          after (LocalVariable.decodeTable name data) fun table =>
            table.flatMap fun v => r.textLookups inDescriptor v.descriptor
      | .localTypes =>
          after (LocalVariable.decodeTable name data) fun table =>
            table.flatMap fun v => r.textLookups inSignature v.descriptor
      | .annotations =>
          after (AnnotationInfo.decodeTable name data) fun table =>
            table.flatMap r.annotationLookups
      | .parameterAnnotations =>
          after (AnnotationInfo.decodeParameters name data) fun tables =>
            tables.flatMap fun table => table.flatMap r.annotationLookups
      | .elementDefault => after (ElementValue.decode data) r.valueLookups
      | .innerClasses =>
          after (InnerClass.decodeTable data) fun table => table.flatMap r.innerClassLookups
      | .enclosingMethod => r.enclosingLookups data
      | .record =>
          after (RecordComponent.decodeTable data) fun table =>
            table.flatMap fun c => r.fieldLookups c.name c.descriptor ++ inside c.attributes
      | .other => []

def attributeLookups (a : Attribute) : List Lookup :=
  after (r.snapshot.text a.name) fun name =>
    r.payloadLookups (a.payload.length + 1) name a.payload

def fieldMemberLookups (m : Member) : List Lookup :=
  r.fieldLookups m.name m.descriptor ++ m.attributes.flatMap r.attributeLookups

def methodMemberLookups (m : Member) : List Lookup :=
  (after (r.snapshot.text m.name) fun name =>
    after (r.snapshot.text m.descriptor) fun descriptor =>
      ofMethod r.className name descriptor ++ inDescriptor descriptor) ++
    m.attributes.flatMap r.attributeLookups

def classLookups (c : ClassFile) : List Lookup :=
  r.snapshot.entries.flatMap (fun (index, c) => r.constantLookups index c) ++
    c.fields.flatMap r.fieldMemberLookups ++ c.methods.flatMap r.methodMemberLookups ++
    c.attributes.flatMap r.attributeLookups

end Lookups

section Idle

variable {r : ClassRenamer}

/-! ### Constants -/

theorem idles_replaceText {i : UInt16} {s : String} (h : r.snapshot.text i = .ok s) :
    (r.replaceText i s).Idles (· = i) := by
  refine (idles_read _).bind fun t ht => ?_
  rw [h] at ht
  cases ht
  rw [if_pos rfl]
  exact idles_pure rfl

theorem idles_replacePair {i : UInt16} {s t : String} (h : r.snapshot.nameAndType i = .ok (s, t)) :
    (r.replacePair i s t).Idles (· = i) := by
  refine (idles_read _).bind fun pair hpair => ?_
  rw [h] at hpair
  cases hpair
  rw [if_pos rfl]
  exact idles_pure rfl

theorem idles_renameText {f : String → Except ArchiveError String}
    {lookups : String → List Lookup} (hf : r.names.Respects f lookups) {i : UInt16}
    (h : r.names.FixesAll (r.textLookups lookups i)) : (r.renameText f i).Idles (· = i) := by
  refine (idles_read _).bind fun s hs => ?_
  rw [textLookups, after_of_ok hs] at h
  refine (idles_rename _).bind fun t ht => ?_
  obtain rfl := hf s t h ht
  exact idles_replaceText hs

theorem textLookups_of_ok {lookups : String → List Lookup} {i : UInt16} {s : String}
    (hs : r.snapshot.text i = .ok s) (h : r.names.FixesAll (lookups s)) :
    r.names.FixesAll (r.textLookups lookups i) := by
  rwa [textLookups, after_of_ok hs]

theorem idles_renameFieldPair {i owner pair : UInt16}
    (hslot : r.snapshot.slot? i = some (.fieldRef owner pair))
    (h : r.names.FixesAll (r.constantLookups i (.fieldRef owner pair))) :
    (r.renameFieldPair i pair).Idles (· = pair) := by
  refine (idles_read _).bind fun m hm => ?_
  rw [constantLookups, after_of_ok hm, Renamer.fixesAll_cons] at h
  refine (idles_rename _).bind fun name hname => ?_
  obtain rfl := h.1 _ hname
  refine (idles_rename _).bind fun descriptor hdescriptor => ?_
  obtain rfl := r.names.respects_descriptor _ _ h.2 hdescriptor
  obtain ⟨c, _, _, hc, href, -, hpair⟩ := Pool.member_eq_ok.1 hm
  rw [hslot] at hc
  cases hc
  cases href
  exact idles_replacePair hpair

theorem idles_renameMethodPair {i owner pair : UInt16} {c : Constant}
    (hslot : r.snapshot.slot? i = some c) (hreference : Pool.reference? c = some (owner, pair))
    (h : r.names.FixesAll (after (r.snapshot.member i) fun m =>
      ofMethod m.owner m.name m.descriptor ++ inDescriptor m.descriptor)) :
    (r.renameMethodPair i pair).Idles (· = pair) := by
  refine (idles_read _).bind fun m hm => ?_
  rw [after_of_ok hm, Renamer.fixesAll_append] at h
  refine (idles_rename _).bind fun name hname => ?_
  obtain rfl := Renamer.methodName_eq_self h.1 hname
  refine (idles_rename _).bind fun descriptor hdescriptor => ?_
  obtain rfl := r.names.respects_methodDescriptor _ _ h.2 hdescriptor
  obtain ⟨c, _, _, hc, href, -, hpair⟩ := Pool.member_eq_ok.1 hm
  rw [hslot] at hc
  cases hc
  rw [hreference] at href
  cases href
  exact idles_replacePair hpair

theorem idles_renameCallSitePair {bootstrap pair : UInt16}
    (h : r.names.FixesAll (after (r.snapshot.nameAndType pair) fun (name, descriptor) =>
      after (r.lambdaAt? bootstrap descriptor) (lambdaLookups name) ++ inDescriptor descriptor)) :
    (r.renameCallSitePair bootstrap pair).Idles (· = pair) := by
  refine (idles_read _).bind ?_
  rintro ⟨name, descriptor⟩ hpair
  rw [after_of_ok hpair] at h
  dsimp only at h
  refine (idles_read _).bind fun lambda hlambda => ?_
  rw [after_of_ok hlambda, Renamer.fixesAll_append] at h
  refine (idles_rename _).bind fun name' hname => ?_
  have hsame : name' = name := by
    cases lambda with
    | none =>
      cases hname
      rfl
    | some method => exact Renamer.methodName_eq_self h.1 hname
  subst hsame
  refine (idles_rename _).bind fun descriptor' hdescriptor => ?_
  obtain rfl := r.names.respects_methodDescriptor _ _ h.2 hdescriptor
  exact idles_replacePair hpair

theorem idles_renameDynamicPair {pair : UInt16}
    (h : r.names.FixesAll (after (r.snapshot.nameAndType pair) fun (_, descriptor) =>
      inDescriptor descriptor)) :
    (r.renameDynamicPair pair).Idles (· = pair) := by
  refine (idles_read _).bind ?_
  rintro ⟨name, descriptor⟩ hpair
  rw [after_of_ok hpair] at h
  refine (idles_rename _).bind fun descriptor' hdescriptor => ?_
  obtain rfl := r.names.respects_descriptor _ _ h hdescriptor
  exact idles_replacePair hpair

theorem idles_renameConstant {i : UInt16} {c : Constant} (hslot : r.snapshot.slot? i = some c)
    (h : r.names.FixesAll (r.constantLookups i c)) : (r.renameConstant i c).Idles (· = c) := by
  cases c with
  | classInfo name =>
    exact (idles_renameText r.names.respects_typeName h).map fun _ => congrArg _
  | fieldRef owner pair =>
    exact (idles_renameFieldPair hslot h).map fun _ => congrArg _
  | methodRef owner pair =>
    exact (idles_renameMethodPair hslot rfl h).map fun _ => congrArg _
  | interfaceMethodRef owner pair =>
    exact (idles_renameMethodPair hslot rfl h).map fun _ => congrArg _
  | methodType descriptor =>
    exact (idles_renameText r.names.respects_methodDescriptor h).map fun _ => congrArg _
  | invokeDynamic bootstrap pair =>
    exact (idles_renameCallSitePair h).map fun _ => congrArg _
  | dynamic bootstrap pair =>
    exact (idles_renameDynamicPair h).map fun _ => congrArg _
  | _ => exact idles_pure rfl

theorem idles_renameConstants (hsmall : r.snapshot.slots.size ≤ 65535)
    (h : r.names.FixesAll
      (r.snapshot.entries.flatMap fun (index, c) => r.constantLookups index c)) :
    r.renameConstants.Idles fun _ => True := by
  refine idles_forM _ ?_
  rintro ⟨i, c⟩ hmem
  have hslot := ((Pool.mem_entries hsmall).1 hmem).1
  refine (idles_renameConstant hslot (h.of_flatMap hmem)).bind ?_
  rintro _ rfl
  rw [if_pos rfl]
  exact idles_pure trivial

/-! ### Annotations -/

theorem idles_renameWithin {f : String → String → Except ArchiveError String}
    {lookups : String → String → Lookup}
    (hf : ∀ owner, r.names.Respects (f owner) fun name => [lookups owner name])
    {owner : Option String} {i : UInt16} (h : r.names.FixesAll (r.withinLookups lookups owner i)) :
    (r.renameWithin f owner i).Idles (· = i) := by
  cases owner with
  | none => exact idles_pure rfl
  | some owner => exact idles_renameText (hf owner) h

mutual

theorem idles_renameValue : ∀ v : ElementValue, r.names.FixesAll (r.valueLookups v) →
    (r.renameValue v).Idles (· = v)
  | .const tag index, _ => by
    rw [renameValue]
    exact idles_pure rfl
  | .enum type name, h => by
    rw [renameValue]
    refine (idles_read _).bind fun d hd => ?_
    rw [valueLookups, after_of_ok hd, Renamer.fixesAll_append] at h
    refine (idles_renameWithin r.names.respects_fieldName h.1).bind ?_
    rintro _ rfl
    refine (idles_renameText r.names.respects_descriptor (textLookups_of_ok hd h.2)).bind ?_
    rintro _ rfl
    exact idles_pure rfl
  | .classLiteral descriptor, h => by
    rw [renameValue]
    rw [valueLookups] at h
    exact (idles_renameText r.names.respects_descriptor h).map fun _ => congrArg _
  | .nested type elements, h => by
    rw [renameValue]
    refine (idles_read _).bind fun d hd => ?_
    rw [valueLookups, after_of_ok hd, Renamer.fixesAll_append] at h
    refine (idles_renameElements _ elements h.1).bind ?_
    rintro _ rfl
    refine (idles_renameText r.names.respects_descriptor (textLookups_of_ok hd h.2)).bind ?_
    rintro _ rfl
    exact idles_pure rfl
  | .array values, h => by
    rw [renameValue]
    rw [valueLookups] at h
    exact (idles_renameValues values h).map fun _ => congrArg _

theorem idles_renameElements (owner : Option String) : ∀ es : List (UInt16 × ElementValue),
    r.names.FixesAll (r.elementsLookups owner es) → (r.renameElements owner es).Idles (· = es)
  | [], _ => by
    rw [renameElements]
    exact idles_pure rfl
  | (name, value) :: rest, h => by
    rw [renameElements]
    rw [elementsLookups, Renamer.fixesAll_append, Renamer.fixesAll_append] at h
    refine (idles_renameWithin r.names.respects_annotationElement h.1.1).bind ?_
    rintro _ rfl
    refine (idles_renameValue value h.1.2).bind ?_
    rintro _ rfl
    refine (idles_renameElements owner rest h.2).bind ?_
    rintro _ rfl
    exact idles_pure rfl

theorem idles_renameValues : ∀ vs : List ElementValue, r.names.FixesAll (r.valuesLookups vs) →
    (r.renameValues vs).Idles (· = vs)
  | [], _ => by
    rw [renameValues]
    exact idles_pure rfl
  | value :: rest, h => by
    rw [renameValues]
    rw [valuesLookups, Renamer.fixesAll_append] at h
    refine (idles_renameValue value h.1).bind ?_
    rintro _ rfl
    refine (idles_renameValues rest h.2).bind ?_
    rintro _ rfl
    exact idles_pure rfl

end

theorem idles_renameAnnotations {a : AnnotationInfo}
    (h : r.names.FixesAll (r.annotationLookups a)) : (r.renameAnnotations a).Idles (· = a) := by
  refine (idles_read _).bind fun d hd => ?_
  rw [annotationLookups, after_of_ok hd, Renamer.fixesAll_append] at h
  refine (idles_renameElements _ a.elements h.1).bind ?_
  rintro _ rfl
  refine (idles_renameText r.names.respects_descriptor (textLookups_of_ok hd h.2)).bind ?_
  rintro _ rfl
  exact idles_pure rfl

/-! ### Tables -/

theorem idles_renameLocal {f : String → Except ArchiveError String}
    {lookups : String → List Lookup} (hf : r.names.Respects f lookups) {v : LocalVariable}
    (h : r.names.FixesAll (r.textLookups lookups v.descriptor)) :
    (r.renameLocal f v).Idles (· = v) := by
  refine (idles_renameText hf h).bind ?_
  rintro _ rfl
  exact idles_pure rfl

theorem idles_renameInnerClass {c : InnerClass} (h : r.names.FixesAll (r.innerClassLookups c)) :
    (r.renameInnerClass c).Idles (· = c) := by
  unfold renameInnerClass
  unfold innerClassLookups at h
  split
  · exact idles_pure rfl
  · next hname =>
    rw [if_neg hname] at h
    refine (idles_read _).bind fun inner hinner => ?_
    rw [after_of_ok hinner] at h
    refine (idles_renameText (r.names.respects_innerClassName inner) ?_).bind ?_
    · unfold textLookups after
      split
      · exact h
      · simp [Renamer.FixesAll]
    · rintro _ rfl
      exact idles_pure rfl

theorem idles_renameEnclosing {data : Bytes} (h : r.names.FixesAll (r.enclosingLookups data)) :
    (r.renameEnclosing data).Idles (· = data) := by
  unfold renameEnclosing
  split
  · next a b c d =>
    have hbytes : be16 (word16 a b) ++ be16 (word16 c d) = [a, b, c, d] := by
      rw [be16_word16, be16_word16]
      rfl
    rw [enclosingLookups] at h
    dsimp only
    split
    · exact idles_pure hbytes
    · next hpair =>
      rw [if_neg hpair] at h
      refine (idles_read _).bind fun owner howner => ?_
      rw [after_of_ok howner] at h
      refine (idles_read _).bind ?_
      rintro ⟨name, descriptor⟩ hboth
      rw [after_of_ok hboth, Renamer.fixesAll_append] at h
      refine (idles_rename _).bind fun name' hname => ?_
      obtain rfl := Renamer.methodName_eq_self h.1 hname
      refine (idles_rename _).bind fun descriptor' hdescriptor => ?_
      obtain rfl := r.names.respects_methodDescriptor _ _ h.2 hdescriptor
      refine (idles_replacePair hboth).bind ?_
      rintro _ rfl
      exact idles_pure hbytes
  · intro p a q hread
    cases hread

theorem idles_renameField {name descriptor : UInt16}
    (h : r.names.FixesAll (r.fieldLookups name descriptor)) :
    (r.renameField name descriptor).Idles (· = (name, descriptor)) := by
  rw [fieldLookups, Renamer.fixesAll_append] at h
  refine (idles_read _).bind fun field hfield => ?_
  have hname := h.1
  rw [textLookups, after_of_ok hfield] at hname
  refine (idles_read _).bind fun _ _ => ?_
  refine (idles_rename _).bind fun renamed hrenamed => ?_
  obtain rfl := r.names.respects_fieldName _ _ _ hname hrenamed
  refine (idles_replaceText hfield).bind ?_
  rintro _ rfl
  refine (idles_renameText r.names.respects_descriptor h.2).bind ?_
  rintro _ rfl
  exact idles_pure rfl

/-! ### Payloads -/

theorem idles_renameSignature {name : String} {data : Bytes}
    (h : r.names.FixesAll (after (singleIndex name data) (r.textLookups inSignature))) :
    (r.renameSignature name data).Idles (· = data) := by
  refine (idles_read _).bind fun index hindex => ?_
  rw [after_of_ok hindex] at h
  refine (idles_renameText r.names.respects_signature h).bind ?_
  rintro _ rfl
  refine idles_pure ?_
  unfold singleIndex at hindex
  split at hindex
  · cases hindex
    exact be16_word16 _ _
  · cases hindex

theorem idles_renameLocals {f : String → Except ArchiveError String}
    {lookups : String → List Lookup} (hf : r.names.Respects f lookups) {name : String}
    {data : Bytes}
    (h : r.names.FixesAll (after (LocalVariable.decodeTable name data) fun table =>
      table.flatMap fun v => r.textLookups lookups v.descriptor)) :
    (r.renameLocals f name data).Idles (· = data) := by
  refine (idles_read _).bind fun table htable => ?_
  rw [after_of_ok htable] at h
  refine (idles_mapM table fun v hv => idles_renameLocal hf (h.of_flatMap hv)).bind ?_
  rintro _ rfl
  exact idles_pure (LocalVariable.decodeTable_eq_ok.1 htable).1.symm

theorem idles_renameAnnotationTable {name : String} {data : Bytes}
    (h : r.names.FixesAll (after (AnnotationInfo.decodeTable name data) fun table =>
      table.flatMap r.annotationLookups)) :
    (r.renameAnnotationTable name data).Idles (· = data) := by
  refine (idles_read _).bind fun table htable => ?_
  rw [after_of_ok htable] at h
  refine (idles_mapM table fun a ha => idles_renameAnnotations (h.of_flatMap ha)).bind ?_
  rintro _ rfl
  exact idles_pure (AnnotationInfo.decodeTable_eq_ok.1 htable).1.symm

theorem idles_renameParameterAnnotations {name : String} {data : Bytes}
    (h : r.names.FixesAll (after (AnnotationInfo.decodeParameters name data) fun tables =>
      tables.flatMap fun table => table.flatMap r.annotationLookups)) :
    (r.renameParameterAnnotations name data).Idles (· = data) := by
  refine (idles_read _).bind fun tables htables => ?_
  rw [after_of_ok htables] at h
  refine (idles_mapM tables fun table htable => idles_mapM table fun a ha =>
    idles_renameAnnotations ((h.of_flatMap htable).of_flatMap ha)).bind ?_
  rintro _ rfl
  exact idles_pure (AnnotationInfo.decodeParameters_eq_ok.1 htables).1.symm

theorem idles_renameDefault {data : Bytes}
    (h : r.names.FixesAll (after (ElementValue.decode data) r.valueLookups)) :
    (r.renameDefault data).Idles (· = data) := by
  refine (idles_read _).bind fun value hvalue => ?_
  rw [after_of_ok hvalue] at h
  refine (idles_renameValue value h).bind ?_
  rintro _ rfl
  exact idles_pure (ElementValue.decode_eq_ok.1 hvalue).1.symm

theorem idles_renameInnerClasses {data : Bytes}
    (h : r.names.FixesAll (after (InnerClass.decodeTable data) fun table =>
      table.flatMap r.innerClassLookups)) :
    (r.renameInnerClasses data).Idles (· = data) := by
  refine (idles_read _).bind fun table htable => ?_
  rw [after_of_ok htable] at h
  refine (idles_mapM table fun c hc => idles_renameInnerClass (h.of_flatMap hc)).bind ?_
  rintro _ rfl
  exact idles_pure (InnerClass.decodeTable_eq_ok.1 htable).1.symm

section Inside

variable {inside : List Attribute → Renaming (List Attribute)}
  {lookups : List Attribute → List Lookup}
  (hinside : ∀ attributes, r.names.FixesAll (lookups attributes) →
    (inside attributes).Idles (· = attributes))

include hinside in
theorem idles_renameBody {data : Bytes}
    (h : r.names.FixesAll (after (Code.decode data) fun body => lookups body.attributes)) :
    (renameBody inside data).Idles (· = data) := by
  refine (idles_read _).bind fun body hbody => ?_
  rw [after_of_ok hbody] at h
  refine (hinside body.attributes h).bind ?_
  rintro _ rfl
  exact idles_pure (Code.decode_eq_ok.1 hbody).1.symm

include hinside in
theorem idles_renameRecord {data : Bytes}
    (h : r.names.FixesAll (after (RecordComponent.decodeTable data) fun table =>
      table.flatMap fun c => r.fieldLookups c.name c.descriptor ++ lookups c.attributes)) :
    (r.renameRecord inside data).Idles (· = data) := by
  refine (idles_read _).bind fun table htable => ?_
  rw [after_of_ok htable] at h
  refine (idles_mapM table fun c hc => ?_).bind ?_
  · have hc := Renamer.fixesAll_append.1 (h.of_flatMap hc)
    refine (idles_renameField hc.1).bind ?_
    rintro _ rfl
    refine (hinside c.attributes hc.2).bind ?_
    rintro _ rfl
    exact idles_pure rfl
  · rintro _ rfl
    exact idles_pure ((RecordComponent.codes.list16.payload_eq_ok _).1 htable).1.symm

end Inside

theorem idles_renameInside {payload : String → Bytes → Renaming Bytes}
    {lookups : String → Bytes → List Lookup}
    (hpayload : ∀ name data, r.names.FixesAll (lookups name data) →
      (payload name data).Idles (· = data))
    (attributes : List Attribute) (h : r.names.FixesAll (r.insideLookups lookups attributes)) :
    (r.renameInside payload attributes).Idles (· = attributes) := by
  refine idles_mapM attributes fun a ha => ?_
  have hlookups := h.of_flatMap ha
  refine (idles_read _).bind fun name hname => ?_
  rw [after_of_ok hname] at hlookups
  refine (hpayload name a.payload hlookups).bind ?_
  rintro _ rfl
  exact idles_pure rfl

theorem idles_renamePayload (depth : Nat) (name : String) (data : Bytes)
    (h : r.names.FixesAll (r.payloadLookups depth name data)) :
    (r.renamePayload depth name data).Idles (· = data) := by
  induction depth generalizing name data with
  | zero => exact idles_pure rfl
  | succ depth ih =>
    have hinside := idles_renameInside ih
    rw [renamePayload]
    rw [payloadLookups] at h
    generalize PayloadKind.ofName name = kind at h ⊢
    cases kind with
    | signature => exact idles_renameSignature h
    | code => exact idles_renameBody hinside h
    | locals => exact idles_renameLocals r.names.respects_descriptor h
    | localTypes => exact idles_renameLocals r.names.respects_signature h
    | annotations => exact idles_renameAnnotationTable h
    | parameterAnnotations => exact idles_renameParameterAnnotations h
    | elementDefault => exact idles_renameDefault h
    | innerClasses => exact idles_renameInnerClasses h
    | enclosingMethod => exact idles_renameEnclosing h
    | record => exact idles_renameRecord hinside h
    | other => exact idles_pure rfl

/-! ### Attributes and members -/

theorem idles_renameAttribute {a : Attribute} (h : r.names.FixesAll (r.attributeLookups a)) :
    (r.renameAttribute a).Idles (· = a) := by
  refine (idles_read _).bind fun name hname => ?_
  rw [attributeLookups, after_of_ok hname] at h
  refine (idles_renamePayload _ _ _ h).bind ?_
  rintro _ rfl
  exact idles_pure rfl

theorem idles_renameFieldMember {m : Member} (h : r.names.FixesAll (r.fieldMemberLookups m)) :
    (r.renameFieldMember m).Idles (· = m) := by
  rw [fieldMemberLookups, Renamer.fixesAll_append] at h
  refine (idles_renameField h.1).bind ?_
  rintro _ rfl
  refine (idles_mapM m.attributes fun a ha => idles_renameAttribute (h.2.of_flatMap ha)).bind ?_
  rintro _ rfl
  exact idles_pure rfl

theorem idles_renameMethodMember {m : Member} (h : r.names.FixesAll (r.methodMemberLookups m)) :
    (r.renameMethodMember m).Idles (· = m) := by
  rw [methodMemberLookups, Renamer.fixesAll_append] at h
  obtain ⟨hmember, hattributes⟩ := h
  refine (idles_read _).bind fun name hname => ?_
  refine (idles_read _).bind fun descriptor hdescriptor => ?_
  rw [after_of_ok hname, after_of_ok hdescriptor, Renamer.fixesAll_append] at hmember
  refine (idles_rename _).bind fun mapped hmapped => ?_
  obtain rfl := Renamer.methodName_eq_self hmember.1 hmapped
  refine (idles_replaceText hname).bind ?_
  rintro _ rfl
  refine (idles_renameText r.names.respects_methodDescriptor
    (textLookups_of_ok hdescriptor hmember.2)).bind ?_
  rintro _ rfl
  refine (idles_mapM m.attributes fun a ha =>
    idles_renameAttribute (hattributes.of_flatMap ha)).bind ?_
  rintro _ rfl
  exact idles_pure rfl

theorem idles_renameAll (hsmall : r.snapshot.slots.size ≤ 65535) {c : ClassFile}
    (h : r.names.FixesAll (r.classLookups c)) : (r.renameAll c).Idles (· = c) := by
  simp only [classLookups, Renamer.fixesAll_append] at h
  obtain ⟨⟨⟨hconstants, hfields⟩, hmethods⟩, hattributes⟩ := h
  refine (idles_renameConstants hsmall hconstants).bind fun _ _ => ?_
  refine (idles_mapM c.fields fun m hm => idles_renameFieldMember (hfields.of_flatMap hm)).bind ?_
  rintro _ rfl
  refine (idles_mapM c.methods fun m hm =>
    idles_renameMethodMember (hmethods.of_flatMap hm)).bind ?_
  rintro _ rfl
  refine (idles_mapM c.attributes fun a ha =>
    idles_renameAttribute (hattributes.of_flatMap ha)).bind ?_
  rintro _ rfl
  exact idles_pure rfl

end Idle

end ClassRenamer

def Renamer.lookups (names : Renamer) (c : ClassFile) : List Lookup :=
  Lookup.after c.name fun className =>
    Lookup.after (bootstrapMethods c.pool c.attributes) fun bootstraps =>
      ClassRenamer.classLookups { names, snapshot := c.pool, bootstraps, className } c

/-- A class stays as it is if every name that its renaming looks up stays. -/
theorem Renamer.classFile_eq_self {names : Renamer} {data : Bytes} {c c' : ClassFile}
    (hdecode : ClassFile.decode data = .ok c) (hfixes : names.FixesAll (names.lookups c))
    (h : names.classFile c = .ok c') : c' = c := by
  obtain ⟨className, hname, h⟩ := bind_eq_ok.1 h
  obtain ⟨bootstraps, hbootstraps, h⟩ := bind_eq_ok.1 h
  obtain ⟨⟨renamed, pool⟩, hrename, h⟩ := bind_eq_ok.1 h
  cases h
  rw [lookups, Lookup.after_of_ok (lift_eq_ok.1 hname),
    Lookup.after_of_ok (lift_eq_ok.1 hbootstraps)] at hfixes
  obtain ⟨rfl, rfl⟩ :=
    ClassRenamer.idles_renameAll (indexed_decode hdecode).small hfixes _ _ _ hrename
  rfl

def selfNamedBody : Code where
  maxStack := 0
  maxLocals := 3
  code := [177]
  attributes := [⟨6, LocalVariable.encodeTable [⟨0, 1, 1, 7, 2⟩]⟩]

/-- A class with an inner class, a generic signature and annotations inside each other. -/
def selfNamedClass : ClassFile where
  pool := Pool.ofSlots #[.utf8 "a", .classInfo 1, .utf8 "<init>", .utf8 "(La$B;[La;)V",
    .utf8 "Code", .utf8 "LocalVariableTable", .utf8 "[La;", .utf8 "Signature",
    .utf8 "La<[TT;>.B<*>;", .utf8 "RuntimeVisibleAnnotations", .utf8 "La;", .utf8 "InnerClasses",
    .utf8 "B", .utf8 "a$B", .classInfo 14, .nameAndType 3 4, .methodRef 2 16]
  thisClass := 2
  methods := [⟨0, 3, 4, [⟨5, selfNamedBody.encode⟩]⟩]
  attributes := [⟨8, be16 9⟩, ⟨12, InnerClass.encodeTable [⟨15, 2, 13, 0⟩]⟩,
    ⟨10, AnnotationInfo.encodeTable [{ type := 7, elements := [(1, .array [.classLiteral 11,
      .nested 7 [(1, .classLiteral 11)]])] }]⟩]

/-- One class is listed with the same name on both sides, another one gets a new name. -/
def renamerOfOthers : Renamer where
  mapping := .ofDrafts [{ names := [("left", "a"), ("right", "a")] },
    { names := [("left", "z"), ("right", "y")] }]
  source := "left"
  target := "right"
  tree := {}
  headers := fun _ => none

theorem Renamer.classFile_eq_self_nested : ∃ c,
    ClassFile.decode selfNamedClass.encode = .ok c ∧ (renamerOfOthers.lookups c).length = 15 ∧
    renamerOfOthers.className "z" = .ok "y" ∧ renamerOfOthers.classFile c = .ok c := by
  have hrun : (ClassFile.decode selfNamedClass.encode).toOption.any (fun c =>
      (decide (renamerOfOthers.FixesAll (renamerOfOthers.lookups c)) &&
        (renamerOfOthers.lookups c).length = 15) &&
      (renamerOfOthers.classFile c).toOption.any fun _ => true) = true := by
    decide +kernel
  obtain ⟨c, hc, hrun⟩ := exists_ok_of_any hrun
  simp only [Bool.and_eq_true, decide_eq_true_eq] at hrun
  obtain ⟨⟨hfixes, hlength⟩, hrun⟩ := hrun
  obtain ⟨c', hc', -⟩ := exists_ok_of_any hrun
  obtain rfl := classFile_eq_self hc hfixes hc'
  exact ⟨c', hc, hlength, toOption_eq_some.1 (by decide +kernel), hc'⟩

end ClassArchive
