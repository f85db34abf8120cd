import ClassArchive.Proofs.AttributeCodec
import ClassArchive.Proofs.PoolRecall
import ClassArchive.Renaming.ClassFile
import Mathlib.Data.List.Forall2

/-!
Renaming inside attributes appends to the pool and replaces indices by indices, so that no payload
changes its length. In a body this leaves the instructions and the exception table as they are.
-/
set_option autoImplicit false

namespace ClassArchive

namespace Renaming

/-- Whether every run that succeeds only appends shared constants to the pool and gives an answer
with the property. -/
def Yields {α : Type} (x : Renaming α) (post : α → Prop) : Prop :=
  ∀ p a q, x p = .ok (a, q) → Pool.Stocked p q ∧ post a

theorem yields_pure {α : Type} {post : α → Prop} {a : α} (h : post a) :
    (pure a : Renaming α).Yields post := by
  intro p b q hb
  cases hb
  exact ⟨.refl, h⟩

theorem Yields.bind {α β : Type} {x : Renaming α} {f : α → Renaming β} {P : α → Prop}
    {Q : β → Prop} (hx : x.Yields P) (hf : ∀ a, P a → (f a).Yields Q) : (x >>= f).Yields Q := by
  intro p b r h
  obtain ⟨a, q, ha, hb⟩ := state_bind_eq_ok.1 h
  obtain ⟨hstocked, hpost⟩ := hx p a q ha
  obtain ⟨hstocked', hpost'⟩ := hf a hpost q b r hb
  exact ⟨hstocked.trans hstocked', hpost'⟩

theorem Yields.map {α β : Type} {x : Renaming α} {f : α → β} {P : α → Prop} {Q : β → Prop}
    (hx : x.Yields P) (hf : ∀ a, P a → Q (f a)) : (f <$> x).Yields Q := by
  intro p b r h
  obtain ⟨a, q, ha, hb⟩ := state_map_eq_ok.1 h
  cases hb
  obtain ⟨hstocked, hpost⟩ := hx p a r ha
  exact ⟨hstocked, hf a hpost⟩

theorem Yields.mono {α : Type} {x : Renaming α} {P Q : α → Prop} (hx : x.Yields P)
    (h : ∀ a, P a → Q a) : x.Yields Q :=
  fun p a q ha => ⟨(hx p a q ha).1, h a (hx p a q ha).2⟩

theorem read_eq_ok {α : Type} {e : Except FormatError α} {p q : Pool} {a : α} :
    read e p = .ok (a, q) ↔ e = .ok a ∧ p = q := by
  unfold read
  cases e with
  | error e => simp
  | ok b => simp

theorem yields_read {α : Type} (e : Except FormatError α) :
    (read e).Yields fun a => e = .ok a := by
  intro p a q h
  obtain ⟨he, rfl⟩ := read_eq_ok.1 h
  exact ⟨.refl, he⟩

theorem read_bind {α β : Type} {e : Except FormatError α} {a : α} (h : e = .ok a)
    (f : α → Renaming β) (p : Pool) : (read e >>= f) p = f a p := by
  rw [h]
  rfl

theorem get_bind {β : Type} (f : Pool → Renaming β) (p : Pool) :
    ((get : Renaming Pool) >>= f) p = f p p := rfl

theorem yields_rename (e : Except ArchiveError String) :
    (ClassRenamer.rename e).Yields fun s => e = .ok s := by
  intro p a q h
  cases e with
  | error e => cases h
  | ok b =>
    cases h
    exact ⟨.refl, rfl⟩

theorem edit_eq_ok {α : Type} {e : Pool.Edit α} {p q : Pool} {a : α} :
    edit e p = .ok (a, q) ↔ e p = .ok a q := by
  unfold edit EStateM.run
  cases h : e p with
  | error e r => simp
  | ok b r => simp

theorem yields_edit {α : Type} {e : Pool.Edit α}
    (he : ∀ p a q, e p = .ok a q → Pool.Stocked p q) : (edit e).Yields fun _ => True :=
  fun p a q h => ⟨he p a q (edit_eq_ok.1 h), trivial⟩

theorem yields_mapM {α β : Type} {f : α → Renaming β} {R : α → β → Prop} (xs : List α)
    (h : ∀ x ∈ xs, (f x).Yields (R x)) : (xs.mapM f).Yields (List.Forall₂ R xs) := by
  induction xs with
  | nil => exact yields_pure .nil
  | cons x xs ih =>
    rw [List.mapM_cons]
    refine (h x (by simp)).bind fun y hy => ?_
    refine (ih fun z hz => h z (by simp [hz])).bind fun ys hys => ?_
    exact yields_pure (.cons hy hys)

theorem exists_mapM_cons {α β : Type} {f : α → Renaming β} {x : α} {xs : List α} {p : Pool} :
    (∃ ys q, (x :: xs).mapM f p = .ok (ys, q)) ↔
      ∃ y mid, f x p = .ok (y, mid) ∧ ∃ ys q, xs.mapM f mid = .ok (ys, q) := by
  rw [List.mapM_cons]
  constructor
  · rintro ⟨written, q, h⟩
    obtain ⟨y, mid, hy, h⟩ := state_bind_eq_ok.1 h
    obtain ⟨ys, last, hys, h⟩ := state_bind_eq_ok.1 h
    exact ⟨y, mid, hy, ys, last, hys⟩
  · rintro ⟨y, mid, hy, ys, q, hys⟩
    exact ⟨y :: ys, q, state_bind_eq_ok.2 ⟨y, mid, hy, state_bind_eq_ok.2 ⟨ys, q, hys, rfl⟩⟩⟩

end Renaming

namespace ClassRenamer

open Renaming

variable (r : ClassRenamer)

theorem yields_replaceText (i : UInt16) (s : String) :
    (r.replaceText i s).Yields fun _ => True := by
  refine (yields_read _).bind fun t _ => ?_
  split
  · exact yields_pure trivial
  · exact yields_edit fun _ _ _ h => Pool.stocked_addText h

theorem yields_renameText (f : String → Except ArchiveError String) (i : UInt16) :
    (r.renameText f i).Yields fun _ => True :=
  (yields_read _).bind fun _ _ => (yields_rename _).bind fun _ _ => r.yields_replaceText i _

theorem yields_replacePair (i : UInt16) (s t : String) :
    (r.replacePair i s t).Yields fun _ => True := by
  refine (yields_read _).bind fun t _ => ?_
  split
  · exact yields_pure trivial
  · exact yields_edit fun _ _ _ h => Pool.stocked_addNameAndType h

/-! ### Annotations -/

theorem yields_renameWithin (f : String → String → Except ArchiveError String)
    (owner : Option String) (i : UInt16) : (r.renameWithin f owner i).Yields fun _ => True := by
  cases owner with
  | none => exact yields_pure trivial
  | some owner => exact r.yields_renameText _ _

mutual

theorem yields_renameValue : ∀ v : ElementValue,
    (r.renameValue v).Yields fun v' => v'.encode.length = v.encode.length
  | .const tag index => by
    rw [renameValue]
    exact yields_pure rfl
  | .enum type name => by
    rw [renameValue]
    refine (yields_read _).bind fun d _ => ?_
    refine (r.yields_renameWithin _ _ _).bind fun n _ => ?_
    refine (r.yields_renameText _ _).bind fun t _ => ?_
    exact yields_pure (by simp [ElementValue.encode, be16])
  | .classLiteral descriptor => by
    rw [renameValue]
    exact (r.yields_renameText _ _).map fun _ _ => by simp [ElementValue.encode, be16]
  | .nested type elements => by
    rw [renameValue]
    refine (yields_read _).bind fun d _ => ?_
    refine (yields_renameElements _ elements).bind fun es hes => ?_
    refine (r.yields_renameText _ _).bind fun t _ => ?_
    exact yields_pure (by simp [ElementValue.encode, be16, count16, hes])
  | .array values => by
    rw [renameValue]
    exact (yields_renameValues values).map fun vs hvs => by
      simp [ElementValue.encode, be16, count16, hvs]

theorem yields_renameElements (owner : Option String) : ∀ es : List (UInt16 × ElementValue),
    (r.renameElements owner es).Yields fun es' =>
      (ElementValue.encodeElements es').length = (ElementValue.encodeElements es).length
  | [] => by
    rw [renameElements]
    exact yields_pure rfl
  | (name, value) :: rest => by
    rw [renameElements]
    refine (r.yields_renameWithin _ _ _).bind fun n _ => ?_
    refine (yields_renameValue value).bind fun v hv => ?_
    refine (yields_renameElements owner rest).bind fun es hes => ?_
    exact yields_pure (by simp [ElementValue.encodeElements, be16, hv, hes])

theorem yields_renameValues : ∀ vs : List ElementValue,
    (r.renameValues vs).Yields fun vs' =>
      (ElementValue.encodeValues vs').length = (ElementValue.encodeValues vs).length
  | [] => by
    rw [renameValues]
    exact yields_pure rfl
  | value :: rest => by
    rw [renameValues]
    refine (yields_renameValue value).bind fun v hv => ?_
    refine (yields_renameValues rest).bind fun vs hvs => ?_
    exact yields_pure (by simp [ElementValue.encodeValues, hv, hvs])

end

theorem yields_renameAnnotations (a : AnnotationInfo) :
    (r.renameAnnotations a).Yields fun a' => a'.encode.length = a.encode.length := by
  refine (yields_read _).bind fun d _ => ?_
  refine (r.yields_renameElements _ _).bind fun es hes => ?_
  refine (r.yields_renameText _ _).bind fun t _ => ?_
  exact yields_pure (by simp [AnnotationInfo.encode, be16, count16, hes])

/-! ### Tables -/

theorem yields_renameLocal (f : String → Except ArchiveError String) (v : LocalVariable) :
    (r.renameLocal f v).Yields fun v' => v'.encode.length = v.encode.length :=
  (r.yields_renameText _ _).bind fun _ _ => yields_pure (by simp [LocalVariable.encode, be16])

theorem yields_renameInnerClass (c : InnerClass) :
    (r.renameInnerClass c).Yields fun c' => c'.encode.length = c.encode.length := by
  unfold renameInnerClass
  split
  · exact yields_pure rfl
  · refine (yields_read _).bind fun inner _ => ?_
    exact (r.yields_renameText _ _).bind fun n _ =>
      yields_pure (by simp [InnerClass.encode, be16])

theorem yields_renameEnclosing (data : Bytes) :
    (r.renameEnclosing data).Yields fun data' => data'.length = data.length := by
  unfold renameEnclosing
  split
  · simp only
    split
    · exact yields_pure (by simp [be16])
    · refine (yields_read _).bind fun owner _ => ?_
      refine (yields_read _).bind fun pair _ => ?_
      refine (yields_rename _).bind fun name _ => ?_
      refine (yields_rename _).bind fun descriptor _ => ?_
      refine (r.yields_replacePair _ _ _).bind fun i _ => ?_
      exact yields_pure (by simp [be16])
  · exact (yields_read _).mono fun _ h => by simp at h

theorem yields_renameField (name descriptor : UInt16) :
    (r.renameField name descriptor).Yields fun _ => True := by
  refine (yields_read _).bind fun _ _ => ?_
  refine (yields_read _).bind fun _ _ => ?_
  refine (yields_rename _).bind fun _ _ => ?_
  refine (r.yields_replaceText _ _).bind fun _ _ => ?_
  exact (r.yields_renameText _ _).bind fun _ _ => yields_pure trivial

/-! ### Payloads -/

theorem length_flatMap_of_forall₂ {α : Type} {write : α → Bytes} {xs ys : List α}
    (h : List.Forall₂ (fun x y => (write y).length = (write x).length) xs ys) :
    (ys.flatMap write).length = (xs.flatMap write).length := by
  induction h with
  | nil => rfl
  | cons hx _ ih => simp only [List.flatMap_cons, List.length_append, hx, ih]

theorem length_encode16_of_forall₂ {α : Type} {write : α → Bytes} {xs ys : List α}
    (h : List.Forall₂ (fun x y => (write y).length = (write x).length) xs ys) :
    (encode16 write ys).length = (encode16 write xs).length := by
  simp only [encode16, count16, be16, List.length_append, length_flatMap_of_forall₂ h]
  rfl

theorem length_encode8_of_forall₂ {α : Type} {write : α → Bytes} {xs ys : List α}
    (h : List.Forall₂ (fun x y => (write y).length = (write x).length) xs ys) :
    (encode8 write ys).length = (encode8 write xs).length := by
  simp only [encode8, List.length_cons, length_flatMap_of_forall₂ h]

def SameShape (a a' : Attribute) : Prop :=
  a'.name = a.name ∧ a'.payload.length = a.payload.length

theorem length_encodeList_of_sameShape {as as' : List Attribute}
    (h : List.Forall₂ SameShape as as') :
    (Attribute.encodeList as').length = (Attribute.encodeList as).length := by
  refine length_encode16_of_forall₂ (h.imp fun a a' ha => ?_)
  simp [Attribute.encode, be16, be32, ha.2]

theorem fit_of_sameShape {as as' : List Attribute} (h : List.Forall₂ SameShape as as')
    (hfit : Attribute.Fit as) : Attribute.Fit as' := by
  refine ⟨h.length_eq ▸ hfit.1, ?_⟩
  have hall := hfit.2
  clear hfit
  induction h with
  | nil => simp
  | @cons a a' as as' ha _ ih =>
    intro b hb
    rcases List.mem_cons.1 hb with rfl | hb
    · rw [ha.2]
      exact hall a (by simp)
    · exact ih (fun c hc => hall c (by simp [hc])) b hb

/-- A body with attributes of the same shape is written in the same length and read back. -/
theorem decode_of_sameShape {data : Bytes} {body : Code} {attributes : List Attribute}
    (h : Code.decode data = .ok body) (hshape : List.Forall₂ SameShape body.attributes attributes) :
    { body with attributes }.encode.length = data.length ∧
      Code.decode { body with attributes }.encode = .ok { body with attributes } := by
  obtain ⟨rfl, hfit⟩ := Code.decode_eq_ok.1 h
  constructor
  · simp only [Code.encode, List.length_append, length_encodeList_of_sameShape hshape]
  · exact Code.decode_eq_ok.2
      ⟨rfl, hfit.code, hfit.handlers, fit_of_sameShape hshape hfit.attributes⟩

def KeepsShapes (inside : List Attribute → Renaming (List Attribute)) : Prop :=
  ∀ attributes, (inside attributes).Yields (List.Forall₂ SameShape attributes)

theorem keepsShapes_renameInside {payload : String → Bytes → Renaming Bytes}
    (h : ∀ name data, (payload name data).Yields fun data' => data'.length = data.length) :
    KeepsShapes (r.renameInside payload) := by
  intro attributes
  refine yields_mapM attributes fun a _ => ?_
  refine (yields_read _).bind fun name _ => ?_
  exact (h name a.payload).bind fun data' hdata => yields_pure ⟨rfl, hdata⟩

theorem yields_renameBody {inside : List Attribute → Renaming (List Attribute)}
    (h : KeepsShapes inside) (data : Bytes) :
    (renameBody inside data).Yields fun data' => data'.length = data.length ∧
      ∃ body attributes, Code.decode data = .ok body ∧
        Code.decode data' = .ok { body with attributes } := by
  refine (yields_read _).bind fun body hbody => ?_
  refine (h body.attributes).bind fun attributes hshape => ?_
  obtain ⟨hlength, hdecode⟩ := decode_of_sameShape hbody hshape
  exact yields_pure ⟨hlength, body, attributes, hbody, hdecode⟩

theorem yields_renameSignature (name : String) (data : Bytes) :
    (r.renameSignature name data).Yields fun data' => data'.length = data.length := by
  refine (yields_read _).bind fun index hindex => ?_
  refine (r.yields_renameText _ _).bind fun i _ => yields_pure ?_
  unfold singleIndex at hindex
  split at hindex
  · rfl
  · contradiction

theorem yields_renameLocals (f : String → Except ArchiveError String) (name : String)
    (data : Bytes) :
    (r.renameLocals f name data).Yields fun data' => data'.length = data.length := by
  refine (yields_read _).bind fun table htable => ?_
  obtain ⟨rfl, _⟩ := (LocalVariable.codes.list16.payload_eq_ok name).1 htable
  refine (yields_mapM table fun v _ => r.yields_renameLocal f v).bind fun table' hsame => ?_
  exact yields_pure (length_encode16_of_forall₂ hsame)

theorem yields_renameAnnotationTable (name : String) (data : Bytes) :
    (r.renameAnnotationTable name data).Yields fun data' => data'.length = data.length := by
  refine (yields_read _).bind fun table htable => ?_
  have hdata := ((AnnotationInfo.codes _).list16.payload_eq_ok name).1 htable
  refine (yields_mapM table fun a _ => r.yields_renameAnnotations a).bind fun table' hsame => ?_
  refine yields_pure ?_
  rw [hdata.1]
  exact length_encode16_of_forall₂ hsame

theorem yields_renameParameterAnnotations (name : String) (data : Bytes) :
    (r.renameParameterAnnotations name data).Yields fun data' => data'.length = data.length := by
  refine (yields_read _).bind fun tables htables => ?_
  have hdata := ((AnnotationInfo.codes _).list16.list8.payload_eq_ok name).1 htables
  refine (yields_mapM tables fun table _ =>
    yields_mapM table fun a _ => r.yields_renameAnnotations a).bind fun tables' hsame => ?_
  refine yields_pure ?_
  rw [hdata.1]
  exact length_encode8_of_forall₂ (hsame.imp fun _ _ h => length_encode16_of_forall₂ h)

theorem yields_renameDefault (data : Bytes) :
    (r.renameDefault data).Yields fun data' => data'.length = data.length := by
  refine (yields_read _).bind fun value hvalue => ?_
  have hdata := ((ElementValue.codes _).payload_eq_ok _).1 hvalue
  refine (r.yields_renameValue value).bind fun value' hsame => yields_pure ?_
  rw [hdata.1]
  exact hsame

theorem yields_renameInnerClasses (data : Bytes) :
    (r.renameInnerClasses data).Yields fun data' => data'.length = data.length := by
  refine (yields_read _).bind fun table htable => ?_
  obtain ⟨rfl, _⟩ := (InnerClass.codes.list16.payload_eq_ok _).1 htable
  refine (yields_mapM table fun c _ => r.yields_renameInnerClass c).bind fun table' hsame => ?_
  exact yields_pure (length_encode16_of_forall₂ hsame)

theorem yields_renameComponent {inside : List Attribute → Renaming (List Attribute)}
    (h : KeepsShapes inside) (c : RecordComponent) :
    (r.renameComponent inside c).Yields fun c' => c'.encode.length = c.encode.length := by
  refine (r.yields_renameField _ _).bind fun names _ => ?_
  refine (h c.attributes).bind fun attributes hshape => yields_pure ?_
  simp only [RecordComponent.encode, List.length_append, be16,
    length_encodeList_of_sameShape hshape]
  rfl

theorem yields_renameRecord {inside : List Attribute → Renaming (List Attribute)}
    (h : KeepsShapes inside) (data : Bytes) :
    (r.renameRecord inside data).Yields fun data' => data'.length = data.length := by
  refine (yields_read _).bind fun table htable => ?_
  obtain ⟨rfl, _⟩ := (RecordComponent.codes.list16.payload_eq_ok _).1 htable
  refine (yields_mapM table fun c _ => r.yields_renameComponent h c).bind fun table' hsame => ?_
  exact yields_pure (length_encode16_of_forall₂ hsame)

theorem yields_renamePayload (depth : Nat) (name : String) (data : Bytes) :
    (r.renamePayload depth name data).Yields fun data' => data'.length = data.length := by
  induction depth generalizing name data with
  | zero => exact yields_pure rfl
  | succ depth ih =>
    have hinside : KeepsShapes (r.renameInside (r.renamePayload depth)) :=
      r.keepsShapes_renameInside ih
    rw [renamePayload]
    cases PayloadKind.ofName name with
    | signature => exact r.yields_renameSignature name data
    | code => exact (yields_renameBody hinside data).mono fun _ h => h.1
    | locals => exact r.yields_renameLocals _ name data
    | localTypes => exact r.yields_renameLocals _ name data
    | annotations => exact r.yields_renameAnnotationTable name data
    | parameterAnnotations => exact r.yields_renameParameterAnnotations name data
    | elementDefault => exact r.yields_renameDefault data
    | innerClasses => exact r.yields_renameInnerClasses data
    | enclosingMethod => exact r.yields_renameEnclosing data
    | record => exact r.yields_renameRecord hinside data
    | other => exact yields_pure rfl

/-! ### Attributes and members -/

/-- An attribute of the same name. If it is the body of a method, both are bodies that differ in
their attributes only. -/
def SameBody (pool : Pool) (a a' : Attribute) : Prop :=
  a'.name = a.name ∧ (pool.text a.name = .ok Code.attributeName →
    ∃ body attributes, Code.decode a.payload = .ok body ∧
      Code.decode a'.payload = .ok { body with attributes })

theorem yields_renameAttribute (a : Attribute) :
    (r.renameAttribute a).Yields (SameBody r.snapshot a) := by
  refine (yields_read _).bind fun name hname => ?_
  by_cases hcode : name = Code.attributeName
  · have hkind : PayloadKind.ofName name = .code := by rw [hcode]; decide
    have hinside := r.keepsShapes_renameInside (r.yields_renamePayload a.payload.length)
    rw [renamePayload, hkind]
    refine (yields_renameBody hinside a.payload).bind fun data' hdata => ?_
    exact yields_pure ⟨rfl, fun _ => hdata.2⟩
  · refine (r.yields_renamePayload _ name a.payload).bind fun data' _ => ?_
    refine yields_pure ⟨rfl, fun htext => ?_⟩
    rw [hname] at htext
    cases htext
    exact absurd rfl hcode

theorem yields_renameFieldMember (m : Member) :
    (r.renameFieldMember m).Yields fun m' =>
      List.Forall₂ (SameBody r.snapshot) m.attributes m'.attributes := by
  refine (r.yields_renameField _ _).bind fun names _ => ?_
  refine (yields_mapM m.attributes fun a _ => r.yields_renameAttribute a).bind fun as has => ?_
  exact yields_pure has

theorem yields_renameMethodMember (m : Member) :
    (r.renameMethodMember m).Yields fun m' =>
      List.Forall₂ (SameBody r.snapshot) m.attributes m'.attributes := by
  refine (yields_read _).bind fun _ _ => ?_
  refine (yields_read _).bind fun _ _ => ?_
  refine (yields_rename _).bind fun _ _ => ?_
  refine (r.yields_replaceText _ _).bind fun _ _ => ?_
  refine (r.yields_renameText _ _).bind fun _ _ => ?_
  refine (yields_mapM m.attributes fun a _ => r.yields_renameAttribute a).bind fun as has => ?_
  exact yields_pure has

end ClassRenamer

end ClassArchive
