import ClassArchive.Proofs.ReframedClass
import ClassArchive.Proofs.RepeatedEdits
import ClassArchive.Proofs.SteadyIndices

/-!
Writing a class twice. What was written is read back as it is, and writing it once more changes
nothing, as long as no index that named nothing comes to name one of the constants that the first
writing appends.
-/
set_option autoImplicit false

namespace ClassArchive

open Pool.Edit

/-! ### Attributes found again -/

namespace Attribute

variable {p q : Pool}

theorem isNamed_of_sameAt {a : Attribute} (h : p.SameAt q a.name) (name : String) :
    isNamed q name a = isNamed p name a := by
  rw [isNamed, isNamed, Pool.isText, Pool.isText, h.text_eq]

theorem position?_of_sameAt {attributes : List Attribute}
    (h : ∀ a ∈ attributes, p.SameAt q a.name) (name : String) :
    position? q name attributes = position? p name attributes := by
  unfold position?
  induction attributes with
  | nil => rfl
  | cons a attributes ih =>
    obtain ⟨ha, hrest⟩ := List.forall_mem_cons.1 h
    rw [List.findIdx?_cons, List.findIdx?_cons, isNamed_of_sameAt ha, ih hrest]

theorem position?_of_map_name {attributes others : List Attribute}
    (h : others.map (·.name) = attributes.map (·.name)) (p : Pool) (name : String) :
    position? p name others = position? p name attributes := by
  have hnames : ∀ attributes : List Attribute, position? p name attributes =
      (attributes.map (·.name)).findIdx? (p.isText · name) := by
    intro attributes
    rw [List.findIdx?_map]
    rfl
  rw [hnames, hnames, h]

theorem position?_place (attributes : List Attribute) {name : String} {a : Attribute}
    (ha : isNamed p name a = true) :
    ∃ i, position? p name (place attributes (position? p name attributes) a) = some i ∧
      (place attributes (position? p name attributes) a)[i]? = some a := by
  cases hposition : position? p name attributes with
  | none =>
    refine ⟨attributes.length, ?_, by simp [place]⟩
    unfold position? at hposition
    simp [place, position?, List.findIdx?_append, hposition, ha]
  | some i =>
    obtain ⟨hlt, hnamed, hbefore⟩ := List.findIdx?_eq_some_iff_getElem.1 hposition
    refine ⟨i, ?_, by simp [place, hlt]⟩
    refine List.findIdx?_eq_some_iff_getElem.2 ⟨by simpa [place] using hlt, ?_, ?_⟩
    · simpa [place] using ha
    · intro j hj
      have hne : i ≠ j := by omega
      simpa [place, List.getElem_set_ne hne] using hbefore j hj

theorem place_of_getElem? {attributes : List Attribute} {i : Nat} {a : Attribute}
    (h : attributes[i]? = some a) : place attributes (some i) a = attributes := by
  obtain ⟨hlt, rfl⟩ := List.getElem?_eq_some_iff.1 h
  exact List.set_getElem_self hlt

theorem position?_eraseIdx {attributes : List Attribute} {name : String} {i : Nat}
    (h : ∀ b ∈ attributes, p.SameAt q b.name) (hfirst : position? p name attributes = some i)
    (hone : attributes.countP (isNamed p name) ≤ 1) :
    position? q name (attributes.eraseIdx i) = none := by
  have hsub := List.eraseIdx_sublist attributes i
  rw [position?_of_sameAt (fun b hb => h b (hsub.subset hb))]
  obtain ⟨hlt, hnamed, -⟩ := List.findIdx?_eq_some_iff_getElem.1 hfirst
  have hcut : attributes.take i ++ attributes[i] :: attributes.drop (i + 1) = attributes := by
    rw [List.getElem_cons_drop, List.take_append_drop]
  rw [← hcut, List.countP_append, List.countP_cons_of_pos hnamed] at hone
  refine List.findIdx?_eq_none_iff.2 fun b hb => ?_
  have hnone : (attributes.eraseIdx i).countP (isNamed p name) = 0 := by
    rw [List.eraseIdx_eq_take_drop_succ, List.countP_append]
    omega
  have hb := List.countP_eq_zero.1 hnone b hb
  simpa using hb

end Attribute

def Constant.isText : Constant → Bool
  | .utf8 _ => true
  | _ => false

/-! ### What is followed -/

namespace Member

def body? (p : Pool) (m : Member) : Option Code := do
  let i ← Attribute.position? p Code.attributeName m.attributes
  let body ← m.attributes[i]?
  (Code.decode body.payload).toOption

def shape? (p : Pool) (m : Member) : Option MethodShape := do
  let name ← (p.text m.name).toOption
  let descriptor ← (p.text m.descriptor).toOption
  return { name, descriptor, isStatic := Access.isStatic m.access }

def references (p : Pool) (m : Member) : List UInt16 :=
  m.attributes.map (·.name) ++
    match m.body? p with
    | some code =>
        code.attributes.map (·.name) ++ code.references.flatMap (p.reached Pool.lookupSteps)
    | none => []

theorem sameAt_of_attribute {p q : Pool} {m : Member} (h : ∀ i ∈ m.references p, p.SameAt q i)
    {a : Attribute} (ha : a ∈ m.attributes) : p.SameAt q a.name :=
  h a.name (List.mem_append_left _ (List.mem_map.2 ⟨a, ha, rfl⟩))

theorem sameAt_of_body? {p q : Pool} {m : Member} (h : ∀ i ∈ m.references p, p.SameAt q i)
    {code : Code} (hcode : m.body? p = some code) :
    (∀ a ∈ code.attributes, p.SameAt q a.name) ∧
      ∀ i ∈ code.references, p.Agrees q Pool.lookupSteps i := by
  simp only [references, hcode] at h
  obtain ⟨-, h⟩ := List.forall_mem_append.1 h
  obtain ⟨hnames, hreached⟩ := List.forall_mem_append.1 h
  exact ⟨List.forall_mem_map.1 hnames, fun i hi j hj =>
    hreached j (List.mem_flatMap.2 ⟨i, hi, hj⟩)⟩

end Member

namespace ClassFile

def references (c : ClassFile) : List UInt16 := c.methods.flatMap (Member.references c.pool)

/-- The texts and what the attributes of methods hold fit the fields for their lengths, which
writing does not check. -/
structure LengthsFit (c : ClassFile) : Prop where
  texts : ∀ d ∈ c.pool.slots.toList, d.isText = true → d.Fits
  payloads : ∀ m ∈ c.methods, ∀ a ∈ m.attributes, a.payload.length < 4294967296

instance (c : ClassFile) : Decidable c.LengthsFit :=
  decidable_of_iff ((∀ d ∈ c.pool.slots.toList, d.isText = true → d.Fits) ∧
      ∀ m ∈ c.methods, ∀ a ∈ m.attributes, a.payload.length < 4294967296)
    ⟨fun h => ⟨h.1, h.2⟩, fun h => ⟨h.texts, h.payloads⟩⟩

/-- The lengths that matter when only frames are renewed. -/
structure InLimits (c : ClassFile) : Prop extends LengthsFit c where
  slots : c.pool.slots.size ≤ Pool.capacity

instance (c : ClassFile) : Decidable c.InLimits :=
  decidable_of_iff (c.LengthsFit ∧ c.pool.slots.size ≤ Pool.capacity)
    ⟨fun h => ⟨h.1, h.2⟩, fun h => ⟨h.toLengthsFit, h.slots⟩⟩

/-- A body whose frames are computed to an end, and in which a table of frames that is not needed
stands only once. -/
structure Rewritable (load : Loader) (className : String) (p : Pool) (shape : MethodShape)
    (code : Code) : Prop where
  size : code.code.length ≤ 65535
  attributes : code.attributes.length < 65535
  ends : Flow.compute load p className shape code ≠ .error .unsettled
  tables : ∀ computed, Flow.compute load p className shape code = .ok computed →
    computed.states = [] →
      code.attributes.countP (Attribute.isNamed p StackMap.attributeName) ≤ 1

instance (load : Loader) (className : String) (p : Pool) (shape : MethodShape) (code : Code) :
    Decidable (Rewritable load className p shape code) :=
  decidable_of_iff (code.code.length ≤ 65535 ∧ code.attributes.length < 65535 ∧
      Flow.compute load p className shape code ≠ .error .unsettled ∧
      ∀ computed ∈ (Flow.compute load p className shape code).toOption, computed.states = [] →
        code.attributes.countP (Attribute.isNamed p StackMap.attributeName) ≤ 1)
    ⟨fun h => ⟨h.1, h.2.1, h.2.2.1, fun computed hcomputed =>
        h.2.2.2 computed (toOption_eq_some.2 hcomputed)⟩,
      fun h => ⟨h.size, h.attributes, h.ends, fun computed hcomputed =>
        h.tables computed (toOption_eq_some.1 hcomputed)⟩⟩

/-! ### Tables put in place again -/

theorem placeTable_stocked {frames : List StackMapFrame} {code code' : Code} {p q : Pool}
    (h : placeTable frames code p = .ok code' q) :
    Pool.Stocked p q ∧ code' = { code with attributes := code'.attributes } ∧
      code'.attributes.length ≤ code.attributes.length + 1 := by
  obtain ⟨_, _, hget, h⟩ := edit_bind_eq_ok.1 h
  cases hget
  split at h
  · cases hposition : Attribute.position? p StackMap.attributeName code.attributes with
    | some i =>
      rw [hposition] at h
      cases h
      have hlength := (List.eraseIdx_sublist code.attributes i).length_le
      exact ⟨.refl, rfl, by dsimp only; omega⟩
    | none =>
      rw [hposition] at h
      cases h
      exact ⟨.refl, rfl, by omega⟩
  · obtain ⟨payload, mid, hpayload, h⟩ := edit_bind_eq_ok.1 h
    obtain ⟨name, last, hname, h⟩ := edit_bind_eq_ok.1 h
    cases h
    have hmid := (StackMap.repeats_encode frames hpayload).1
    refine ⟨hmid.trans (repeats_addText _ hname).1, rfl, ?_⟩
    unfold Attribute.place
    split
    · simp
    · simp

theorem placeTable_again {frames : List StackMapFrame} {code code' : Code} {p q final : Pool}
    (hp : p.Recalls Constant.isShared) (hfinal : Pool.Grown q final)
    (hnames : ∀ a ∈ code.attributes, p.SameAt final a.name)
    (hone : frames = [] →
      code.attributes.countP (Attribute.isNamed p StackMap.attributeName) ≤ 1)
    (h : placeTable frames code p = .ok code' q) :
    placeTable frames code' final = .ok code' final := by
  obtain ⟨_, _, hget, h⟩ := edit_bind_eq_ok.1 h
  cases hget
  refine edit_bind_eq_ok.2 ⟨final, final, rfl, ?_⟩
  split at h
  · next hempty =>
    -- without frames there is no table, neither before nor now
    have hnone : Attribute.position? final StackMap.attributeName code'.attributes = none ∧
        q = p := by
      cases hposition : Attribute.position? p StackMap.attributeName code.attributes with
      | some i =>
        rw [hposition] at h
        cases h
        exact ⟨Attribute.position?_eraseIdx hnames hposition
          (hone (List.isEmpty_iff.1 hempty)), rfl⟩
      | none =>
        rw [hposition] at h
        cases h
        exact ⟨(Attribute.position?_of_sameAt hnames _).trans hposition, rfl⟩
    rw [if_pos hempty, hnone.1]
    rfl
  · next hsome =>
    obtain ⟨payload, mid, hpayload, h⟩ := edit_bind_eq_ok.1 h
    obtain ⟨name, last, hname, h⟩ := edit_bind_eq_ok.1 h
    cases h
    -- the frames are written with the same names, and the table is found where it was put
    obtain ⟨hmid, hpayload'⟩ := StackMap.repeats_encode frames hpayload
    obtain ⟨hlast, hname'⟩ := repeats_addText _ hname
    have hmid := hmid.grown
    have hlast := hlast.grown
    have htext := (ensures_addText _ (hp.grown hmid) hname).2 final hfinal.extends
    have hnamed : Attribute.isNamed final StackMap.attributeName { name, payload } = true := by
      simp [Attribute.isNamed, Pool.isText, htext]
    rw [← Attribute.position?_of_sameAt hnames]
    obtain ⟨i, hi, hplaced⟩ := Attribute.position?_place code.attributes hnamed
    rw [if_neg hsome]
    refine edit_bind_eq_ok.2 ⟨payload, final, hpayload' final (hlast.trans hfinal), ?_⟩
    refine edit_bind_eq_ok.2 ⟨name, final, hname' final hfinal, ?_⟩
    dsimp only
    rw [hi, Attribute.place_of_getElem? hplaced]
    rfl

/-! ### Methods -/

section Method

variable {load : Loader} {className : String} {method after : Member} {p q : Pool}

theorem reframeMethod_of_hasBody {i : Nat} {body : Attribute} {code : Code} {shape : MethodShape}
    (h : HasBody p method i body code shape) {outcome : Except FrameError ComputedFrames}
    (hcompute : Flow.compute load p className shape code = outcome)
    (hrun : (match outcome with
      | .error e =>
        match e.breakdown? with
        | some cause => throw (FormatError.breakdown cause)
        | none => (pure method : Pool.Edit Member)
      | .ok computed => do
        let code ← placeTable (StackMap.compress computed.initial computed.states) code
        let body := { body with payload := code.encode }
        return { method with attributes := method.attributes.set i body }) p = .ok after q) :
    reframeMethod load className method p = .ok after q := by
  obtain ⟨name, descriptor, isStatic⟩ := shape
  have hstatic : isStatic = Access.isStatic method.access := h.isStatic
  subst hstatic
  refine edit_bind_eq_ok.2 ⟨p, p, rfl, ?_⟩
  simp only [h.first, h.getElem?]
  refine edit_bind_eq_ok.2 ⟨p, p, rfl, ?_⟩
  refine edit_bind_eq_ok.2 ⟨code, p, liftRead_eq_ok.2 ⟨h.decode, rfl⟩, ?_⟩
  refine edit_bind_eq_ok.2 ⟨name, p, liftRead_eq_ok.2 ⟨h.name, rfl⟩, ?_⟩
  refine edit_bind_eq_ok.2 ⟨descriptor, p, liftRead_eq_ok.2 ⟨h.descriptor, rfl⟩, ?_⟩
  subst hcompute
  exact hrun

theorem Reframes.reframeMethod (h : Reframes load className method p after q) :
    ClassFile.reframeMethod load className method p = .ok after q := by
  cases h with
  | bodiless hnone =>
    refine edit_bind_eq_ok.2 ⟨p, p, rfl, ?_⟩
    rw [hnone]
    rfl
  | kept hbody hcompute hreport =>
    refine reframeMethod_of_hasBody hbody hcompute ?_
    simp only [hreport]
    rfl
  | renewed hbody hcompute hplace =>
    exact reframeMethod_of_hasBody hbody hcompute (edit_bind_eq_ok.2 ⟨_, _, hplace, rfl⟩)

theorem Reframes.stocked (h : Reframes load className method p after q) :
    Pool.Stocked p q ∧ after.attributes.length = method.attributes.length := by
  cases h with
  | bodiless | kept => exact ⟨.refl, rfl⟩
  | renewed hbody hcompute hplace => exact ⟨(placeTable_stocked hplace).1, by simp⟩

end Method

/-! ### A method written again -/

theorem HasBody.body?_eq {p : Pool} {method : Member} {i : Nat} {body : Attribute} {code : Code}
    {shape : MethodShape} (h : HasBody p method i body code shape) :
    method.body? p = some code := by
  simp [Member.body?, h.first, h.getElem?, h.decode, Except.toOption]

theorem HasBody.shape?_eq {p : Pool} {method : Member} {i : Nat} {body : Attribute} {code : Code}
    {shape : MethodShape} (h : HasBody p method i body code shape) :
    method.shape? p = some shape := by
  obtain ⟨name, descriptor, isStatic⟩ := shape
  simp only [Member.shape?, h.name, h.descriptor, ← h.isStatic]
  rfl

theorem payload_le_encode {code : Code} {a : Attribute} (h : a ∈ code.attributes) :
    a.payload.length ≤ code.encode.length := by
  have hown : a.payload.length ≤ a.encode.length := (List.suffix_append _ a.payload).length_le
  have hlist : a.encode.length ≤ (Attribute.encodeList code.attributes).length := by
    obtain ⟨before, behind, hcut⟩ := List.append_of_mem h
    simp only [Attribute.encodeList, encode16, hcut, List.flatMap_append, List.flatMap_cons,
      List.length_append]
    omega
  have hcode : (Attribute.encodeList code.attributes).length ≤ code.encode.length :=
    (List.suffix_append _ (Attribute.encodeList code.attributes)).length_le
  omega

/-- A body with its table fits its count fields if it fits into an attribute itself. -/
theorem fits_of_placeTable {frames : List StackMapFrame} {code code' : Code} {p q : Pool}
    (h : placeTable frames code p = .ok code' q) (hcode : code.Fits)
    (hfew : code.attributes.length < 65535) (hsmall : code'.encode.length < 4294967296) :
    code'.Fits := by
  obtain ⟨-, hcode', hlength⟩ := placeTable_stocked h
  have hfit : Attribute.Fit code'.attributes :=
    ⟨by omega, fun a ha => Nat.lt_of_le_of_lt (payload_le_encode ha) hsmall⟩
  rw [hcode']
  exact ⟨hcode.code, hcode.handlers, hfit⟩

theorem HasBody.renew {p : Pool} {method : Member} {i : Nat} {body : Attribute} {code code' : Code}
    {shape : MethodShape} (h : HasBody p method i body code shape) (hfits : code'.Fits) :
    HasBody p { method with attributes := method.attributes.set i ⟨body.name, code'.encode⟩ } i
      ⟨body.name, code'.encode⟩ code' shape := by
  obtain ⟨hlt, hbody⟩ := List.getElem?_eq_some_iff.1 h.getElem?
  refine ⟨?_, by simp [hlt], Code.decode_eq_ok.2 ⟨rfl, hfits⟩, h.name, h.descriptor, h.isStatic⟩
  rw [← h.first]
  refine Attribute.position?_of_map_name ?_ p _
  have hname : (method.attributes.map (·.name))[i]? = some body.name := by
    rw [List.getElem?_map, h.getElem?]
    rfl
  obtain ⟨hlt', hname⟩ := List.getElem?_eq_some_iff.1 hname
  rw [List.map_set, ← hname, List.set_getElem_self]

section Again

variable {load : Loader} {className : String} {method after : Member} {o p q final : Pool}

/-- The pool in which the class was read, the pools around a method and the one that is left. -/
structure Spans (o p final : Pool) : Prop where
  before : Pool.Grown o p
  after : Pool.Grown p final

theorem Spans.sameAt (h : Spans o p final) {i : UInt16} (hi : o.SameAt final i) :
    p.SameAt final i :=
  hi.trans (h.before.sameAt h.after hi).symm

theorem Spans.hasBody (h : Spans o p final)
    (hnames : ∀ a ∈ method.attributes, o.SameAt final a.name) {i : Nat} {body : Attribute}
    {code : Code} {shape : MethodShape} (hbody : HasBody p method i body code shape) :
    method.body? o = some code ∧ HasBody final method i body code shape := by
  have hfirst : Attribute.position? p Code.attributeName method.attributes =
      Attribute.position? o Code.attributeName method.attributes :=
    Attribute.position?_of_sameAt (fun a ha => h.before.sameAt h.after (hnames a ha)) _
  have hlast : Attribute.position? final Code.attributeName method.attributes =
      Attribute.position? o Code.attributeName method.attributes :=
    Attribute.position?_of_sameAt hnames _
  constructor
  · rw [← hbody.body?_eq, Member.body?, Member.body?, hfirst]
  · exact ⟨(hlast.trans hfirst.symm).trans hbody.first, hbody.getElem?, hbody.decode,
      h.after.extends.text hbody.name, h.after.extends.text hbody.descriptor, hbody.isStatic⟩

theorem Spans.compute_eq (h : Spans o p final) {shape : MethodShape} {code : Code}
    (hbody : Rewritable load className o shape code)
    (hsame : ∀ i ∈ code.references, o.Agrees final Pool.lookupSteps i) :
    Flow.compute load p className shape code = Flow.compute load o className shape code ∧
      Flow.compute load final className shape code = Flow.compute load o className shape code := by
  constructor
  · exact Flow.compute_steady h.before (fun i hi j hj => h.before.sameAt h.after (hsame i hi j hj))
      hbody.size hbody.ends
  · exact Flow.compute_steady (h.before.trans h.after) hsame hbody.size hbody.ends

theorem Reframes.again (ho : o.Recalls Constant.isShared) (hp : Pool.Grown o p)
    (hq : Pool.Grown q final)
    (hsame : ∀ i ∈ method.references o, o.SameAt final i)
    (hbodies : ∀ code ∈ method.body? o, ∀ shape ∈ method.shape? final,
      Rewritable load className o shape code)
    (hpayloads : ∀ a ∈ after.attributes, a.payload.length < 4294967296)
    (h : Reframes load className method p after q) :
    Reframes load className after final after final := by
  have hspans : Spans o p final := ⟨hp, h.stocked.1.grown.trans hq⟩
  have hnames : ∀ a ∈ method.attributes, o.SameAt final a.name := fun _ ha =>
    Member.sameAt_of_attribute hsame ha
  have hposition : Attribute.position? final Code.attributeName method.attributes =
      Attribute.position? p Code.attributeName method.attributes :=
    Attribute.position?_of_sameAt (fun a ha => hspans.sameAt (hnames a ha)) _
  cases h with
  | bodiless hnone => exact .bodiless (hposition.trans hnone)
  | kept hbody hcompute hreport =>
    obtain ⟨hcode, hfinal⟩ := hspans.hasBody hnames hbody
    have hrewritable := hbodies _ hcode _ hfinal.shape?_eq
    obtain ⟨-, hreferences⟩ := Member.sameAt_of_body? hsame hcode
    obtain ⟨hp', hfinal'⟩ := hspans.compute_eq hrewritable hreferences
    exact .kept hfinal ((hfinal'.trans hp'.symm).trans hcompute) hreport
  | @renewed i body code code' shape computed _ hbody hcompute hplace =>
    obtain ⟨hcode, hfinal⟩ := hspans.hasBody hnames hbody
    have hrewritable := hbodies _ hcode _ hfinal.shape?_eq
    obtain ⟨hattributes, hreferences⟩ := Member.sameAt_of_body? hsame hcode
    obtain ⟨hp', hfinal'⟩ := hspans.compute_eq hrewritable hreferences
    -- the table is put where it stands already
    have hagain := placeTable_again (ho.grown hp) hq
      (fun a ha => hspans.sameAt (hattributes a ha)) (fun hempty => by
        have hone := hrewritable.tables computed (hp'.symm.trans hcompute)
          (compress_eq_nil.1 hempty)
        rwa [List.countP_congr fun a ha => by
          rw [Attribute.isNamed_of_sameAt (hp.sameAt hspans.after (hattributes a ha))]]) hplace
    have hnew : (⟨body.name, code'.encode⟩ : Attribute) ∈
        method.attributes.set i ⟨body.name, code'.encode⟩ := by
      obtain ⟨hlt, -⟩ := List.getElem?_eq_some_iff.1 hbody.getElem?
      exact List.mem_set hlt _
    have hfits := fits_of_placeTable hplace (Code.decode_eq_ok.1 hbody.decode).2
      hrewritable.attributes (hpayloads _ hnew)
    have hcompute' : Flow.compute load final className shape code' = .ok computed := by
      rw [(placeTable_stocked hplace).2.1]
      exact (hfinal'.trans hp'.symm).trans hcompute
    have hrun := Reframes.renewed (hfinal.renew hfits) hcompute' hagain
    simpa using hrun

end Again

/-! ### All methods -/

def SameSizes (methods written : List Member) : Prop :=
  written.length = methods.length ∧
    ∀ after ∈ written, ∃ m ∈ methods, after.attributes.length = m.attributes.length

section All

variable {load : Loader} {className : String} {methods written : List Member} {o p q final : Pool}

theorem stocked_mapM (h : methods.mapM (reframeMethod load className) p = .ok written q) :
    Pool.Stocked p q ∧ SameSizes methods written := by
  induction methods generalizing p written with
  | nil =>
    cases h
    exact ⟨.refl, rfl, by simp⟩
  | cons m methods ih =>
    rw [List.mapM_cons] at h
    obtain ⟨after, mid, hafter, h⟩ := edit_bind_eq_ok.1 h
    obtain ⟨rest, last, hrest, h⟩ := edit_bind_eq_ok.1 h
    cases h
    obtain ⟨hmid, hlength⟩ := (Reframes.of_reframeMethod hafter).stocked
    obtain ⟨hlast, hcount, hlengths⟩ := ih hrest
    refine ⟨hmid.trans hlast, by simp [hcount], List.forall_mem_cons.2 ⟨⟨m, by simp, hlength⟩, ?_⟩⟩
    intro other hother
    obtain ⟨m', hm', hlength'⟩ := hlengths other hother
    exact ⟨m', by simp [hm'], hlength'⟩

theorem mapM_again (ho : o.Recalls Constant.isShared) (hp : Pool.Grown o p)
    (hq : Pool.Grown q final)
    (hsame : ∀ m ∈ methods, ∀ i ∈ m.references o, o.SameAt final i)
    (hbodies : ∀ m ∈ methods, ∀ code ∈ m.body? o, ∀ shape ∈ m.shape? final,
      Rewritable load className o shape code)
    (hpayloads : ∀ m ∈ written, ∀ a ∈ m.attributes, a.payload.length < 4294967296)
    (h : methods.mapM (reframeMethod load className) p = .ok written q) :
    written.mapM (reframeMethod load className) final = .ok written final := by
  -- each method was written in a pool between the first and the last
  induction methods generalizing p written with
  | nil =>
    cases h
    rfl
  | cons m methods ih =>
    rw [List.mapM_cons] at h
    obtain ⟨after, mid, hafter, h⟩ := edit_bind_eq_ok.1 h
    obtain ⟨rest, last, hrest, h⟩ := edit_bind_eq_ok.1 h
    cases h
    have hafter := Reframes.of_reframeMethod hafter
    have hmid := hafter.stocked.1.grown
    have hlast := (stocked_mapM hrest).1.grown
    have hagain := hafter.again ho hp (hlast.trans hq) (hsame m (by simp))
      (hbodies m (by simp)) (hpayloads after (by simp))
    have hrest := ih (hp.trans hmid) (fun m' hm' => hsame m' (by simp [hm']))
      (fun m' hm' => hbodies m' (by simp [hm'])) (fun m' hm' => hpayloads m' (by simp [hm'])) hrest
    rw [List.mapM_cons]
    exact edit_bind_eq_ok.2 ⟨after, final, hagain.reframeMethod,
      edit_bind_eq_ok.2 ⟨rest, final, hrest, rfl⟩⟩

end All

theorem wellFormed_of_methods {c : ClassFile} {methods : List Member} {pool : Pool}
    (hc : c.Sized) (hpool : pool.Regular) (hmethods : SameSizes c.methods methods)
    (hlimits : InLimits { c with methods, pool }) : WellFormed { c with methods, pool } where
  pool := hpool.wellFormed hlimits.slots fun text htext => hlimits.texts _ htext rfl
  interfaces := hc.interfaces
  fields := hc.fields
  methods := by
    rw [hmethods.1]
    exact hc.methods
  members := by
    refine List.forall_mem_append.2 ⟨fun m hm => hc.members m (by simp [hm]), ?_⟩
    intro after hafter
    obtain ⟨m, hm, hlength⟩ := hmethods.2 after hafter
    have hfew := (hc.members m (by simp [hm])).1
    exact ⟨by omega, hlimits.payloads after hafter⟩
  attributes := hc.attributes

/-- A class that was written is read back as it is, and writing it again changes nothing. -/
theorem framed_again {data : Bytes} {c c' : ClassFile} {load : Loader} {computeFrames : Bool}
    (hc : decode data = .ok c) (h : c.framed load computeFrames = .ok c') (hlimits : c'.InLimits)
    (hsame : ∀ i ∈ c.references, c.pool.SameAt c'.pool i)
    (hbodies : computeFrames = true → 50 ≤ c.major → ∀ className, c.name = .ok className →
      ∀ m ∈ c.methods, ∀ code ∈ m.body? c.pool, ∀ shape ∈ m.shape? c'.pool,
        Rewritable load className c.pool shape code) :
    decode c'.encode = .ok c' ∧ c'.framed load computeFrames = .ok c' := by
  obtain ⟨⟨hregular, htabled⟩, hsized⟩ := decode_eq_ok hc
  unfold framed firstFrameVersion at h ⊢
  split at h
  · next hwanted =>
    obtain ⟨className, hname, h⟩ := bind_eq_ok.1 h
    split at h
    · next methods pool hrun =>
      cases h
      obtain ⟨hstocked, hlengths⟩ := stocked_mapM hrun
      have hgrown := hstocked.grown
      have hwell := wellFormed_of_methods hsized (hstocked.regular hregular) hlengths hlimits
      refine ⟨decode_encode hwell (hstocked.tabled htabled), ?_⟩
      have hreferences : ∀ m ∈ c.methods, ∀ i ∈ m.references c.pool, c.pool.SameAt pool i :=
        fun m hm i hi => hsame i (List.mem_flatMap.2 ⟨m, hm, hi⟩)
      have hagain : (methods.mapM (reframeMethod load className)).run pool = .ok methods pool :=
        mapM_again (indexed_decode hc).recalls .refl .refl hreferences
          (hbodies hwanted.1 hwanted.2 className hname) hlimits.payloads hrun
      rw [if_pos hwanted]
      refine bind_eq_ok.2 ⟨className, hgrown.extends.className hname, ?_⟩
      dsimp only
      rw [hagain]
      rfl
    · cases h
  · next hunwanted =>
    cases h
    have hwell := wellFormed_of_methods hsized hregular ⟨rfl, fun m hm => ⟨m, hm, rfl⟩⟩ hlimits
    exact ⟨decode_encode hwell htabled, if_neg hunwanted⟩

/-- A method that returns one of two values behind a join, one that loads a constant which no pool
holds, and one with a table that it does not need. -/
def restlessClass : ClassFile where
  pool := Pool.ofSlots #[.utf8 "M", .classInfo 1, .utf8 "pick", .utf8 "(ILA;)LA;", .utf8 "Code",
    .utf8 "fail", .utf8 "()V", .utf8 "StackMapTable"]
  thisClass := 2
  methods := [
    ⟨8, 3, 4, [⟨5, Code.encode ⟨1, 2, [26, 153, 0, 7, 43, 167, 0, 4, 1, 176], [], []⟩⟩]⟩,
    ⟨8, 6, 7, [⟨5, Code.encode ⟨1, 0, [18, 200, 87, 177], [], []⟩⟩]⟩,
    ⟨8, 1, 7, [⟨5, Code.encode ⟨0, 0, [177], [], [⟨8, [0, 0]⟩]⟩⟩]⟩]

theorem framed_again_restless : ∃ c c',
    decode restlessClass.encode = .ok c ∧ c.framed (fun _ => none) true = .ok c' ∧
    c.pool.slots.size < c'.pool.slots.size ∧ c'.methods[1]? = c.methods[1]? ∧
    decode c'.encode = .ok c' ∧ c'.framed (fun _ => none) true = .ok c' := by
  -- the references are checked as a list, since their type can be enumerated too
  have hrun : (decode restlessClass.encode).toOption.any (fun c =>
      (c.framed (fun _ => none) true).toOption.any fun c' => decide (
        (c'.InLimits ∧ (c.references.all fun i => c.pool.SameAt c'.pool i) = true) ∧
        (c.name.toOption = some "M" ∧ ∀ m ∈ c.methods, ∀ code ∈ m.body? c.pool,
          ∀ shape ∈ m.shape? c'.pool, Rewritable (fun _ => none) "M" c.pool shape code) ∧
        c.pool.slots.size < c'.pool.slots.size ∧ c'.methods[1]? = c.methods[1]?)) = true := by
    decide +kernel
  obtain ⟨c, hc, hrun⟩ := exists_ok_of_any hrun
  obtain ⟨c', hc', hrun⟩ := exists_ok_of_any hrun
  obtain ⟨⟨hlimits, hsame⟩, ⟨hname, hbodies⟩, hlonger, hkept⟩ := of_decide_eq_true hrun
  have hsame : ∀ i ∈ c.references, c.pool.SameAt c'.pool i := by simpa using hsame
  refine ⟨c, c', hc, hc', hlonger, hkept, framed_again hc hc' hlimits hsame ?_⟩
  intro _ _ className hclassName
  rw [toOption_eq_some.1 hname] at hclassName
  cases hclassName
  exact hbodies

/-- A method that needs no frames, with two tables of them. Only the first one is taken out, so that
the second one goes when the class is written again. -/
def twoTablesClass : ClassFile where
  pool := Pool.ofSlots #[.utf8 "A", .classInfo 1, .utf8 "m", .utf8 "()V", .utf8 "Code",
    .utf8 "StackMapTable"]
  thisClass := 2
  methods := [⟨9, 3, 4, [⟨5, Code.encode ⟨0, 0, [177], [], [⟨6, [0, 0]⟩, ⟨6, [0, 0]⟩]⟩⟩]⟩]

/-- A method that loads the constant in the slot behind the next one. The frames of the other method
put a class there. -/
def lateConstantClass : ClassFile where
  pool := Pool.ofSlots #[.utf8 "A", .classInfo 1, .utf8 "m", .utf8 "(ILB;)V", .utf8 "Code",
    .utf8 "n", .utf8 "()V"]
  thisClass := 2
  methods := [
    ⟨9, 6, 7, [⟨5, Code.encode ⟨1, 0, [18, 9, 87, 3, 153, 0, 4, 0, 177], [], []⟩⟩]⟩,
    ⟨9, 3, 4, [⟨5, Code.encode ⟨1, 2, [26, 153, 0, 7, 43, 167, 0, 4, 1, 87, 177], [], []⟩⟩]⟩]

/-- A body with an attribute whose name is the next text to be added, that of the table of
frames. -/
def lateTableClass : ClassFile where
  pool := Pool.ofSlots #[.utf8 "A", .classInfo 1, .utf8 "m", .utf8 "(I)V", .utf8 "Code"]
  thisClass := 2
  methods := [⟨9, 3, 4, [⟨5, Code.encode ⟨1, 1, [26, 153, 0, 4, 0, 177], [], [⟨6, [1]⟩]⟩⟩]⟩]

def ChangesAgain (e : ClassFile) : Prop :=
  ∃ c c' d d', decode e.encode = .ok c ∧
    (∀ m ∈ c.methods, ∀ code ∈ m.body? c.pool,
      code.code.length ≤ 65535 ∧ code.attributes.length < 65535) ∧
    c.framed (fun _ => none) true = .ok c' ∧ c'.InLimits ∧
    decode c'.encode = .ok d ∧ d.framed (fun _ => none) true = .ok d' ∧ d'.encode ≠ c'.encode

theorem changesAgain_of_run {e : ClassFile} (h : (decode e.encode).toOption.any (fun c =>
    decide (∀ m ∈ c.methods, ∀ code ∈ m.body? c.pool,
      code.code.length ≤ 65535 ∧ code.attributes.length < 65535) &&
    (c.framed (fun _ => none) true).toOption.any fun c' => decide c'.InLimits &&
      (decode c'.encode).toOption.any fun d => (d.framed (fun _ => none) true).toOption.any
        fun d' => decide (d'.encode ≠ c'.encode)) = true) : e.ChangesAgain := by
  obtain ⟨c, hc, h⟩ := exists_ok_of_any h
  obtain ⟨hsmall, h⟩ := Bool.and_eq_true_iff.1 h
  obtain ⟨c', hc', h⟩ := exists_ok_of_any h
  obtain ⟨hlimits, h⟩ := Bool.and_eq_true_iff.1 h
  obtain ⟨d, hd, h⟩ := exists_ok_of_any h
  obtain ⟨d', hd', hdiffer⟩ := exists_ok_of_any h
  exact ⟨c, c', d, d', hc, of_decide_eq_true hsmall, hc', of_decide_eq_true hlimits, hd, hd',
    of_decide_eq_true hdiffer⟩

/-- A second table, an index that comes to name a class and one that comes to name the table each
make a difference when the class is written again. -/
theorem changesAgain_cases : twoTablesClass.ChangesAgain ∧ lateConstantClass.ChangesAgain ∧
    lateTableClass.ChangesAgain := by
  refine ⟨changesAgain_of_run ?_, changesAgain_of_run ?_, changesAgain_of_run ?_⟩
  · decide +kernel
  · decide +kernel
  · decide +kernel

end ClassFile

end ClassArchive
