import ClassArchive.ClassFile.Framing
import ClassArchive.Proofs.AttributeCodec
import ClassArchive.Proofs.ComputedFrames
import ClassArchive.Proofs.StackMapCodec

/-!
What new frames change in a class. The methods share one pool, which grows from method to method; a
table that was written for one of them is still read back in the pool that is left in the end.
-/
set_option autoImplicit false

namespace ClassArchive

open Pool.Edit

namespace ClassFile

/-- The bounds on a body and on its frames that reading does not check. -/
structure InBounds (code : Code) (computed : ComputedFrames) : Prop where
  size : code.code.length ≤ 65535
  attributes : code.attributes.length < 65535
  heights : ∀ state ∈ computed.states, state.stack.length ≤ 65535

structure HoldsFrames (final : Pool) (computed : ComputedFrames) (table : Attribute) : Prop where
  name : final.text table.name = .ok StackMap.attributeName
  frames : StackMap.decode final table.payload =
    .ok (StackMap.compress computed.initial computed.states)

/-- The ways in which computed frames get into a body. The first pool says which attribute is the
table that the body has, the second one is to read the table that it gets. -/
inductive Retabled (p final : Pool) (computed : ComputedFrames) (code : Code) : Code → Prop where
  | absent (hstates : computed.states = [])
      (hnone : Attribute.position? p StackMap.attributeName code.attributes = none) :
      Retabled p final computed code code
  | removed {i : Nat} (hstates : computed.states = [])
      (hfirst : Attribute.position? p StackMap.attributeName code.attributes = some i) :
      Retabled p final computed code { code with attributes := code.attributes.eraseIdx i }
  | replaced {i : Nat} {table : Attribute} (hstates : computed.states ≠ [])
      (hfirst : Attribute.position? p StackMap.attributeName code.attributes = some i)
      (htable : HoldsFrames final computed table) :
      Retabled p final computed code { code with attributes := code.attributes.set i table }
  | appended {table : Attribute} (hstates : computed.states ≠ [])
      (hnone : Attribute.position? p StackMap.attributeName code.attributes = none)
      (htable : HoldsFrames final computed table) :
      Retabled p final computed code { code with attributes := code.attributes ++ [table] }

structure HasBody (p : Pool) (method : Member) (i : Nat) (body : Attribute) (code : Code)
    (shape : MethodShape) : Prop where
  first : Attribute.position? p Code.attributeName method.attributes = some i
  getElem? : method.attributes[i]? = some body
  decode : Code.decode body.payload = .ok code
  name : p.text method.name = .ok shape.name
  descriptor : p.text method.descriptor = .ok shape.descriptor
  isStatic : shape.isStatic = Access.isStatic method.access

inductive Reframed (load : Loader) (className : String) (p final : Pool) (method : Member) :
    Member → Prop where
  | bodiless (hnone : Attribute.position? p Code.attributeName method.attributes = none) :
      Reframed load className p final method method
  | kept {i : Nat} {body : Attribute} {code : Code} {shape : MethodShape} {error : FrameError}
      (hbody : HasBody p method i body code shape)
      (hcompute : Flow.compute load p className shape code = .error error)
      (hreport : error.breakdown? = none) : Reframed load className p final method method
  | renewed {i : Nat} {body : Attribute} {code code' : Code} {shape : MethodShape}
      {computed : ComputedFrames} (hbody : HasBody p method i body code shape)
      (hcompute : Flow.compute load p className shape code = .ok computed)
      (htable : InBounds code computed → Retabled p final computed code code')
      (hdecode : InBounds code computed →
        (∀ a ∈ code'.attributes, a ∉ code.attributes → a.payload.length < 4294967296) →
          Code.decode code'.encode = .ok code') :
      Reframed load className p final method
        { method with attributes := method.attributes.set i { body with payload := code'.encode } }

/-- A method and the pool that its new frames leave. Of this `Reframed` keeps what is still seen in
a later pool. -/
inductive Reframes (load : Loader) (className : String) (method : Member) (p : Pool) :
    Member → Pool → Prop where
  | bodiless (hnone : Attribute.position? p Code.attributeName method.attributes = none) :
      Reframes load className method p method p
  | kept {i : Nat} {body : Attribute} {code : Code} {shape : MethodShape} {error : FrameError}
      (hbody : HasBody p method i body code shape)
      (hcompute : Flow.compute load p className shape code = .error error)
      (hreport : error.breakdown? = none) : Reframes load className method p method p
  | renewed {i : Nat} {body : Attribute} {code code' : Code} {shape : MethodShape}
      {computed : ComputedFrames} {q : Pool} (hbody : HasBody p method i body code shape)
      (hcompute : Flow.compute load p className shape code = .ok computed)
      (hplace : placeTable (StackMap.compress computed.initial computed.states) code p =
        .ok code' q) :
      Reframes load className method p { method with
        attributes := method.attributes.set i { body with payload := code'.encode } } q

/-! ### One method -/

theorem liftRead_eq_ok {α : Type} {x : Except FormatError α} {a : α} {p q : Pool} :
    liftRead x p = .ok a q ↔ x = .ok a ∧ p = q := by
  cases x with
  | ok b =>
    constructor
    · intro h
      cases h
      exact ⟨rfl, rfl⟩
    · rintro ⟨⟨⟩, rfl⟩
      rfl
  | error e =>
    constructor
    · intro h
      cases h
    · rintro ⟨⟨⟩, -⟩

theorem Reframes.of_reframeMethod {load : Loader} {className : String} {method after : Member}
    {p q : Pool} (h : reframeMethod load className method p = .ok after q) :
    Reframes load className method p after q := by
  obtain ⟨_, _, hget, h⟩ := edit_bind_eq_ok.1 h
  cases hget
  cases hposition : Attribute.position? p Code.attributeName method.attributes with
  | none =>
    rw [hposition] at h
    cases h
    exact .bodiless hposition
  | some i =>
    -- a position that was found is one of the list
    obtain ⟨hlt, -⟩ := List.findIdx?_eq_some_iff_getElem.1 hposition
    have hi : method.attributes[i]? = some method.attributes[i] := List.getElem?_eq_getElem hlt
    rw [hposition] at h
    simp only [hi] at h
    obtain ⟨_, _, hget, h⟩ := edit_bind_eq_ok.1 h
    cases hget
    obtain ⟨code, _, hread, h⟩ := edit_bind_eq_ok.1 h
    obtain ⟨hcode, rfl⟩ := liftRead_eq_ok.1 hread
    obtain ⟨name, _, hread, h⟩ := edit_bind_eq_ok.1 h
    obtain ⟨hname, rfl⟩ := liftRead_eq_ok.1 hread
    obtain ⟨descriptor, _, hread, h⟩ := edit_bind_eq_ok.1 h
    obtain ⟨hdescriptor, rfl⟩ := liftRead_eq_ok.1 hread
    let shape : MethodShape := { name, descriptor, isStatic := Access.isStatic method.access }
    have hbody : HasBody p method i method.attributes[i] code shape :=
      ⟨hposition, hi, hcode, hname, hdescriptor, rfl⟩
    cases hcompute : Flow.compute load p className shape code with
    | error error =>
      simp only [hcompute, shape] at h
      cases hreport : error.breakdown? with
      | some cause =>
        rw [hreport] at h
        cases h
      | none =>
        rw [hreport] at h
        cases h
        exact .kept hbody hcompute hreport
    | ok computed =>
      simp only [hcompute, shape] at h
      obtain ⟨code', _, hplace, h⟩ := edit_bind_eq_ok.1 h
      cases h
      exact .renewed hbody hcompute hplace

theorem compress_eq_nil {initial : List VerificationType} {states : List FrameState} :
    StackMap.compress initial states = [] ↔ states = [] := by
  rw [← List.length_eq_zero_iff, StackMap.compress, StackMap.length_compressFrom,
    List.length_eq_zero_iff]

theorem placeTable_eq_ok {load : Loader} {className : String} {shape : MethodShape} {p q : Pool}
    {code code' : Code} {computed : ComputedFrames} (hp : p.Recalls Constant.isShared)
    (hcompute : Flow.compute load p className shape code = .ok computed)
    (h : placeTable (StackMap.compress computed.initial computed.states) code p = .ok code' q) :
    Pool.Grown p q ∧ ∀ final, q.Extends final → InBounds code computed →
      Retabled p final computed code code' := by
  obtain ⟨_, _, hget, h⟩ := edit_bind_eq_ok.1 h
  cases hget
  split at h
  · next hempty =>
    have hstates := compress_eq_nil.1 (List.isEmpty_iff.1 hempty)
    cases hposition : Attribute.position? p StackMap.attributeName code.attributes with
    | some i =>
      rw [hposition] at h
      cases h
      exact ⟨.refl, fun _ _ _ => .removed hstates hposition⟩
    | none =>
      rw [hposition] at h
      cases h
      exact ⟨.refl, fun _ _ _ => .absent hstates hposition⟩
  · next hsome =>
    have hstates : computed.states ≠ [] := fun hnil =>
      hsome (List.isEmpty_iff.2 (compress_eq_nil.2 hnil))
    obtain ⟨payload, mid, hpayload, h⟩ := edit_bind_eq_ok.1 h
    obtain ⟨name, last, hname, h⟩ := edit_bind_eq_ok.1 h
    obtain ⟨hmid, hdecode⟩ := StackMap.ensures_encode_compress _ _ hp hpayload
    obtain ⟨hlast, htext⟩ := ensures_addText _ (hp.grown hmid) hname
    cases h
    refine ⟨hmid.trans hlast, fun final hfinal hbounds => ?_⟩
    obtain ⟨hfew, hlocals⟩ := Flow.sizes_of_compute hcompute
    have hcount := code.maxLocals.toNat_lt
    -- the name is added after the frames, so the frames are read in a pool that has grown since
    have htable : HoldsFrames final computed { name, payload } := by
      refine ⟨htext final hfinal, hdecode final (hlast.extends.trans hfinal) ?_ ?_⟩
      · exact Nat.le_trans hfew hbounds.size
      · intro state hstate
        have hlocal := hlocals state hstate
        exact ⟨by omega, hbounds.heights state hstate⟩
    unfold Attribute.place
    split
    · next i hfirst => exact .replaced hstates hfirst htable
    · next hnone => exact .appended hstates hnone htable

theorem Retabled.fits {p final : Pool} {computed : ComputedFrames} {code code' : Code}
    (h : Retabled p final computed code code') (hcode : code.Fits)
    (hfew : code.attributes.length < 65535)
    (hnew : ∀ a ∈ code'.attributes, a ∉ code.attributes → a.payload.length < 4294967296) :
    code'.Fits := by
  have hfit : Attribute.Fit code'.attributes := by
    constructor
    · cases h with
      | absent => exact hcode.attributes.1
      | removed =>
        exact Nat.lt_of_le_of_lt (List.eraseIdx_sublist _ _).length_le hcode.attributes.1
      | replaced =>
        rw [List.length_set]
        exact hcode.attributes.1
      | appended =>
        rw [List.length_append]
        exact Nat.succ_lt_succ hfew
    · intro a ha
      by_cases hold : a ∈ code.attributes
      · exact hcode.attributes.2 a hold
      · exact hnew a ha hold
  cases h <;> exact ⟨hcode.code, hcode.handlers, hfit⟩

theorem reframeMethod_eq_ok {load : Loader} {className : String} {method after : Member}
    {p q : Pool} (hp : p.Recalls Constant.isShared)
    (h : reframeMethod load className method p = .ok after q) :
    Pool.Grown p q ∧
      ∀ final, q.Extends final → Reframed load className p final method after := by
  cases Reframes.of_reframeMethod h with
  | bodiless hnone => exact ⟨.refl, fun _ _ => .bodiless hnone⟩
  | kept hbody hcompute hreport => exact ⟨.refl, fun _ _ => .kept hbody hcompute hreport⟩
  | renewed hbody hcompute hplace =>
    obtain ⟨hgrown, htable⟩ := placeTable_eq_ok hp hcompute hplace
    refine ⟨hgrown, fun final hfinal => .renewed hbody hcompute (htable final hfinal) ?_⟩
    intro hbounds hnew
    have hfits := (htable final hfinal hbounds).fits (Code.decode_eq_ok.1 hbody.decode).2
      hbounds.attributes hnew
    exact Code.decode_eq_ok.2 ⟨rfl, hfits⟩

/-! ### All methods -/

/-- A class as it is written. Apart from the methods and from what is appended to the pool nothing
changes. The frames of a method are computed in the pool that the methods before it leave, with the
result that they have in the pool of the class if they have one there, and are read back in the pool
of the written class. -/
theorem framed_eq_ok {data : Bytes} {c c' : ClassFile} {load : Loader} {computeFrames : Bool}
    (hc : decode data = .ok c) (h : c.framed load computeFrames = .ok c') :
    (computeFrames = false ∨ c.major < 50 → c' = c) ∧
    c.pool.slots.toList <+: c'.pool.slots.toList ∧
    c' = { c with pool := c'.pool, methods := c'.methods } ∧
    c'.methods.length = c.methods.length ∧
    (computeFrames = true → 50 ≤ c.major → ∃ className, c.name = .ok className ∧
      ∀ (i : Nat) (method after : Member), c.methods[i]? = some method →
        c'.methods[i]? = some after → ∃ earlier p,
          (c.methods.take i).mapM (reframeMethod load className) c.pool = .ok earlier p ∧
          Pool.Grown c.pool p ∧ Pool.Grown p c'.pool ∧
          (∀ shape code, Persists (Flow.compute load c.pool className shape code)
            (Flow.compute load p className shape code)) ∧
          Reframed load className p c'.pool method after) := by
  unfold framed firstFrameVersion at h
  split at h
  · next hwanted =>
    obtain ⟨className, hname, h⟩ := bind_eq_ok.1 h
    split at h
    · next methods pool hrun =>
      cases h
      have hrecalls := (indexed_decode hc).recalls
      obtain ⟨hgrown, hlength, hsteps⟩ :=
        Pool.Edit.mapM_eq_ok (fun _ _ _ _ hp hstep => (reframeMethod_eq_ok hp hstep).1)
          hrecalls hrun
      refine ⟨?_, hgrown.isPrefix_slots, rfl, hlength, fun _ _ => ⟨className, hname, ?_⟩⟩
      · rintro (hoff | hold)
        · simp [hoff] at hwanted
        · exact absurd hwanted.2 (UInt16.not_le.2 hold)
      · intro i method after hmethod hafter
        obtain ⟨earlier, p, next, htake, hp, hstep, hnext⟩ := hsteps i method after hmethod hafter
        -- what the later methods append keeps the table of this one readable
        obtain ⟨hmid, hreframed⟩ := reframeMethod_eq_ok (hrecalls.grown hp) hstep
        exact ⟨earlier, p, htake, hp, hmid.trans hnext,
          fun shape code => Flow.persists_compute hp className shape code,
          hreframed pool hnext.extends⟩
    · cases h
  · next hunwanted =>
    cases h
    exact ⟨fun _ => rfl, List.prefix_refl _, rfl, rfl,
      fun hon hnew => absurd ⟨hon, hnew⟩ hunwanted⟩

/-- One of two values, null or the second argument, is returned behind a join. -/
def joiningClass : ClassFile where
  pool := Pool.ofSlots #[.utf8 "M", .classInfo 1, .utf8 "pick", .utf8 "(ILA;)LA;", .utf8 "Code"]
  thisClass := 2
  methods := [⟨8, 3, 4, [⟨5, Code.encode
    { maxStack := 1, maxLocals := 2, code := [26, 153, 0, 7, 43, 167, 0, 4, 1, 176] }⟩]⟩]

theorem framed_eq_ok_joining : ∃ c c' className method after p,
    decode joiningClass.encode = .ok c ∧ c.framed (fun _ => none) true = .ok c' ∧
    c.methods[0]? = some method ∧ c'.methods[0]? = some after ∧ after ≠ method ∧
    c.name = .ok className ∧ Reframed (fun _ => none) className p c'.pool method after := by
  have hrun : (decode joiningClass.encode).toOption.any (fun c =>
      c.major = 52 && (c.framed (fun _ => none) true).toOption.any fun c' =>
        c.methods.length = 1 && c'.methods.head? ≠ c.methods.head?) = true := by
    decide +kernel
  obtain ⟨c, hc, hrun⟩ := exists_ok_of_any hrun
  obtain ⟨hmajor, hrun⟩ := Bool.and_eq_true_iff.1 hrun
  obtain ⟨c', hc', hrun⟩ := exists_ok_of_any hrun
  obtain ⟨hone, hdiffer⟩ := Bool.and_eq_true_iff.1 hrun
  have hone := of_decide_eq_true hone
  have hdiffer := of_decide_eq_true hdiffer
  obtain ⟨-, -, -, hlength, hmethods⟩ := framed_eq_ok hc hc'
  obtain ⟨className, hname, hmethods⟩ := hmethods rfl (by simp [of_decide_eq_true hmajor])
  obtain ⟨method, hmethod⟩ := List.length_eq_one_iff.1 hone
  obtain ⟨after, hafter⟩ := List.length_eq_one_iff.1 (hlength.trans hone)
  rw [hmethod, hafter] at hdiffer
  have hfirst : c.methods[0]? = some method := by simp [hmethod]
  have hfirst' : c'.methods[0]? = some after := by simp [hafter]
  obtain ⟨_, p, _, _, _, _, hreframed⟩ := hmethods 0 method after hfirst hfirst'
  exact ⟨c, c', className, method, after, p, hc, hc', hfirst, hfirst', by simpa using hdiffer,
    hname, hreframed⟩

end ClassFile

end ClassArchive
