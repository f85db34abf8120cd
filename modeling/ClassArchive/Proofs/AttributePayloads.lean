import ClassArchive.Proofs.AttributeCodec

/-!
The payload of an attribute and its typed view determine each other. A payload is accepted exactly
if it is what the encoder makes of a value that fits, and then that value is the view. Annotations
nest without a limit, so fitting is defined along the value; the bound of the reader comes from the
length of the payload.
-/
set_option autoImplicit false

namespace ClassArchive

open Reader

theorem length_le_flatMap {α : Type} (write : α → Bytes) {xs : List α} {x : α} (hx : x ∈ xs) :
    (write x).length ≤ (xs.flatMap write).length := by
  rw [List.flatMap_def]
  exact (List.sublist_flatten_of_mem (List.mem_map_of_mem hx)).length_le

namespace ElementValue

inductive Fits : ElementValue → Prop
  | const {tag : UInt8} {index : UInt16} : tag ∈ constTags → Fits (.const tag index)
  | enum {type name : UInt16} : Fits (.enum type name)
  | classLiteral {descriptor : UInt16} : Fits (.classLiteral descriptor)
  | nested {type : UInt16} {elements : List (UInt16 × ElementValue)} : elements.length < 65536 →
      (∀ e ∈ elements, Fits e.2) → Fits (.nested type elements)
  | array {values : List ElementValue} : values.length < 65536 → (∀ v ∈ values, Fits v) →
      Fits (.array values)

theorem fits_of_fitsWithin {depth : Nat} {v : ElementValue} (h : FitsWithin depth v) :
    v.Fits := by
  induction depth generalizing v with
  | zero => exact h.elim
  | succ depth ih =>
    cases v with
    | const tag index => exact .const h
    | «enum» type name => exact .enum
    | classLiteral descriptor => exact .classLiteral
    | nested type elements => exact .nested h.1 fun e he => ih (h.2 e he)
    | array values => exact .array h.1 fun v hv => ih (h.2 v hv)

theorem exists_depth {v : ElementValue} {depth : Nat} (h : v.encode.length ≤ depth) :
    ∃ below, depth = below + 1 := by
  have hpos : 0 < v.encode.length := by cases v <;> simp [encode]
  exact ⟨depth - 1, by omega⟩

/-- Every level takes a byte at least, so a value nests no deeper than its bytes are long. -/
theorem Fits.within {v : ElementValue} (h : v.Fits) {depth : Nat}
    (hdepth : v.encode.length ≤ depth) : FitsWithin depth v := by
  induction h generalizing depth with
  | const htag =>
    obtain ⟨below, rfl⟩ := exists_depth hdepth
    exact htag
  | «enum» =>
    obtain ⟨below, rfl⟩ := exists_depth hdepth
    trivial
  | classLiteral =>
    obtain ⟨below, rfl⟩ := exists_depth hdepth
    trivial
  | nested hlength _ ih =>
    obtain ⟨below, rfl⟩ := exists_depth hdepth
    refine ⟨hlength, fun e he => ih e he ?_⟩
    have hpart := length_le_flatMap encodeElement he
    simp only [encodeElement, encode_nested, encode16, List.length_cons, List.length_append]
      at hpart hdepth
    omega
  | array hlength _ ih =>
    obtain ⟨below, rfl⟩ := exists_depth hdepth
    refine ⟨hlength, fun v hv => ih v hv ?_⟩
    have hpart := length_le_flatMap encode hv
    simp only [encode_array, encode16, List.length_cons, List.length_append] at hdepth
    omega

theorem fits_iff {v : ElementValue} : v.Fits ↔ FitsWithin v.encode.length v :=
  ⟨fun h => h.within (Nat.le_refl _), fits_of_fitsWithin⟩

instance decidableFitsWithin : (depth : Nat) → DecidablePred (FitsWithin depth)
  | 0, _ => isFalse id
  | _ + 1, .const tag _ => inferInstanceAs (Decidable (tag ∈ constTags))
  | _ + 1, .enum _ _ => isTrue trivial
  | _ + 1, .classLiteral _ => isTrue trivial
  | depth + 1, .nested _ elements =>
      have := decidableFitsWithin depth
      inferInstanceAs (Decidable (elements.length < 65536 ∧ ∀ e ∈ elements, FitsWithin depth e.2))
  | depth + 1, .array values =>
      have := decidableFitsWithin depth
      inferInstanceAs (Decidable (values.length < 65536 ∧ ∀ v ∈ values, FitsWithin depth v))

instance : DecidablePred Fits := fun _ => decidable_of_iff _ fits_iff.symm

theorem decode_eq_ok {data : Bytes} {v : ElementValue} :
    decode data = .ok v ↔ data = v.encode ∧ v.Fits := by
  rw [decode, (codes (depthBound data)).payload_eq_ok]
  constructor
  · rintro ⟨rfl, hfit⟩
    exact ⟨rfl, fits_of_fitsWithin hfit⟩
  · -- the bound on the depth is taken from the payload, which is the encoding here
    rintro ⟨rfl, hfit⟩
    exact ⟨rfl, hfit.within (Nat.le_succ _)⟩

end ElementValue

namespace AnnotationInfo

def Fits (a : AnnotationInfo) : Prop :=
  a.elements.length < 65536 ∧ ∀ e ∈ a.elements, e.2.Fits

instance : DecidablePred Fits := fun a =>
  inferInstanceAs (Decidable (a.elements.length < 65536 ∧ ∀ e ∈ a.elements, e.2.Fits))

/-- A bound on the bytes bounds the depth of all values in a table. -/
theorem fits_iff_within {a : AnnotationInfo} {depth : Nat} (hdepth : a.encode.length ≤ depth) :
    a.Fits ↔ a.elements.length < 65536 ∧ ∀ e ∈ a.elements, ElementValue.FitsWithin depth e.2 := by
  refine and_congr_right fun _ => forall₂_congr fun e he => ?_
  constructor
  · intro hfit
    apply hfit.within
    have hpart := length_le_flatMap ElementValue.encodeElement he
    simp only [encode_eq, encode16, ElementValue.encodeElement, List.length_append]
      at hpart hdepth
    omega
  · exact ElementValue.fits_of_fitsWithin

theorem decodeTable_eq_ok {name : String} {data : Bytes} {as : List AnnotationInfo} :
    decodeTable name data = .ok as ↔
      data = encodeTable as ∧ as.length < 65536 ∧ ∀ a ∈ as, a.Fits := by
  rw [decodeTable, (codes (ElementValue.depthBound data)).list16.payload_eq_ok]
  refine and_congr_right fun hdata => and_congr_right fun _ => forall₂_congr fun a ha => ?_
  refine (fits_iff_within ?_).symm
  have hpart := length_le_flatMap encode ha
  simp only [ElementValue.depthBound, hdata, encode16, List.length_append]
  omega

theorem decodeParameters_eq_ok {name : String} {data : Bytes}
    {tables : List (List AnnotationInfo)} :
    decodeParameters name data = .ok tables ↔ data = encodeParameters tables ∧
      tables.length < 256 ∧ ∀ as ∈ tables, as.length < 65536 ∧ ∀ a ∈ as, a.Fits := by
  rw [decodeParameters, (codes (ElementValue.depthBound data)).list16.list8.payload_eq_ok]
  refine and_congr_right fun hdata => and_congr_right fun _ => forall₂_congr fun as has =>
    and_congr_right fun _ => forall₂_congr fun a ha => ?_
  refine (fits_iff_within ?_).symm
  have hpart := length_le_flatMap encode ha
  have htable := length_le_flatMap (encode16 encode) has
  simp only [ElementValue.depthBound, hdata, encode8, encode16, List.length_cons,
    List.length_append] at htable ⊢
  omega

end AnnotationInfo

/-! ### All views -/

theorem LocalVariable.decodeTable_eq_ok {name : String} {data : Bytes} {vs : List LocalVariable} :
    decodeTable name data = .ok vs ↔ data = encodeTable vs ∧ vs.length < 65536 := by
  rw [decodeTable, codes.list16.payload_eq_ok]
  simp [encodeTable]

theorem MethodParameter.decodeTable_eq_ok {data : Bytes} {ps : List MethodParameter} :
    decodeTable data = .ok ps ↔ data = encodeTable ps ∧ ps.length < 256 := by
  rw [decodeTable, codes.list8.payload_eq_ok]
  simp [encodeTable]

theorem InnerClass.decodeTable_eq_ok {data : Bytes} {cs : List InnerClass} :
    decodeTable data = .ok cs ↔ data = encodeTable cs ∧ cs.length < 65536 := by
  rw [decodeTable, codes.list16.payload_eq_ok]
  simp [encodeTable]

/-- For each view of an attribute, a payload is accepted with a value exactly if it is the encoding
of that value and the value fits its count fields. -/
theorem Attribute.decode_views_eq_ok :
    (∀ data c, Code.decode data = .ok c ↔ data = c.encode ∧ c.Fits) ∧
    (∀ name data vs, LocalVariable.decodeTable name data = .ok vs ↔
      data = LocalVariable.encodeTable vs ∧ vs.length < 65536) ∧
    (∀ data ps, MethodParameter.decodeTable data = .ok ps ↔
      data = MethodParameter.encodeTable ps ∧ ps.length < 256) ∧
    (∀ data cs, InnerClass.decodeTable data = .ok cs ↔
      data = InnerClass.encodeTable cs ∧ cs.length < 65536) ∧
    (∀ data ms, BootstrapMethod.decodeTable data = .ok ms ↔
      data = BootstrapMethod.encodeTable ms ∧ ms.length < 65536 ∧
        ∀ m ∈ ms, m.arguments.length < 65536) ∧
    (∀ data cs, RecordComponent.decodeTable data = .ok cs ↔
      data = RecordComponent.encodeTable cs ∧ cs.length < 65536 ∧
        ∀ c ∈ cs, Attribute.Fit c.attributes) ∧
    (∀ name data as, AnnotationInfo.decodeTable name data = .ok as ↔
      data = AnnotationInfo.encodeTable as ∧ as.length < 65536 ∧ ∀ a ∈ as, a.Fits) ∧
    (∀ name data tables, AnnotationInfo.decodeParameters name data = .ok tables ↔
      data = AnnotationInfo.encodeParameters tables ∧ tables.length < 256 ∧
        ∀ as ∈ tables, as.length < 65536 ∧ ∀ a ∈ as, a.Fits) ∧
    (∀ data v, ElementValue.decode data = .ok v ↔ data = v.encode ∧ v.Fits) := by
  refine ⟨?code, ?locals, ?parameters, ?inner, ?bootstrap, ?record, ?annotations, ?perParameter,
    ?default⟩
  case code => exact fun _ _ => Code.decode_eq_ok
  case locals => exact fun _ _ _ => LocalVariable.decodeTable_eq_ok
  case parameters => exact fun _ _ => MethodParameter.decodeTable_eq_ok
  case inner => exact fun _ _ => InnerClass.decodeTable_eq_ok
  case bootstrap => exact fun _ _ => BootstrapMethod.codes.list16.payload_eq_ok _
  case record => exact fun _ _ => RecordComponent.codes.list16.payload_eq_ok _
  case annotations => exact fun _ _ _ => AnnotationInfo.decodeTable_eq_ok
  case perParameter => exact fun _ _ _ => AnnotationInfo.decodeParameters_eq_ok
  case default => exact fun _ _ => ElementValue.decode_eq_ok

/-- An annotation in a list of lists in an annotation. -/
def AnnotationInfo.deep : AnnotationInfo :=
  { type := 1, elements := [(2, .enum 3 4), (5, .array [.array [.classLiteral 6,
    .nested 7 [(8, .const 115 9), (8, .array [])]]])] }

theorem Attribute.decode_views_eq_ok_deep : AnnotationInfo.deep.Fits ∧
    AnnotationInfo.decodeTable AnnotationInfo.visibleName
      (AnnotationInfo.encodeTable [.deep, .deep]) = .ok [.deep, .deep] ∧
    AnnotationInfo.decodeParameters AnnotationInfo.invisibleParameterName
      (AnnotationInfo.encodeParameters [[], [.deep]]) = .ok [[], [.deep]] := by
  have hdeep : AnnotationInfo.deep.Fits := by decide
  obtain ⟨-, -, -, -, -, -, htable, hparameters, -⟩ := Attribute.decode_views_eq_ok
  refine ⟨hdeep, (htable _ _ _).2 ⟨rfl, by decide, ?_⟩, (hparameters _ _ _).2 ⟨rfl, by decide, ?_⟩⟩
  · simp [hdeep]
  · simp [hdeep]

end ClassArchive
