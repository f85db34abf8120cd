import ClassArchive.Proofs.Codec
import ClassArchive.Attribute.Code
import ClassArchive.Attribute.Table
import ClassArchive.Attribute.Annotations

/-!
The payloads of attributes are exactly what their writers give. A value fits if its lists have
lengths that their count fields can hold.
-/
set_option autoImplicit false

namespace ClassArchive

open Reader

def Attribute.Fit (attributes : List Attribute) : Prop :=
  attributes.length < 65536 ∧ ∀ a ∈ attributes, a.payload.length < 4294967296

instance : DecidablePred Attribute.Fit := fun attributes =>
  inferInstanceAs (Decidable (attributes.length < 65536 ∧
    ∀ a ∈ attributes, a.payload.length < 4294967296))

theorem Attribute.codes : Attribute.read.Codes Attribute.encode
    fun a => a.payload.length < 4294967296 := by
  refine (codes_u16.bind name (fun _ => codes_u32.bind (·.payload.length.toUInt32) (fun n =>
    (codes_bytes n.toNat).bind payload (fun _ => codes_pure _) ?_) ?_) ?_).congr ?_ ?_
  · exact fun _ _ h => congrArg payload h
  · exact fun _ _ h => (eq_toNat_iff.1 h.1).2
  · exact fun _ _ h => congrArg name h.2.2
  · intro a
    simp only [eq_toNat_iff, true_and, and_true]
  · intro a
    simp [encode]

theorem Attribute.codes_list : Attribute.readList.Codes Attribute.encodeList Attribute.Fit :=
  Attribute.codes.list16

/-! ### Bodies -/

theorem ExceptionHandler.codes :
    ExceptionHandler.read.Codes ExceptionHandler.encode fun _ => True := by
  refine (codes_u16.bind start (fun _ => codes_u16.bind stop (fun _ => codes_u16.bind handler
    (fun _ => codes_u16.bind catchType (fun _ => codes_pure _) ?_) ?_) ?_) ?_).congr ?_ ?_
  · exact fun _ _ h => congrArg catchType h
  · exact fun _ _ h => congrArg handler h.2
  · exact fun _ _ h => congrArg stop h.2.2
  · exact fun _ _ h => congrArg start h.2.2.2
  · intro h
    simp
  · intro h
    simp [encode]

structure Code.Fits (c : Code) : Prop where
  code : c.code.length < 4294967296
  handlers : c.handlers.length < 65536
  attributes : Attribute.Fit c.attributes

theorem Code.fits_iff {c : Code} : c.Fits ↔ c.code.length < 4294967296 ∧
    c.handlers.length < 65536 ∧ Attribute.Fit c.attributes :=
  ⟨fun h => ⟨h.code, h.handlers, h.attributes⟩, fun h => ⟨h.1, h.2.1, h.2.2⟩⟩

theorem Code.codes : Code.read.Codes Code.encode Code.Fits := by
  refine (codes_u16.bind maxStack (fun _ => codes_u16.bind maxLocals (fun _ =>
    codes_u32.bind (·.code.length.toUInt32) (fun n => (codes_bytes n.toNat).bind code (fun _ =>
      ExceptionHandler.codes.list16.bind handlers (fun _ => Attribute.codes_list.bind attributes
        (fun _ => codes_pure _) ?_) ?_) ?_) ?_) ?_) ?_).congr ?_ ?_
  · exact fun _ _ h => congrArg attributes h
  · exact fun _ _ h => congrArg handlers h.2
  · exact fun _ _ h => congrArg code h.2.2
  · exact fun _ _ h => (eq_toNat_iff.1 h.1).2
  · exact fun _ _ h => congrArg maxLocals h.2.2.2.2
  · exact fun _ _ h => congrArg maxStack h.2.2.2.2.2
  · intro c
    simp only [eq_toNat_iff, true_and, and_true, implies_true, Code.fits_iff]
  · intro c
    simp [encode]

theorem Code.decode_eq_ok {data : Bytes} {c : Code} :
    Code.decode data = .ok c ↔ data = c.encode ∧ c.Fits :=
  Code.codes.payload_eq_ok _

/-! ### Tables -/

theorem LocalVariable.codes : LocalVariable.read.Codes LocalVariable.encode fun _ => True := by
  refine (codes_u16.bind start (fun _ => codes_u16.bind length (fun _ => codes_u16.bind name
    (fun _ => codes_u16.bind descriptor (fun _ => codes_u16.bind slot (fun _ => codes_pure _)
      ?_) ?_) ?_) ?_) ?_).congr ?_ ?_
  · exact fun _ _ h => congrArg slot h
  · exact fun _ _ h => congrArg descriptor h.2
  · exact fun _ _ h => congrArg name h.2.2
  · exact fun _ _ h => congrArg length h.2.2.2
  · exact fun _ _ h => congrArg start h.2.2.2.2
  · intro v
    simp
  · intro v
    simp [encode]

theorem MethodParameter.codes :
    MethodParameter.read.Codes MethodParameter.encode fun _ => True := by
  refine (codes_u16.bind name (fun _ => codes_u16.bind access (fun _ => codes_pure _) ?_)
    ?_).congr ?_ ?_
  · exact fun _ _ h => congrArg access h
  · exact fun _ _ h => congrArg name h.2
  · intro p
    simp
  · intro p
    simp [encode]

theorem InnerClass.codes : InnerClass.read.Codes InnerClass.encode fun _ => True := by
  refine (codes_u16.bind inner (fun _ => codes_u16.bind outer (fun _ => codes_u16.bind name
    (fun _ => codes_u16.bind access (fun _ => codes_pure _) ?_) ?_) ?_) ?_).congr ?_ ?_
  · exact fun _ _ h => congrArg access h
  · exact fun _ _ h => congrArg name h.2
  · exact fun _ _ h => congrArg outer h.2.2
  · exact fun _ _ h => congrArg inner h.2.2.2
  · intro c
    simp
  · intro c
    simp [encode]

theorem BootstrapMethod.codes : BootstrapMethod.read.Codes BootstrapMethod.encode
    fun m => m.arguments.length < 65536 := by
  refine (codes_u16.bind method (fun _ => codes_u16.list16.bind arguments (fun _ => codes_pure _)
    ?_) ?_).congr ?_ ?_
  · exact fun _ _ h => congrArg arguments h
  · exact fun _ _ h => congrArg method h.2
  · intro m
    simp
  · intro m
    simp [encode]

theorem RecordComponent.codes : RecordComponent.read.Codes RecordComponent.encode
    fun c => Attribute.Fit c.attributes := by
  refine (codes_u16.bind name (fun _ => codes_u16.bind descriptor (fun _ =>
    Attribute.codes_list.bind attributes (fun _ => codes_pure _) ?_) ?_) ?_).congr ?_ ?_
  · exact fun _ _ h => congrArg attributes h
  · exact fun _ _ h => congrArg descriptor h.2
  · exact fun _ _ h => congrArg name h.2.2
  · intro c
    simp
  · intro c
    simp [encode]

/-! ### Annotations -/

/-- A value whose lists fit their count fields and that nests at most as deep as the bound. -/
def ElementValue.FitsWithin : Nat → ElementValue → Prop
  | 0, _ => False
  | _ + 1, .const tag _ => tag ∈ constTags
  | _ + 1, .enum _ _ | _ + 1, .classLiteral _ => True
  | depth + 1, .nested _ elements =>
      elements.length < 65536 ∧ ∀ e ∈ elements, FitsWithin depth e.2
  | depth + 1, .array values => values.length < 65536 ∧ ∀ v ∈ values, FitsWithin depth v

def ElementValue.encodeElement (e : UInt16 × ElementValue) : Bytes := be16 e.1 ++ e.2.encode

theorem ElementValue.encodeElements_eq (elements : List (UInt16 × ElementValue)) :
    encodeElements elements = elements.flatMap encodeElement := by
  induction elements with
  | nil => simp [encodeElements]
  | cons e elements ih => simp [encodeElements, encodeElement, ih]

theorem ElementValue.encodeValues_eq (values : List ElementValue) :
    encodeValues values = values.flatMap encode := by
  induction values with
  | nil => simp [encodeValues]
  | cons v values ih => simp [encodeValues, ih]

theorem ElementValue.encode_nested (type : UInt16) (elements : List (UInt16 × ElementValue)) :
    encode (.nested type elements) = 64 :: (be16 type ++ encode16 encodeElement elements) := by
  simp [encode, encodeElements_eq, encode16]

theorem ElementValue.encode_array (values : List ElementValue) :
    encode (.array values) = 91 :: encode16 encode values := by
  simp [encode, encodeValues_eq, encode16]

theorem AnnotationInfo.encode_eq (a : AnnotationInfo) :
    a.encode = be16 a.type ++ encode16 ElementValue.encodeElement a.elements := by
  simp [encode, ElementValue.encodeElements_eq, encode16]

theorem ElementValue.codes_element {item : Reader ElementValue} {fits : ElementValue → Prop}
    (h : item.Codes encode fits) :
    (do let name ← Reader.u16; let value ← item; return (name, value) :
      Reader (UInt16 × ElementValue)).Codes encodeElement fun e => fits e.2 := by
  refine (codes_u16.bind Prod.fst (fun _ => h.bind Prod.snd (fun _ => codes_pure _) ?_) ?_).congr
    ?_ ?_
  · exact fun _ _ h => congrArg Prod.snd h
  · exact fun _ _ h => congrArg Prod.fst h.2
  · intro e
    simp
  · intro e
    simp [encodeElement]

theorem ElementValue.sound_readWithin (depth : Nat)
    (ih : (readWithin depth).Codes encode (FitsWithin depth)) {cursor rest : Cursor}
    {v : ElementValue} (h : readWithin (depth + 1) cursor = .ok (v, rest)) :
    cursor.rest = v.encode ++ rest.rest ∧ FitsWithin (depth + 1) v := by
  rw [readWithin] at h
  obtain ⟨tag, s₁, htag, h⟩ := state_bind_eq_ok.1 h
  obtain ⟨h₁, _⟩ := codes_u8.sound htag
  split at h
  · next hconst =>
    obtain ⟨index, s₂, hindex, h⟩ := state_bind_eq_ok.1 h
    cases h
    obtain ⟨h₂, _⟩ := codes_u16.sound hindex
    exact ⟨by simp [encode, h₁, h₂], List.contains_iff_mem.1 hconst⟩
  split at h
  · next htag =>
    obtain ⟨type, s₂, htype, h⟩ := state_bind_eq_ok.1 h
    obtain ⟨name, s₃, hname, h⟩ := state_bind_eq_ok.1 h
    cases h
    obtain ⟨h₂, _⟩ := codes_u16.sound htype
    obtain ⟨h₃, _⟩ := codes_u16.sound hname
    exact ⟨by simp [encode, h₁, h₂, h₃, htag], trivial⟩
  split at h
  · next htag =>
    obtain ⟨descriptor, s₂, hdescriptor, h⟩ := state_bind_eq_ok.1 h
    cases h
    obtain ⟨h₂, _⟩ := codes_u16.sound hdescriptor
    exact ⟨by simp [encode, h₁, h₂, htag], trivial⟩
  split at h
  · next htag =>
    obtain ⟨type, s₂, htype, h⟩ := state_bind_eq_ok.1 h
    obtain ⟨elements, s₃, helements, h⟩ := state_bind_eq_ok.1 h
    cases h
    obtain ⟨h₂, _⟩ := codes_u16.sound htype
    obtain ⟨h₃, hfit⟩ := (codes_element ih).list16.sound helements
    refine ⟨?_, hfit⟩
    simp [encode_nested, h₁, h₂, h₃, htag]
  split at h
  · next htag =>
    obtain ⟨values, s₂, hvalues, h⟩ := state_bind_eq_ok.1 h
    cases h
    obtain ⟨h₂, hfit⟩ := ih.list16.sound hvalues
    refine ⟨?_, hfit⟩
    simp [encode_array, h₁, h₂, htag]
  · contradiction

theorem ElementValue.complete_readWithin (depth : Nat)
    (ih : (readWithin depth).Codes encode (FitsWithin depth)) {v : ElementValue} (offset : Nat)
    (tail : Bytes) (hfit : FitsWithin (depth + 1) v) :
    readWithin (depth + 1) ⟨offset, v.encode ++ tail⟩ =
      .ok (v, ⟨offset + v.encode.length, tail⟩) := by
  cases v with
  | const tag index =>
    have hconst : constTags.contains tag = true := List.contains_iff_mem.2 hfit
    simp only [encode, List.cons_append]
    rw [readWithin, bind_of_ok (u8_cons _ _ _), if_pos hconst, bind_of_ok (u16_be16_append _ _ _)]
    rfl
  | «enum» type name =>
    simp only [encode, List.cons_append, List.append_assoc]
    rw [readWithin, bind_of_ok (u8_cons _ _ _), if_neg (by decide), if_pos rfl,
      bind_of_ok (u16_be16_append _ _ _), bind_of_ok (u16_be16_append _ _ _)]
    rfl
  | classLiteral descriptor =>
    simp only [encode, List.cons_append]
    rw [readWithin, bind_of_ok (u8_cons _ _ _), if_neg (by decide), if_neg (by decide),
      if_pos rfl, bind_of_ok (u16_be16_append _ _ _)]
    rfl
  | nested type elements =>
    have helements := (codes_element ih).list16.complete (offset + 1 + 2) tail hfit
    have hend : offset + 1 + 2 + (encode16 encodeElement elements).length =
        offset + (encode (.nested type elements)).length := by
      simp only [encode_nested, be16, List.length_append, List.length_cons, List.length_nil]
      omega
    rw [← hend]
    simp only [encode_nested, List.cons_append, List.append_assoc]
    rw [readWithin, bind_of_ok (u8_cons _ _ _), if_neg (by decide), if_neg (by decide),
      if_neg (by decide), if_pos rfl, bind_of_ok (u16_be16_append _ _ _), bind_of_ok helements]
    rfl
  | array values =>
    have hvalues := ih.list16.complete (offset + 1) tail hfit
    have hend : offset + 1 + (encode16 encode values).length =
        offset + (encode (.array values)).length := by
      simp only [encode_array, List.length_cons]
      omega
    rw [← hend]
    simp only [encode_array, List.cons_append]
    rw [readWithin, bind_of_ok (u8_cons _ _ _), if_neg (by decide), if_neg (by decide),
      if_neg (by decide), if_neg (by decide), if_pos rfl, bind_of_ok hvalues]
    rfl

theorem ElementValue.codes (depth : Nat) :
    (readWithin depth).Codes encode (FitsWithin depth) := by
  induction depth with
  | zero =>
    constructor
    · intro cursor rest v h
      simp [readWithin] at h
    · intro v offset tail h
      exact h.elim
  | succ depth ih => exact ⟨sound_readWithin depth ih, complete_readWithin depth ih⟩

theorem AnnotationInfo.codes (depth : Nat) : (AnnotationInfo.readWithin depth).Codes
    AnnotationInfo.encode fun a =>
      a.elements.length < 65536 ∧ ∀ e ∈ a.elements, ElementValue.FitsWithin depth e.2 := by
  have helements := (ElementValue.codes_element (ElementValue.codes depth)).list16
  refine (codes_u16.bind type (fun _ => helements.bind elements (fun _ => codes_pure _) ?_)
    ?_).congr ?_ ?_
  · exact fun _ _ h => congrArg elements h
  · exact fun _ _ h => congrArg type h.2
  · intro a
    simp
  · intro a
    simp [AnnotationInfo.encode_eq]

end ClassArchive
