import ClassArchive.Proofs.DescriptorTrees

/-!
The grammar of descriptors. Field types are described by their characters alone, and a descriptor is
accepted exactly if it has this form. Since a field type ends where its characters say, a method
descriptor can be cut in one way only, and cutting undoes joining.
-/
set_option autoImplicit false

namespace ClassArchive

namespace Descriptor

/-- Brackets, and behind them a primitive letter or a class name between `L` and `;`. -/
def IsFieldText (text : String) : Prop :=
  ∃ depth core, text.toList = List.replicate depth '[' ++ core ∧
    ((∃ letter ∈ "BCDFIJSZ".toList, core = [letter]) ∨
      ∃ name, name ≠ [] ∧ ';' ∉ name ∧ core = 'L' :: name ++ [';'])

end Descriptor

namespace FieldType

def arrays (t : FieldType) : Nat → FieldType
  | 0 => t
  | depth + 1 => .array (t.arrays depth)

theorem valid_arrays {t : FieldType} (h : t.Valid) (depth : Nat) : (t.arrays depth).Valid := by
  induction depth with
  | zero => exact h
  | succ depth ih => exact ih

theorem chars_arrays (t : FieldType) (depth : Nat) :
    (t.arrays depth).chars = List.replicate depth '[' ++ t.chars := by
  induction depth with
  | zero => rfl
  | succ depth ih => rw [arrays, chars, ih, List.replicate_succ, List.cons_append]

theorem isFieldText_of_valid {t : FieldType} (h : t.Valid) : Descriptor.IsFieldText t.text := by
  unfold Descriptor.IsFieldText
  rw [text, String.toList_ofList]
  induction t with
  | base letter => exact ⟨0, [letter], rfl, .inl ⟨letter, List.contains_iff_mem.1 h, rfl⟩⟩
  | object name => exact ⟨0, _, rfl, .inr ⟨name.toList, by simpa using h.1, h.2, rfl⟩⟩
  | array element ih =>
    obtain ⟨depth, core, hchars, hcore⟩ := ih h
    refine ⟨depth + 1, core, ?_, hcore⟩
    rw [chars, hchars, List.replicate_succ, List.cons_append]

theorem isFieldText_iff {text : String} :
    Descriptor.IsFieldText text ↔ ∃ t : FieldType, t.Valid ∧ text = t.text := by
  constructor
  · rintro ⟨depth, core, htext, ⟨letter, hletter, rfl⟩ | ⟨name, hne, hnot, rfl⟩⟩
    · refine ⟨arrays (.base letter) depth, valid_arrays ?_ depth, ?_⟩
      · exact List.contains_iff_mem.2 hletter
      · rw [FieldType.text, chars_arrays, chars, ← htext, String.ofList_toList]
    · have hvalid : (object (String.ofList name)).Valid :=
        ⟨by simpa using hne, by simpa using hnot⟩
      refine ⟨arrays (.object (String.ofList name)) depth, valid_arrays hvalid depth, ?_⟩
      rw [FieldType.text, chars_arrays, chars, String.toList_ofList, ← htext, String.ofList_toList]
  · rintro ⟨t, ht, rfl⟩
    exact isFieldText_of_valid ht

theorem exists_list {texts : List String} (h : ∀ text ∈ texts, Descriptor.IsFieldText text) :
    ∃ ts : List FieldType, (∀ t ∈ ts, t.Valid) ∧ texts = ts.map FieldType.text := by
  induction texts with
  | nil => exact ⟨[], by simp, rfl⟩
  | cons text texts ih =>
    obtain ⟨htext, htexts⟩ := List.forall_mem_cons.1 h
    obtain ⟨t, ht, rfl⟩ := isFieldText_iff.1 htext
    obtain ⟨ts, hts, rfl⟩ := ih htexts
    exact ⟨t :: ts, List.forall_mem_cons.2 ⟨ht, hts⟩, rfl⟩

end FieldType

/-! ### Offsets -/

namespace Descriptor

theorem byteLength_append (cs ds : List Char) :
    byteLength (cs ++ ds) = byteLength cs + byteLength ds := by
  induction cs with
  | nil => simp [byteLength]
  | cons c cs ih => simp [byteLength, ih, Nat.add_assoc]

theorem dropBytes?_eq_some {n : Nat} {cs rest : List Char} :
    dropBytes? n cs = some rest ↔ ∃ front, cs = front ++ rest ∧ n = byteLength front := by
  constructor
  · intro h
    fun_induction dropBytes? n cs with
    | case1 cs =>
      cases h
      exact ⟨[], rfl, rfl⟩
    | case2 => cases h
    | case3 n c cs hle ih =>
      obtain ⟨front, rfl, hn⟩ := ih h
      exact ⟨c :: front, rfl, by rw [byteLength]; omega⟩
    | case4 => cases h
  · rintro ⟨front, rfl, rfl⟩
    induction front with
    | nil =>
      rw [byteLength, List.nil_append]
      cases rest <;> rfl
    | cons c front ih =>
      have hpos := c.utf8Size_pos
      obtain ⟨n, hn⟩ : ∃ n, c.utf8Size = n + 1 := ⟨c.utf8Size - 1, by omega⟩
      rw [byteLength, hn, Nat.add_right_comm, List.cons_append, dropBytes?, if_pos (by omega)]
      rwa [show n + byteLength front + 1 - c.utf8Size = byteLength front by omega]

theorem eq_of_byteLength_eq {front front' rest rest' : List Char}
    (h : front ++ rest = front' ++ rest') (hlength : byteLength front = byteLength front') :
    front = front' ∧ rest = rest' := by
  have hdrop : dropBytes? (byteLength front) (front ++ rest) = some rest :=
    dropBytes?_eq_some.2 ⟨front, rfl, rfl⟩
  have hdrop' : dropBytes? (byteLength front) (front ++ rest) = some rest' :=
    dropBytes?_eq_some.2 ⟨front', h, hlength⟩
  cases hdrop.symm.trans hdrop'
  exact ⟨List.append_cancel_right h, rfl⟩

theorem fieldTypeEnd_eq_ok {descriptor : String} {start stop : Nat} :
    fieldTypeEnd descriptor start = .ok stop ↔
      ∃ front type rest, descriptor = front ++ type ++ rest ∧ IsFieldText type ∧
        start = byteLength front.toList ∧ stop = byteLength (front ++ type).toList := by
  unfold fieldTypeEnd
  constructor
  · intro h
    split at h
    · next type rest hsplit =>
      cases h
      obtain ⟨cs, hdrop, htype⟩ := Option.bind_eq_some_iff.1 hsplit
      obtain ⟨front, hfront, rfl⟩ := dropBytes?_eq_some.1 hdrop
      obtain ⟨t, ht, rfl⟩ := FieldType.exists_of_splitFieldType? htype
      obtain ⟨rfl, -⟩ := append_of_splitFieldType? htype
      refine ⟨String.ofList front, t.text, String.ofList rest, ?_,
        FieldType.isFieldText_iff.2 ⟨t, ht, rfl⟩, by simp, ?_⟩
      · rw [← String.toList_inj, hfront]
        simp [FieldType.text]
      · simp [FieldType.text, byteLength_append]
    · cases h
  · rintro ⟨front, type, rest, rfl, htype, rfl, rfl⟩
    obtain ⟨t, ht, rfl⟩ := FieldType.isFieldText_iff.1 htype
    have hdrop : dropBytes? (byteLength front.toList) (front ++ t.text ++ rest).toList =
        some (t.chars ++ rest.toList) :=
      dropBytes?_eq_some.2 ⟨front.toList, by simp [FieldType.text], rfl⟩
    simp only [hdrop, Option.bind_some, FieldType.splitFieldType?_append ht]
    simp [FieldType.text, byteLength_append]

end Descriptor

/-! ### Method descriptors -/

namespace MethodDescriptor

def Proper (d : MethodDescriptor) : Prop :=
  (∀ p ∈ d.parameters, Descriptor.IsFieldText p) ∧
    (d.result = "V" ∨ Descriptor.IsFieldText d.result)

theorem render_split (m : MethodType) : m.split.render = m.text := by
  rw [← String.toList_inj]
  simp [render, MethodType.split, MethodType.text, MethodType.chars, List.flatMap_map,
    FieldType.text]

theorem proper_iff {d : MethodDescriptor} :
    d.Proper ↔ ∃ m : MethodType, m.Valid ∧ d = m.split := by
  constructor
  · rintro ⟨hparameters, hresult⟩
    obtain ⟨ts, hts, hparameters⟩ := FieldType.exists_list hparameters
    have hlast : ∃ result : Option FieldType, (∀ t ∈ result, t.Valid) ∧
        d.result = String.ofList (result.elim ['V'] FieldType.chars) := by
      rcases hresult with hresult | hresult
      · exact ⟨none, by simp, hresult⟩
      · obtain ⟨t, ht, hresult⟩ := FieldType.isFieldText_iff.1 hresult
        exact ⟨some t, by simpa using ht, hresult⟩
    obtain ⟨result, hvalid, hresult⟩ := hlast
    refine ⟨⟨ts, result⟩, ⟨hts, hvalid⟩, ?_⟩
    cases d
    cases hparameters
    cases hresult
    rfl
  · rintro ⟨m, ⟨hparameters, hresult⟩, rfl⟩
    constructor
    · intro p hp
      obtain ⟨t, ht, rfl⟩ := List.mem_map.1 hp
      exact FieldType.isFieldText_iff.2 ⟨t, hparameters t ht, rfl⟩
    · cases hm : m.result with
      | none => exact .inl (by simp [MethodType.split, MethodType.resultChars, hm])
      | some t =>
        refine .inr (FieldType.isFieldText_iff.2 ⟨t, hresult t hm, ?_⟩)
        simp [MethodType.split, MethodType.resultChars, hm, FieldType.text]

theorem parse_eq_ok_iff {descriptor : String} {d : MethodDescriptor} :
    parse descriptor = .ok d ↔ descriptor = d.render ∧ d.Proper := by
  rw [MethodType.parse_eq_ok, proper_iff]
  constructor
  · rintro ⟨m, hm, rfl, rfl⟩
    exact ⟨(render_split m).symm, m, hm, rfl⟩
  · rintro ⟨rfl, m, hm, rfl⟩
    exact ⟨m, hm, render_split m, rfl⟩

/-- The walk through the parameters by byte offsets. It goes from the end of the text that is read
already to the end of the field type that starts there, up to a closing parenthesis. -/
inductive Scans (descriptor : String) : String → List String → String → Prop where
  | close {front result : String} (htext : descriptor = front ++ ")" ++ result) :
      Scans descriptor front [] result
  | next {front type rest result : String} {types : List String}
      (htext : descriptor = front ++ type ++ rest)
      (hend : Descriptor.fieldTypeEnd descriptor (Descriptor.byteLength front.toList) =
        .ok (Descriptor.byteLength (front ++ type).toList))
      (hnext : Scans descriptor (front ++ type) types result) :
      Scans descriptor front (type :: types) result

theorem scans_iff {descriptor front result : String} {types : List String} :
    Scans descriptor front types result ↔
      descriptor = front ++ String.join types ++ ")" ++ result ∧
        ∀ p ∈ types, Descriptor.IsFieldText p := by
  constructor
  · intro h
    induction h with
    | close htext => exact ⟨by simpa using htext, by simp⟩
    | @next front type rest result types htext hend _ ih =>
      obtain ⟨front', type', rest', htext', htype, hfront, hstop⟩ :=
        Descriptor.fieldTypeEnd_eq_ok.1 hend
      rw [htext, ← String.toList_inj, String.toList_append (t := rest),
        String.toList_append (t := rest')] at htext'
      -- both ends are counted in bytes, so the two cuts are the same
      obtain ⟨hboth, -⟩ := Descriptor.eq_of_byteLength_eq htext' hstop
      rw [String.toList_append, String.toList_append] at hboth
      obtain ⟨-, hsame⟩ := Descriptor.eq_of_byteLength_eq hboth hfront
      obtain rfl : type = type' := String.toList_inj.1 hsame
      exact ⟨by simpa [String.append_assoc] using ih.1, List.forall_mem_cons.2 ⟨htype, ih.2⟩⟩
  · rintro ⟨rfl, htypes⟩
    induction types generalizing front with
    | nil => exact .close (by simp)
    | cons type types ih =>
      obtain ⟨htype, htypes⟩ := List.forall_mem_cons.1 htypes
      have htext : front ++ String.join (type :: types) ++ ")" ++ result =
          front ++ type ++ (String.join types ++ ")" ++ result) := by
        simp [String.append_assoc]
      have hend := Descriptor.fieldTypeEnd_eq_ok.2 ⟨front, type, _, htext, htype, rfl, rfl⟩
      refine .next htext hend ?_
      have hnext : Scans (front ++ type ++ String.join types ++ ")" ++ result) (front ++ type)
          types result := ih htypes
      rwa [String.join_cons, ← String.append_assoc]

theorem parse_eq_ok_iff_scans {descriptor : String} {d : MethodDescriptor} :
    parse descriptor = .ok d ↔ Scans descriptor "(" d.parameters d.result ∧
      (d.result = "V" ∨ Descriptor.checkField d.result = .ok ()) := by
  rw [parse_eq_ok_iff, scans_iff, FieldType.checkField_eq_ok, ← FieldType.isFieldText_iff, Proper,
    render, and_assoc]

end MethodDescriptor

/-- Descriptors are read by their grammar: a field descriptor is accepted exactly if it has the form
of a field type, the scanner by offsets cuts off exactly such texts, and a method descriptor is cut
into the parts from which it is joined. So it is cut in one way, and joining and cutting are
inverse. -/
theorem Descriptor.accepted_iff_grammar :
    (∀ text, checkField text = .ok () ↔ IsFieldText text) ∧
    (∀ text start stop, fieldTypeEnd text start = .ok stop ↔
      ∃ front type rest, text = front ++ type ++ rest ∧ IsFieldText type ∧
        start = byteLength front.toList ∧ stop = byteLength (front ++ type).toList) ∧
    (∀ text parameters result, MethodDescriptor.parse text = .ok ⟨parameters, result⟩ ↔
      text = MethodDescriptor.render ⟨parameters, result⟩ ∧ (∀ p ∈ parameters, IsFieldText p) ∧
        (result = "V" ∨ IsFieldText result)) ∧
    (∀ d : MethodDescriptor, d.Proper → MethodDescriptor.parse d.render = .ok d) ∧
    (∀ text d, MethodDescriptor.parse text = .ok d → d.render = text) ∧
    (∀ d e : MethodDescriptor, d.Proper → e.Proper → d.render = e.render → d = e) := by
  have hjoined : ∀ d : MethodDescriptor, d.Proper → MethodDescriptor.parse d.render = .ok d :=
    fun d hd => MethodDescriptor.parse_eq_ok_iff.2 ⟨rfl, hd⟩
  refine ⟨?field, ?offsets, ?method, hjoined, ?cut, ?unique⟩
  case field =>
    intro text
    rw [FieldType.checkField_eq_ok, FieldType.isFieldText_iff]
  case offsets => exact fun _ _ _ => fieldTypeEnd_eq_ok
  case method => exact fun _ _ _ => MethodDescriptor.parse_eq_ok_iff
  case cut => exact fun _ _ h => (MethodDescriptor.parse_eq_ok_iff.1 h).1.symm
  case unique =>
    intro d e hd he heq
    have hparse := hjoined d hd
    rw [heq, hjoined e he] at hparse
    exact (Except.ok.inj hparse).symm

/-- Class names made of the characters that stand between field types. -/
def MethodDescriptor.crowded : MethodDescriptor := ⟨["[[L)(L;", "J", "LV[;"], "[Z"⟩

theorem Descriptor.accepted_iff_grammar_crowded : MethodDescriptor.crowded.Proper ∧
    MethodDescriptor.parse "([[L)(L;JLV[;)[Z" = .ok .crowded := by
  obtain ⟨hfield, -, -, hjoined, -, -⟩ := Descriptor.accepted_iff_grammar
  have hparameters : ∀ p ∈ MethodDescriptor.crowded.parameters, IsFieldText p := by
    intro p hp
    refine (hfield p).1 ?_
    revert p
    decide +kernel
  have hproper : MethodDescriptor.crowded.Proper :=
    ⟨hparameters, .inr ((hfield "[Z").1 (by decide +kernel))⟩
  exact ⟨hproper, hjoined _ hproper⟩

end ClassArchive
