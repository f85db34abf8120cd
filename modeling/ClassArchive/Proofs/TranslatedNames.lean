import ClassArchive.Proofs.DescriptorTrees
import ClassArchive.Proofs.MappingNames
import ClassArchive.Renaming.Names

/-!
Names that come back. A name is carried from one namespace to another and back again to itself,
unless it is unknown where it comes from and belongs to another class where it goes.
-/
set_option autoImplicit false

namespace ClassArchive

def IsClassName (name : String) : Prop :=
  name ≠ "" ∧ ';' ∉ name.toList ∧ name.toList.head? ≠ some '['

instance (name : String) : Decidable (IsClassName name) :=
  inferInstanceAs (Decidable (_ ∧ _))

/-- The class of a field descriptor, behind the brackets of its arrays. -/
def Descriptor.elementClass? (descriptor : String) : Option String :=
  className? (String.ofList (descriptor.toList.dropWhile (· = '[')))

/-! ### Class names -/

namespace Mapping

def Proper (m : Mapping) : Prop :=
  ∀ c ∈ m.classes.entries, ∀ given ∈ c.names.toList, IsClassName given.2

instance (m : Mapping) : Decidable m.Proper :=
  inferInstanceAs
    (Decidable (∀ c ∈ m.classes.entries, ∀ given ∈ c.names.toList, IsClassName given.2))

/-- Whether a name is known in the first namespace, or belongs to no class in the second. -/
def Unmixed (m : Mapping) (source target name : String) : Prop :=
  (∃ c ∈ m.classes.entries, c.names[source]? = some name) ∨
    ∀ c ∈ m.classes.entries, c.names[target]? ≠ some name

instance (m : Mapping) (source target name : String) : Decidable (m.Unmixed source target name) :=
  inferInstanceAs (Decidable (_ ∨ _))

theorem Proper.isClassName {m : Mapping} (h : m.Proper) {ns name : String} {c : ClassMapping}
    (hc : c ∈ m.classes.entries) (hname : c.names[ns]? = some name) : IsClassName name :=
  h c hc (ns, name) (Std.TreeMap.mem_toList_iff_getElem?_eq_some.2 hname)

end Mapping

namespace Renamer

structure Opposite (forth back : Renamer) : Prop where
  mapping : back.mapping = forth.mapping
  source : back.source = forth.target
  target : back.target = forth.source

section Back

variable {forth back : Renamer} (hopposite : Opposite forth back)
  (hm : forth.mapping.Coherent)

/-- A new name is the name itself or that of a class in the target namespace. -/
theorem className_cases {r : Renamer} {name mapped : String} (h : r.className name = .ok mapped) :
    (r.mapping.class? r.source name = none ∧ mapped = name) ∨
      ∃ c, r.mapping.class? r.source name = some c ∧ c.names[r.target]? = some mapped := by
  unfold className at h
  split at h
  · next hnone =>
    cases h
    exact .inl ⟨hnone, rfl⟩
  · next c hc =>
    split at h
    · next hmapped =>
      cases h
      exact .inr ⟨c, hc, hmapped⟩
    · cases h

include hopposite hm in
theorem className_back {name mapped : String}
    (hname : forth.mapping.Unmixed forth.source forth.target name)
    (h : forth.className name = .ok mapped) : back.className mapped = .ok name := by
  unfold className
  rw [hopposite.mapping, hopposite.source, hopposite.target]
  rcases className_cases h with ⟨hnone, rfl⟩ | ⟨c, hc, hmapped⟩
  · have hfree : forth.mapping.class? forth.target mapped = none := by
      rcases hname with ⟨c, hc, hcname⟩ | hfree
      · rw [hm.class?_eq_some.2 ⟨hc, hcname⟩] at hnone
        cases hnone
      · cases hfound : forth.mapping.class? forth.target mapped with
        | none => rfl
        | some c =>
          obtain ⟨hc, hcname⟩ := hm.class?_eq_some.1 hfound
          exact absurd hcname (hfree c hc)
    rw [hfree]
  · obtain ⟨hmem, hcname⟩ := hm.class?_eq_some.1 hc
    rw [hm.class?_eq_some.2 ⟨hmem, hmapped⟩]
    simp only [hcname]

theorem eq_or_isClassName {r : Renamer} (hm : r.mapping.Coherent) (hproper : r.mapping.Proper)
    {name mapped : String} (h : r.className name = .ok mapped) :
    mapped = name ∨ IsClassName mapped := by
  rcases className_cases h with ⟨-, rfl⟩ | ⟨c, hc, hmapped⟩
  · exact .inl rfl
  · exact .inr (hproper.isClassName (hm.class?_eq_some.1 hc).1 hmapped)

theorem isClassName_of_className {r : Renamer} (hm : r.mapping.Coherent)
    (hproper : r.mapping.Proper) {name mapped : String} (hname : IsClassName name)
    (h : r.className name = .ok mapped) : IsClassName mapped := by
  rcases eq_or_isClassName hm hproper h with rfl | hnew
  · exact hname
  · exact hnew

/-! ### Descriptors -/

theorem elementClass?_text {t : FieldType} (h : t.Valid) :
    Descriptor.elementClass? t.text = t.className? := by
  unfold Descriptor.elementClass? FieldType.text
  rw [String.toList_ofList]
  induction t with
  | base letter =>
    obtain ⟨hbracket, hclass, -, -⟩ := FieldType.ne_of_isBase h
    simp only [FieldType.chars, FieldType.className?, List.dropWhile_cons, hbracket, decide_false,
      Bool.false_eq_true, if_false, Descriptor.className?, String.toList_ofList]
    split
    · next heq => exact absurd (List.head_eq_of_cons_eq heq) hclass
    · rfl
  | object name => simp [FieldType.chars, FieldType.className?, Descriptor.className?]
  | array element ih => simpa [FieldType.chars, FieldType.className?] using ih h

include hopposite hm in
theorem renamedBy_back (hproper : forth.mapping.Proper) {t u : FieldType} (ht : t.Valid)
    (hnames : ∀ name ∈ t.className?, forth.mapping.Unmixed forth.source forth.target name)
    (h : FieldType.RenamedBy forth.className t u) :
    u.Valid ∧ FieldType.RenamedBy back.className u t := by
  induction h with
  | base => exact ⟨ht, .base⟩
  | object hmapped =>
    refine ⟨?_, .object (className_back hopposite hm (hnames _ rfl) hmapped)⟩
    rcases eq_or_isClassName hm hproper hmapped with rfl | hnew
    · exact ht
    · exact ⟨hnew.1, hnew.2.1⟩
  | array _ ih =>
    obtain ⟨hu, hback⟩ := ih ht hnames
    exact ⟨hu, .array hback⟩

include hopposite hm in
theorem renamedBy_back_parameters (hproper : forth.mapping.Proper) {ts us : List FieldType}
    (hts : ∀ t ∈ ts, t.Valid)
    (hnames : ∀ t ∈ ts, ∀ name ∈ t.className?,
      forth.mapping.Unmixed forth.source forth.target name)
    (h : List.Forall₂ (FieldType.RenamedBy forth.className) ts us) :
    (∀ u ∈ us, u.Valid) ∧ List.Forall₂ (FieldType.RenamedBy back.className) us ts := by
  induction h with
  | nil => exact ⟨by simp, .nil⟩
  | @cons t u ts us hrenamed _ ih =>
    obtain ⟨hu, hback⟩ := renamedBy_back hopposite hm hproper (hts t (by simp))
      (hnames t (by simp)) hrenamed
    obtain ⟨hus, hmore⟩ := ih (fun v hv => hts v (by simp [hv])) fun v hv => hnames v (by simp [hv])
    exact ⟨List.forall_mem_cons.2 ⟨hu, hus⟩, .cons hback hmore⟩

include hopposite hm in
theorem renamedBy_back_result (hproper : forth.mapping.Proper) {result last : Option FieldType}
    (hresult : ∀ t ∈ result, t.Valid)
    (hnames : ∀ t ∈ result, ∀ name ∈ t.className?,
      forth.mapping.Unmixed forth.source forth.target name)
    (h : Option.Rel (FieldType.RenamedBy forth.className) result last) :
    (∀ u ∈ last, u.Valid) ∧ Option.Rel (FieldType.RenamedBy back.className) last result := by
  cases h with
  | none => exact ⟨by simp, .none⟩
  | some hrenamed =>
    obtain ⟨hu, hback⟩ := renamedBy_back hopposite hm hproper (hresult _ rfl) (hnames _ rfl)
      hrenamed
    exact ⟨by simpa using hu, .some hback⟩

end Back

end Renamer

/-! ### All kinds of names -/

inductive NameKind where
  | className
  | arrayType
  | fieldDescriptor
  | methodDescriptor
  deriving DecidableEq, Repr

namespace NameKind

def Accepts : NameKind → String → Prop
  | .className, text => IsClassName text
  | .arrayType, text => text.toList.head? = some '[' ∧ Descriptor.checkField text = .ok ()
  | .fieldDescriptor, text => Descriptor.checkField text = .ok ()
  | .methodDescriptor, text => ∃ d, MethodDescriptor.parse text = .ok d

def classNames : NameKind → String → List String
  | .className, text => [text]
  | .arrayType, text | .fieldDescriptor, text => (Descriptor.elementClass? text).toList
  | .methodDescriptor, text =>
      match MethodDescriptor.parse text with
      | .ok d => (d.parameters ++ [d.result]).filterMap Descriptor.elementClass?
      | .error _ => []

def translations : NameKind → List (Renamer → String → Except ArchiveError String)
  | .className => [Renamer.className, Renamer.typeName]
  | .arrayType => [Renamer.typeName, Renamer.descriptor]
  | .fieldDescriptor => [Renamer.descriptor]
  | .methodDescriptor => [Renamer.methodDescriptor, Renamer.descriptor]

end NameKind

namespace Renamer

section Back

variable {forth back : Renamer} (hopposite : Opposite forth back)
  (hm : forth.mapping.Coherent) (hproper : forth.mapping.Proper)

include hopposite hm hproper in
theorem descriptor_back {t : FieldType} {y : String} (ht : t.Valid)
    (hnames : ∀ name ∈ (Descriptor.elementClass? t.text).toList,
      forth.mapping.Unmixed forth.source forth.target name)
    (h : forth.descriptor t.text = .ok y) :
    ∃ u : FieldType, u.Valid ∧ y = u.text ∧ FieldType.RenamedBy forth.className t u ∧
      back.descriptor y = .ok t.text := by
  rw [elementClass?_text ht] at hnames
  obtain ⟨u, hrenamed, rfl⟩ := (FieldType.rename_scan_eq_ok ht).1 h
  obtain ⟨hu, hback⟩ := renamedBy_back hopposite hm hproper ht (by simpa using hnames) hrenamed
  exact ⟨u, hu, rfl, hrenamed, (FieldType.rename_scan_eq_ok hu).2 ⟨t, hback, rfl⟩⟩

theorem elementClass?_split {t : MethodType} (ht : t.Valid) {name : String} :
    (∃ p ∈ t.parameters, name ∈ p.className?) ∨ (∃ p ∈ t.result, name ∈ p.className?) →
      name ∈ (t.split.parameters ++ [t.split.result]).filterMap Descriptor.elementClass? := by
  rw [List.filterMap_append, List.mem_append, List.mem_filterMap, List.mem_filterMap]
  rintro (⟨p, hp, hname⟩ | ⟨p, hp, hname⟩)
  · refine .inl ⟨p.text, List.mem_map_of_mem hp, ?_⟩
    rw [elementClass?_text (ht.1 p hp), hname]
  · refine .inr ⟨p.text, ?_, ?_⟩
    · rw [List.mem_singleton, MethodType.split, MethodType.resultChars, hp]
      rfl
    · rw [elementClass?_text (ht.2 p hp), hname]

include hopposite hm hproper in
theorem methodDescriptor_back {t : MethodType} {y : String} (ht : t.Valid)
    (hnames : ∀ name ∈ (t.split.parameters ++ [t.split.result]).filterMap Descriptor.elementClass?,
      forth.mapping.Unmixed forth.source forth.target name)
    (h : forth.descriptor t.text = .ok y) :
    ∃ u : MethodType, u.Valid ∧ y = u.text ∧ back.descriptor y = .ok t.text := by
  obtain ⟨u, hrenamed, rfl⟩ := (MethodType.rename_scan_eq_ok ht).1 h
  obtain ⟨hus, hparameters⟩ := renamedBy_back_parameters hopposite hm hproper ht.1
    (fun p hp name hname => hnames name (elementClass?_split ht (.inl ⟨p, hp, hname⟩)))
    hrenamed.parameters
  obtain ⟨hlast, hresult⟩ := renamedBy_back_result hopposite hm hproper ht.2
    (fun p hp name hname => hnames name (elementClass?_split ht (.inr ⟨p, hp, hname⟩)))
    hrenamed.result
  have hu : u.Valid := ⟨hus, hlast⟩
  exact ⟨u, hu, rfl, (MethodType.rename_scan_eq_ok hu).2 ⟨t, ⟨hparameters, hresult⟩, rfl⟩⟩

end Back

theorem typeName_of_isClassName {r : Renamer} {name : String} (h : IsClassName name) :
    r.typeName name = r.className name := if_neg h.2.2

theorem typeName_of_array {r : Renamer} {name : String} (h : name.toList.head? = some '[') :
    r.typeName name = r.descriptor name := if_pos h

theorem head?_text_of_renamedBy {f : String → Except ArchiveError String} {t u : FieldType}
    (ht : t.text.toList.head? = some '[') (h : FieldType.RenamedBy f t u) :
    u.text.toList.head? = some '[' := by
  rw [FieldType.text, String.toList_ofList] at ht ⊢
  cases h with
  | base => exact ht
  | object => simp [FieldType.chars] at ht
  | array => rfl

theorem methodDescriptor_eq_ok {r : Renamer} {x y : String} :
    r.methodDescriptor x = .ok y ↔
      (∃ d, MethodDescriptor.parse x = .ok d) ∧ r.descriptor x = .ok y := by
  unfold methodDescriptor
  rw [bind_eq_ok]
  constructor
  · rintro ⟨d, hd, h⟩
    exact ⟨⟨d, lift_eq_ok.1 hd⟩, h⟩
  · rintro ⟨⟨d, hd⟩, h⟩
    exact ⟨d, lift_eq_ok.2 hd, h⟩

/-- A text of any kind that is carried to the other namespace stays of its kind, and is carried back
to itself. -/
theorem translate_back {drafts : List ClassDraft} {forth back : Renamer}
    (hbuild : Mapping.build drafts = .ok forth.mapping) (hproper : forth.mapping.Proper)
    (hopposite : Opposite forth back) {kind : NameKind} {x y : String} (hx : kind.Accepts x)
    (hnames : ∀ name ∈ kind.classNames x,
      forth.mapping.Unmixed forth.source forth.target name)
    {translate : Renamer → String → Except ArchiveError String}
    (htranslate : translate ∈ kind.translations) (h : translate forth x = .ok y) :
    kind.Accepts y ∧ translate back y = .ok x := by
  have hm := Mapping.coherent_build hbuild
  cases kind with
  | className =>
    have hclass : ∀ r name, IsClassName name → translate r name = r.className name := by
      intro r name hname
      simp only [NameKind.translations, List.mem_cons, List.not_mem_nil, or_false] at htranslate
      rcases htranslate with rfl | rfl
      · rfl
      · exact typeName_of_isClassName hname
    rw [hclass forth x hx] at h
    have hy := isClassName_of_className hm hproper hx h
    refine ⟨hy, ?_⟩
    rw [hclass back y hy]
    exact className_back hopposite hm (hnames x (by simp [NameKind.classNames])) h
  | arrayType =>
    have harray : ∀ r name, name.toList.head? = some '[' →
        translate r name = r.descriptor name := by
      intro r name hname
      simp only [NameKind.translations, List.mem_cons, List.not_mem_nil, or_false] at htranslate
      rcases htranslate with rfl | rfl
      · exact typeName_of_array hname
      · rfl
    obtain ⟨hhead, hcheck⟩ := hx
    rw [harray forth x hhead] at h
    obtain ⟨t, ht, rfl⟩ := FieldType.checkField_eq_ok.1 hcheck
    obtain ⟨u, hu, rfl, hrenamed, hback⟩ := descriptor_back hopposite hm hproper ht hnames h
    have hhead' := head?_text_of_renamedBy hhead hrenamed
    refine ⟨⟨hhead', FieldType.checkField_eq_ok.2 ⟨u, hu, rfl⟩⟩, ?_⟩
    rw [harray back _ hhead']
    exact hback
  | fieldDescriptor =>
    obtain rfl := List.mem_singleton.1 htranslate
    obtain ⟨t, ht, rfl⟩ := FieldType.checkField_eq_ok.1 hx
    obtain ⟨u, hu, rfl, -, hback⟩ := descriptor_back hopposite hm hproper ht hnames h
    exact ⟨FieldType.checkField_eq_ok.2 ⟨u, hu, rfl⟩, hback⟩
  | methodDescriptor =>
    obtain ⟨d, hparse⟩ := hx
    have hmethod : ∀ r name name', (∃ d, MethodDescriptor.parse name = .ok d) →
        (translate r name = .ok name' ↔ r.descriptor name = .ok name') := by
      intro r name name' hname
      simp only [NameKind.translations, List.mem_cons, List.not_mem_nil, or_false] at htranslate
      rcases htranslate with rfl | rfl
      · rw [methodDescriptor_eq_ok, and_iff_right hname]
      · rfl
    rw [hmethod forth x y ⟨d, hparse⟩] at h
    simp only [NameKind.classNames, hparse] at hnames
    obtain ⟨t, ht, rfl, rfl⟩ := MethodType.parse_eq_ok.1 hparse
    obtain ⟨u, hu, rfl, hback⟩ := methodDescriptor_back hopposite hm hproper ht hnames h
    have hparse' : ∃ d, MethodDescriptor.parse u.text = .ok d :=
      ⟨u.split, MethodType.parse_eq_ok.2 ⟨u, hu, rfl, rfl⟩⟩
    exact ⟨hparse', (hmethod back _ _ hparse').2 hback⟩

/-- Two classes that take each other's name. -/
def exchangedNames : List ClassDraft :=
  [{ names := [("left", "a"), ("right", "b/A")] }, { names := [("left", "b/A"), ("right", "a")] }]

def between (mapping : Mapping) (source target : String) : Renamer :=
  { mapping, source, target, tree := {}, headers := fun _ => none }

theorem translate_back_swapped : ∃ m, Mapping.build exchangedNames = .ok m ∧
    (between m "left" "right").methodDescriptor "([[La;ILb/A;Lc;)[La;" =
      .ok "([[Lb/A;ILa;Lc;)[Lb/A;" ∧
    (between m "right" "left").methodDescriptor "([[Lb/A;ILa;Lc;)[Lb/A;" =
      .ok "([[La;ILb/A;Lc;)[La;" := by
  have hrun : (Mapping.build exchangedNames).toOption.any (fun m =>
      decide m.Proper &&
      (NameKind.methodDescriptor.classNames "([[La;ILb/A;Lc;)[La;").all
        (fun name => decide (m.Unmixed "left" "right" name)) &&
      ((between m "left" "right").methodDescriptor "([[La;ILb/A;Lc;)[La;").toOption =
        some "([[Lb/A;ILa;Lc;)[Lb/A;") = true := by
    decide +kernel
  obtain ⟨m, hm, hrun⟩ := exists_ok_of_any hrun
  simp only [Bool.and_eq_true, decide_eq_true_eq, List.all_eq_true, toOption_eq_some] at hrun
  obtain ⟨⟨hproper, hnames⟩, hforth⟩ := hrun
  have hopposite : Opposite (between m "left" "right") (between m "right" "left") := ⟨rfl, rfl, rfl⟩
  have hmethod : NameKind.methodDescriptor.Accepts "([[La;ILb/A;Lc;)[La;" :=
    (methodDescriptor_eq_ok.1 hforth).1
  obtain ⟨-, hback⟩ := translate_back hm hproper hopposite hmethod hnames
    (by simp [NameKind.translations]) hforth
  exact ⟨m, hm, hforth, hback⟩

end Renamer

end ClassArchive
