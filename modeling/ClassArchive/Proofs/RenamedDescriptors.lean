import ClassArchive.Proofs.BuiltMapping
import ClassArchive.Proofs.DescriptorGrammar
import ClassArchive.Proofs.TranslatedNames

/-!
Renaming descriptors component by component. The scan for class names does not follow the grammar of
descriptors; that it finds the same names is carried along the tree of the descriptor, so a renaming
succeeds exactly if it succeeds on these names, and what it gives has the same components.
-/
set_option autoImplicit false

namespace ClassArchive

def Descriptor.arrayDepth (text : String) : Nat := (text.toList.takeWhile (· = '[')).length

def Descriptor.CanName (name : String) : Prop := name ≠ "" ∧ ';' ∉ name.toList

namespace FieldType

variable {f : String → Except ArchiveError String} {t u : FieldType}

theorem exists_renamedBy :
    (∃ u, RenamedBy f t u) ↔ ∀ name ∈ t.className?, ∃ mapped, f name = .ok mapped := by
  induction t with
  | base letter => exact ⟨fun _ => by simp [className?], fun _ => ⟨_, .base⟩⟩
  | object name =>
    simp only [className?, Option.mem_some_iff, forall_eq']
    constructor
    · rintro ⟨_, h⟩
      cases h with
      | object hmapped => exact ⟨_, hmapped⟩
    · rintro ⟨mapped, hmapped⟩
      exact ⟨_, .object hmapped⟩
  | array element ih =>
    rw [className?, ← ih]
    constructor
    · rintro ⟨_, h⟩
      cases h with
      | array h => exact ⟨_, h⟩
    · rintro ⟨u, h⟩
      exact ⟨_, .array h⟩

theorem RenamedBy.valid (h : RenamedBy f t u) (ht : t.Valid)
    (hnames : ∀ name ∈ t.className?, ∀ mapped, f name = .ok mapped → Descriptor.CanName mapped) :
    u.Valid := by
  induction h with
  | base => exact ht
  | object hmapped => exact hnames _ rfl _ hmapped
  | array _ ih => exact ih ht hnames

theorem RenamedBy.arrayDepth_text (h : RenamedBy f t u) :
    Descriptor.arrayDepth u.text = Descriptor.arrayDepth t.text := by
  unfold Descriptor.arrayDepth text
  rw [String.toList_ofList, String.toList_ofList]
  induction h with
  | base => rfl
  | object => simp [chars]
  | array _ ih => simpa [chars] using ih

theorem isWide_text {t : FieldType} :
    Descriptor.isWide t.text = true ↔ t.chars = ['J'] ∨ t.chars = ['D'] := by
  simp [Descriptor.isWide, ← String.toList_inj, text]

theorem RenamedBy.isWide_text (h : RenamedBy f t u) :
    Descriptor.isWide u.text = Descriptor.isWide t.text := by
  rw [Bool.eq_iff_iff, FieldType.isWide_text, FieldType.isWide_text]
  cases h with
  | base => rfl
  | object | array => simp [chars]

theorem valid_of_forall₂ {ts us : List FieldType} (h : List.Forall₂ (RenamedBy f) ts us)
    (hts : ∀ t ∈ ts, t.Valid)
    (hnames : ∀ t ∈ ts, ∀ name ∈ t.className?, ∀ mapped, f name = .ok mapped →
      Descriptor.CanName mapped) : ∀ u ∈ us, u.Valid := by
  induction h with
  | nil => simp
  | cons htu _ ih =>
    simp only [List.forall_mem_cons] at hts hnames ⊢
    exact ⟨htu.valid hts.1 hnames.1, ih hts.2 hnames.2⟩

end FieldType

/-! ### Components of methods -/

namespace MethodType

def components (m : MethodType) : List FieldType := m.parameters ++ m.result.toList

theorem valid_iff {m : MethodType} : m.Valid ↔ ∀ t ∈ m.components, t.Valid := by
  simp only [Valid, components, List.forall_mem_append, Option.mem_toList, Option.mem_def]

theorem filterMap_elementClass?_split {m : MethodType} (h : m.Valid) :
    (m.split.parameters ++ [m.split.result]).filterMap Descriptor.elementClass? =
      m.components.filterMap FieldType.className? := by
  have hparts : ∀ t ∈ m.parameters,
      (Descriptor.elementClass? ∘ FieldType.text) t = t.className? := by
    intro t ht
    rw [Function.comp_apply, Renamer.elementClass?_text (h.1 t ht)]
  rw [components, List.filterMap_append, List.filterMap_append, split, List.filterMap_map]
  refine congrArg₂ (· ++ ·) (List.filterMap_congr hparts) ?_
  cases hm : m.result with
  | none =>
    have hvoid : Descriptor.elementClass? "V" = none := by decide +kernel
    simpa [resultChars, hm] using hvoid
  | some t =>
    have hclass : Descriptor.elementClass? (String.ofList t.chars) = t.className? :=
      Renamer.elementClass?_text (h.2 t hm)
    simp [resultChars, hm, List.filterMap_cons, hclass]

variable {f : String → Except ArchiveError String} {m n : MethodType}

theorem RenamedBy.components (h : RenamedBy f m n) :
    List.Forall₂ (FieldType.RenamedBy f) m.components n.components :=
  List.rel_append h.parameters (forall₂_toList h.result)

theorem exists_renamedBy : (∃ n, RenamedBy f m n) ↔
    ∀ name ∈ m.components.filterMap FieldType.className?, ∃ mapped, f name = .ok mapped := by
  have hnames : (∀ name ∈ m.components.filterMap FieldType.className?, ∃ mapped,
      f name = .ok mapped) ↔ ∀ t ∈ m.components, ∃ u, FieldType.RenamedBy f t u := by
    simp only [List.mem_filterMap, FieldType.exists_renamedBy, Option.mem_def]
    exact ⟨fun h t ht name hname => h name ⟨t, ht, hname⟩,
      fun h name ⟨t, ht, hname⟩ => h t ht name hname⟩
  rw [hnames]
  constructor
  · rintro ⟨n, hn⟩
    exact exists_forall₂.1 ⟨_, hn.components⟩
  · intro h
    obtain ⟨hparameters, hresult⟩ := List.forall_mem_append.1 h
    obtain ⟨us, hus⟩ := exists_forall₂.2 hparameters
    obtain ⟨last, hlast⟩ := exists_optionRel fun t ht => hresult t (by simpa using ht)
    exact ⟨⟨us, last⟩, hus, hlast⟩

end MethodType

/-- Whether the second descriptor is the first with each part renamed. Its parameters are as many,
its arrays as deep and its wide parameters at the same places. -/
structure MethodDescriptor.ImageBy (f : String → Except ArchiveError String)
    (d e : MethodDescriptor) : Prop where
  parameters : List.Forall₂ (fun p q => f p = .ok q) d.parameters e.parameters
  result : f d.result = .ok e.result
  count : e.parameters.length = d.parameters.length
  depths : (e.parameters ++ [e.result]).map Descriptor.arrayDepth =
    (d.parameters ++ [d.result]).map Descriptor.arrayDepth
  wide : e.parameters.map Descriptor.isWide = d.parameters.map Descriptor.isWide

namespace Renamer

variable {r : Renamer}

theorem descriptor_text {t u : FieldType} (ht : t.Valid)
    (h : FieldType.RenamedBy r.className t u) : r.descriptor t.text = .ok u.text :=
  (FieldType.rename_scan_eq_ok ht).2 ⟨u, h, rfl⟩

theorem exists_descriptor {t : FieldType} (ht : t.Valid) : (∃ s, r.descriptor t.text = .ok s) ↔
    ∀ name ∈ NameKind.fieldDescriptor.classNames t.text,
      ∃ mapped, r.className name = .ok mapped := by
  simp only [NameKind.classNames, elementClass?_text ht, Option.mem_toList]
  calc (∃ s, r.descriptor t.text = .ok s)
      ↔ ∃ u, t.RenamedBy r.className u := by
        constructor
        · rintro ⟨s, hs⟩
          obtain ⟨u, hu, -⟩ := (FieldType.rename_scan_eq_ok ht).1 hs
          exact ⟨u, hu⟩
        · rintro ⟨u, hu⟩
          exact ⟨u.text, descriptor_text ht hu⟩
    _ ↔ ∀ name, t.className? = some name → ∃ mapped, r.className name = .ok mapped :=
        FieldType.exists_renamedBy

theorem descriptor_result {result last : Option FieldType} (hresult : ∀ t ∈ result, t.Valid)
    (h : Option.Rel (FieldType.RenamedBy r.className) result last) :
    r.descriptor (String.ofList (result.elim ['V'] FieldType.chars)) =
        .ok (String.ofList (last.elim ['V'] FieldType.chars)) ∧
      Descriptor.arrayDepth (String.ofList (last.elim ['V'] FieldType.chars)) =
        Descriptor.arrayDepth (String.ofList (result.elim ['V'] FieldType.chars)) := by
  cases h with
  | none => exact ⟨rfl, rfl⟩
  | some hu => exact ⟨descriptor_text (hresult _ rfl) hu, hu.arrayDepth_text⟩

theorem map_text_of_forall₂ {α : Type} {g : String → α}
    (hg : ∀ t u, FieldType.RenamedBy r.className t u → g u.text = g t.text)
    {ts us : List FieldType} (h : List.Forall₂ (FieldType.RenamedBy r.className) ts us) :
    (us.map FieldType.text).map g = (ts.map FieldType.text).map g := by
  induction h with
  | nil => rfl
  | cons htu _ ih => simp only [List.map_cons, hg _ _ htu, ih]

theorem imageBy_split {m n : MethodType} (hm : m.Valid)
    (h : MethodType.RenamedBy r.className m n) :
    MethodDescriptor.ImageBy r.descriptor m.split n.split := by
  obtain ⟨hresult, hdepth⟩ := descriptor_result hm.2 h.result
  constructor
  case parameters =>
    simp only [MethodType.split, List.forall₂_map_left_iff, List.forall₂_map_right_iff]
    exact ((List.forall₂_and_left _ _).2 ⟨hm.1, h.parameters⟩).imp
      fun t u htu => descriptor_text htu.1 htu.2
  case result => exact hresult
  case count => simp [MethodType.split, h.parameters.length_eq]
  case depths =>
    simp only [MethodType.split, MethodType.resultChars, List.map_append, List.map_cons,
      List.map_nil, hdepth,
      map_text_of_forall₂ (fun _ _ htu => htu.arrayDepth_text) h.parameters]
  case wide => exact map_text_of_forall₂ (fun _ _ htu => htu.isWide_text) h.parameters

theorem methodDescriptor_text {m : MethodType} (hm : m.Valid) :
    r.methodDescriptor m.text = r.descriptor m.text := by
  have hparse : MethodDescriptor.parse m.text = .ok m.split :=
    MethodType.parse_eq_ok.2 ⟨m, hm, rfl, rfl⟩
  rw [methodDescriptor, hparse]
  generalize r.descriptor m.text = renamed
  rfl

theorem classNames_text {m : MethodType} (hm : m.Valid) :
    NameKind.methodDescriptor.classNames m.text =
      m.components.filterMap FieldType.className? := by
  have hparse : MethodDescriptor.parse m.text = .ok m.split :=
    MethodType.parse_eq_ok.2 ⟨m, hm, rfl, rfl⟩
  simp only [NameKind.classNames, hparse, MethodType.filterMap_elementClass?_split hm]

theorem exists_methodDescriptor {m : MethodType} (hm : m.Valid) :
    (∃ s, r.methodDescriptor m.text = .ok s) ↔
      ∀ name ∈ NameKind.methodDescriptor.classNames m.text, ∃ mapped,
        r.className name = .ok mapped := by
  rw [classNames_text hm, ← MethodType.exists_renamedBy, methodDescriptor_text hm]
  constructor
  · rintro ⟨s, hs⟩
    obtain ⟨n, hn, -⟩ := (MethodType.rename_scan_eq_ok hm).1 hs
    exact ⟨n, hn⟩
  · rintro ⟨n, hn⟩
    exact ⟨n.text, (MethodType.rename_scan_eq_ok hm).2 ⟨n, hn, rfl⟩⟩

theorem valid_of_renamedBy {m n : MethodType} (hm : m.Valid)
    (h : MethodType.RenamedBy r.className m n)
    (hnames : ∀ name ∈ NameKind.methodDescriptor.classNames m.text, ∀ mapped,
      r.className name = .ok mapped → Descriptor.CanName mapped) : n.Valid := by
  rw [classNames_text hm] at hnames
  refine MethodType.valid_iff.2 (FieldType.valid_of_forall₂ h.components
    (MethodType.valid_iff.1 hm) fun t ht name hname => ?_)
  exact hnames name (List.mem_filterMap.2 ⟨t, ht, hname⟩)

/-- A descriptor is renamed exactly if its class names can be, and then component by component. The
new descriptor is valid if the new names can stand in one, and is then cut into renamed parts. -/
theorem descriptor_by_components (r : Renamer) :
    (∀ d, Descriptor.checkField d = .ok () →
      ((∃ s, r.descriptor d = .ok s) ↔
        ∀ name ∈ NameKind.fieldDescriptor.classNames d, ∃ mapped, r.className name = .ok mapped) ∧
      ∀ s, r.descriptor d = .ok s →
        (∃ t u : FieldType, t.Valid ∧ d = t.text ∧ t.RenamedBy r.className u ∧ s = u.text) ∧
        ((∀ name ∈ NameKind.fieldDescriptor.classNames d, ∀ mapped,
            r.className name = .ok mapped → Descriptor.CanName mapped) →
          Descriptor.checkField s = .ok ())) ∧
    (∀ d m, MethodDescriptor.parse d = .ok m →
      r.methodDescriptor d = r.descriptor d ∧
      ((∃ s, r.methodDescriptor d = .ok s) ↔
        ∀ name ∈ NameKind.methodDescriptor.classNames d, ∃ mapped, r.className name = .ok mapped) ∧
      ∀ s, r.methodDescriptor d = .ok s →
        (∃ t u : MethodType, t.Valid ∧ d = t.text ∧ t.RenamedBy r.className u ∧ s = u.text) ∧
        ((∀ name ∈ NameKind.methodDescriptor.classNames d, ∀ mapped,
            r.className name = .ok mapped → Descriptor.CanName mapped) →
          ∃ m', MethodDescriptor.parse s = .ok m' ∧ m.ImageBy r.descriptor m')) := by
  refine ⟨?field, ?method⟩
  case field =>
    intro d hd
    obtain ⟨t, ht, rfl⟩ := FieldType.checkField_eq_ok.1 hd
    refine ⟨exists_descriptor ht, fun s hs => ?_⟩
    obtain ⟨u, hu, rfl⟩ := (FieldType.rename_scan_eq_ok ht).1 hs
    refine ⟨⟨t, u, ht, rfl, hu, rfl⟩, fun hnames => ?_⟩
    rw [NameKind.classNames, elementClass?_text ht] at hnames
    exact FieldType.checkField_eq_ok.2 ⟨u, hu.valid ht (by simpa using hnames), rfl⟩
  case method =>
    intro d parts hd
    obtain ⟨m, hm, rfl, rfl⟩ := MethodType.parse_eq_ok.1 hd
    refine ⟨methodDescriptor_text hm, exists_methodDescriptor hm, fun s hs => ?_⟩
    rw [methodDescriptor_text hm] at hs
    obtain ⟨n, hn, rfl⟩ := (MethodType.rename_scan_eq_ok hm).1 hs
    refine ⟨⟨m, n, hm, rfl, hn, rfl⟩, fun hnames => ⟨n.split, ?_, imageBy_split hm hn⟩⟩
    exact MethodType.parse_eq_ok.2 ⟨n, valid_of_renamedBy hm hn hnames, rfl, rfl⟩

/-- A class whose name reads like the middle of a descriptor. -/
def splitLookalike : Renamer :=
  between (.ofDrafts [{ names := [("left", "L)J"), ("right", "b/C")] }]) "left" "right"

theorem descriptor_by_components_lookalike : ∃ m m',
    MethodDescriptor.parse "(J[[LL)J;LD;)LL)J;" = .ok m ∧
    splitLookalike.methodDescriptor "(J[[LL)J;LD;)LL)J;" = .ok "(J[[Lb/C;LD;)Lb/C;" ∧
    MethodDescriptor.parse "(J[[Lb/C;LD;)Lb/C;" = .ok m' ∧
    m.ImageBy splitLookalike.descriptor m' := by
  have hrun : (MethodDescriptor.parse "(J[[LL)J;LD;)LL)J;").toOption.any (fun _ =>
      decide ((splitLookalike.methodDescriptor "(J[[LL)J;LD;)LL)J;").toOption =
        some "(J[[Lb/C;LD;)Lb/C;") &&
      (NameKind.methodDescriptor.classNames "(J[[LL)J;LD;)LL)J;").all fun name =>
        decide (∀ mapped, splitLookalike.className name = .ok mapped →
          mapped ≠ "" ∧ ';' ∉ mapped.toList)) = true := by
    decide +kernel
  obtain ⟨m, hm, hrun⟩ := exists_ok_of_any hrun
  simp only [Bool.and_eq_true, decide_eq_true_eq, List.all_eq_true, toOption_eq_some] at hrun
  obtain ⟨hrenamed, hnames⟩ := hrun
  obtain ⟨-, -, hparts⟩ := (descriptor_by_components splitLookalike).2 _ m hm
  obtain ⟨m', hm', himage⟩ := (hparts _ hrenamed).2 hnames
  exact ⟨m, m', hm, hrenamed, hm', himage⟩

end Renamer

end ClassArchive
