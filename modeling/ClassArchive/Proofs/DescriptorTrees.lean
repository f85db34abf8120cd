import ClassArchive.Proofs.ScannedText
import Mathlib.Data.List.Forall2
import Mathlib.Data.List.TakeWhile

/-!
Descriptors as trees. A descriptor is accepted exactly if it is the text of a valid tree, and
renaming its classes in the text is renaming them in the tree.
-/
set_option autoImplicit false

namespace ClassArchive

inductive FieldType where
  | base (letter : Char)
  | object (name : String)
  | array (element : FieldType)
  deriving DecidableEq, Repr

namespace FieldType

def Valid : FieldType → Prop
  | .base letter => Descriptor.isBase letter = true
  | .object name => name ≠ "" ∧ ';' ∉ name.toList
  | .array element => element.Valid

def chars : FieldType → List Char
  | .base letter => [letter]
  | .object name => 'L' :: name.toList ++ [';']
  | .array element => '[' :: element.chars

def text (t : FieldType) : String := String.ofList t.chars

def className? : FieldType → Option String
  | .base _ => none
  | .object name => some name
  | .array element => element.className?

def pieces : FieldType → List Piece
  | .base letter => [.text [letter]]
  | .object name => [.text ['L'], .className name, .text [';']]
  | .array element => .text ['['] :: element.pieces

inductive RenamedBy (f : String → Except ArchiveError String) : FieldType → FieldType → Prop
  | base {letter : Char} : RenamedBy f (.base letter) (.base letter)
  | object {name mapped : String} : f name = .ok mapped →
      RenamedBy f (.object name) (.object mapped)
  | array {element renamed : FieldType} : RenamedBy f element renamed →
      RenamedBy f (.array element) (.array renamed)

/-! ### Splitting -/

theorem ne_of_isBase {c : Char} (h : Descriptor.isBase c = true) :
    c ≠ '[' ∧ c ≠ 'L' ∧ c ≠ ')' ∧ c ≠ 'V' := by
  refine ⟨?_, ?_, ?_, ?_⟩
  all_goals
    rintro rfl
    revert h
    decide

theorem takeWhile_name {name : String} (h : ';' ∉ name.toList) (rest : List Char) :
    (name.toList ++ ';' :: rest).takeWhile (· ≠ ';') = name.toList ∧
      (name.toList ++ ';' :: rest).dropWhile (· ≠ ';') = ';' :: rest := by
  have hall : ∀ c ∈ name.toList, decide (c ≠ ';') = true := by
    intro c hc
    exact decide_eq_true fun heq => h (heq ▸ hc)
  rw [List.takeWhile_append_of_pos hall, List.dropWhile_append_of_pos hall]
  simp

theorem splitFieldType?_append {t : FieldType} (h : t.Valid) (rest : List Char) :
    Descriptor.splitFieldType? (t.chars ++ rest) = some (t.chars, rest) := by
  induction t with
  | base letter =>
    obtain ⟨hbracket, hclass, -, -⟩ := ne_of_isBase h
    have hbase : Descriptor.isBase letter = true := h
    rw [chars, List.singleton_append, Descriptor.splitFieldType?, if_pos hbase]
    · exact hbracket
    · exact hclass
  | object name =>
    obtain ⟨hne, hnot⟩ := h
    obtain ⟨htake, hdrop⟩ := takeWhile_name hnot rest
    have hsome : name.toList ≠ [] := fun hnil => hne (by simpa using hnil)
    simp only [chars, List.cons_append, List.append_assoc, List.nil_append,
      Descriptor.splitFieldType?, htake, hdrop]
  | array element ih => simp [chars, Descriptor.splitFieldType?, ih h]

theorem exists_of_splitFieldType? {cs type rest : List Char}
    (h : Descriptor.splitFieldType? cs = some (type, rest)) :
    ∃ t : FieldType, t.Valid ∧ t.chars = type := by
  fun_induction Descriptor.splitFieldType? cs generalizing type rest with
  | case1 => cases h
  | case2 cs ih =>
    obtain ⟨⟨inner, last⟩, hinner, heq⟩ := Option.map_eq_some_iff.1 h
    cases heq
    obtain ⟨t, ht, rfl⟩ := ih hinner
    exact ⟨.array t, ht, rfl⟩
  | case3 => cases h
  | case4 cs last _ hne =>
    cases h
    refine ⟨.object (String.ofList (cs.takeWhile (· ≠ ';'))), ⟨?_, ?_⟩, ?_⟩
    · simpa using hne
    · intro hmem
      have hmem := List.mem_takeWhile_imp (by simpa using hmem)
      simp at hmem
    · simp [chars]
  | case5 => cases h
  | case6 c cs _ _ hbase =>
    cases h
    exact ⟨.base c, hbase, rfl⟩
  | case7 => cases h

theorem isFieldType_iff {cs : List Char} :
    Descriptor.isFieldType cs = true ↔ ∃ t : FieldType, t.Valid ∧ cs = t.chars := by
  unfold Descriptor.isFieldType
  constructor
  · intro h
    split at h
    · next type hsplit =>
      obtain ⟨t, ht, rfl⟩ := exists_of_splitFieldType? hsplit
      exact ⟨t, ht, by simpa using (Descriptor.append_of_splitFieldType? hsplit).1⟩
    · cases h
  · rintro ⟨t, ht, rfl⟩
    have hsplit := splitFieldType?_append ht []
    rw [List.append_nil] at hsplit
    rw [hsplit]

theorem checkField_eq_ok {descriptor : String} :
    Descriptor.checkField descriptor = .ok () ↔ ∃ t : FieldType, t.Valid ∧ descriptor = t.text := by
  unfold Descriptor.checkField
  split
  · next h =>
    obtain ⟨t, ht, hchars⟩ := isFieldType_iff.1 h
    simp only [true_iff]
    exact ⟨t, ht, by rw [text, ← hchars, String.ofList_toList]⟩
  · next h =>
    simp only [reduceCtorEq, false_iff]
    rintro ⟨t, ht, rfl⟩
    exact h (isFieldType_iff.2 ⟨t, ht, by simp [text]⟩)

/-! ### Renaming -/

theorem scanFrom_name {name : List Char} (h : ';' ∉ name) (seen rest : List Char) :
    Descriptor.scanFrom (some seen) (name ++ ';' :: rest) =
      ((Descriptor.scanFrom none rest).copy ';').emit
        (.className (String.ofList (seen.reverse ++ name))) := by
  induction name generalizing seen with
  | nil => simp [Descriptor.scanFrom]
  | cons c name ih =>
    simp only [List.mem_cons, not_or] at h
    rw [List.cons_append, Descriptor.scanFrom, ih h.2]
    · simp
    · exact Ne.symm h.1

theorem scanFrom_append {t : FieldType} (h : t.Valid) (rest : List Char) :
    Descriptor.scanFrom none (t.chars ++ rest) =
      { Descriptor.scanFrom none rest with
        pieces := t.pieces ++ (Descriptor.scanFrom none rest).pieces } := by
  induction t with
  | base letter =>
    rw [chars, List.singleton_append, Descriptor.scanFrom]
    · rfl
    · exact (ne_of_isBase h).2.1
  | object name =>
    simp only [chars, List.cons_append, List.append_assoc, List.nil_append, Descriptor.scanFrom]
    rw [scanFrom_name h.2]
    simp [Scan.copy, Scan.emit, pieces]
  | array element ih =>
    rw [chars, List.cons_append, Descriptor.scanFrom, ih h]
    · rfl
    · decide

theorem renames_pieces {f : String → Except ArchiveError String} {t : FieldType} {cs : List Char} :
    Renames f t.pieces cs ↔ ∃ u, RenamedBy f t u ∧ cs = u.chars := by
  induction t generalizing cs with
  | base letter =>
    simp only [pieces, renames_cons, renames_nil, Piece.rename]
    constructor
    · rintro ⟨_, _, hfirst, rfl, rfl⟩
      cases hfirst
      exact ⟨_, .base, rfl⟩
    · rintro ⟨_, hrenamed, rfl⟩
      cases hrenamed
      exact ⟨_, _, rfl, rfl, rfl⟩
  | object name =>
    simp only [pieces, renames_cons, renames_nil, Piece.rename]
    constructor
    · rintro ⟨_, _, hfirst, ⟨_, _, hname, ⟨_, _, hlast, rfl, rfl⟩, rfl⟩, rfl⟩
      cases hfirst
      cases hlast
      obtain ⟨mapped, hmapped, hname⟩ := bind_eq_ok.1 hname
      cases hname
      exact ⟨_, .object hmapped, rfl⟩
    · rintro ⟨_, hrenamed, rfl⟩
      cases hrenamed with
      | object hmapped =>
        exact ⟨_, _, rfl, ⟨_, _, bind_eq_ok.2 ⟨_, hmapped, rfl⟩, ⟨_, _, rfl, rfl, rfl⟩, rfl⟩, rfl⟩
  | array element ih =>
    simp only [pieces, renames_cons, ih, Piece.rename]
    constructor
    · rintro ⟨_, _, hfirst, ⟨u, hu, rfl⟩, rfl⟩
      cases hfirst
      exact ⟨_, .array hu, rfl⟩
    · rintro ⟨_, hrenamed, rfl⟩
      cases hrenamed with
      | array hu => exact ⟨_, _, rfl, ⟨_, hu, rfl⟩, rfl⟩

theorem rename_scan_eq_ok {f : String → Except ArchiveError String} {t : FieldType} (h : t.Valid)
    {renamed : String} :
    (Descriptor.scan t.text).rename f t.text = .ok renamed ↔
      ∃ u, RenamedBy f t u ∧ renamed = u.text := by
  have hscan := scanFrom_append h []
  rw [List.append_nil] at hscan
  rw [Scan.rename_eq_ok, Descriptor.scan, text, String.toList_ofList, hscan]
  simp only [Descriptor.scanFrom, Scan.done, List.append_nil, Option.isSome_some, true_and,
    renames_pieces]
  refine exists_congr fun u => and_congr_right fun _ => ?_
  rw [text, ← String.toList_inj, String.toList_ofList]

end FieldType

/-! ### Methods -/

section Optional

variable {α β : Type} {R : α → β → Prop} {x : Option α} {y : Option β}

theorem exists_optionRel (h : ∀ a ∈ x, ∃ b, R a b) : ∃ y, Option.Rel R x y := by
  cases x with
  | none => exact ⟨_, .none⟩
  | some a =>
    obtain ⟨b, hab⟩ := h a rfl
    exact ⟨_, .some hab⟩

theorem forall₂_toList (h : Option.Rel R x y) : List.Forall₂ R x.toList y.toList := by
  cases h with
  | none => exact .nil
  | some hab => exact .cons hab .nil

end Optional

/-- A method descriptor as a tree. Without a result it ends in `V`. -/
structure MethodType where
  parameters : List FieldType
  result : Option FieldType
  deriving DecidableEq, Repr

namespace MethodType

def Valid (m : MethodType) : Prop := (∀ t ∈ m.parameters, t.Valid) ∧ ∀ t ∈ m.result, t.Valid

def resultChars (m : MethodType) : List Char := m.result.elim ['V'] FieldType.chars

def chars (m : MethodType) : List Char :=
  '(' :: (m.parameters.flatMap FieldType.chars ++ ')' :: m.resultChars)

def text (m : MethodType) : String := String.ofList m.chars

def split (m : MethodType) : MethodDescriptor where
  parameters := m.parameters.map FieldType.text
  result := String.ofList m.resultChars

def pieces (m : MethodType) : List Piece :=
  .text ['('] :: (m.parameters.flatMap FieldType.pieces ++
    .text [')'] :: m.result.elim [.text ['V']] FieldType.pieces)

structure RenamedBy (f : String → Except ArchiveError String) (m n : MethodType) : Prop where
  parameters : List.Forall₂ (FieldType.RenamedBy f) m.parameters n.parameters
  result : Option.Rel (FieldType.RenamedBy f) m.result n.result

/-! ### Splitting -/

theorem splitParameters?_append {ts : List FieldType} (h : ∀ t ∈ ts, t.Valid) (rest : List Char) :
    Descriptor.splitParameters? (ts.flatMap FieldType.chars ++ ')' :: rest) =
      some (ts.map FieldType.chars, rest) := by
  induction ts with
  | nil =>
    rw [Descriptor.splitParameters?.eq_def]
    rfl
  | cons t ts ih =>
    have hsplit := FieldType.splitFieldType?_append (h t (by simp))
      (ts.flatMap FieldType.chars ++ ')' :: rest)
    have hmore := ih fun u hu => h u (by simp [hu])
    rw [List.flatMap_cons, List.append_assoc, Descriptor.splitParameters?]
    · split
      · next hnone => simp [hsplit] at hnone
      · next type last hsome =>
        rw [hsplit] at hsome
        cases hsome
        rw [hmore]
        rfl
    · -- a closing parenthesis starts no field type
      intro last hlast
      rw [hlast] at hsplit
      simp [Descriptor.splitFieldType?, Descriptor.isBase] at hsplit

theorem exists_of_splitParameters? {cs rest : List Char} {types : List (List Char)}
    (h : Descriptor.splitParameters? cs = some (types, rest)) :
    ∃ ts : List FieldType, (∀ t ∈ ts, t.Valid) ∧ types = ts.map FieldType.chars ∧
      cs = ts.flatMap FieldType.chars ++ ')' :: rest := by
  fun_induction Descriptor.splitParameters? cs generalizing types rest with
  | case1 last =>
    cases h
    exact ⟨[], by simp, rfl, rfl⟩
  | case2 => cases h
  | case3 cs _ type last hsplit _ ih =>
    obtain ⟨⟨more, final⟩, hmore, heq⟩ := Option.map_eq_some_iff.1 h
    cases heq
    obtain ⟨t, ht, rfl⟩ := FieldType.exists_of_splitFieldType? hsplit
    obtain ⟨ts, hts, rfl, rfl⟩ := ih hmore
    refine ⟨t :: ts, ?_, rfl, ?_⟩
    · intro u hu
      rcases List.mem_cons.1 hu with rfl | hu
      · exact ht
      · exact hts u hu
    · rw [(Descriptor.append_of_splitFieldType? hsplit).1, List.flatMap_cons, List.append_assoc]

theorem result_iff {cs : List Char} :
    cs = ['V'] ∨ Descriptor.isFieldType cs = true ↔
      ∃ result : Option FieldType, (∀ t ∈ result, t.Valid) ∧
        cs = result.elim ['V'] FieldType.chars := by
  constructor
  · rintro (rfl | h)
    · exact ⟨none, by simp, rfl⟩
    · obtain ⟨t, ht, rfl⟩ := FieldType.isFieldType_iff.1 h
      exact ⟨some t, by simpa using ht, rfl⟩
  · rintro ⟨result, hresult, rfl⟩
    cases result with
    | none => exact .inl rfl
    | some t => exact .inr (FieldType.isFieldType_iff.2 ⟨t, by simpa using hresult, rfl⟩)

theorem parse_eq_ok {descriptor : String} {d : MethodDescriptor} :
    MethodDescriptor.parse descriptor = .ok d ↔
      ∃ m : MethodType, m.Valid ∧ descriptor = m.text ∧ d = m.split := by
  unfold MethodDescriptor.parse MethodDescriptor.parse?
  constructor
  · intro h
    split at h
    · next d' hparse =>
      cases h
      split at hparse
      · next cs hcs =>
        split at hparse
        · next types result hsplit =>
          split at hparse
          · next hresult =>
            cases hparse
            obtain ⟨ts, hts, rfl, rfl⟩ := exists_of_splitParameters? hsplit
            obtain ⟨last, hlast, rfl⟩ := result_iff.1 hresult
            refine ⟨⟨ts, last⟩, ⟨hts, hlast⟩, ?_, ?_⟩
            · rw [← String.toList_inj, hcs]
              simp [text, chars, resultChars]
            · simp [split, FieldType.text, resultChars, Function.comp_def]
          · cases hparse
        · cases hparse
      · cases hparse
    · cases h
  · rintro ⟨m, ⟨hparameters, hresult⟩, rfl, rfl⟩
    have hlast := result_iff.2 ⟨m.result, hresult, rfl⟩
    simp only [text, chars, resultChars, String.toList_ofList, splitParameters?_append hparameters,
      if_pos hlast]
    simp [split, FieldType.text, resultChars, Function.comp_def]

/-! ### Renaming -/

theorem scanFrom_parameters {ts : List FieldType} (h : ∀ t ∈ ts, t.Valid) (rest : List Char) :
    Descriptor.scanFrom none (ts.flatMap FieldType.chars ++ rest) =
      { Descriptor.scanFrom none rest with
        pieces := ts.flatMap FieldType.pieces ++ (Descriptor.scanFrom none rest).pieces } := by
  induction ts with
  | nil => rfl
  | cons t ts ih =>
    rw [List.flatMap_cons, List.append_assoc, FieldType.scanFrom_append (h t (by simp)),
      ih fun u hu => h u (by simp [hu])]
    simp

theorem scanFrom_chars {m : MethodType} (h : m.Valid) :
    Descriptor.scanFrom none m.chars = ⟨m.pieces, some []⟩ := by
  have hresult : Descriptor.scanFrom none m.resultChars =
      ⟨m.result.elim [.text ['V']] FieldType.pieces, some []⟩ := by
    unfold resultChars
    cases hresult : m.result with
    | none => rfl
    | some t =>
      have hscan := FieldType.scanFrom_append (h.2 t hresult) []
      rw [List.append_nil] at hscan
      simp [hscan, Descriptor.scanFrom, Scan.done]
  rw [chars, Descriptor.scanFrom, scanFrom_parameters h.1, Descriptor.scanFrom, hresult]
  · rfl
  · decide
  · decide

theorem renames_parameters {f : String → Except ArchiveError String} {ts : List FieldType}
    {cs : List Char} :
    Renames f (ts.flatMap FieldType.pieces) cs ↔
      ∃ us, List.Forall₂ (FieldType.RenamedBy f) ts us ∧ cs = us.flatMap FieldType.chars := by
  induction ts generalizing cs with
  | nil =>
    rw [List.flatMap_nil, renames_nil]
    constructor
    · rintro rfl
      exact ⟨[], .nil, rfl⟩
    · rintro ⟨us, hus, rfl⟩
      cases hus
      rfl
  | cons t ts ih =>
    simp only [List.flatMap_cons, renames_append, FieldType.renames_pieces, ih]
    constructor
    · rintro ⟨_, _, ⟨u, hu, rfl⟩, ⟨us, hus, rfl⟩, rfl⟩
      exact ⟨u :: us, .cons hu hus, rfl⟩
    · rintro ⟨_, hus, rfl⟩
      cases hus with
      | cons hu hus => exact ⟨_, _, ⟨_, hu, rfl⟩, ⟨_, hus, rfl⟩, rfl⟩

theorem renames_result {f : String → Except ArchiveError String} {result : Option FieldType}
    {cs : List Char} :
    Renames f (result.elim [.text ['V']] FieldType.pieces) cs ↔
      ∃ last, Option.Rel (FieldType.RenamedBy f) result last ∧
        cs = last.elim ['V'] FieldType.chars := by
  cases result with
  | none =>
    simp only [Option.elim_none, renames_cons, renames_nil, Piece.rename]
    constructor
    · rintro ⟨_, _, hfirst, rfl, rfl⟩
      cases hfirst
      exact ⟨none, .none, rfl⟩
    · rintro ⟨_, hlast, rfl⟩
      cases hlast
      exact ⟨_, _, rfl, rfl, rfl⟩
  | some t =>
    simp only [Option.elim_some, FieldType.renames_pieces]
    constructor
    · rintro ⟨u, hu, rfl⟩
      exact ⟨some u, .some hu, rfl⟩
    · rintro ⟨_, hlast, rfl⟩
      cases hlast with
      | some hu => exact ⟨_, hu, rfl⟩

theorem rename_scan_eq_ok {f : String → Except ArchiveError String} {m : MethodType} (h : m.Valid)
    {renamed : String} :
    (Descriptor.scan m.text).rename f m.text = .ok renamed ↔
      ∃ n, RenamedBy f m n ∧ renamed = n.text := by
  rw [Scan.rename_eq_ok, Descriptor.scan, text, String.toList_ofList, scanFrom_chars h]
  simp only [Option.isSome_some, true_and, pieces, renames_cons, renames_append,
    renames_parameters, renames_result, Piece.rename]
  constructor
  · rintro ⟨_, _, hopen, ⟨_, _, ⟨us, hus, rfl⟩, ⟨_, _, hclose, ⟨last, hlast, rfl⟩, rfl⟩, rfl⟩, hcs⟩
    cases hopen
    cases hclose
    refine ⟨⟨us, last⟩, ⟨hus, hlast⟩, ?_⟩
    rw [← String.toList_inj, hcs]
    simp [text, chars, resultChars]
  · rintro ⟨n, hn, rfl⟩
    refine ⟨_, _, rfl, ⟨_, _, ⟨n.parameters, hn.parameters, rfl⟩,
      ⟨_, _, rfl, ⟨n.result, hn.result, rfl⟩, rfl⟩, rfl⟩, ?_⟩
    simp [text, chars, resultChars]

end MethodType

end ClassArchive
