import ClassArchive.Proofs.TypeOrder
import Mathlib.Algebra.GroupWithZero.Nat
import Mathlib.Data.List.Chain
import Mathlib.Data.Nat.Find

/-!
How far a type can still climb. Over a hierarchy without cycles every class has a height, an array
one more for each dimension, and a join that changes a type lowers what is left to climb. An array
that is not named as joins name arrays loses that name in its first join, which counts as one more
step.
-/
set_option autoImplicit false

namespace ClassArchive

open Relation

def isArrayName (name : String) : Bool := name.toList.head? = some '['

theorem isArrayName_ofList {cs : List Char} (h : ∀ element, cs = '[' :: element → False) :
    isArrayName (String.ofList cs) = false := by
  cases cs with
  | nil => rfl
  | cons c cs =>
    have hc : c ≠ '[' := by
      rintro rfl
      exact h cs rfl
    simp [isArrayName, hc]

theorem length_lt_of_elementName? {name element : String} (h : elementName? name = some element) :
    element.length < name.length := by
  unfold elementName? at h
  split at h
  · next cs hcs =>
    split at h
    · cases h
      have hle := length_typeName_le cs
      rw [String.length_ofList, ← String.length_toList, hcs, List.length_cons]
      omega
    · cases h
  · cases h

namespace Loader

variable {load : Loader}

/-! ### Classes -/

/-- Links form no cycle, every chain has fewer than 256 of them, and they lead to classes. -/
structure Orderly (load : Loader) : Prop where
  acyclic : ∀ name, ¬ TransGen load.Link name name
  short : ∀ names : List String, names.Nodup → names.IsChain load.Link →
    names.length ≤ maxHierarchyDepth
  plain : ∀ name parent, load.Link name parent → isArrayName parent = false

theorem Orderly.length_le (h : load.Orderly) {names : List String}
    (hchain : names.IsChain load.Link) : names.length ≤ maxHierarchyDepth := by
  have hpairwise : names.Pairwise (TransGen load.Link) :=
    (hchain.imp fun _ _ => TransGen.single).pairwise
  have hnodup : names.Nodup := by
    refine hpairwise.imp ?_
    rintro a b hab rfl
    exact h.acyclic a hab
  exact h.short names hnodup hchain

open Classical in
/-- The number of links in a longest chain that starts at the name. -/
noncomputable def height (load : Loader) (name : String) : Nat :=
  Nat.findGreatest (fun n => ∃ names : List String, names.length = n ∧
    (name :: names).IsChain load.Link) maxHierarchyDepth

theorem exists_chain_height (load : Loader) (name : String) :
    ∃ names : List String, names.length = load.height name ∧
      (name :: names).IsChain load.Link := by
  classical
  have hspec := Nat.findGreatest_spec (P := fun n => ∃ names : List String, names.length = n ∧
    (name :: names).IsChain load.Link) (Nat.zero_le maxHierarchyDepth) ⟨[], rfl, by simp⟩
  exact hspec

theorem height_lt (h : load.Orderly) (name : String) : load.height name < maxHierarchyDepth := by
  obtain ⟨names, hlength, hchain⟩ := load.exists_chain_height name
  have hle := h.length_le hchain
  rw [List.length_cons] at hle
  omega

theorem height_lt_of_link (h : load.Orderly) {a b : String} (hlink : load.Link a b) :
    load.height b < load.height a := by
  classical
  obtain ⟨names, hlength, hchain⟩ := load.exists_chain_height b
  have hlonger : (a :: b :: names).IsChain load.Link := List.isChain_cons_cons.2 ⟨hlink, hchain⟩
  have hle := h.length_le hlonger
  simp only [List.length_cons] at hle
  have hheight : load.height b + 1 ≤ load.height a :=
    Nat.le_findGreatest (by omega) ⟨b :: names, by simp [hlength], hlonger⟩
  omega

theorem height_lt_of_linked (h : load.Orderly) {a b : String} (hlinked : TransGen load.Link a b) :
    load.height b < load.height a := by
  induction hlinked with
  | single hlink => exact height_lt_of_link h hlink
  | tail _ hlink ih => exact Nat.lt_trans (height_lt_of_link h hlink) ih

/-- What is left to climb for a class: its links, and the step to the root. -/
noncomputable def classRank (load : Loader) (name : String) : Nat :=
  if name = objectClass then 0 else load.height name + 1

theorem classRank_le (h : load.Orderly) (name : String) :
    load.classRank name ≤ maxHierarchyDepth := by
  have := height_lt h name
  unfold classRank
  split <;> omega

/-! ### Arrays -/

noncomputable def nameRank (load : Loader) (name : String) : Nat :=
  match h : elementName? name with
  | some element =>
      have := length_lt_of_elementName? h
      (if name = arrayOf element then 1 else 2) + nameRank load element
  | none =>
      if isArrayName name then 1 else load.classRank name
  termination_by name.length

theorem nameRank_of_elementName? {name element : String} (h : elementName? name = some element) :
    load.nameRank name =
      (if name = arrayOf element then 1 else 2) + load.nameRank element := by
  rw [nameRank]
  split
  · next h' =>
    rw [h] at h'
    cases h'
    rfl
  · next h' => simp [h] at h'

theorem nameRank_arrayOf (name : String) :
    load.nameRank (arrayOf name) = 1 + load.nameRank name := by
  rw [nameRank_of_elementName? (elementName?_arrayOf name), if_pos rfl]

theorem nameRank_of_class {name : String} (h : isArrayName name = false) :
    load.nameRank name = load.classRank name := by
  have hnone : elementName? name = none := by
    unfold elementName?
    split
    · next hcs => simp [isArrayName, hcs] at h
    · rfl
  rw [nameRank]
  split
  · next h' => simp [hnone] at h'
  · simp [h]

theorem nameRank_pos {name : String} (h : name ≠ objectClass) : 0 < load.nameRank name := by
  cases helement : elementName? name with
  | some element =>
    rw [nameRank_of_elementName? helement]
    split <;> omega
  | none =>
    cases harray : isArrayName name with
    | false => simp [nameRank_of_class harray, classRank, h]
    | true =>
      rw [nameRank]
      split
      · next h' => simp [helement] at h'
      · simp [harray]

theorem nameRank_root : load.nameRank objectClass = 0 := by
  rw [nameRank_of_class (by decide), classRank, if_pos rfl]

/-! ### Joins of names -/

theorem commonSuperClass_root {b c : String} (h : load.commonSuperClass objectClass b = .ok c) :
    c = objectClass := by
  unfold commonSuperClass at h
  split at h
  · cases h
    rfl
  · rw [if_pos (.inl rfl)] at h
    cases h
    rfl

theorem plain_of_linked (h : load.Orderly) {a b : String} (ha : isArrayName a = false)
    (hlinked : ReflTransGen load.Link a b) : isArrayName b = false := by
  rcases hlinked.cases_tail with rfl | ⟨last, _, hlink⟩
  · exact ha
  · exact h.plain last b hlink

theorem rank_commonSuperClass_lt (h : load.Orderly) {a b c : String} (ha : isArrayName a = false)
    (hc : load.commonSuperClass a b = .ok c) (hne : c ≠ a) : load.nameRank c < load.nameRank a := by
  have hroot : a ≠ objectClass := by
    rintro rfl
    exact hne (commonSuperClass_root hc)
  by_cases hobject : c = objectClass
  · rw [hobject, nameRank_root]
    exact nameRank_pos hroot
  · rcases linked_commonSuperClass hc with hroot' | ⟨hlinked, -⟩
    · exact absurd hroot' hobject
    · have hheight := height_lt_of_linked h
        ((reflTransGen_iff_eq_or_transGen.1 hlinked).resolve_left hne)
      rw [nameRank_of_class ha, nameRank_of_class (plain_of_linked h ha hlinked)]
      simp only [classRank, hobject, hroot, if_false]
      omega

/-- A join that changes the first of two names lowers what is left to climb. -/
theorem nameRank_mergeNames_lt (h : load.Orderly) (a b : List Char) (c : String)
    (hc : load.mergeNames a b = .ok c) (hne : c ≠ String.ofList a) :
    load.nameRank c < load.nameRank (String.ofList a) := by
  fun_induction mergeNames load a b generalizing c with
  | case1 a =>
    cases hc
    exact absurd rfl hne
  | case2 ea eb href _ _ ih =>
    obtain ⟨element, helement, rfl⟩ := map_eq_ok.1 hc
    rw [nameRank_arrayOf,
      nameRank_of_elementName? (elementName?_bracket (Bool.and_eq_true_iff.1 href).1)]
    by_cases hsame : element = String.ofList (typeName ea)
    · -- only the way in which the array is named has changed
      rw [hsame] at hne ⊢
      rw [if_neg hne.symm]
      omega
    · have hlt := ih element helement hsame
      split <;> omega
  | case3 | case4 | case5 =>
    cases hc
    rw [nameRank_root]
    exact nameRank_pos hne.symm
  | case6 a b _ hfirst _ _ =>
    refine rank_commonSuperClass_lt h ?_ hc hne
    exact isArrayName_ofList hfirst

end Loader

/-! ### Depths of arrays -/

/-- An array of at most the given depth around a class, or around a text of the remaining length.
Class names can have any length, since they may come from the loader. -/
inductive Nests : Nat → String → Prop where
  | plain {depth : Nat} {name : String} : isArrayName name = false → Nests depth name
  | text {depth : Nat} {name : String} : name.length ≤ depth → Nests depth name
  | layer {depth : Nat} {name : String} : Nests depth name → Nests (depth + 1) (arrayOf name)

namespace Nests

theorem mono {depth larger : Nat} {name : String} (h : Nests depth name) (hle : depth ≤ larger) :
    Nests larger name := by
  induction h generalizing larger with
  | plain hclass => exact .plain hclass
  | text hlength => exact .text (by omega)
  | layer _ ih =>
    obtain ⟨larger, rfl⟩ : ∃ n, larger = n + 1 := ⟨larger - 1, by omega⟩
    exact .layer (ih (by omega))

theorem element {depth : Nat} {name element : String} (h : Nests depth name)
    (helement : elementName? name = some element) :
    ∃ rest, depth = rest + 1 ∧ Nests rest element := by
  cases h with
  | plain hclass =>
    unfold elementName? at helement
    split at helement
    · next hcs => simp [isArrayName, hcs] at hclass
    · cases helement
  | text hlength =>
    have hlt := length_lt_of_elementName? helement
    exact ⟨depth - 1, by omega, .text (by omega)⟩
  | @layer rest inner hinner =>
    rw [elementName?_arrayOf] at helement
    cases helement
    exact ⟨rest, rfl, hinner⟩

end Nests

namespace Loader

variable {load : Loader}

theorem nests_mergeNames (h : load.Orderly) (a b : List Char) (c : String) (depth : Nat)
    (hc : load.mergeNames a b = .ok c) (ha : Nests depth (String.ofList a))
    (hb : Nests depth (String.ofList b)) : Nests depth c := by
  fun_induction mergeNames load a b generalizing c depth with
  | case1 a =>
    cases hc
    exact ha
  | case2 ea eb href _ _ ih =>
    obtain ⟨element, helement, rfl⟩ := map_eq_ok.1 hc
    obtain ⟨hrefA, hrefB⟩ := Bool.and_eq_true_iff.1 href
    obtain ⟨rest, rfl, hnestsA⟩ := ha.element (elementName?_bracket hrefA)
    obtain ⟨rest', heq, hnestsB⟩ := hb.element (elementName?_bracket hrefB)
    cases heq
    exact .layer (ih element rest helement hnestsA hnestsB)
  | case3 | case4 | case5 =>
    cases hc
    exact .plain (by decide)
  | case6 a b _ hfirst _ _ =>
    rcases linked_commonSuperClass hc with rfl | ⟨hlinked, -⟩
    · exact .plain (by decide)
    · exact .plain (plain_of_linked h (isArrayName_ofList hfirst) hlinked)

/-- A dimension of an array costs no more steps than characters, up to the last one. -/
theorem cost_le_of_elementName? {name element : String} (h : elementName? name = some element) :
    2 ≤ name.length ∧ (isArrayName element = true →
      (if name = arrayOf element then 1 else 2) + element.length ≤ name.length) := by
  unfold elementName? at h
  split at h
  · next cs hcs =>
    split at h
    · next href =>
      cases h
      have hlength : name.length = cs.length + 1 := by
        rw [← String.length_toList, hcs, List.length_cons]
      have hname : name = String.ofList ('[' :: cs) := by rw [← hcs, String.ofList_toList]
      unfold isReference at href
      split at href
      · next cs =>
        rw [List.length_cons] at hlength
        refine ⟨by omega, fun harray => ?_⟩
        unfold typeName at harray ⊢
        by_cases hlast : cs.getLast? = some ';'
        · simp only [hlast, if_true] at harray ⊢
          have hpos : cs ≠ [] := by
            rintro rfl
            simp at hlast
          have := List.length_pos_iff.2 hpos
          rw [String.length_ofList, List.length_dropLast]
          split <;> omega
        · simp [hlast, isArrayName] at harray
      · next cs =>
        rw [List.length_cons] at hlength
        refine ⟨by omega, fun _ => ?_⟩
        have hsame : name = arrayOf (String.ofList ('[' :: cs)) := by
          rw [hname, arrayOf, ← String.toList_inj]
          simp
        rw [typeName, if_pos hsame, String.length_ofList, List.length_cons]
        · omega
        · simp
      · cases href
    · cases h
  · cases h

theorem nameRank_le_of_length (h : load.Orderly) (name : String) :
    load.nameRank name ≤ maxHierarchyDepth + name.length + 1 := by
  fun_induction nameRank load name with
  | case1 name element helement _ ih =>
    obtain ⟨hlength, hcost⟩ := cost_le_of_elementName? helement
    cases harray : isArrayName element with
    | true =>
      have := hcost harray
      omega
    | false =>
      have hclass := classRank_le h element
      rw [nameRank_of_class harray]
      split <;> omega
  | case2 name _ _ => omega
  | case3 name _ _ =>
    have := classRank_le h name
    omega

theorem nameRank_le_of_nests (h : load.Orderly) {depth : Nat} {name : String}
    (hnests : Nests depth name) : load.nameRank name ≤ maxHierarchyDepth + depth + 1 := by
  induction hnests with
  | plain hclass =>
    rw [nameRank_of_class hclass]
    exact Nat.le_trans (classRank_le h _) (by omega)
  | @text depth name hlength =>
    have := nameRank_le_of_length h name
    omega
  | layer _ ih =>
    rw [nameRank_arrayOf]
    omega

end Loader

/-! ### Types -/

def VerificationType.Nested (depth : Nat) : VerificationType → Prop
  | .object name => Nests depth name
  | _ => True

namespace Loader

/-- What is left to climb for a type. Null stands below all others. -/
noncomputable def typeRank (load : Loader) (limit : Nat) : VerificationType → Nat
  | .top => 0
  | .null => limit
  | .object name => load.nameRank name + 1
  | _ => 1

noncomputable def typesRank (load : Loader) (limit : Nat) (types : List VerificationType) : Nat :=
  (types.map (load.typeRank limit)).sum

section Ranks

variable {load : Loader} (h : load.Orderly) {depth limit : Nat}
  (hlimit : maxHierarchyDepth + depth + 2 < limit)
include h

theorem nested_mergeType {a b c : VerificationType} (ha : a.Nested depth) (hb : b.Nested depth)
    (hc : load.mergeType a b = .ok c) : c.Nested depth := by
  unfold mergeType at hc
  split at hc
  · cases hc
    exact ha
  · split at hc
    · cases hc
      exact hb
    · cases hc
      exact ha
    · obtain ⟨name, hname, rfl⟩ := map_eq_ok.1 hc
      refine nests_mergeNames h _ _ name depth hname ?_ ?_
      · rw [String.ofList_toList]
        exact ha
      · rw [String.ofList_toList]
        exact hb
    · cases hc
      trivial

include hlimit

theorem typeRank_le {type : VerificationType} (htype : type.Nested depth) :
    load.typeRank limit type ≤ limit := by
  cases type with
  | object name =>
    have := nameRank_le_of_nests h htype
    simp only [typeRank]
    omega
  | _ =>
    simp only [typeRank]
    omega

theorem typeRank_mergeType {a b c : VerificationType} (hb : b.Nested depth)
    (hc : load.mergeType a b = .ok c) : c = a ∨ load.typeRank limit c < load.typeRank limit a := by
  unfold mergeType at hc
  split at hc
  · cases hc
    exact .inl rfl
  · split at hc
    · next name _ =>
      cases hc
      have := nameRank_le_of_nests h hb
      simp only [typeRank]
      omega
    · cases hc
      exact .inl rfl
    · next x y _ =>
      obtain ⟨name, hname, rfl⟩ := map_eq_ok.1 hc
      by_cases hsame : name = x
      · exact .inl (by rw [hsame])
      · have hlt := nameRank_mergeNames_lt h _ _ name hname (by simpa using hsame)
        rw [String.ofList_toList] at hlt
        exact .inr (by simpa [typeRank] using hlt)
    · cases hc
      cases a with
      | top => exact .inl rfl
      | _ =>
        simp only [typeRank]
        omega

theorem typesRank_mergeTypes {as bs cs : List VerificationType}
    (hbs : ∀ type ∈ bs, type.Nested depth) (hcs : load.mergeTypes as bs = .ok cs) :
    cs = as ∨ load.typesRank limit cs < load.typesRank limit as := by
  induction as generalizing bs cs with
  | nil =>
    cases hcs
    exact .inl rfl
  | cons a as ih =>
    cases bs with
    | nil =>
      cases hcs
      exact .inl rfl
    | cons b bs =>
      obtain ⟨hb, hbs⟩ := List.forall_mem_cons.1 hbs
      obtain ⟨c, hc, hcs⟩ := bind_eq_ok.1 hcs
      obtain ⟨rest, hrest, hcs⟩ := bind_eq_ok.1 hcs
      cases hcs
      simp only [typesRank, List.map_cons, List.sum_cons] at ih ⊢
      rcases typeRank_mergeType h hlimit hb hc with rfl | hlt
      · rcases ih hbs hrest with rfl | hlt
        · exact .inl rfl
        · exact .inr (by omega)
      · rcases ih hbs hrest with rfl | hlt'
        · exact .inr (by omega)
        · exact .inr (by omega)

theorem typesRank_le {types : List VerificationType} (htypes : ∀ type ∈ types, type.Nested depth) :
    load.typesRank limit types ≤ types.length * limit := by
  induction types with
  | nil => simp [typesRank]
  | cons type types ih =>
    obtain ⟨htype, htypes⟩ := List.forall_mem_cons.1 htypes
    have hrank := typeRank_le h hlimit htype
    have hrest := ih htypes
    simp only [typesRank, List.map_cons, List.sum_cons, List.length_cons] at hrest ⊢
    rw [Nat.succ_mul]
    omega

end Ranks

end Loader

end ClassArchive
