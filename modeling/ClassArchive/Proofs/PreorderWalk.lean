import ClassArchive.Proofs.ArchiveTree

/-!
The search order as a recursive walk. The list of pending classes may hold a class many times, and
only when a class is taken off is it known whether it was listed before. Still the classes come out
as if each class were visited once, then all above its superclass, then all above each interface.
-/
set_option autoImplicit false

namespace ClassArchive

open Relation

namespace Inheritance

/-! ### The walk -/

theorem unlisted_length_le {tree : Inheritance} {order order' : List String} (h : order ⊆ order') :
    (tree.unlisted order').length ≤ (tree.unlisted order).length := by
  unfold unlisted
  rw [← List.countP_eq_length_filter, ← List.countP_eq_length_filter]
  refine List.countP_mono_left fun name _ hname => ?_
  simp only [decide_eq_true_eq] at hname ⊢
  exact fun hmem => hname (h hmem)

/-- The walk together with the fact that it forgets no visited class: each class that it enters
leaves fewer to enter. -/
def walkOnto (tree : Inheritance) (visited : List String) (name : String) :
    { order : List String // visited ⊆ order } :=
  if hn : name ∈ visited then ⟨visited, List.Subset.refl visited⟩
  else
    match ha : tree.find? name with
    | none => ⟨visited, List.Subset.refl visited⟩
    | some a =>
        let onward (order : { order : List String // name :: visited ⊆ order }) (next : String) :
            { order : List String // name :: visited ⊆ order } :=
          have := Nat.lt_of_le_of_lt (unlisted_length_le order.2) (unlisted_length_lt ha hn)
          let further := tree.walkOnto order.1 next
          ⟨further.1, List.Subset.trans order.2 further.2⟩
        let entered : { order : List String // name :: visited ⊆ order } :=
          ⟨visited ++ [name], by simp⟩
        let all := a.interfaces.foldl onward (a.superName.elim entered (onward entered))
        ⟨all.1, fun _ h => all.2 (List.mem_cons_of_mem name h)⟩
  termination_by (tree.unlisted visited).length

/-- The classes visited so far, then those that a walk up from the given class adds. It visits the
class, then walks from its superclass, then from each interface in their order. -/
def walk (tree : Inheritance) (visited : List String) (name : String) : List String :=
  (tree.walkOnto visited name).1

def preorder (tree : Inheritance) (name : String) : List String := tree.walk [] name

theorem walk_of_mem {tree : Inheritance} {visited : List String} {name : String}
    (h : name ∈ visited) : tree.walk visited name = visited := by
  rw [walk, walkOnto, dif_pos h]

theorem walk_of_none {tree : Inheritance} {visited : List String} {name : String}
    (h : name ∉ visited) (ha : tree.find? name = none) : tree.walk visited name = visited := by
  rw [walk, walkOnto, dif_neg h]
  split
  · rfl
  · next b hb => simp [hb] at ha

theorem walk_of_find? {tree : Inheritance} {visited : List String} {name : String} {a : Ancestry}
    (h : name ∉ visited) (ha : tree.find? name = some a) :
    tree.walk visited name = a.interfaces.foldl tree.walk
      (a.superName.elim (visited ++ [name]) (tree.walk (visited ++ [name]))) := by
  rw [walk, walkOnto, dif_neg h]
  split
  · next hnone => simp [hnone] at ha
  · next b hb =>
    obtain rfl : b = a := Option.some.inj (hb.symm.trans ha)
    -- the subtypes only carry the bound along
    dsimp only
    cases b.superName with
    | none => exact (List.foldl_hom Subtype.val fun _ _ => rfl).symm
    | some superName => exact (List.foldl_hom Subtype.val fun _ _ => rfl).symm

theorem walk_eq_foldl_parents {tree : Inheritance} {visited : List String} {name : String}
    {a : Ancestry} (h : name ∉ visited) (ha : tree.find? name = some a) :
    tree.walk visited name = a.parents.foldl tree.walk (visited ++ [name]) := by
  rw [walk_of_find? h ha, Ancestry.parents, List.foldl_append]
  cases a.superName <;> rfl

/-- The pending classes are walked from one after the other. What a class adds in front of them is
its own walk. -/
theorem listOnto_eq_foldl_walk (tree : Inheritance) (pending order : List String) :
    tree.listOnto pending order = pending.foldl tree.walk order.reverse := by
  induction pending, order using listOnto.induct tree with
  | case1 order =>
    rw [listOnto]
    rfl
  | case2 order name rest hmem ih =>
    rw [listOnto_of_mem hmem, ih, List.foldl_cons, walk_of_mem (List.mem_reverse.2 hmem)]
  | case3 order name rest hmem hnone ih =>
    rw [listOnto_of_none hmem hnone, ih, List.foldl_cons,
      walk_of_none (mt List.mem_reverse.1 hmem) hnone]
  | case4 order name rest hmem a ha _ ih =>
    rw [listOnto_of_find? hmem ha, ih, List.foldl_append, List.reverse_cons, List.foldl_cons,
      walk_eq_foldl_parents (mt List.mem_reverse.1 hmem) ha]

theorem searchOrder_eq_preorder (tree : Inheritance) (name : String) :
    tree.searchOrder name = tree.preorder name :=
  tree.listOnto_eq_foldl_walk [name] []

/-! ### The trees that can come up -/

/-- The trees that come from building and resolving. Each time the headers may be others. -/
inductive Gathered : Inheritance → Prop where
  | empty : Gathered {}
  | build (a : Archive) (headers : HeaderSource) : Gathered (build a headers)
  | resolve {tree : Inheritance} (headers : HeaderSource) (name : String) :
      Gathered tree → Gathered (resolve headers tree name)

/-- The header of an entry need not be the one that the headers give for its class. -/
theorem closedBut_addEntry (headers : HeaderSource) {tree : Inheritance} {waiting : List String}
    (h : tree.ClosedBut waiting) (e : Entry) : (addEntry headers tree e).ClosedBut waiting := by
  unfold addEntry
  split
  · exact h
  · next header _ =>
    split
    · exact h
    · have hwalked := walked_foldl (walked_resolveWithin headers (maxHierarchyDepth - 1))
        header.parents (tree.insert header.name (.ofHeader header))
      exact closedBut_of_walked_insert (a := .ofHeader header) hwalked h

theorem Gathered.closed {tree : Inheritance} (h : tree.Gathered) : tree.ClosedBut [] := by
  induction h with
  | empty => exact closedBut_empty []
  | build a headers =>
    exact List.foldlRecOn (motive := fun tree : Inheritance => tree.ClosedBut []) a.classEntries _
      (closedBut_empty []) fun _ htree e _ => closedBut_addEntry headers htree e
  | @resolve tree headers name _ ih =>
    exact (walked_resolveWithin headers maxHierarchyDepth tree name).closed ih

/-- A tree that was gathered in any way lists for each of its classes those that can be reached over
superclasses and interfaces, each once, in the order of the recursive walk. -/
theorem searchOrder_gathered {tree : Inheritance} (htree : tree.Gathered) {name : String}
    (hname : tree.contains name = true) :
    (tree.searchOrder name).Nodup ∧
    (∀ other, other ∈ tree.searchOrder name ↔ ReflTransGen tree.Parent name other) ∧
    tree.searchOrder name = tree.preorder name :=
  ⟨nodup_searchOrder tree name, fun _ => mem_searchOrder htree.closed hname,
    searchOrder_eq_preorder tree name⟩

/-- Class `c/C` comes later, above itself and below the circle of `a/X` and `a/Y`. -/
def lateComer : Archive := .ofEntries "late" [plainEntry "c/C" "a/D" ["a/Y", "c/C"]]

def tangledLate : Inheritance :=
  resolve (lateComer.headers []) (build tangled (tangled.headers [tangledBase])) "c/C"

theorem searchOrder_gathered_late : tangledLate.Gathered ∧ tangledLate.contains "c/C" = true ∧
    tangledLate.searchOrder "c/C" =
      ["c/C", "a/D", "b/B", "a/X", "a/Y", "a/J", "a/I", "java/lang/Object"] := by
  have hgathered : tangledLate.Gathered := .resolve _ _ (.build _ _)
  have hnodes : tangledLate.find? "c/C" = some ⟨"a/D", ["a/Y", "c/C"]⟩ ∧
      tangledLate.find? "a/D" = some ⟨"b/B", ["a/I"]⟩ ∧
      tangledLate.find? "b/B" = some ⟨"a/X", ["a/J"]⟩ ∧
      tangledLate.find? "a/X" = some ⟨"a/Y", ["a/J"]⟩ ∧
      tangledLate.find? "a/Y" = some ⟨"a/X", []⟩ ∧
      tangledLate.find? "a/I" = some ⟨"java/lang/Object", ["a/J"]⟩ ∧
      tangledLate.find? "a/J" = some {} ∧ tangledLate.find? "java/lang/Object" = some {} := by
    decide +kernel
  obtain ⟨hC, hD, hB, hX, hY, hI, hJ, hO⟩ := hnodes
  have hname : tangledLate.contains "c/C" = true := contains_iff.2 ⟨_, hC⟩
  obtain ⟨-, -, horder⟩ := searchOrder_gathered hgathered hname
  refine ⟨hgathered, hname, horder.trans ?_⟩
  simp [preorder, walk_of_mem, walk_of_find? _ hC, walk_of_find? _ hD, walk_of_find? _ hB,
    walk_of_find? _ hX, walk_of_find? _ hY, walk_of_find? _ hI, walk_of_find? _ hJ,
    walk_of_find? _ hO]

end Inheritance

end ClassArchive
