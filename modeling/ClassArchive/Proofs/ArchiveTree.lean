import ClassArchive.Proofs.ResolvedTree
import ClassArchive.Proofs.ArchiveEntries
import Mathlib.Data.List.Perm.Subperm

/-!
The tree of an archive. Where each class is stored under its own name, adding an entry is the same
as resolving its class, so the tree of all classes and the tree of one class alone give that class
the same search order, in whatever order the entries are added.
-/
set_option autoImplicit false

namespace ClassArchive

open Relation

namespace Archive

/-- Every class entry that can be read is stored under the name of its class. -/
def StoredByName (a : Archive) : Prop :=
  ∀ e ∈ a.classEntries, ∀ h, ClassHeader.decode e.bytes = .ok h → e.name = classEntryName h.name

instance : DecidablePred StoredByName := fun a =>
  decidable_of_iff (∀ e ∈ a.classEntries,
    (ClassHeader.decode e.bytes).toOption.all (e.name = classEntryName ·.name) = true) (by
      refine forall₂_congr fun e _ => ?_
      cases ClassHeader.decode e.bytes <;> simp [Except.toOption])

abbrev headers (a : Archive) (dependencies : Layers) : HeaderSource :=
  Layers.headers (a :: dependencies)

end Archive

/-! ### Layers -/

namespace Layers

theorem find?_mem {layers : Layers} {name : String} {e : Entry} (h : layers.find? name = some e) :
    e ∈ layers.entries ∧ e.name = name := by
  obtain ⟨a, ha, hfind⟩ := List.exists_of_findSome?_eq_some h
  obtain ⟨content, hcontent, rfl⟩ := Option.map_eq_some_iff.1 hfind
  exact ⟨List.mem_flatMap.2 ⟨a, ha, Archive.mem_entries.2 hcontent⟩, rfl⟩

end Layers

theorem Archive.headers_of_classEntry {a : Archive} (hnamed : a.StoredByName)
    (dependencies : Layers) {e : Entry} {h : ClassHeader} (he : e ∈ a.classEntries)
    (hdecode : ClassHeader.decode e.bytes = .ok h) : a.headers dependencies h.name = some h := by
  have hentry := mem_entries.1 (List.mem_of_mem_filter he)
  rw [hnamed e he h hdecode] at hentry
  have hfind : Layers.find? (a :: dependencies) (classEntryName h.name) =
      some ⟨classEntryName h.name, e.content⟩ := by
    simp [Layers.find?, find?, hentry]
  have hbytes : Entry.bytes ⟨classEntryName h.name, e.content⟩ = e.bytes := rfl
  simp [Layers.headers, hfind, hbytes, hdecode, Except.toOption]

theorem classEntryName_injective {name name' : String}
    (h : classEntryName name = classEntryName name') : name = name' := by
  simpa [classEntryName] using h

theorem exists_of_mem_dropLast {α : Type} {R : α → α → Prop} {path : List α} (h : path.IsChain R)
    {x : α} (hx : x ∈ path.dropLast) : ∃ y, R x y := by
  induction path with
  | nil => simp at hx
  | cons z path ih =>
    cases path with
    | nil => simp at hx
    | cons y path =>
      obtain ⟨hzy, hrest⟩ := List.isChain_cons_cons.1 h
      rcases List.mem_cons.1 hx with rfl | hx
      · exact ⟨y, hzy⟩
      · exact ih hrest hx

/-- A path leaves each class but its last through an entry of its own. -/
theorem Layers.shortPaths {layers : Layers} (hfew : layers.entries.length < maxHierarchyDepth) :
    (Layers.headers layers).ShortPaths := by
  intro path hnodup hchain
  have hstored : path.dropLast.map classEntryName ⊆ layers.entries.map (·.name) := by
    intro stored hmem
    obtain ⟨name, hname, rfl⟩ := List.mem_map.1 hmem
    obtain ⟨parent, h, hheader, -⟩ := exists_of_mem_dropLast hchain hname
    obtain ⟨e, hfind, -⟩ := Option.bind_eq_some_iff.1 hheader
    obtain ⟨hmem, hstored⟩ := find?_mem hfind
    exact List.mem_map.2 ⟨e, hmem, hstored⟩
  have hdistinct : (path.dropLast.map classEntryName).Nodup :=
    (hnodup.sublist (List.dropLast_sublist path)).map fun _ _ => classEntryName_injective
  have hlength := (List.subperm_of_subset hdistinct hstored).length_le
  simp only [List.length_map, List.length_dropLast] at hlength
  omega

namespace Inheritance

/-! ### Entries -/

def ownName? (e : Entry) : Option String := (ClassHeader.decode e.bytes).toOption.map (·.name)

theorem addEntry_eq_resolve {headers : HeaderSource} {e : Entry} {h : ClassHeader}
    (hdecode : ClassHeader.decode e.bytes = .ok h) (hheader : headers h.name = some h)
    (tree : Inheritance) : addEntry headers tree e = resolve headers tree h.name := by
  have hancestry : headers.ancestry h.name = .ofHeader h := by simp [HeaderSource.ancestry, hheader]
  by_cases hknown : tree.contains h.name = true
  · simp [addEntry, hdecode, hknown, resolve, resolveWithin_of_contains]
  · -- the entry counts as the first class of the walk
    have hresolve := resolveWithin_succ headers hknown (maxHierarchyDepth - 1)
    rw [hancestry] at hresolve
    simp only [addEntry, hdecode, if_neg hknown]
    exact hresolve.symm

section Archives

variable {a : Archive} {dependencies : Layers} (hnamed : a.StoredByName) {entries : List Entry}
  (hentries : ∀ e ∈ entries, e ∈ a.classEntries)
include hnamed hentries

theorem foldl_addEntry (tree : Inheritance) :
    entries.foldl (addEntry (a.headers dependencies)) tree =
      (entries.filterMap ownName?).foldl (resolve (a.headers dependencies)) tree := by
  induction entries generalizing tree with
  | nil => rfl
  | cons e entries ih =>
    have hrest := ih fun other hother => hentries other (by simp [hother])
    rw [List.foldl_cons, hrest]
    cases hdecode : ClassHeader.decode e.bytes with
    | error _ =>
      -- an entry that cannot be read adds no class and has no name
      simp [addEntry, ownName?, hdecode, Except.toOption]
    | ok h =>
      have hheader :=
        Archive.headers_of_classEntry hnamed dependencies (hentries e (by simp)) hdecode
      rw [addEntry_eq_resolve hdecode hheader]
      simp [ownName?, hdecode, Except.toOption]

theorem resolved_foldl_addEntry (hshort : (a.headers dependencies).ShortPaths) :
    Resolved (a.headers dependencies) (entries.foldl (addEntry (a.headers dependencies)) {}) := by
  rw [foldl_addEntry hnamed hentries]
  exact resolved_foldl_resolve hshort _ resolved_empty

/-- The tree holds the classes of the entries and what is above them. -/
theorem contains_foldl_addEntry (hshort : (a.headers dependencies).ShortPaths) {name : String} :
    (entries.foldl (addEntry (a.headers dependencies)) {}).contains name = true ↔
      ∃ root ∈ entries.filterMap ownName?,
        ReflTransGen (a.headers dependencies).Linked root name := by
  have hresolved := resolved_foldl_addEntry hnamed hentries hshort
  rw [foldl_addEntry hnamed hentries] at hresolved ⊢
  have hwalk := walked_foldl (walked_resolveWithin (a.headers dependencies) maxHierarchyDepth)
    (entries.filterMap ownName?) {}
  constructor
  · intro hname
    rcases hwalk.reached hname with hname | hname
    · obtain ⟨_, hnone⟩ := contains_iff.1 hname
      simp [find?_empty] at hnone
    · exact hname
  · rintro ⟨root, hroot, hreach⟩
    exact hresolved.contains_of_reach (hwalk.contains root hroot) hreach

end Archives

theorem resolved_build {a : Archive} {dependencies : Layers} (hnamed : a.StoredByName)
    (hshort : (a.headers dependencies).ShortPaths) :
    Resolved (a.headers dependencies) (build a (a.headers dependencies)) :=
  resolved_foldl_addEntry hnamed (fun _ he => he) hshort

theorem contains_detached (headers : HeaderSource) (name : String) :
    (detached headers name).contains name = true :=
  (walked_resolveWithin headers maxHierarchyDepth {} name).contains name (by simp)

theorem resolved_detached {headers : HeaderSource} (hshort : headers.ShortPaths) (name : String) :
    Resolved headers (detached headers name) :=
  resolved_resolve hshort resolved_empty name

/-- A class of the tree of an archive has the same search order there as in the tree of that class
alone, and the same one whatever the order in which the entries were added. It lists the class and
what is above it, each once. -/
theorem searchOrder_build {a : Archive} {dependencies : Layers} (hnamed : a.StoredByName)
    (hshort : (a.headers dependencies).ShortPaths) {name : String}
    (hname : (build a (a.headers dependencies)).contains name = true) :
    (detached (a.headers dependencies) name).contains name = true ∧
    (build a (a.headers dependencies)).searchOrder name =
      (detached (a.headers dependencies) name).searchOrder name ∧
    ((build a (a.headers dependencies)).searchOrder name).Nodup ∧
    (∀ other, other ∈ (build a (a.headers dependencies)).searchOrder name ↔
      ReflTransGen (a.headers dependencies).Linked name other) ∧
    ∀ entries : List Entry, entries.Perm a.classEntries →
      (entries.foldl (addEntry (a.headers dependencies)) {}).contains name = true ∧
      (entries.foldl (addEntry (a.headers dependencies)) {}).searchOrder name =
        (detached (a.headers dependencies) name).searchOrder name := by
  have halone := contains_detached (a.headers dependencies) name
  have hdetached := resolved_detached hshort name
  have hbuilt := resolved_build hnamed hshort
  refine ⟨halone, searchOrder_eq hbuilt hdetached hname halone, nodup_searchOrder _ name,
    fun other => hbuilt.mem_searchOrder hname, fun entries hperm => ?_⟩
  have hentries : ∀ e ∈ entries, e ∈ a.classEntries := fun e he => hperm.mem_iff.1 he
  have hcontains : (entries.foldl (addEntry (a.headers dependencies)) {}).contains name = true := by
    obtain ⟨root, hroot, hreach⟩ := (contains_foldl_addEntry hnamed (fun _ he => he) hshort).1 hname
    rw [contains_foldl_addEntry hnamed hentries hshort]
    exact ⟨root, (hperm.filterMap ownName?).mem_iff.2 hroot, hreach⟩
  exact ⟨hcontains, searchOrder_eq (resolved_foldl_addEntry hnamed hentries hshort) hdetached
    hcontains halone⟩

def plainEntry (name superName : String) (interfaces : List String) : Entry :=
  let slots := (name :: superName :: interfaces).zipIdx.flatMap fun (name, i) =>
    [Constant.utf8 name, .classInfo (2 * i + 1).toUInt16]
  let c : ClassFile :=
    { pool := Pool.ofSlots slots.toArray, thisClass := 2, superClass := 4,
      interfaces := (List.range interfaces.length).map fun i => (2 * i + 6).toUInt16 }
  ⟨classEntryName name, .file c.encode⟩

/-- Classes `a/X` and `a/Y` are above each other, and class `a/D` is below both through a class of
another archive and has the interface `a/J` in two ways. -/
def tangled : Archive := .ofEntries "main"
  [plainEntry "a/D" "b/B" ["a/I"], plainEntry "a/I" objectClass ["a/J"],
   plainEntry "a/X" "a/Y" ["a/J"], plainEntry "a/Y" "a/X" []]

def tangledBase : Archive := .ofEntries "base" [plainEntry "b/B" "a/X" ["a/J"]]

theorem searchOrder_build_tangled : tangled.StoredByName ∧
    (tangled.headers [tangledBase]).ShortPaths ∧
    (build tangled (tangled.headers [tangledBase])).contains "b/B" = true ∧
    (build tangled (tangled.headers [tangledBase])).searchOrder "b/B" =
      (detached (tangled.headers [tangledBase]) "b/B").searchOrder "b/B" := by
  have hnamed : tangled.StoredByName := by decide +kernel
  have hshort : (tangled.headers [tangledBase]).ShortPaths := Layers.shortPaths (by decide +kernel)
  have hname : (build tangled (tangled.headers [tangledBase])).contains "b/B" = true := by
    decide +kernel
  exact ⟨hnamed, hshort, hname, (searchOrder_build hnamed hshort hname).2.1⟩

end Inheritance

end ClassArchive
