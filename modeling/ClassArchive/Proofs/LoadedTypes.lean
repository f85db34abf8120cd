import ClassArchive.Proofs.MappingNames
import ClassArchive.Renaming.Hierarchy

/-!
The node that is loaded for the new name of a class. A source is asked for the name as it is given
before it is asked for the name from before, so the class is found unless the archive stores a class
under that new name already, which answers in its place.
-/
set_option autoImplicit false

namespace ClassArchive

def Archive.header? (a : Archive) (name : String) : Option ClassHeader :=
  (a.find? (classEntryName name)).bind fun e => (ClassHeader.decode e.bytes).toOption

namespace Renamer

theorem archiveNode?_eq (r : Renamer) (name : String) (a : Archive) :
    r.archiveNode? name a = (a.header? name).map r.node := by
  unfold archiveNode? Archive.header?
  cases a.find? (classEntryName name) with
  | none => rfl
  | some e =>
    cases hdecode : ClassHeader.decode e.bytes with
    | error _ => simp [hdecode, Except.toOption]
    | ok h => simp [hdecode, Except.toOption]

/-- A class and its node, where the mapping has a new name for each class that the header names. -/
structure Places (r : Renamer) (h : ClassHeader) (node : TypeNode) : Prop where
  name : r.className h.name = .ok node.name
  superName : h.superName.mapM r.className = .ok node.superName
  interfaces : h.interfaces.mapM r.className = .ok node.interfaces
  isInterface : node.isInterface = Access.isInterface h.access

theorem classNameOrSame_of_ok {r : Renamer} {name mapped : String}
    (h : r.className name = .ok mapped) : r.classNameOrSame name = mapped := by
  simp [classNameOrSame, h]

theorem map_classNameOrSame {r : Renamer} {names mapped : List String}
    (h : names.mapM r.className = .ok mapped) : names.map r.classNameOrSame = mapped := by
  induction names generalizing mapped with
  | nil =>
    cases h
    rfl
  | cons name names ih =>
    rw [List.mapM_cons] at h
    obtain ⟨first, hfirst, h⟩ := bind_eq_ok.1 h
    obtain ⟨rest, hrest, h⟩ := bind_eq_ok.1 h
    cases h
    rw [List.map_cons, classNameOrSame_of_ok hfirst, ih hrest]

theorem map_classNameOrSame_option {r : Renamer} {name mapped : Option String}
    (h : name.mapM r.className = .ok mapped) : name.map r.classNameOrSame = mapped := by
  cases name with
  | none =>
    cases h
    rfl
  | some name =>
    obtain ⟨found, hfound, h⟩ := bind_eq_ok.1 h
    cases h
    simp [classNameOrSame_of_ok hfound]

theorem node_eq_of_places {r : Renamer} {h : ClassHeader} {node : TypeNode}
    (hplaces : r.Places h node) : r.node h = node := by
  simp only [Renamer.node, classNameOrSame_of_ok hplaces.name,
    map_classNameOrSame_option hplaces.superName, map_classNameOrSame hplaces.interfaces,
    ← hplaces.isInterface]

/-- The archive is asked before all other sources, under both names. -/
theorem loader_of_archive (r : Renamer) (a : Archive) (dependencies : Layers) {name : String}
    {node : TypeNode}
    (h : (r.archiveNode? name a <|> (r.oldName? name).bind (r.archiveNode? · a)) = some node) :
    r.loader a dependencies name = some node := by
  simp only [loader, nodeSources, List.findSome?_cons, h]

theorem oldName?_of_className {r : Renamer} (hm : r.mapping.Coherent)
    {name mapped : String} (h : r.className name = .ok mapped) (hne : mapped ≠ name) :
    r.oldName? mapped = some name := by
  unfold className at h
  split at h
  · cases h
    exact absurd rfl hne
  · next c hc =>
    split at h
    · next found hfound =>
      cases h
      have hback := hm.className?_of_class? hc hfound
      simp [oldName?, hback, hne.symm]
    · cases h

section Loading

variable {r : Renamer} {a : Archive} {h : ClassHeader} {node : TypeNode}

theorem loader_of_occupied (r : Renamer) (dependencies : Layers) {name : String}
    {other : ClassHeader} (hother : a.header? name = some other) :
    r.loader a dependencies name = some (r.node other) := by
  apply loader_of_archive
  simp [archiveNode?_eq, hother]

theorem loader_of_vacant (hm : r.mapping.Coherent)
    (dependencies : Layers) (hstored : a.header? h.name = some h) (hplaces : r.Places h node)
    (hvacant : a.header? node.name = none) :
    r.loader a dependencies node.name = some node := by
  -- a class that keeps its name would be stored under the vacant one
  have hne : node.name ≠ h.name := by
    intro heq
    rw [heq, hstored] at hvacant
    cases hvacant
  apply loader_of_archive
  simp [archiveNode?_eq, hvacant, oldName?_of_className hm hplaces.name hne, hstored,
    node_eq_of_places hplaces]

/-- A class that is stored under its own name is found under its new name exactly if no other class
is stored under that name, or the other class has the same node; else the other class is found. -/
theorem loader_eq_some_iff {drafts : List ClassDraft} (hm : Mapping.build drafts = .ok r.mapping)
    (dependencies : Layers) (hstored : a.header? h.name = some h) (hplaces : r.Places h node) :
    (r.loader a dependencies node.name = some node ↔
      ∀ other, a.header? node.name = some other → r.node other = node) ∧
    ∀ other, a.header? node.name = some other →
      r.loader a dependencies node.name = some (r.node other) := by
  refine ⟨?_, fun other hother => loader_of_occupied r dependencies hother⟩
  cases hfound : a.header? node.name with
  | none =>
    have hload := loader_of_vacant (Mapping.coherent_build hm) dependencies hstored hplaces hfound
    simp [hload]
  | some other =>
    have hload := loader_of_occupied r dependencies hfound
    simp [hload]

end Loading

def bareClass (name superName : String) : ClassFile where
  pool := Pool.ofSlots #[.utf8 name, .classInfo 1, .utf8 superName, .classInfo 3]
  thisClass := 2
  superClass := 4

def parentAndChild : Archive := .ofEntries "main"
  [⟨"a.class", .file (bareClass "a" objectClass).encode⟩,
   ⟨"b.class", .file (bareClass "b" "a").encode⟩]

def leftToRight (mapping : Mapping) : Renamer where
  mapping
  source := "left"
  target := "right"
  tree := {}
  headers := fun _ => none

/-- Class `a` becomes `c` and leaves its name to class `b`. -/
def shiftedNames : List ClassDraft :=
  [{ names := [("left", "a"), ("right", "c")] }, { names := [("left", "b"), ("right", "a")] }]

theorem loader_eq_some_iff_shifted : ∃ m, Mapping.build shiftedNames = .ok m ∧
    (leftToRight m).loader parentAndChild [] "c" = some ⟨"c", some objectClass, [], false⟩ ∧
    (leftToRight m).loader parentAndChild [] "a" = some ⟨"c", some objectClass, [], false⟩ := by
  have hparent : parentAndChild.header? "a" = some ⟨0, "a", some objectClass, []⟩ := by
    decide +kernel
  have hchild : parentAndChild.header? "b" = some ⟨0, "b", some "a", []⟩ := by decide +kernel
  have hvacant : parentAndChild.header? "c" = none := by decide +kernel
  have hrun : (Mapping.build shiftedNames).toOption.any (fun m =>
      ((leftToRight m).className "a").toOption = some "c" &&
        ((leftToRight m).className "b").toOption = some "a" &&
        ((leftToRight m).className objectClass).toOption = some objectClass) = true := by
    decide +kernel
  obtain ⟨m, hm, hrun⟩ := exists_ok_of_any hrun
  simp only [Bool.and_eq_true, decide_eq_true_eq, toOption_eq_some] at hrun
  obtain ⟨⟨ha, hb⟩, hobject⟩ := hrun
  have hplacesA : (leftToRight m).Places ⟨0, "a", some objectClass, []⟩
      ⟨"c", some objectClass, [], false⟩ :=
    ⟨ha, mapM_some_of_ok hobject, rfl, rfl⟩
  have hplacesB : (leftToRight m).Places ⟨0, "b", some "a", []⟩ ⟨"a", some "c", [], false⟩ :=
    ⟨hb, mapM_some_of_ok ha, rfl, rfl⟩
  have hload := (loader_eq_some_iff (r := leftToRight m) (h := ⟨0, "a", some objectClass, []⟩)
    hm [] hparent hplacesA).1
  have hload' := (loader_eq_some_iff (r := leftToRight m) (h := ⟨0, "b", some "a", []⟩)
    hm [] hchild hplacesB).2 _ hparent
  rw [node_eq_of_places hplacesA] at hload'
  refine ⟨m, hm, hload.2 ?_, hload'⟩
  intro other hother
  rw [hvacant] at hother
  cases hother

def swappedNames : List ClassDraft :=
  [{ names := [("left", "a"), ("right", "b")] }, { names := [("left", "b"), ("right", "a")] }]

/-- Asked for the new name of the parent, the loader answers with the child. -/
theorem loader_of_swapped : ∃ m node, Mapping.build swappedNames = .ok m ∧
    parentAndChild.header? "a" = some ⟨0, "a", some objectClass, []⟩ ∧
    (leftToRight m).Places ⟨0, "a", some objectClass, []⟩ node ∧ node.name = "b" ∧
    (leftToRight m).loader parentAndChild [] node.name = some ⟨"a", some "b", [], false⟩ ∧
    (leftToRight m).loader parentAndChild [] node.name ≠ some node := by
  have hparent : parentAndChild.header? "a" = some ⟨0, "a", some objectClass, []⟩ := by
    decide +kernel
  have hrun : (Mapping.build swappedNames).toOption.any (fun m =>
      ((leftToRight m).className "a").toOption = some "b" &&
        ((leftToRight m).className objectClass).toOption = some objectClass &&
        (leftToRight m).loader parentAndChild [] "b" = some ⟨"a", some "b", [], false⟩) = true := by
    decide +kernel
  obtain ⟨m, hm, hrun⟩ := exists_ok_of_any hrun
  simp only [Bool.and_eq_true, decide_eq_true_eq, toOption_eq_some] at hrun
  obtain ⟨⟨ha, hobject⟩, hload⟩ := hrun
  refine ⟨m, ⟨"b", some objectClass, [], false⟩, hm, hparent,
    ⟨ha, mapM_some_of_ok hobject, rfl, rfl⟩, rfl, hload, ?_⟩
  rw [hload]
  decide

end Renamer

end ClassArchive
