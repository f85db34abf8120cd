import ClassArchive.Proofs.ArchiveTree
import ClassArchive.Proofs.MappingNames
import ClassArchive.Transform

/-!
Members that a class inherits. The search order of a class begins with its superclasses up to any
one of them and goes on with the whole search order of that one. So a member that is found through a
superclass, and is listed with no class below it, is found through both and gets one name.
-/
set_option autoImplicit false

namespace ClassArchive

open Relation

namespace HeaderSource

def Extends (headers : HeaderSource) (name superName : String) : Prop :=
  ∃ h, headers name = some h ∧ h.superName = some superName

def Acyclic (headers : HeaderSource) : Prop := ∀ name, ¬ TransGen headers.Linked name name

theorem Extends.linked {headers : HeaderSource} {name superName : String}
    (h : headers.Extends name superName) : headers.Linked name superName := by
  obtain ⟨header, hheader, hsuper⟩ := h
  exact ⟨header, hheader, by simp [ClassHeader.parents, hsuper]⟩

end HeaderSource

namespace Inheritance

variable {headers : HeaderSource} {tree : Inheritance}

theorem exists_searchOrder_cons {name : String} (hname : tree.contains name = true) :
    ∃ rest, tree.searchOrder name = name :: rest := by
  obtain ⟨a, ha⟩ := contains_iff.1 hname
  obtain ⟨rest, hrest⟩ := prefix_listOnto tree (a.parents ++ []) [name]
  exact ⟨rest, by rw [searchOrder, listOnto_of_find? (by simp) ha, ← hrest]; rfl⟩

theorem exists_searchOrder_of_super (hacyclic : headers.Acyclic) (h : Resolved headers tree)
    {name superName : String} (hname : tree.contains name = true)
    (hextends : headers.Extends name superName) :
    ∃ rest, tree.searchOrder name = name :: (tree.searchOrder superName ++ rest) := by
  have hlisted : tree.listOnto [superName] [name] = name :: tree.searchOrder superName := by
    refine listOnto_append_apart (ReflTransGen headers.Linked superName) ?_ ?_ [] ?_
    · intro n a ha hmet p hp
      obtain rfl := h.faithful n a ha
      exact hmet.tail (HeaderSource.mem_parents_ancestry.1 hp)
    · intro n hn
      rw [List.mem_singleton.1 hn]
    · -- else the class would be above its own superclass
      intro n hn hmet
      rw [List.mem_singleton.1 hn] at hmet
      exact hacyclic name (.head' hextends.linked hmet)
  obtain ⟨header, hheader, hsuper⟩ := hextends
  have hparents : (headers.ancestry name).parents = [superName] ++ header.interfaces := by
    simp [HeaderSource.ancestry, hheader, Ancestry.parents, Ancestry.ofHeader, hsuper]
  obtain ⟨rest, hrest⟩ := prefix_listOnto tree header.interfaces
    (name :: tree.searchOrder superName).reverse
  refine ⟨rest, ?_⟩
  rw [searchOrder, listOnto_of_find? (by simp) (h.find? hname), List.append_nil, hparents,
    listOnto_append, hlisted, ← hrest, List.reverse_reverse, List.cons_append]

/-- The search order of a class goes through its superclasses up to any one of them and then through
the whole search order of that one. -/
theorem exists_searchOrder_of_superclass (hacyclic : headers.Acyclic) (h : Resolved headers tree)
    {derived base : String} (hname : tree.contains derived = true)
    (hbase : TransGen headers.Extends derived base) :
    ∃ chain rest, tree.searchOrder derived = chain ++ (tree.searchOrder base ++ rest) ∧
      ∀ name ∈ chain, ReflTransGen headers.Extends derived name ∧
        TransGen headers.Extends name base := by
  induction hbase using TransGen.head_induction_on with
  | single hextends =>
    rename_i derived
    obtain ⟨rest, hrest⟩ := exists_searchOrder_of_super hacyclic h hname hextends
    exact ⟨[derived], rest, hrest, by simpa using ⟨.refl, .single hextends⟩⟩
  | head hextends hbase ih =>
    rename_i derived next
    obtain ⟨rest, hrest⟩ := exists_searchOrder_of_super hacyclic h hname hextends
    obtain ⟨chain, more, hmore, hchain⟩ := ih (h.contains_of_linked hname hextends.linked)
    refine ⟨derived :: chain, more ++ rest, by simp [hrest, hmore], fun name hmem => ?_⟩
    rcases List.mem_cons.1 hmem with rfl | hmem
    · exact ⟨.refl, hbase.head hextends⟩
    · exact ⟨(hchain name hmem).1.head hextends, (hchain name hmem).2⟩

end Inheritance

/-! ### Names of members -/

namespace Renamer

variable {r : Renamer}

theorem searchOrder_of_resolved (hshort : r.headers.ShortPaths)
    (hr : Inheritance.Resolved r.headers r.tree) {tree : Inheritance}
    (h : Inheritance.Resolved r.headers tree) {name : String} (hname : tree.contains name = true) :
    r.searchOrder name = tree.searchOrder name := by
  unfold searchOrder
  split
  · next hknown => exact Inheritance.searchOrder_eq hr h hknown hname
  · exact Inheritance.searchOrder_eq (Inheritance.resolved_detached hshort name) h
      (Inheritance.contains_detached r.headers name) hname

def ownMember? {α : Type} (r : Renamer) (name : String) (lookup : ClassMapping → Option α) :
    Option α :=
  (r.mapping.class? r.source name).bind lookup

/-- No class of the chain of superclasses, from the first class up to the one below the second, has
the member listed with it. -/
def UnlistedBelow {α : Type} (r : Renamer) (derived base : String)
    (lookup : ClassMapping → Option α) : Prop :=
  ∀ name, ReflTransGen r.headers.Extends derived name → TransGen r.headers.Extends name base →
    r.ownMember? name lookup = none

theorem findMember?_of_own {α : Type} {name : String} {lookup : ClassMapping → Option α}
    {member : α} (h : r.ownMember? name lookup = some member) :
    r.findMember? name lookup = some member := by
  have horder : ∃ rest, r.searchOrder name = name :: rest := by
    unfold searchOrder
    split
    · next hknown => exact Inheritance.exists_searchOrder_cons hknown
    · exact Inheritance.exists_searchOrder_cons (Inheritance.contains_detached r.headers name)
  obtain ⟨rest, horder⟩ := horder
  rw [ownMember?] at h
  rw [findMember?, horder, List.findSome?_cons, h]

theorem findMember?_of_superclass (hacyclic : r.headers.Acyclic) (hshort : r.headers.ShortPaths)
    (hr : Inheritance.Resolved r.headers r.tree) {derived base : String}
    (hbase : TransGen r.headers.Extends derived base) {α : Type}
    {lookup : ClassMapping → Option α} (hnone : r.UnlistedBelow derived base lookup) {member : α}
    (hfound : r.findMember? base lookup = some member) :
    r.findMember? derived lookup = some member := by
  -- the tree of the derived class alone holds both classes
  have hresolved := Inheritance.resolved_detached hshort derived
  have hderived := Inheritance.contains_detached r.headers derived
  have hlinked : ReflTransGen r.headers.Linked derived base :=
    ReflTransGen.mono (fun _ _ => HeaderSource.Extends.linked) _ _ hbase.to_reflTransGen
  obtain ⟨chain, rest, horder, hchain⟩ :=
    Inheritance.exists_searchOrder_of_superclass hacyclic hresolved hderived hbase
  rw [← searchOrder_of_resolved hshort hr hresolved hderived, ← searchOrder_of_resolved hshort hr
    hresolved (hresolved.contains_of_reach hderived hlinked)] at horder
  have hskip : chain.findSome? (fun name => (r.mapping.class? r.source name).bind lookup) = none :=
    List.findSome?_eq_none_iff.2 fun name hmem =>
      hnone name (hchain name hmem).1 (hchain name hmem).2
  unfold findMember? at hfound ⊢
  rw [horder, List.findSome?_append, hskip, List.findSome?_append, hfound]
  rfl

/-- Whether a method keeps its name, whatever is listed. Constructors, static initializers and the
methods of arrays do. -/
def KeepsName (owner name : String) : Prop :=
  name = constructorName ∨ name = staticInitializerName ∨ owner.toList.head? = some '['

instance (owner name : String) : Decidable (KeepsName owner name) :=
  inferInstanceAs (Decidable (_ ∨ _ ∨ _))

theorem methodName_of_kept {owner name : String} (h : KeepsName owner name) (descriptor : String) :
    r.methodName owner name descriptor = .ok name := by
  unfold KeepsName at h
  rw [methodName, if_pos h]
  rfl

theorem methodName_of_not_kept {owner name descriptor : String} {id : MethodId}
    (h : ¬ KeepsName owner name) (hid : MethodId.ofDescriptor name descriptor = .ok id) :
    r.methodName owner name descriptor = r.methodById owner id := by
  unfold KeepsName at h
  rw [methodName, if_neg h, hid]
  rfl

theorem toOption_methodById {owner : String} {id : MethodId} {method : MethodMapping}
    (h : r.findMember? owner (·.method? r.source id) = some method) :
    (r.methodById owner id).toOption = method.names[r.target]?.map (·.id.name) := by
  simp only [methodById, h]
  cases method.names[r.target]? <;> rfl

theorem toOption_fieldName {owner name : String} {field : FieldMapping}
    (h : r.findMember? owner (·.field? r.source name) = some field) :
    (r.fieldName owner name).toOption = field.names[r.target]?.map (·.name) := by
  simp only [fieldName, h]
  cases field.names[r.target]? <;> rfl

end Renamer

/-- A member that is listed with no class from the derived one up to a superclass, but is found
through the superclass, gets the name that is found there through both, or none through both. A
method must not keep its name through one of the two only, as it does if one of them is named like
an array. -/
theorem Pass.memberNames_of_superclass (p : Pass) (a : Archive) (hnamed : a.StoredByName)
    (hacyclic : (a.headers p.dependencies).Acyclic)
    (hshort : (a.headers p.dependencies).ShortPaths) {derived base : String}
    (hbase : TransGen (a.headers p.dependencies).Extends derived base) :
    (∀ name descriptor id method, MethodId.ofDescriptor name descriptor = .ok id →
      (Renamer.KeepsName derived name ↔ Renamer.KeepsName base name) →
      (p.renamer a).UnlistedBelow derived base (·.method? p.source id) →
      (p.renamer a).findMember? base (·.method? p.source id) = some method →
      ((p.renamer a).methodName derived name descriptor).toOption =
        ((p.renamer a).methodName base name descriptor).toOption ∧
      (¬ Renamer.KeepsName base name → ((p.renamer a).methodName base name descriptor).toOption =
        method.names[p.target]?.map (·.id.name))) ∧
    ∀ name field, (p.renamer a).UnlistedBelow derived base (·.field? p.source name) →
      (p.renamer a).findMember? base (·.field? p.source name) = some field →
      ((p.renamer a).fieldName derived name).toOption =
        ((p.renamer a).fieldName base name).toOption ∧
      ((p.renamer a).fieldName base name).toOption = field.names[p.target]?.map (·.name) := by
  have htree : Inheritance.Resolved (p.renamer a).headers (p.renamer a).tree :=
    Inheritance.resolved_build hnamed hshort
  constructor
  · intro name descriptor id method hid hkept hnone hfound
    have hderived := Renamer.findMember?_of_superclass hacyclic hshort htree hbase hnone hfound
    by_cases hkeeps : Renamer.KeepsName base name
    · rw [Renamer.methodName_of_kept hkeeps, Renamer.methodName_of_kept (hkept.2 hkeeps)]
      exact ⟨rfl, fun hnot => absurd hkeeps hnot⟩
    · rw [Renamer.methodName_of_not_kept hkeeps hid,
        Renamer.methodName_of_not_kept (mt hkept.1 hkeeps) hid,
        Renamer.toOption_methodById hderived, Renamer.toOption_methodById hfound]
      exact ⟨rfl, fun _ => rfl⟩
  · intro name field hnone hfound
    have hderived := Renamer.findMember?_of_superclass hacyclic hshort htree hbase hnone hfound
    rw [Renamer.toOption_fieldName hderived, Renamer.toOption_fieldName hfound]
    exact ⟨rfl, rfl⟩

/-! ### Layers without cycles -/

theorem Layers.acyclic_of_rank {layers : Layers} (rank : String → Nat)
    (h : ∀ e ∈ layers.entries, ∀ header ∈ (ClassHeader.decode e.bytes).toOption,
      ∀ parent ∈ header.parents, rank (classEntryName parent) < rank e.name) :
    (Layers.headers layers).Acyclic := by
  have hlink : ∀ {name parent}, (Layers.headers layers).Linked name parent →
      rank (classEntryName parent) < rank (classEntryName name) := by
    rintro name parent ⟨header, hheader, hparent⟩
    obtain ⟨e, hfind, hdecode⟩ := Option.bind_eq_some_iff.1 hheader
    obtain ⟨hmem, hname⟩ := find?_mem hfind
    rw [← hname]
    exact h e hmem header hdecode parent hparent
  have hpath : ∀ {name above}, TransGen (Layers.headers layers).Linked name above →
      rank (classEntryName above) < rank (classEntryName name) := by
    intro name above hreach
    induction hreach with
    | single hstep => exact hlink hstep
    | tail _ hstep ih => exact (hlink hstep).trans ih
  exact fun name hcycle => lt_irrefl _ (hpath hcycle)

namespace Renamer

theorem unlistedBelow_of_single {r : Renamer} (hacyclic : r.headers.Acyclic)
    (hm : r.mapping.Coherent) {base : String}
    (hsingle : ∀ c ∈ r.mapping.classes.entries, c.names[r.source]? = some base)
    (derived : String) {α : Type} (lookup : ClassMapping → Option α) :
    r.UnlistedBelow derived base lookup := by
  intro name _ hbelow
  have hnone : r.mapping.class? r.source name = none := by
    refine Option.eq_none_iff_forall_ne_some.2 fun c hc => ?_
    obtain ⟨hmem, hname⟩ := hm.class?_eq_some.1 hc
    cases hname.symm.trans (hsingle c hmem)
    exact hacyclic _ (TransGen.mono (fun _ _ => HeaderSource.Extends.linked) _ _ hbelow)
  rw [ownMember?, hnone]
  rfl

end Renamer

namespace Pass

/-- Two classes below `a/C`, one of them named like an array. -/
def derivedClasses : Archive := .ofEntries "main"
  [Inheritance.plainEntry "a/D" "a/C" [], Inheritance.plainEntry "[D" "a/C" []]

def baseClasses : Archive := .ofEntries "base"
  [Inheritance.plainEntry "a/C" "B" ["a/I"], Inheritance.plainEntry "B" objectClass ["a/I"]]

def inheriting : Pass where
  dependencies := [baseClasses]
  mapping := .ofDrafts [
    { names := [("left", "B"), ("right", "B")],
      methods := [{ names := [("left", "m", "()V"), ("right", "n", "()V")] }],
      fields := [{ names := [("left", "f", "I"), ("right", "g", "I")] }] }]
  source := "left"
  target := "right"

theorem acyclic_derivedClasses : (derivedClasses.headers inheriting.dependencies).Acyclic :=
  Layers.acyclic_of_rank (fun name => if name = "a/D.class" then 3 else if name = "[D.class" then 3
    else if name = "a/C.class" then 2 else if name = "B.class" then 1 else 0) (by decide +kernel)

theorem shortPaths_derivedClasses : (derivedClasses.headers inheriting.dependencies).ShortPaths :=
  Layers.shortPaths (by decide +kernel)

theorem extends_base {derived : String}
    (h : (derivedClasses.headers inheriting.dependencies).Extends derived "a/C") :
    TransGen (derivedClasses.headers inheriting.dependencies).Extends derived "B" := by
  have hmiddle : (derivedClasses.headers inheriting.dependencies).Extends "a/C" "B" :=
    ⟨⟨0, "a/C", some "B", ["a/I"]⟩, by decide +kernel, rfl⟩
  exact .head h (.single hmiddle)

theorem unlistedBelow_base (derived : String) {α : Type} (lookup : ClassMapping → Option α) :
    (inheriting.renamer derivedClasses).UnlistedBelow derived "B" lookup :=
  Renamer.unlistedBelow_of_single acyclic_derivedClasses (Mapping.coherent_ofDrafts _)
    (by decide +kernel) derived lookup

theorem ofDescriptor_m : MethodId.ofDescriptor "m" "()V" = .ok ⟨"m", []⟩ := by decide +kernel

theorem findMember?_base {α : Type} (lookup : ClassMapping → Option α) (P : α → Bool)
    (h : ((inheriting.mapping.class? "left" "B").bind lookup).any P = true) :
    ∃ member, (inheriting.renamer derivedClasses).findMember? "B" lookup = some member ∧
      P member = true := by
  obtain ⟨member, hfound, hmember⟩ := (Option.any_eq_true ..).1 h
  exact ⟨member, Renamer.findMember?_of_own hfound, hmember⟩

theorem findMethod?_base : ∃ method, (inheriting.renamer derivedClasses).findMember? "B"
    (·.method? "left" ⟨"m", []⟩) = some method ∧
      method.names["right"]?.map (·.id.name) = some "n" := by
  obtain ⟨method, hfound, hname⟩ := findMember?_base (·.method? "left" ⟨"m", []⟩)
    (fun m => m.names["right"]?.map (·.id.name) = some "n") (by decide +kernel)
  exact ⟨method, hfound, of_decide_eq_true hname⟩

theorem memberNames_of_superclass_inherited : derivedClasses.StoredByName ∧
    (derivedClasses.headers inheriting.dependencies).Acyclic ∧
    (derivedClasses.headers inheriting.dependencies).ShortPaths ∧
    TransGen (derivedClasses.headers inheriting.dependencies).Extends "a/D" "B" ∧
    ((inheriting.renamer derivedClasses).methodName "a/D" "m" "()V").toOption = some "n" ∧
    ((inheriting.renamer derivedClasses).fieldName "a/D" "f").toOption = some "g" := by
  have hnamed : derivedClasses.StoredByName := by decide +kernel
  have hextends : (derivedClasses.headers inheriting.dependencies).Extends "a/D" "a/C" :=
    ⟨⟨0, "a/D", some "a/C", []⟩, by decide +kernel, rfl⟩
  have hbase := extends_base hextends
  obtain ⟨hmethods, hfields⟩ := memberNames_of_superclass inheriting derivedClasses hnamed
    acyclic_derivedClasses shortPaths_derivedClasses hbase
  obtain ⟨method, hm, hmname⟩ := findMethod?_base
  obtain ⟨field, hf, hfname⟩ := findMember?_base (·.field? "left" "f")
    (fun f => f.names["right"]?.map (·.name) = some "g") (by decide +kernel)
  obtain ⟨hmethod, hmapped⟩ := hmethods "m" "()V" ⟨"m", []⟩ _ ofDescriptor_m (by decide)
    (unlistedBelow_base _ _) hm
  obtain ⟨hfield, hmappedField⟩ := hfields "f" _ (unlistedBelow_base _ _) hf
  refine ⟨hnamed, acyclic_derivedClasses, shortPaths_derivedClasses, hbase, ?_, ?_⟩
  · rw [hmethod, hmapped (by decide)]
    exact hmname
  · rw [hfield, hmappedField]
    exact of_decide_eq_true hfname

/-- Through a class that is named like an array an inherited method keeps its name. -/
theorem methodName_of_bracketed : derivedClasses.StoredByName ∧
    (derivedClasses.headers inheriting.dependencies).Acyclic ∧
    (derivedClasses.headers inheriting.dependencies).ShortPaths ∧
    TransGen (derivedClasses.headers inheriting.dependencies).Extends "[D" "B" ∧
    (inheriting.renamer derivedClasses).UnlistedBelow "[D" "B" (·.method? "left" ⟨"m", []⟩) ∧
    ((inheriting.renamer derivedClasses).findMember? "B"
      (·.method? "left" ⟨"m", []⟩)).isSome = true ∧
    ((inheriting.renamer derivedClasses).methodName "[D" "m" "()V").toOption = some "m" ∧
    ((inheriting.renamer derivedClasses).methodName "B" "m" "()V").toOption = some "n" := by
  have hextends : (derivedClasses.headers inheriting.dependencies).Extends "[D" "a/C" :=
    ⟨⟨0, "[D", some "a/C", []⟩, by decide +kernel, rfl⟩
  obtain ⟨method, hm, hmname⟩ := findMethod?_base
  refine ⟨by decide +kernel, acyclic_derivedClasses, shortPaths_derivedClasses,
    extends_base hextends, unlistedBelow_base _ _, ?_, ?_, ?_⟩
  · exact Option.isSome_iff_exists.2 ⟨method, hm⟩
  · rw [Renamer.methodName_of_kept (by decide)]
    rfl
  · rw [Renamer.methodName_of_not_kept (by decide) ofDescriptor_m,
      Renamer.toOption_methodById hm]
    exact hmname

end Pass

end ClassArchive
