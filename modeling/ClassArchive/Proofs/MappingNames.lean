import ClassArchive.Mapping
import ClassArchive.Proofs.Outcome
import Mathlib.Data.List.Forall2

/-!
The elements of a mapping that was built. A class, method or field is added only if none before it
shares an identifier with it. The index under which it is entered then agrees with the list of what
was added: an identifier in a namespace leads to the one element that has it, from whatever
identifier of that element it was reached.
-/
set_option autoImplicit false

namespace ClassArchive

/-- Whether two elements, known by the given identifiers in each namespace, have none in common. -/
def ApartBy {α κ : Type} (id? : α → String → Option κ) (x y : α) : Prop :=
  ∀ (ns : String) (id : κ), id? x ns = some id → id? y ns ≠ some id

/-! ### Registries -/

namespace Registry

variable {κ α : Type} [Ord κ] {id? : α → String → Option κ} {r r' : Registry κ α} {a : α}
  {keys : List (Identifier κ)}

/-- Whether no two entries share an identifier, and the index holds each entry under what it is
known by and nothing else. -/
structure Coherent (id? : α → String → Option κ) (r : Registry κ α) : Prop where
  apart : r.entries.Pairwise (ApartBy id?)
  find?_eq_some : ∀ ns id a, r.find? ns id = some a ↔ a ∈ r.entries ∧ id? a ns = some id

structure Lists (id? : α → String → Option κ) (keys : List (Identifier κ)) (a : α) : Prop where
  nodup : keys.Nodup
  mem_iff : ∀ ns id, ⟨ns, id⟩ ∈ keys ↔ id? a ns = some id

omit [Ord κ] in
theorem lists_names {ν : Type} (key : ν → κ) {names : ByNamespace ν}
    (hnames : ∀ ns, id? a ns = names[ns]?.map key) :
    Lists id? (names.toList.map fun (ns, name) => ⟨ns, key name⟩) a where
  nodup := by
    rw [List.nodup_iff_pairwise_ne, List.pairwise_map]
    refine Std.TreeMap.distinct_keys_toList.imp fun hdistinct hsame => hdistinct ?_
    rw [(Identifier.mk.inj hsame).1]
    exact Std.ReflOrd.compare_self
  mem_iff ns id := by
    simp only [List.mem_map, Prod.exists, Identifier.mk.injEq,
      Std.TreeMap.mem_toList_iff_getElem?_eq_some, hnames, Option.map_eq_some_iff]
    constructor
    · rintro ⟨_, name, hname, rfl, rfl⟩
      exact ⟨name, hname, rfl⟩
    · rintro ⟨name, hname, rfl⟩
      exact ⟨ns, name, hname, rfl, rfl⟩

variable [Std.TransOrd κ] [Std.LawfulEqOrd κ]

omit [Std.LawfulEqOrd κ] in
theorem coherent_empty : Coherent id? ({} : Registry κ α) := by
  constructor
  · exact .nil
  · simp [find?]

omit [Std.LawfulEqOrd κ] in
theorem enter_eq_ok {index index' : Std.TreeMap (Identifier κ) α} {key : Identifier κ} :
    enter a index key = .ok index' ↔ index[key]? = none ∧ index' = index.insert key a := by
  unfold enter
  rw [Std.TreeMap.contains_eq_isSome_getElem?]
  cases index[key]? <;> simp [eq_comm]

theorem exists_foldlM_enter (hkeys : keys.Nodup) {index : Std.TreeMap (Identifier κ) α} :
    (∃ index', keys.foldlM (enter a) index = .ok index') ↔ ∀ key ∈ keys, index[key]? = none := by
  induction keys generalizing index with
  | nil => simp [pure, Except.pure]
  | cons key keys ih =>
    obtain ⟨hfresh, hkeys⟩ := List.nodup_cons.1 hkeys
    -- the first identifier is none of the others, so these are free after it as they were before
    have hsame : (∀ other ∈ keys, (index.insert key a)[other]? = none) ↔
        ∀ other ∈ keys, index[other]? = none := by
      refine forall₂_congr fun other hother => ?_
      have hne : key ≠ other := fun h => hfresh (h ▸ hother)
      simp [Std.TreeMap.getElem?_insert, hne]
    simp only [List.foldlM_cons, bind_eq_ok, enter_eq_ok, List.forall_mem_cons]
    rw [← hsame, ← ih hkeys]
    constructor
    · rintro ⟨index', _, ⟨hfree, rfl⟩, h⟩
      exact ⟨hfree, index', h⟩
    · rintro ⟨hfree, index', h⟩
      exact ⟨index', _, ⟨hfree, rfl⟩, h⟩

theorem getElem?_of_foldlM_enter {index index' : Std.TreeMap (Identifier κ) α}
    (h : keys.foldlM (enter a) index = .ok index') {key : Identifier κ} {b : α} :
    index'[key]? = some b ↔ key ∈ keys ∧ a = b ∨ key ∉ keys ∧ index[key]? = some b := by
  induction keys generalizing index with
  | nil =>
    cases h
    simp
  | cons first keys ih =>
    rw [List.foldlM_cons] at h
    obtain ⟨_, hfirst, h⟩ := bind_eq_ok.1 h
    obtain ⟨-, rfl⟩ := enter_eq_ok.1 hfirst
    rw [ih h, Std.TreeMap.getElem?_insert]
    by_cases hfirst : first = key
    · by_cases hmem : key ∈ keys <;> simp [hfirst, hmem]
    · simp [hfirst, Ne.symm hfirst]

omit [Std.TransOrd κ] [Std.LawfulEqOrd κ] in
theorem add_eq_ok : r.add keys a = .ok r' ↔
    ∃ index, keys.foldlM (enter a) r.index = .ok index ∧ r' = ⟨r.entries ++ [a], index⟩ := by
  unfold add
  rw [bind_eq_ok]
  simp [pure, Except.pure, eq_comm]

namespace Coherent

/-- An element is added exactly if it is apart from the entries that are there. -/
theorem exists_add_iff (hr : r.Coherent id?) (hkeys : Lists id? keys a) :
    (∃ r', r.add keys a = .ok r') ↔ ∀ b ∈ r.entries, ApartBy id? b a := by
  have hadd : (∃ r', r.add keys a = .ok r') ↔ ∀ key ∈ keys, r.index[key]? = none := by
    rw [← exists_foldlM_enter hkeys.nodup (a := a)]
    simp [add_eq_ok]
  rw [hadd]
  constructor
  · intro hfree b hb ns id hid hsame
    have hfound := (hr.find?_eq_some ns id b).2 ⟨hb, hid⟩
    rw [find?, hfree _ ((hkeys.mem_iff ns id).2 hsame)] at hfound
    cases hfound
  · rintro hapart ⟨ns, id⟩ hkey
    cases hfound : r.index[Identifier.mk ns id]? with
    | none => rfl
    | some b =>
      obtain ⟨hb, hid⟩ := (hr.find?_eq_some ns id b).1 hfound
      exact absurd ((hkeys.mem_iff ns id).1 hkey) (hapart b hb ns id hid)

theorem add (hr : r.Coherent id?) (hkeys : Lists id? keys a) (h : r.add keys a = .ok r') :
    r'.Coherent id? ∧ r'.entries = r.entries ++ [a] := by
  have hapart := (hr.exists_add_iff hkeys).1 ⟨r', h⟩
  obtain ⟨index, hindex, rfl⟩ := add_eq_ok.1 h
  refine ⟨⟨?_, fun ns id b => ?_⟩, rfl⟩
  · refine List.pairwise_append.2 ⟨hr.apart, List.pairwise_singleton .., fun b hb c hc => ?_⟩
    rw [List.mem_singleton.1 hc]
    exact hapart b hb
  · have hfound : find? ⟨r.entries ++ [a], index⟩ ns id = some b ↔ _ :=
      getElem?_of_foldlM_enter hindex
    rw [hfound, hkeys.mem_iff, ← find?, hr.find?_eq_some, List.mem_append, List.mem_singleton]
    constructor
    · rintro (⟨hid, rfl⟩ | ⟨-, hb, hid⟩)
      · exact ⟨.inr rfl, hid⟩
      · exact ⟨.inl hb, hid⟩
    · rintro ⟨hb | rfl, hid⟩
      · exact .inr ⟨hapart b hb ns id hid, hb, hid⟩
      · exact .inl ⟨hid, rfl⟩

end Coherent

end Registry

/-! ### Adding one after another -/

section Adding

variable {σ δ α κ ε : Type} {id? : α → String → Option κ} {build : δ → Except ε α}
  {entries : σ → List α} {I : σ → Prop} {add : σ → δ → Except ε σ}

/-- Whether a draft is added exactly if it can be built and is apart from the entries that are
there, and joins these as the last one. An invariant of the states is kept by that. -/
structure AddsApart (id? : α → String → Option κ) (build : δ → Except ε α) (entries : σ → List α)
    (I : σ → Prop) (add : σ → δ → Except ε σ) : Prop where
  exists_iff : ∀ s draft, I s → ((∃ s', add s draft = .ok s') ↔
    ∃ x, build draft = .ok x ∧ ∀ y ∈ entries s, ApartBy id? y x)
  next : ∀ s draft s', I s → add s draft = .ok s' →
    I s' ∧ ∃ x, build draft = .ok x ∧ entries s' = entries s ++ [x]

namespace AddsApart

theorem foldlM (hadd : AddsApart id? build entries I add) {drafts : List δ} {s s' : σ} (hs : I s)
    (h : drafts.foldlM add s = .ok s') : I s' ∧ ∃ new, entries s' = entries s ++ new ∧
      List.Forall₂ (fun draft x => build draft = .ok x) drafts new := by
  induction drafts generalizing s with
  | nil =>
    cases h
    exact ⟨hs, [], by simp, .nil⟩
  | cons draft drafts ih =>
    rw [List.foldlM_cons] at h
    obtain ⟨mid, hmid, h⟩ := bind_eq_ok.1 h
    obtain ⟨hmid, x, hx, hentries⟩ := hadd.next _ _ _ hs hmid
    obtain ⟨hs', new, hnew, hbuilt⟩ := ih hmid h
    exact ⟨hs', x :: new, by simp [hnew, hentries], .cons hx hbuilt⟩

theorem exists_foldlM_iff (hadd : AddsApart id? build entries I add) {drafts : List δ} {s : σ}
    (hs : I s) : (∃ s', drafts.foldlM add s = .ok s') ↔
      ∃ new, List.Forall₂ (fun draft x => build draft = .ok x) drafts new ∧
        new.Pairwise (ApartBy id?) ∧ ∀ x ∈ entries s, ∀ y ∈ new, ApartBy id? x y := by
  induction drafts generalizing s with
  | nil =>
    constructor
    · exact fun _ => ⟨[], .nil, .nil, by simp⟩
    · exact fun _ => ⟨s, rfl⟩
  | cons draft drafts ih =>
    simp only [List.foldlM_cons, bind_eq_ok]
    constructor
    · rintro ⟨s', mid, hmid, h⟩
      obtain ⟨x, hx, hapart⟩ := (hadd.exists_iff s draft hs).1 ⟨mid, hmid⟩
      obtain ⟨hI, x', hx', hentries⟩ := hadd.next _ _ _ hs hmid
      cases hx.symm.trans hx'
      obtain ⟨new, hbuilt, hpairs, hcross⟩ := (ih hI).1 ⟨s', h⟩
      rw [hentries] at hcross
      refine ⟨x :: new, .cons hx hbuilt, List.pairwise_cons.2 ⟨?_, hpairs⟩, ?_⟩
      · exact fun y hy => hcross x (by simp) y hy
      · intro z hz y hy
        rcases List.mem_cons.1 hy with rfl | hy
        · exact hapart z hz
        · exact hcross z (by simp [hz]) y hy
    · rintro ⟨new, hbuilt, hpairs, hcross⟩
      cases hbuilt with
      | @cons _ x _ new hx hbuilt =>
        obtain ⟨hfirst, hpairs⟩ := List.pairwise_cons.1 hpairs
        obtain ⟨mid, hmid⟩ := (hadd.exists_iff s draft hs).2
          ⟨x, hx, fun y hy => hcross y hy x (by simp)⟩
        obtain ⟨hI, x', hx', hentries⟩ := hadd.next _ _ _ hs hmid
        cases hx.symm.trans hx'
        obtain ⟨s', h⟩ := (ih hI).2 ⟨new, hbuilt, hpairs, fun z hz y hy => by
          rw [hentries] at hz
          rcases List.mem_append.1 hz with hz | hz
          · exact hcross z hz y (by simp [hy])
          · rw [List.mem_singleton.1 hz]
            exact hfirst y hy⟩
        exact ⟨s', mid, hmid, h⟩

end AddsApart

theorem mapError_eq_ok {ε' : Type} {x : Except ε α} {f : ε → ε'} {a : α} :
    x.mapError f = .ok a ↔ x = .ok a := by
  cases x <;> simp [Except.mapError]

theorem addsApart_registry [Ord κ] [Std.TransOrd κ] [Std.LawfulEqOrd κ]
    {identifiers : α → List (Identifier κ)}
    (hkeys : ∀ a, Registry.Lists id? (identifiers a) a) {blame : Identifier κ → ε} :
    AddsApart id? build Registry.entries (Registry.Coherent id?) fun r draft => do
      let a ← build draft
      (r.add (identifiers a) a).mapError blame where
  exists_iff r draft hr := by
    simp only [bind_eq_ok, mapError_eq_ok]
    rw [exists_comm]
    refine exists_congr fun a => ?_
    rw [exists_and_left, hr.exists_add_iff (hkeys a)]
  next r draft r' hr h := by
    obtain ⟨a, ha, h⟩ := bind_eq_ok.1 h
    obtain ⟨hcoherent, hentries⟩ := hr.add (hkeys a) (mapError_eq_ok.1 h)
    exact ⟨hcoherent, a, ha, hentries⟩

end Adding

/-! ### Classes -/

def ClassMapping.name? (c : ClassMapping) (ns : String) : Option String := c.names[ns]?

theorem ClassMapping.lists_identifiers (c : ClassMapping) :
    Registry.Lists name? c.identifiers c :=
  Registry.lists_names (fun name => name) fun ns => by simp [name?]

namespace Mapping

structure Coherent (m : Mapping) : Prop where
  classes : m.classes.Coherent ClassMapping.name?
  mem_namespaces : ∀ ns, ns ∈ m.namespaces ↔ ∃ c ∈ m.classes.entries, ∃ name, c.name? ns = some name

theorem addClass_eq_ok {m m' : Mapping} {draft : ClassDraft} : m.addClass draft = .ok m' ↔
    ∃ c classes, draft.build = .ok c ∧ m.classes.add c.identifiers c = .ok classes ∧
      m' = ⟨classes, m.namespaces.insertMany c.names.keys⟩ := by
  simp only [addClass, bind_eq_ok, mapError_eq_ok]
  constructor
  · rintro ⟨c, hc, classes, hclasses, h⟩
    cases h
    exact ⟨c, classes, hc, hclasses, rfl⟩
  · rintro ⟨c, classes, hc, hclasses, rfl⟩
    exact ⟨c, hc, classes, hclasses, rfl⟩

theorem addsApart : AddsApart ClassMapping.name? ClassDraft.build (fun m => m.classes.entries)
    Coherent addClass where
  exists_iff m draft hm := by
    simp only [addClass_eq_ok]
    constructor
    · rintro ⟨_, c, classes, hc, hclasses, -⟩
      exact ⟨c, hc, (hm.classes.exists_add_iff c.lists_identifiers).1 ⟨classes, hclasses⟩⟩
    · rintro ⟨c, hc, hapart⟩
      obtain ⟨classes, hclasses⟩ := (hm.classes.exists_add_iff c.lists_identifiers).2 hapart
      exact ⟨_, c, classes, hc, hclasses, rfl⟩
  next m draft m' hm h := by
    obtain ⟨c, classes, hc, hclasses, rfl⟩ := addClass_eq_ok.1 h
    obtain ⟨hcoherent, hentries⟩ := hm.classes.add c.lists_identifiers hclasses
    refine ⟨⟨hcoherent, fun ns => ?_⟩, c, hc, hentries⟩
    have hnamed : ns ∈ c.names ↔ ∃ name, c.name? ns = some name := by
      rw [Std.TreeMap.mem_iff_isSome_getElem?, Option.isSome_iff_exists]
      rfl
    simp [Std.TreeSet.mem_insertMany_list, hm.mem_namespaces, hentries, hnamed, or_and_right,
      exists_or]

theorem coherent_empty : Coherent {} where
  classes := Registry.coherent_empty
  mem_namespaces := by simp

def ofDrafts (drafts : List ClassDraft) : Mapping := (build drafts).toOption.getD {}

theorem coherent_build {drafts : List ClassDraft} {m : Mapping} (h : build drafts = .ok m) :
    m.Coherent :=
  (addsApart.foldlM coherent_empty h).1

theorem coherent_ofDrafts (drafts : List ClassDraft) : (ofDrafts drafts).Coherent := by
  unfold ofDrafts
  cases h : build drafts with
  | error e => exact coherent_empty
  | ok m => exact coherent_build h

namespace Coherent

variable {m : Mapping} (hm : m.Coherent)
include hm

theorem class?_eq_some {ns name : String} {c : ClassMapping} :
    m.class? ns name = some c ↔ c ∈ m.classes.entries ∧ c.names[ns]? = some name :=
  hm.classes.find?_eq_some ns name c

theorem className?_of_class? {ns ns' name name' : String} {c : ClassMapping}
    (h : m.class? ns name = some c) (h' : c.names[ns']? = some name') :
    m.className? ns' ns name' = some name := by
  obtain ⟨hmem, hname⟩ := hm.class?_eq_some.1 h
  have hback := hm.class?_eq_some.2 ⟨hmem, h'⟩
  simp [className?, hback, hname]

end Coherent

end Mapping

end ClassArchive
