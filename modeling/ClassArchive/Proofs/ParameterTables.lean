import ClassArchive.Proofs.AddedTexts
import ClassArchive.Proofs.AttributePayloads
import ClassArchive.Proofs.MappingNames
import ClassArchive.Proofs.RenamingGrowth
import ClassArchive.Proofs.RewrittenClass
import ClassArchive.Renaming.Parameters

/-!
Tables of parameter names. A method whose parameters are named up to some index gets a table of that
many entries, in the place of its first one; other methods stay as they are, and doing it again
changes nothing. The indices of names are followed in the pool as it grows, so one that lies past
the pool may come to name a text that is added.
-/
set_option autoImplicit false

namespace ClassArchive

namespace Attribute

/-- The lists that come from a list when an attribute takes the place of the first one of a name, or
stands at the end if there is none. -/
inductive Replaces (pool : Pool) (name : String) (a : Attribute) :
    List Attribute → List Attribute → Prop where
  | first {front back : List Attribute} {old : Attribute}
      (hfront : ∀ b ∈ front, pool.text b.name ≠ .ok name) (hold : pool.text old.name = .ok name) :
      Replaces pool name a (front ++ old :: back) (front ++ a :: back)
  | absent {attributes : List Attribute} (h : ∀ b ∈ attributes, pool.text b.name ≠ .ok name) :
      Replaces pool name a attributes (attributes ++ [a])

theorem replaces_place (pool : Pool) (name : String) (a : Attribute) (attributes : List Attribute) :
    Replaces pool name a attributes (place attributes (position? pool name attributes) a) := by
  cases hposition : position? pool name attributes with
  | none =>
    refine .absent fun b hb htext => ?_
    have hnot := List.findIdx?_eq_none_iff.1 hposition b hb
    simp [isNamed, Pool.isText_iff.2 htext] at hnot
  | some i =>
    obtain ⟨hlt, hnamed, hbefore⟩ := List.findIdx?_eq_some_iff_getElem.1 hposition
    have hcut : attributes = attributes.take i ++ attributes[i] :: attributes.drop (i + 1) := by
      rw [List.getElem_cons_drop, List.take_append_drop]
    have hset : place attributes (some i) a =
        attributes.take i ++ a :: attributes.drop (i + 1) := by
      rw [place, List.set_eq_take_append_cons_drop, if_pos hlt]
    rw [hset]
    nth_rewrite 1 [hcut]
    refine .first (fun b hb htext => ?_) (Pool.isText_iff.1 hnamed)
    obtain ⟨j, hj, rfl⟩ := List.mem_take_iff_getElem.1 hb
    exact hbefore j (by omega) (Pool.isText_iff.2 htext)

theorem Replaces.of_text_eq {p q : Pool} {name : String} {a : Attribute}
    {attributes written : List Attribute} (h : Replaces q name a attributes written)
    (htexts : ∀ b ∈ attributes, q.text b.name = p.text b.name) :
    Replaces p name a attributes written := by
  cases h with
  | first hfront hold =>
    refine .first (fun b hb => ?_) ?_
    · rw [← htexts b (by simp [hb])]
      exact hfront b hb
    · rw [← htexts _ (by simp)]
      exact hold
  | absent hnone =>
    refine .absent fun b hb => ?_
    rw [← htexts b hb]
    exact hnone b hb

end Attribute

def Member.nameIndices (m : Member) : List UInt16 :=
  m.name :: m.descriptor :: m.attributes.map (·.name)

namespace MethodMapping

def EndsAt (m : MethodMapping) (last : Nat) : Prop :=
  last ∈ m.parameters ∧ ∀ k ∈ m.parameters, k ≤ last

theorem lastParameter?_eq_getLast? (m : MethodMapping) :
    m.lastParameter? = m.parameters.keys.getLast? :=
  Std.TreeMap.maxKey?_eq_getLast?_keys

theorem lastParameter?_eq_some {m : MethodMapping} {last : Nat} :
    m.lastParameter? = some last ↔ m.EndsAt last := by
  rw [lastParameter?, Std.TreeMap.maxKey?_eq_some_iff_mem_and_forall]
  simp only [EndsAt, Nat.isLE_compare]

end MethodMapping

namespace ParameterNaming

variable (p : ParameterNaming)

/-! ### Methods that are named -/

/-- Whether the name and the descriptor of a method are found, and the descriptor is valid. -/
def Resolves (pool : Pool) (method : Member) (id : MethodId) : Prop :=
  ∃ name descriptor, pool.text method.name = .ok name ∧
    pool.text method.descriptor = .ok descriptor ∧ MethodId.ofDescriptor name descriptor = .ok id

def resolve (pool : Pool) (method : Member) : Except FormatError MethodId := do
  MethodId.ofDescriptor (← pool.text method.name) (← pool.text method.descriptor)

theorem resolve_eq_ok {pool : Pool} {method : Member} {id : MethodId} :
    resolve pool method = .ok id ↔ Resolves pool method id := by
  simp only [resolve, Resolves, bind_eq_ok]
  constructor
  · rintro ⟨name, hname, descriptor, hdescriptor, h⟩
    exact ⟨name, descriptor, hname, hdescriptor, h⟩
  · rintro ⟨name, descriptor, hname, hdescriptor, h⟩
    exact ⟨name, hname, descriptor, hdescriptor, h⟩

/-- Whether the mapping of the class has an entry for the method, as the pool names it, with
parameters up to the given index. -/
def NamesUpTo (pool : Pool) (className : String) (method : Member) (m : MethodMapping)
    (last : Nat) : Prop :=
  ∃ c id, p.mapping.class? p.ns className = some c ∧ Resolves pool method id ∧
    c.method? p.ns id = some m ∧ m.EndsAt last

def plan? (pool : Pool) (className : String) (method : Member) : Option (MethodMapping × Nat) := do
  let c ← p.mapping.class? p.ns className
  let name ← (pool.text method.name).toOption
  let descriptor ← (pool.text method.descriptor).toOption
  let id ← (MethodId.ofDescriptor name descriptor).toOption
  let m ← c.method? p.ns id
  let last ← m.parameters.keys.getLast?
  return (m, last)

theorem plan?_eq_some {pool : Pool} {className : String} {method : Member} {m : MethodMapping}
    {last : Nat} : p.plan? pool className method = some (m, last) ↔
      p.NamesUpTo pool className method m last := by
  simp only [plan?, NamesUpTo, Resolves, Option.bind_eq_bind, Option.bind_eq_some_iff,
    toOption_eq_some, Option.pure_def, Option.some.injEq, Prod.mk.injEq,
    ← MethodMapping.lastParameter?_eq_getLast?, MethodMapping.lastParameter?_eq_some]
  constructor
  · rintro ⟨c, hc, name, hname, descriptor, hdescriptor, id, hid, m, hm, last, hlast, rfl, rfl⟩
    exact ⟨c, id, hc, ⟨name, descriptor, hname, hdescriptor, hid⟩, hm, hlast⟩
  · rintro ⟨c, id, hc, ⟨name, descriptor, hname, hdescriptor, hid⟩, hm, hlast⟩
    exact ⟨c, hc, name, hname, descriptor, hdescriptor, id, hid, m, hm, last, hlast, rfl, rfl⟩

theorem plan?_of_resolves {pool : Pool} {className : String} {method : Member} {id : MethodId}
    {c : ClassMapping} (hc : p.mapping.class? p.ns className = some c)
    (h : Resolves pool method id) : p.plan? pool className method =
      (c.method? p.ns id).bind fun m => m.lastParameter?.map (m, ·) := by
  obtain ⟨name, descriptor, hname, hdescriptor, hid⟩ := h
  simp only [plan?, hc, hname, hdescriptor, hid, Except.toOption, Option.bind_eq_bind,
    Option.bind_some, MethodMapping.lastParameter?_eq_getLast?, Option.map_eq_bind]
  rfl

theorem Resolves.extends {pool later : Pool} {method : Member} {id : MethodId}
    (h : Resolves pool method id) (hlater : pool.Extends later) : Resolves later method id := by
  obtain ⟨name, descriptor, hname, hdescriptor, hid⟩ := h
  exact ⟨name, descriptor, hlater.text hname, hlater.text hdescriptor, hid⟩

theorem plan?_extends {pool later : Pool} {method : Member} {id : MethodId}
    (h : Resolves pool method id) (hlater : pool.Extends later) (className : String) :
    p.plan? later className method = p.plan? pool className method := by
  cases hc : p.mapping.class? p.ns className with
  | none => simp [plan?, hc]
  | some c => rw [p.plan?_of_resolves hc h, p.plan?_of_resolves hc (h.extends hlater)]

variable {className : String} {c : ClassMapping}

theorem resolves_of_method {pool after : Pool} {method written : Member}
    (h : p.method className c method pool = .ok (written, after)) :
    ∃ id, Resolves pool method id := by
  unfold ParameterNaming.method at h
  obtain ⟨_, _, hget, h⟩ := state_bind_eq_ok.1 h
  cases hget
  obtain ⟨name, _, hread, h⟩ := state_bind_eq_ok.1 h
  obtain ⟨hname, rfl⟩ := Renaming.read_eq_ok.1 hread
  obtain ⟨descriptor, _, hread, h⟩ := state_bind_eq_ok.1 h
  obtain ⟨hdescriptor, rfl⟩ := Renaming.read_eq_ok.1 hread
  obtain ⟨id, _, hread, -⟩ := state_bind_eq_ok.1 h
  exact ⟨id, name, descriptor, hname, hdescriptor, (Renaming.read_eq_ok.1 hread).1⟩

section Found

variable {pool : Pool} {method : Member} {id : MethodId}
  (hc : p.mapping.class? p.ns className = some c) (hresolves : Resolves pool method id)

include hc hresolves

theorem method_of_plan?_eq_none (hplan : p.plan? pool className method = none) :
    p.method className c method pool = .ok (method, pool) := by
  rw [p.plan?_of_resolves hc hresolves] at hplan
  obtain ⟨name, descriptor, hname, hdescriptor, hid⟩ := hresolves
  unfold ParameterNaming.method
  rw [Renaming.get_bind, Renaming.read_bind hname, Renaming.read_bind hdescriptor,
    Renaming.read_bind hid]
  cases hm : c.method? p.ns id with
  | none => rfl
  | some m =>
    have hlast : m.lastParameter? = none := by simpa [hm] using hplan
    simp only [hlast]
    rfl

theorem method_eq_ok_of_plan? {m : MethodMapping} {last : Nat}
    (hplan : p.plan? pool className method = some (m, last)) {written : Member} {after : Pool} :
    p.method className c method pool = .ok (written, after) ↔
      last ≤ maxIndex ∧ p.placeTable m last method pool = .ok written after := by
  rw [p.plan?_of_resolves hc hresolves, Option.bind_eq_some_iff] at hplan
  obtain ⟨name, descriptor, hname, hdescriptor, hid⟩ := hresolves
  obtain ⟨m, hm, hplan⟩ := hplan
  obtain ⟨last, hlast, hplan⟩ := Option.map_eq_some_iff.1 hplan
  cases hplan
  unfold ParameterNaming.method
  rw [Renaming.get_bind, Renaming.read_bind hname, Renaming.read_bind hdescriptor,
    Renaming.read_bind hid]
  simp only [hm, hlast]
  by_cases hlarge : maxIndex < last
  · rw [if_pos hlarge]
    constructor
    · intro h
      cases h
    · exact fun h => absurd h.1 (Nat.not_le.2 hlarge)
  · rw [if_neg hlarge, Renaming.edit_eq_ok]
    exact ⟨fun h => ⟨Nat.le_of_not_lt hlarge, h⟩, fun h => h.2⟩

end Found

/-! ### Putting a table in place -/

def entry (m : MethodMapping) (index : Nat) : Pool.Edit MethodParameter := do
  return { name := ← Pool.addText (p.parameterName m index), access := syntheticFlag }

theorem table_eq (m : MethodMapping) (last : Nat) :
    p.table m last = (List.range (last + 1)).mapM (p.entry m) := rfl

theorem entry_eq_ok (m : MethodMapping) (index : Nat) (pool after : Pool) :
    (∃ e, p.entry m index pool = .ok e after) ↔
      ∃ i, Pool.addText (p.parameterName m index) pool = .ok i after := by
  constructor
  · rintro ⟨e, h⟩
    obtain ⟨i, mid, hadd, h⟩ := edit_bind_eq_ok.1 h
    cases h
    exact ⟨i, hadd⟩
  · rintro ⟨i, hadd⟩
    exact ⟨_, edit_bind_eq_ok.2 ⟨i, after, hadd, rfl⟩⟩

theorem worded_table {m : MethodMapping} {last : Nat} {pool after : Pool}
    {parameters : List MethodParameter} (h : p.table m last pool = .ok parameters after) :
    Pool.Worded pool after := by
  refine Pool.worded_mapM (fun index before later e hentry => ?_) h
  obtain ⟨i, hadd⟩ := (p.entry_eq_ok m index before later).1 ⟨e, hentry⟩
  exact .add .refl hadd

theorem worded_placeTable {m : MethodMapping} {last : Nat} {method written : Member}
    {pool after : Pool} (h : p.placeTable m last method pool = .ok written after) :
    Pool.Worded pool after := by
  obtain ⟨parameters, mid, htable, h⟩ := edit_bind_eq_ok.1 h
  obtain ⟨name, q, hname, h⟩ := edit_bind_eq_ok.1 h
  cases h
  exact .add (p.worded_table htable) hname

theorem repeats_table (m : MethodMapping) (last : Nat) : (p.table m last).Repeats :=
  Pool.Edit.repeats_mapM (fun _ => (Pool.Edit.repeats_addText _).bind fun _ =>
    Pool.Edit.repeats_pure _) _

/-- Whether the entries of a table are the names of the parameters in order, each of them
synthetic. -/
def Lists (pool : Pool) (m : MethodMapping) (last : Nat) (parameters : List MethodParameter) :
    Prop :=
  List.Forall₂ (fun e i => e.access = 0x1000 ∧
    pool.text e.name = .ok ((m.parameterName? i p.ns).getD (p.stem ++ toString i)))
    parameters (List.range (last + 1))

theorem ensures_table (m : MethodMapping) (last : Nat) :
    (p.table m last).Ensures fun pool => p.Lists pool m last :=
  Pool.Edit.ensures_mapM _ fun _ _ =>
    (Pool.Edit.ensures_addText _).map fun _ _ htext => ⟨rfl, htext⟩

/-- Whether a method is another one with a table of the parameters up to an index, in the place of
the first table that it had according to the pool from before. -/
def Tabulated (before after : Pool) (m : MethodMapping) (last : Nat) (method written : Member) :
    Prop :=
  ∃ table parameters, written = { method with attributes := written.attributes } ∧
    Attribute.Replaces before MethodParameter.tableName table method.attributes
      written.attributes ∧
    after.text table.name = .ok MethodParameter.tableName ∧
    MethodParameter.decodeTable table.payload = .ok parameters ∧ p.Lists after m last parameters

/-- A table that was put in place is read as such in every pool to which texts are added later, and
putting it there again changes nothing. -/
theorem tabulated_placeTable {m : MethodMapping} {last : Nat} {method written : Member}
    {pool after later : Pool} (hpool : pool.Recalls Constant.isShared) (hlast : last ≤ maxIndex)
    (h : p.placeTable m last method pool = .ok written after) (hlater : Pool.Worded after later) :
    p.Tabulated later later m last method written ∧
      p.placeTable m last written later = .ok written later := by
  obtain ⟨parameters, mid, htable, h⟩ := edit_bind_eq_ok.1 h
  obtain ⟨name, q, hname, h⟩ := edit_bind_eq_ok.1 h
  cases h
  obtain ⟨hmid, hlists⟩ := p.ensures_table m last hpool htable
  obtain ⟨hafter, htext⟩ := Pool.Edit.ensures_addText _ (hpool.grown hmid) hname
  -- the name is recorded now, so no other slot will hold it
  have hrecorded := (Pool.Content.recorded?_of_reuse rfl (Pool.addText_eq_ok hname)).2
  have hposition : Attribute.position? after MethodParameter.tableName method.attributes =
      Attribute.position? later MethodParameter.tableName method.attributes := by
    unfold Attribute.position?
    congr 1
    funext a
    exact (hlater.isText_eq (by simp [hrecorded]) a.name).symm
  have hnamed : Attribute.isNamed later MethodParameter.tableName
      { name, payload := MethodParameter.encodeTable parameters } = true :=
    Pool.isText_iff.2 (htext later hlater.grown.extends)
  have hlists := hlists later (hafter.extends.trans hlater.grown.extends)
  have hlength : parameters.length = last + 1 := hlists.length_eq.trans List.length_range
  rw [hposition]
  constructor
  · refine ⟨_, parameters, rfl, Attribute.replaces_place _ _ _ _, Pool.isText_iff.1 hnamed,
      MethodParameter.decodeTable_eq_ok.2 ⟨rfl, ?_⟩, hlists⟩
    simp only [maxIndex] at hlast
    omega
  · obtain ⟨i, hi, hplaced⟩ := Attribute.position?_place method.attributes hnamed
    have htable' := (p.repeats_table m last htable).2 later (hafter.trans hlater.grown)
    refine edit_bind_eq_ok.2 ⟨parameters, later, htable', ?_⟩
    have hname' := (Pool.Edit.repeats_addText _ hname).2 later hlater.grown
    refine edit_bind_eq_ok.2 ⟨name, later, hname', ?_⟩
    refine edit_bind_eq_ok.2 ⟨later, later, rfl, ?_⟩
    dsimp only
    rw [hi, Attribute.place_of_getElem? hplaced]
    rfl

/-! ### One method -/

/-- What becomes of a method, where its names are looked up in the pool from before. -/
structure Documents (before after : Pool) (className : String) (method written : Member) :
    Prop where
  table : ∀ m last, p.NamesUpTo before className method m last →
    last ≤ 254 ∧ p.Tabulated before after m last method written
  kept : (¬ ∃ m last, p.NamesUpTo before className method m last) → written = method

theorem Documents.of_text_eq {p : ParameterNaming} {before after : Pool} {className : String}
    {method written : Member} (h : p.Documents after after className method written)
    (htexts : ∀ i ∈ method.nameIndices, after.text i = before.text i) :
    p.Documents before after className method written := by
  have hnames : ∀ m last, p.NamesUpTo before className method m last ↔
      p.NamesUpTo after className method m last := by
    intro m last
    rw [NamesUpTo, NamesUpTo]
    simp only [Resolves, htexts method.name (by simp [Member.nameIndices]),
      htexts method.descriptor (by simp [Member.nameIndices])]
  constructor
  · intro m last hlast
    obtain ⟨hsmall, table, parameters, hsame, hreplaces, htable⟩ :=
      h.table m last ((hnames m last).1 hlast)
    refine ⟨hsmall, table, parameters, hsame, hreplaces.of_text_eq fun b hb => ?_, htable⟩
    exact htexts b.name (by simp [Member.nameIndices, List.mem_map_of_mem hb])
  · intro hnone
    exact h.kept fun ⟨m, last, hlast⟩ => hnone ⟨m, last, (hnames m last).2 hlast⟩

theorem documents_of_plan?_eq_none {pool : Pool} {className : String} {method : Member}
    (h : p.plan? pool className method = none) :
    p.Documents pool pool className method method := by
  refine ⟨fun m last hnames => ?_, fun _ => rfl⟩
  rw [p.plan?_eq_some.2 hnames] at h
  cases h

theorem documents_method (hc : p.mapping.class? p.ns className = some c) {pool after : Pool}
    {method written : Member} (hpool : pool.Recalls Constant.isShared)
    (h : p.method className c method pool = .ok (written, after)) :
    Pool.Worded pool after ∧ ∀ later, Pool.Worded after later →
      p.Documents later later className method written ∧
      p.method className c written later = .ok (written, later) := by
  obtain ⟨id, hresolves⟩ := p.resolves_of_method h
  cases hplan : p.plan? pool className method with
  | none =>
    cases (p.method_of_plan?_eq_none hc hresolves hplan).symm.trans h
    refine ⟨.refl, fun later hlater => ?_⟩
    have hextends := hlater.grown.extends
    rw [← p.plan?_extends hresolves hextends] at hplan
    exact ⟨p.documents_of_plan?_eq_none hplan,
      p.method_of_plan?_eq_none hc (hresolves.extends hextends) hplan⟩
  | some plan =>
    obtain ⟨m, last⟩ := plan
    obtain ⟨hlast, hplace⟩ := (p.method_eq_ok_of_plan? hc hresolves hplan).1 h
    have hworded := p.worded_placeTable hplace
    refine ⟨hworded, fun later hlater => ?_⟩
    have hextends := (hworded.trans hlater).grown.extends
    rw [← p.plan?_extends hresolves hextends] at hplan
    obtain ⟨htabulated, hagain⟩ := p.tabulated_placeTable hpool hlast hplace hlater
    -- the names of the method stay, so it is found again
    have hname : written.name = method.name ∧ written.descriptor = method.descriptor := by
      obtain ⟨_, _, hsame, -⟩ := htabulated
      rw [hsame]
      exact ⟨rfl, rfl⟩
    have hresolves' : Resolves later written id := by
      rw [Resolves, hname.1, hname.2]
      exact hresolves.extends hextends
    have hplan' : p.plan? later className written = some (m, last) := by
      rw [← hplan, plan?, plan?, hname.1, hname.2]
    refine ⟨⟨fun m' last' hnames => ?_, fun hnone => ?_⟩, ?_⟩
    · cases hplan.symm.trans (p.plan?_eq_some.2 hnames)
      exact ⟨hlast, htabulated⟩
    · exact absurd ⟨m, last, p.plan?_eq_some.1 hplan⟩ hnone
    · exact (p.method_eq_ok_of_plan? hc hresolves' hplan').2 ⟨hlast, hagain⟩

theorem documents_mapM (hc : p.mapping.class? p.ns className = some c) {pool after : Pool}
    {methods written : List Member} (hpool : pool.Recalls Constant.isShared)
    (h : methods.mapM (p.method className c) pool = .ok (written, after)) :
    Pool.Worded pool after ∧ ∀ later, Pool.Worded after later →
      List.Forall₂ (p.Documents later later className) methods written ∧
      written.mapM (p.method className c) later = .ok (written, later) := by
  induction methods generalizing pool written with
  | nil =>
    cases h
    exact ⟨.refl, fun later _ => ⟨.nil, rfl⟩⟩
  | cons method methods ih =>
    rw [List.mapM_cons] at h
    obtain ⟨first, mid, hfirst, h⟩ := state_bind_eq_ok.1 h
    obtain ⟨rest, last, hrest, h⟩ := state_bind_eq_ok.1 h
    cases h
    obtain ⟨hmid, hdocuments⟩ := p.documents_method hc hpool hfirst
    obtain ⟨hworded, hall⟩ := ih (hpool.grown hmid.grown) hrest
    refine ⟨hmid.trans hworded, fun later hlater => ?_⟩
    obtain ⟨hmethod, hagain⟩ := hdocuments later (hworded.trans hlater)
    obtain ⟨hmethods, hagains⟩ := hall later hlater
    refine ⟨.cons hmethod hmethods, ?_⟩
    rw [List.mapM_cons]
    exact state_bind_eq_ok.2 ⟨first, later, hagain, state_bind_eq_ok.2 ⟨rest, later, hagains, rfl⟩⟩

/-! ### Room for the tables -/

def tableTexts (m : MethodMapping) (last : Nat) : List String :=
  (List.range (last + 1)).map (p.parameterName m) ++ [MethodParameter.tableName]

def requested (pool : Pool) (className : String) (methods : List Member) : List String :=
  methods.flatMap fun method =>
    (p.plan? pool className method).elim [] fun (m, last) => p.tableTexts m last

theorem hasRoom_tableTexts (m : MethodMapping) (last : Nat) (method : Member)
    (texts : List String) {pool : Pool} (hpool : pool.Catalogued) :
    pool.HasRoom (p.tableTexts m last ++ texts) ↔
      ∃ written after, p.placeTable m last method pool = .ok written after ∧
        after.HasRoom texts := by
  rw [tableTexts, List.append_assoc, Pool.hasRoom_mapM (p.entry_eq_ok m) _ _ hpool,
    ← table_eq]
  constructor
  · rintro ⟨parameters, mid, htable, hroom⟩
    have hmid := hpool.worded (p.worded_table htable)
    obtain ⟨name, after, hname, hroom⟩ := (Pool.hasRoom_cons hmid _ _).1 hroom
    exact ⟨_, after, edit_bind_eq_ok.2 ⟨parameters, mid, htable,
      edit_bind_eq_ok.2 ⟨name, after, hname, rfl⟩⟩, hroom⟩
  · rintro ⟨written, after, h, hroom⟩
    obtain ⟨parameters, mid, htable, h⟩ := edit_bind_eq_ok.1 h
    obtain ⟨name, q, hname, h⟩ := edit_bind_eq_ok.1 h
    cases h
    have hmid := hpool.worded (p.worded_table htable)
    exact ⟨parameters, mid, htable, (Pool.hasRoom_cons hmid _ _).2 ⟨name, _, hname, hroom⟩⟩

/-- Where all methods are found in a pool, the run from a pool that extends it succeeds exactly if
the tables can have all entries and there is room for their texts. -/
theorem exists_mapM_iff (hc : p.mapping.class? p.ns className = some c) {base pool : Pool}
    {methods : List Member} (hresolves : ∀ method ∈ methods, ∃ id, Resolves base method id)
    (hextends : base.Extends pool) (hpool : pool.Catalogued) :
    (∃ written after, methods.mapM (p.method className c) pool = .ok (written, after)) ↔
      (∀ method ∈ methods, ∀ m last, p.plan? base className method = some (m, last) →
        last ≤ maxIndex) ∧ pool.HasRoom (p.requested base className methods) := by
  induction methods generalizing pool with
  | nil => exact ⟨fun _ => ⟨by simp, Pool.hasRoom_nil _⟩, fun _ => ⟨[], pool, rfl⟩⟩
  | cons method methods ih =>
    obtain ⟨⟨id, hid⟩, hrest⟩ := List.forall_mem_cons.1 hresolves
    have hplan := p.plan?_extends hid hextends className
    rw [Renaming.exists_mapM_cons, List.forall_mem_cons, requested, List.flatMap_cons, ← requested]
    cases hmethod : p.plan? base className method with
    | none =>
      rw [hmethod] at hplan
      have hfirst := p.method_of_plan?_eq_none hc (hid.extends hextends) hplan
      have hmethods := ih hrest hextends hpool
      rw [Option.elim_none, List.nil_append]
      constructor
      · rintro ⟨first, mid, h, hok⟩
        cases hfirst.symm.trans h
        obtain ⟨hsmall, hroom⟩ := hmethods.1 hok
        exact ⟨⟨by simp, hsmall⟩, hroom⟩
      · rintro ⟨⟨-, hsmall⟩, hroom⟩
        exact ⟨method, pool, hfirst, hmethods.2 ⟨hsmall, hroom⟩⟩
    | some plan =>
      obtain ⟨m, last⟩ := plan
      rw [hmethod] at hplan
      have hresolved := hid.extends hextends
      rw [Option.elim_some, p.hasRoom_tableTexts m last method _ hpool]
      constructor
      · rintro ⟨first, mid, h, hok⟩
        obtain ⟨hlast, hplace⟩ := (p.method_eq_ok_of_plan? hc hresolved hplan).1 h
        have hworded := p.worded_placeTable hplace
        obtain ⟨hsmall, hroom⟩ := (ih hrest (hextends.trans hworded.grown.extends)
          (hpool.worded hworded)).1 hok
        refine ⟨⟨fun m' last' heq => ?_, hsmall⟩, first, mid, hplace, hroom⟩
        cases heq
        exact hlast
      · rintro ⟨⟨hlast, hsmall⟩, first, mid, hplace, hroom⟩
        have hworded := p.worded_placeTable hplace
        refine ⟨first, mid, ?_, ?_⟩
        · exact (p.method_eq_ok_of_plan? hc hresolved hplan).2 ⟨hlast m last rfl, hplace⟩
        · exact (ih hrest (hextends.trans hworded.grown.extends) (hpool.worded hworded)).2
            ⟨hsmall, hroom⟩

/-! ### The whole class -/

theorem classFile_eq_ok {c c' : ClassFile} : p.classFile c = .ok c' ↔
    ∃ className, c.name = .ok className ∧
      ((p.mapping.class? p.ns className = none ∧ c' = c) ∨
        ∃ mapping methods pool, p.mapping.class? p.ns className = some mapping ∧
          c.methods.mapM (p.method className mapping) c.pool = .ok (methods, pool) ∧
          c' = { c with methods, pool }) := by
  unfold ParameterNaming.classFile
  rw [bind_eq_ok]
  simp only [lift_eq_ok]
  refine exists_congr fun className => and_congr_right fun _ => ?_
  cases p.mapping.class? p.ns className with
  | none => simp [pure, Except.pure, eq_comm]
  | some mapping =>
    constructor
    · intro h
      obtain ⟨⟨methods, pool⟩, hmethods, h⟩ := bind_eq_ok.1 h
      cases h
      exact .inr ⟨mapping, methods, pool, rfl, hmethods, rfl⟩
    · rintro (⟨hnone, -⟩ | ⟨_, methods, pool, hsome, hmethods, rfl⟩)
      · cases hnone
      · cases hsome
        exact bind_eq_ok.2 ⟨(methods, pool), hmethods, rfl⟩

theorem plan?_of_unmapped (h : p.mapping.class? p.ns className = none)
    (pool : Pool) (method : Member) : p.plan? pool className method = none := by
  simp [plan?, h]

theorem documents_of_classFile {c c' : ClassFile} (hpool : c.pool.Recalls Constant.isShared)
    (h : p.classFile c = .ok c') : ∃ className, c.name = .ok className ∧
      Pool.Worded c.pool c'.pool ∧ c' = { c with pool := c'.pool, methods := c'.methods } ∧
      List.Forall₂ (p.Documents c'.pool c'.pool className) c.methods c'.methods ∧
      p.classFile c' = .ok c' := by
  have hrun := h
  obtain ⟨className, hname, ⟨hnone, rfl⟩ | ⟨mapping, methods, pool, hmapping, hmethods, rfl⟩⟩ :=
    p.classFile_eq_ok.1 h
  · refine ⟨className, hname, .refl, rfl, ?_, hrun⟩
    refine List.forall₂_same.2 fun method _ => ?_
    exact p.documents_of_plan?_eq_none (p.plan?_of_unmapped hnone _ method)
  · obtain ⟨hworded, hdocuments⟩ := p.documents_mapM hmapping hpool hmethods
    obtain ⟨hall, hagain⟩ := hdocuments pool .refl
    refine ⟨className, hname, hworded, rfl, hall, p.classFile_eq_ok.2 ⟨className, ?_, ?_⟩⟩
    · exact hworded.grown.extends.className hname
    · exact .inr ⟨mapping, methods, pool, hmapping, hagain, rfl⟩

theorem exists_classFile_iff {c : ClassFile} (hpool : c.pool.Catalogued)
    (hname : c.name = .ok className)
    (hresolves : ∀ method ∈ c.methods, ∃ id, Resolves c.pool method id) :
    (∃ c', p.classFile c = .ok c') ↔
      (∀ method ∈ c.methods, ∀ m last, p.plan? c.pool className method = some (m, last) →
        last ≤ maxIndex) ∧ c.pool.HasRoom (p.requested c.pool className c.methods) := by
  cases hmapping : p.mapping.class? p.ns className with
  | none =>
    have hrequested : p.requested c.pool className c.methods = [] := by
      simp [requested, p.plan?_of_unmapped hmapping]
    rw [hrequested]
    simp only [p.plan?_of_unmapped hmapping, reduceCtorEq, false_implies, implies_true, true_and,
      Pool.hasRoom_nil, iff_true]
    exact ⟨c, p.classFile_eq_ok.2 ⟨className, hname, .inl ⟨hmapping, rfl⟩⟩⟩
  | some mapping =>
    rw [← p.exists_mapM_iff hmapping hresolves (fun _ _ h => h) hpool]
    constructor
    · rintro ⟨c', h⟩
      obtain ⟨className', hname', h⟩ := p.classFile_eq_ok.1 h
      cases hname.symm.trans hname'
      rcases h with ⟨hnone, -⟩ | ⟨mapping', methods, pool, hsome, hmethods, -⟩
      · cases hmapping.symm.trans hnone
      · cases hmapping.symm.trans hsome
        exact ⟨methods, pool, hmethods⟩
    · rintro ⟨methods, pool, hmethods⟩
      exact ⟨_, p.classFile_eq_ok.2 ⟨className, hname,
        .inr ⟨mapping, methods, pool, hmapping, hmethods, rfl⟩⟩⟩

/-- The methods of a class that was read get their tables. Which of them are named, and which
attribute is the first table, is told by the pool that results; where no index of a name lies past
the pool that was read, that one tells the same. If all methods are found, the naming fails only for
an index that is too great and for want of room. -/
theorem documents_classFile {data : Bytes} {c : ClassFile} (hc : ClassFile.decode data = .ok c) :
    (∀ c', p.classFile c = .ok c' → ∃ className, c.name = .ok className ∧
      c.pool.slots.toList <+: c'.pool.slots.toList ∧
      c' = { c with pool := c'.pool, methods := c'.methods } ∧
      List.Forall₂ (fun method written =>
        p.Documents c'.pool c'.pool className method written ∧
        ((∀ i ∈ method.nameIndices, i.toNat ≤ c.pool.slots.size) →
          p.Documents c.pool c'.pool className method written)) c.methods c'.methods ∧
      p.classFile c' = .ok c') ∧
    (∀ className, c.name = .ok className →
      (∀ method ∈ c.methods, ∃ id, Resolves c.pool method id) →
      ((∃ e, p.classFile c = .error e) ↔
        (∃ method ∈ c.methods, ∃ m last, p.NamesUpTo c.pool className method m last ∧ 254 < last) ∨
        ¬ c.pool.HasRoom (p.requested c.pool className c.methods))) := by
  have hindexed := indexed_decode hc
  constructor
  · intro c' h
    obtain ⟨className, hname, hworded, hsame, hdocuments, hagain⟩ :=
      p.documents_of_classFile hindexed.recalls h
    refine ⟨className, hname, hworded.grown.isPrefix_slots, hsame, ?_, hagain⟩
    refine hdocuments.imp fun method written hmethod => ⟨hmethod, fun hinside => ?_⟩
    exact hmethod.of_text_eq fun i hi => (hworded.grown.sameAt_of_le (hinside i hi)).text_eq
  · intro className hname hresolves
    have hfails : (∃ e, p.classFile c = .error e) ↔ ¬ ∃ c', p.classFile c = .ok c' := by
      cases p.classFile c <;> simp
    rw [hfails, p.exists_classFile_iff hindexed.catalogued hname hresolves, not_and_or]
    simp only [plan?_eq_some, maxIndex, not_forall, Nat.not_le, exists_prop]

/-- A naming of the method `m` with one integer parameter. Its mapping names the given parameter in
another namespace, which may be past those of the method. -/
def sparseNaming (index : Nat) : ParameterNaming where
  mapping := .ofDrafts [
    { names := [("left", "A")],
      methods := [
        { names := [("left", "m", "(I)V")],
          parameters := [(0, "left", "x"), (index, "right", "y")] }] }]
  ns := "left"
  stem := "p"

/-- A method with a table and another attribute, and one that the mapping does not know. -/
def sparseClass : ClassFile where
  pool := Pool.ofSlots #[.utf8 "A", .classInfo 1, .utf8 "m", .utf8 "(I)V",
    .utf8 MethodParameter.tableName, .utf8 "n", .utf8 "p1"]
  thisClass := 2
  methods := [⟨0, 3, 4, [⟨5, [1, 0, 3, 0, 0]⟩, ⟨6, [7]⟩]⟩, ⟨0, 6, 4, []⟩]

/-- With a parameter that a table can hold the methods get their tables, for which there is room.
With one that it cannot hold the naming fails. -/
theorem documents_classFile_sparse : ∃ c c', ClassFile.decode sparseClass.encode = .ok c ∧
    (sparseNaming 2).classFile c = .ok c' ∧ c'.pool.slots.size = 9 ∧ c'.methods ≠ c.methods ∧
    List.Forall₂ ((sparseNaming 2).Documents c.pool c'.pool "A") c.methods c'.methods ∧
    (sparseNaming 2).classFile c' = .ok c' ∧
    (∀ method ∈ c.methods, ∃ id, Resolves c.pool method id) ∧
    c.pool.HasRoom ((sparseNaming 2).requested c.pool "A" c.methods) ∧
    ∃ e, (sparseNaming 255).classFile c = .error e := by
  have hrun : (ClassFile.decode sparseClass.encode).toOption.any (fun c =>
      ((sparseNaming 2).classFile c).toOption.any fun c' => decide (
        c.name.toOption = some "A" ∧ c'.pool.slots.size = 9 ∧ c'.methods ≠ c.methods ∧
        (c.methods.all fun m => m.nameIndices.all fun i => i.toNat ≤ c.pool.slots.size) ∧
        (c.methods.all fun m => (resolve c.pool m).toOption.isSome) ∧
        ∃ method ∈ c.methods,
          ((sparseNaming 255).plan? c.pool "A" method).any fun (_, last) => 254 < last)) =
      true := by
    -- the greatest key of a map is evaluated by way of the list of its keys
    unfold ParameterNaming.classFile ParameterNaming.method
    simp only [MethodMapping.lastParameter?_eq_getLast?]
    decide +kernel
  obtain ⟨c, hc, hrun⟩ := exists_ok_of_any hrun
  obtain ⟨c', hc', hrun⟩ := exists_ok_of_any hrun
  obtain ⟨hname, hsize, hchanged, hinside, hfound, method, hmethod, hlate⟩ := of_decide_eq_true hrun
  have hname := toOption_eq_some.1 hname
  simp only [List.all_eq_true, decide_eq_true_eq] at hinside
  have hresolves : ∀ method ∈ c.methods, ∃ id, Resolves c.pool method id := by
    intro method hmem
    obtain ⟨id, hid⟩ := Option.isSome_iff_exists.1 (List.all_eq_true.1 hfound method hmem)
    exact ⟨id, resolve_eq_ok.1 (toOption_eq_some.1 hid)⟩
  obtain ⟨hdocumented, hfails⟩ := (sparseNaming 2).documents_classFile hc
  obtain ⟨className, hclassName, -, -, hdocuments, hagain⟩ := hdocumented c' hc'
  cases hname.symm.trans hclassName
  refine ⟨c, c', hc, hc', hsize, hchanged, ?_, hagain, hresolves, ?_, ?_⟩
  · obtain ⟨hlength, hall⟩ := List.forall₂_iff_zip.1 hdocuments
    refine List.forall₂_iff_zip.2 ⟨hlength, fun hpair => ?_⟩
    exact (hall hpair).2 (hinside _ (List.of_mem_zip hpair).1)
  · by_contra hfull
    obtain ⟨e, he⟩ := (hfails _ hname hresolves).2 (.inr hfull)
    cases hc'.symm.trans he
  · obtain ⟨⟨m, last⟩, hplan, hlast⟩ := (Option.any_eq_true _ _).1 hlate
    refine (((sparseNaming 255).documents_classFile hc).2 _ hname hresolves).2 (.inl ?_)
    exact ⟨method, hmethod, m, last, (plan?_eq_some _).1 hplan, of_decide_eq_true hlast⟩

/-- A naming of the one parameter of the methods `m` and `x`, by the name of the latter. -/
def strayNaming : ParameterNaming where
  mapping := .ofDrafts [
    { names := [("left", "A")],
      methods := ["m", "x"].map fun name =>
        { names := [("left", name, "(I)V")], parameters := [(0, "left", "x")] } }]
  ns := "left"
  stem := "p"

/-- A method with an attribute whose name is the second text to be added, that of the table. -/
def strayTableClass : ClassFile where
  pool := Pool.ofSlots #[.utf8 "A", .classInfo 1, .utf8 "m", .utf8 "(I)V"]
  thisClass := 2
  methods := [⟨0, 3, 4, [⟨6, [1]⟩]⟩]

/-- A method whose name is the first text to be added, that of the parameter of the other one. -/
def strayNameClass : ClassFile where
  pool := Pool.ofSlots #[.utf8 "A", .classInfo 1, .utf8 "m", .utf8 "(I)V"]
  thisClass := 2
  methods := [⟨0, 3, 4, []⟩, ⟨0, 5, 4, []⟩]

def Strays (e : ClassFile) : Prop :=
  ∃ c c', ClassFile.decode e.encode = .ok c ∧ c.name = .ok "A" ∧ strayNaming.classFile c = .ok c' ∧
    ¬ List.Forall₂ (strayNaming.Documents c.pool c'.pool "A") c.methods c'.methods

theorem not_documents_of_changed {before after : Pool} {className : String}
    {method written : Member} (h : p.plan? before className method = none ∧ written ≠ method) :
    ¬ p.Documents before after className method written := by
  intro hdocuments
  refine h.2 (hdocuments.kept ?_)
  rintro ⟨m, last, hnames⟩
  cases h.1.symm.trans (p.plan?_eq_some.2 hnames)

theorem not_documents_of_length {before after : Pool} {className : String}
    {method written : Member} (h : (p.plan? before className method).isSome = true ∧
      Attribute.position? before MethodParameter.tableName method.attributes = none ∧
      written.attributes.length = method.attributes.length) :
    ¬ p.Documents before after className method written := by
  intro hdocuments
  obtain ⟨hplan, hnone, hlength⟩ := h
  obtain ⟨⟨m, last⟩, hplan⟩ := Option.isSome_iff_exists.1 hplan
  obtain ⟨-, table, parameters, -, hreplaces, -⟩ :=
    hdocuments.table m last (p.plan?_eq_some.1 hplan)
  generalize method.attributes = attributes, written.attributes = others at *
  cases hreplaces with
  | @first front back old hfront hold =>
    have hnot := List.findIdx?_eq_none_iff.1 hnone old (by simp)
    simp [Attribute.isNamed, Pool.isText_iff.2 hold] at hnot
  | absent => simp at hlength

theorem strays_of_pair {e : ClassFile} {P : Pool → Member → Member → Prop}
    [∀ pool method written, Decidable (P pool method written)]
    (hP : ∀ before after method written, P before method written →
      ¬ strayNaming.Documents before after "A" method written)
    (hrun : (ClassFile.decode e.encode).toOption.any (fun c =>
      (strayNaming.classFile c).toOption.any fun (c' : ClassFile) => decide (
        c.name.toOption = some "A" ∧ ∃ x ∈ c.methods.zip c'.methods, P c.pool x.1 x.2)) = true) :
    Strays e := by
  obtain ⟨c, hc, hrun⟩ := exists_ok_of_any hrun
  obtain ⟨c', hc', hrun⟩ := exists_ok_of_any hrun
  obtain ⟨hname, x, hx, hpair⟩ := of_decide_eq_true hrun
  refine ⟨c, c', hc, toOption_eq_some.1 hname, hc', fun hall => ?_⟩
  exact hP _ _ _ _ hpair ((List.forall₂_iff_zip.1 hall).2 hx)

theorem strays_cases : Strays strayTableClass ∧ Strays strayNameClass := by
  constructor
  · refine strays_of_pair (fun _ _ _ _ => strayNaming.not_documents_of_length) ?_
    unfold ParameterNaming.classFile ParameterNaming.method
    simp only [MethodMapping.lastParameter?_eq_getLast?]
    decide +kernel
  · refine strays_of_pair (fun _ _ _ _ => strayNaming.not_documents_of_changed) ?_
    unfold ParameterNaming.classFile ParameterNaming.method
    simp only [MethodMapping.lastParameter?_eq_getLast?]
    decide +kernel

end ParameterNaming

end ClassArchive
