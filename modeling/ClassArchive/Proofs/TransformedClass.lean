import ClassArchive.Proofs.ParameterTables
import ClassArchive.Proofs.RenamedClass
import ClassArchive.Proofs.RewrittenClass
import ClassArchive.Transform

/-!
A class on its way through a pass: renamed, given parameter names, given frames and written. At each
stage its class entries stand in the slots in which they stood when it was read, under their new
names, and its pool keeps the order that its bytes need.
-/
set_option autoImplicit false

namespace ClassArchive

/-! ### Repointed slots -/

namespace Pool

theorem paired_set {slots : List Constant} {k : Nat} {old c : Constant} (h : Paired slots)
    (hold : slots[k]? = some old) (hwide : c.isWide = old.isWide) (hc : c ≠ .unusable)
    (husable : old ≠ .unusable) : Paired (slots.set k c) := by
  obtain ⟨hlt, -⟩ := List.getElem?_eq_some_iff.1 hold
  have hsame : ∀ i : Nat, (slots.set k c)[i]? = some .unusable ↔ slots[i]? = some .unusable := by
    intro i
    by_cases hi : k = i
    · subst hi
      rw [List.getElem?_set_self hlt, hold]
      simp [hc, husable]
    · rw [List.getElem?_set_ne hi]
  have hwide : ∀ i : Nat, (slots.set k c)[i]?.any Constant.isWide =
      slots[i]?.any Constant.isWide := by
    intro i
    by_cases hi : k = i
    · subst hi
      rw [List.getElem?_set_self hlt, hold, Option.any_some, Option.any_some, hwide]
    · rw [List.getElem?_set_ne hi]
  intro i
  rw [hsame, hwide]
  exact h i

structure InOrder (p : Pool) : Prop where
  regular : p.Regular
  small : p.slots.size ≤ capacity

theorem InOrder.of_slots_eq {p q : Pool} (hp : p.InOrder) (h : q.slots = p.slots) : q.InOrder :=
  ⟨⟨h ▸ hp.regular.paired, h ▸ hp.regular.raw⟩, h ▸ hp.small⟩

theorem InOrder.stocked {p q : Pool} (hp : p.InOrder) (h : Stocked p q) : q.InOrder := by
  refine ⟨h.regular hp.regular, ?_⟩
  induction h with
  | refl => exact hp.small
  | @push q r c i _ hc hpush ih =>
    have hsize := congrArg List.length (slots_push hpush)
    obtain ⟨hroom, -⟩ := push_eq_ok hpush
    rw [filling_of_isShared hc] at hsize
    simp only [Array.length_toList, List.length_append, List.length_singleton] at hsize
    have hwidth := one_le_width c
    omega

theorem InOrder.replace {p q : Pool} {i : UInt16} {c : Constant} {u : Unit} (hp : p.InOrder)
    (hc : c ≠ .unusable) (hraw : ∀ data, c ≠ .rawUtf8 data)
    (h : Pool.replace i c p = .ok u q) : q.InOrder := by
  obtain ⟨old, hold, hwidth, husable, rfl⟩ := replace_eq_ok h
  obtain ⟨-, hslot⟩ := slot?_eq_some.1 hold
  have hwide : c.isWide = old.isWide := by
    unfold Constant.width at hwidth
    revert hwidth
    cases c.isWide <;> cases old.isWide <;> simp
  refine ⟨⟨?_, ?_⟩, ?_⟩
  · rw [slots_note, Array.toList_setIfInBounds]
    exact paired_set hp.regular.paired hslot hwide hc husable
  · intro data hdata
    rw [slots_note, Array.toList_setIfInBounds] at hdata
    rcases List.mem_or_eq_of_mem_set hdata with hdata | hdata
    · exact hp.regular.raw data hdata
    · exact absurd hdata.symm (hraw data)
  · rw [slots_note, Array.size_setIfInBounds]
    exact hp.small

end Pool

namespace ClassRenamer

variable {r : ClassRenamer}

theorem Rewrites.refers {pool : Pool} {i : UInt16} {c c' : Constant}
    (h : r.Rewrites pool i c c') (hne : c' ≠ c) :
    c' ≠ .unusable ∧ ∀ data, c' ≠ .rawUtf8 data := by
  cases c with
  | classInfo n | methodType n =>
    obtain ⟨n', s, t, rfl, -⟩ := h
    exact ⟨nofun, nofun⟩
  | fieldRef o n | methodRef o n | interfaceMethodRef o n =>
    obtain ⟨pair, m, s, t, rfl, -⟩ := h
    exact ⟨nofun, nofun⟩
  | invokeDynamic b n =>
    obtain ⟨pair, name, d, lambda, s, t, rfl, -⟩ := h
    exact ⟨nofun, nofun⟩
  | dynamic b n =>
    obtain ⟨pair, name, d, t, rfl, -⟩ := h
    exact ⟨nofun, nofun⟩
  | _ => exact absurd h hne

theorem inOrder_renameSlot {i : UInt16} {c : Constant} {p q : Pool} {u : Unit} (hp : r.Live p)
    (horder : p.InOrder) (h : r.renameSlot i c p = .ok (u, q)) : q.InOrder := by
  obtain ⟨c', mid, hrenamed, h⟩ := state_bind_eq_ok.1 h
  obtain ⟨hstocked, hrewrites⟩ := rewrites_renameConstant hp hrenamed
  have hmid := horder.stocked hstocked
  split at h
  · cases h
    exact hmid
  · next hne =>
    obtain ⟨hc, hraw⟩ := hrewrites.refers hne
    exact hmid.replace hc hraw (Renaming.edit_eq_ok.1 h)

theorem inOrder_forM (entries : List (UInt16 × Constant)) (hdistinct : (entries.map (·.1)).Nodup)
    {p q : Pool} {u : Unit} (hp : r.Live p) (hslots : ∀ e ∈ entries, p.slot? e.1 = some e.2)
    (horder : p.InOrder) (h : (entries.forM fun e => r.renameSlot e.1 e.2) p = .ok (u, q)) :
    q.InOrder := by
  induction entries generalizing p with
  | nil =>
    cases h
    exact horder
  | cons e entries ih =>
    obtain ⟨hfresh, hdistinct⟩ := List.nodup_cons.1 hdistinct
    obtain ⟨v, mid, hstep, h⟩ := state_bind_eq_ok.1 h
    obtain ⟨hlive, -, hothers, -⟩ := rewrites_renameSlot hp (hslots e (by simp)) hstep
    refine ih hdistinct hlive (fun e' he' => ?_) (inOrder_renameSlot hp horder hstep) h
    refine hothers _ _ ?_ (hslots e' (by simp [he']))
    intro heq
    exact hfresh (List.mem_map.2 ⟨e', he', heq⟩)

theorem inOrder_renameConstants (hr : r.snapshot.Indexed) (horder : r.snapshot.InOrder)
    {q : Pool} {u : Unit} (h : r.renameConstants r.snapshot = .ok (u, q)) : q.InOrder :=
  inOrder_forM _ (Pool.nodup_entries hr.small) (live_snapshot hr)
    (fun _ he => ((Pool.mem_entries hr.small).1 he).1) horder h

/-- What a renaming leaves as it is: all but the names and the members' contents. -/
theorem renameAll_keeps {c c' : ClassFile} {p q : Pool} (h : r.renameAll c p = .ok (c', q)) :
    c'.thisClass = c.thisClass ∧ c'.superClass = c.superClass ∧ c'.interfaces = c.interfaces ∧
      c'.fields.length = c.fields.length ∧ c'.methods.length = c.methods.length := by
  obtain ⟨u, p₁, -, h⟩ := state_bind_eq_ok.1 h
  obtain ⟨fields, p₂, hfields, h⟩ := state_bind_eq_ok.1 h
  obtain ⟨methods, p₃, hmethods, h⟩ := state_bind_eq_ok.1 h
  obtain ⟨attributes, p₄, -, h⟩ := state_bind_eq_ok.1 h
  cases h
  have hfields := Renaming.yields_mapM _ (fun m _ => r.yields_renameFieldMember m) _ _ _ hfields
  have hmethods := Renaming.yields_mapM _ (fun m _ => r.yields_renameMethodMember m) _ _ _ hmethods
  exact ⟨rfl, rfl, rfl, hfields.2.length_eq.symm, hmethods.2.length_eq.symm⟩

end ClassRenamer

/-! ### The stages -/

theorem Renaming.yields_get : (get : Renaming Pool).Yields fun _ => True := by
  intro p a q h
  cases h
  exact ⟨.refl, trivial⟩

namespace ParameterNaming

open Renaming

variable (p : ParameterNaming)

theorem yields_method (className : String) (c : ClassMapping) (m : Member) :
    (p.method className c m).Yields fun _ => True := by
  refine yields_get.bind fun pool _ => ?_
  refine (yields_read _).bind fun name _ => ?_
  refine (yields_read _).bind fun descriptor _ => ?_
  refine (yields_read _).bind fun id _ => ?_
  split
  · exact yields_pure trivial
  · split
    · exact yields_pure trivial
    · split
      · intro _ _ _ h
        cases h
      · exact yields_edit fun _ _ _ h => (p.worded_placeTable h).stocked

end ParameterNaming

namespace ClassFile

/-- A class made from another one under new names. It can be written, and its class entries have
their new names at the old indices. -/
structure RenamedFrom (names : Renamer) (c c' : ClassFile) : Prop where
  pool : c'.pool.InOrder
  thisClass : c'.thisClass = c.thisClass
  superClass : c'.superClass = c.superClass
  interfaces : c'.interfaces = c.interfaces
  fields : c'.fields.length = c.fields.length
  methods : c'.methods.length = c.methods.length
  className : ∀ i s, c.pool.className i = .ok s →
    ∃ t, names.typeName s = .ok t ∧ c'.pool.className i = .ok t

variable {names : Renamer} {c c' : ClassFile}

theorem renamedFrom_classFile {data : Bytes} (hc : decode data = .ok c)
    (hsmall : c.pool.slots.size ≤ Pool.capacity) (h : names.classFile c = .ok c') :
    RenamedFrom names c c' := by
  obtain ⟨className, _, h⟩ := bind_eq_ok.1 h
  obtain ⟨bootstraps, _, h⟩ := bind_eq_ok.1 h
  obtain ⟨⟨renamed, pool⟩, hrename, h⟩ := bind_eq_ok.1 h
  cases h
  have hindexed := indexed_decode hc
  obtain ⟨⟨u, mid, hconstants, hstocked⟩, -⟩ := renameAll_eq_ok hrename
  obtain ⟨hthis, hsuper, hinterfaces, hfields, hmethods⟩ := ClassRenamer.renameAll_keeps hrename
  have hmid := ClassRenamer.inOrder_renameConstants hindexed
    ⟨(decode_eq_ok hc).1.1, hsmall⟩ hconstants
  refine ⟨hmid.stocked hstocked, hthis, hsuper, hinterfaces, hfields, hmethods, ?_⟩
  intro i s hs
  obtain ⟨t, ht, hclass⟩ := className_of_rewrites
    (fun _ _ hk => ClassRenamer.rewrites_renameConstants hindexed hconstants hk) hs
  exact ⟨t, ht, hstocked.extends.className hclass⟩

theorem RenamedFrom.withMethods (h : RenamedFrom names c c') {methods : List Member} {pool : Pool}
    (hpool : Pool.Stocked c'.pool pool) (hmethods : methods.length = c'.methods.length) :
    RenamedFrom names c { c' with methods, pool } where
  pool := h.pool.stocked hpool
  thisClass := h.thisClass
  superClass := h.superClass
  interfaces := h.interfaces
  fields := h.fields
  methods := hmethods.trans h.methods
  className i s hs := by
    obtain ⟨t, ht, hclass⟩ := h.className i s hs
    exact ⟨t, ht, hpool.extends.className hclass⟩

theorem RenamedFrom.parameters (h : RenamedFrom names c c') {p : ParameterNaming}
    {written : ClassFile} (hrun : p.classFile c' = .ok written) : RenamedFrom names c written := by
  obtain ⟨className, _, hrun⟩ := bind_eq_ok.1 hrun
  split at hrun
  · cases hrun
    exact h
  · next mapping _ =>
    obtain ⟨⟨methods, pool⟩, hmethods, hrun⟩ := bind_eq_ok.1 hrun
    cases hrun
    obtain ⟨hstocked, hsame⟩ := Renaming.yields_mapM c'.methods
      (fun m _ => p.yields_method className mapping m) _ _ _ hmethods
    exact h.withMethods hstocked hsame.length_eq.symm

theorem RenamedFrom.framed (h : RenamedFrom names c c') {load : Loader} {computeFrames : Bool}
    {written : ClassFile} (hrun : c'.framed load computeFrames = .ok written) :
    RenamedFrom names c written := by
  unfold ClassFile.framed at hrun
  split at hrun
  · obtain ⟨className, _, hrun⟩ := bind_eq_ok.1 hrun
    split at hrun
    · next methods pool hmethods =>
      cases hrun
      obtain ⟨hstocked, hsizes⟩ := stocked_mapM hmethods
      exact h.withMethods hstocked hsizes.1
    · cases hrun
  · cases hrun
    exact h

/-! ### What is read back -/

/-- The lengths that matter when all attributes are written anew. -/
structure Encodable (c : ClassFile) : Prop extends LengthsFit c where
  counts : ∀ m ∈ c.methods, m.attributes.length < 65536
  fields : ∀ m ∈ c.fields, Attribute.Fit m.attributes
  attributes : Attribute.Fit c.attributes

instance (c : ClassFile) : Decidable c.Encodable :=
  decidable_of_iff (c.LengthsFit ∧ (∀ m ∈ c.methods, m.attributes.length < 65536) ∧
      (∀ m ∈ c.fields, Attribute.Fit m.attributes) ∧ Attribute.Fit c.attributes)
    ⟨fun h => ⟨h.1, h.2.1, h.2.2.1, h.2.2.2⟩,
      fun h => ⟨h.toLengthsFit, h.counts, h.fields, h.attributes⟩⟩

theorem RenamedFrom.wellFormed (h : RenamedFrom names c c') (hc : c.Sized)
    (hfits : c'.Encodable) : c'.WellFormed where
  pool := h.pool.regular.wellFormed h.pool.small fun _ htext => hfits.texts _ htext rfl
  interfaces := h.interfaces ▸ hc.interfaces
  fields := h.fields ▸ hc.fields
  methods := h.methods ▸ hc.methods
  members := List.forall_mem_append.2
    ⟨hfits.fields, fun m hm => ⟨hfits.counts m hm, hfits.payloads m hm⟩⟩
  attributes := hfits.attributes

theorem slots_reread (c : ClassFile) : c.reread.pool.slots = c.pool.slots :=
  Pool.slots_ofSlots _

theorem extends_reread (c : ClassFile) : c.pool.Extends c.reread.pool := by
  intro i k hk
  unfold Pool.slot? at hk ⊢
  rwa [slots_reread]

theorem RenamedFrom.decode_encode (h : RenamedFrom names c c') (hc : c.Sized)
    (hfits : c'.Encodable) : ∃ back, decode c'.encode = .ok back ∧ RenamedFrom names c back := by
  refine ⟨c'.reread, (restores_read (h.wellFormed hc hfits)).run_eq_ok, ?_⟩
  refine ⟨h.pool.of_slots_eq c'.slots_reread, h.thisClass, h.superClass, h.interfaces, h.fields,
    h.methods, ?_⟩
  intro i s hs
  obtain ⟨t, ht, hclass⟩ := h.className i s hs
  exact ⟨t, ht, (extends_reread c').className hclass⟩

theorem RenamedFrom.name (h : RenamedFrom names c c') {n : String} (hn : c.name = .ok n) :
    ∃ m, names.typeName n = .ok m ∧ c'.name = .ok m := by
  rw [ClassFile.name, h.thisClass]
  exact h.className _ _ hn

theorem RenamedFrom.superName (h : RenamedFrom names c c') {s : Option String}
    (hs : c.superName = .ok s) : ∃ t, c'.superName = .ok t := by
  unfold ClassFile.superName optionalName at hs ⊢
  rw [h.superClass]
  split at hs
  · next hnone => exact ⟨none, if_pos hnone⟩
  · next hsome =>
    obtain ⟨name, hname, -⟩ := map_eq_ok.1 hs
    obtain ⟨t, -, ht⟩ := h.className _ _ hname
    rw [if_neg hsome]
    exact ⟨some t, map_eq_ok.2 ⟨t, ht, rfl⟩⟩

theorem RenamedFrom.interfaceNames (h : RenamedFrom names c c') {is : List String}
    (his : c.interfaceNames = .ok is) : ∃ js, c'.interfaceNames = .ok js := by
  unfold ClassFile.interfaceNames at his ⊢
  rw [h.interfaces]
  refine exists_mapM_ok fun i hi => ?_
  obtain ⟨s, -, hs⟩ := exists_of_mapM his i hi
  obtain ⟨t, -, ht⟩ := h.className i s hs
  exact ⟨t, ht⟩

theorem RenamedFrom.header (h : RenamedFrom names c c') {head : ClassHeader}
    (hhead : ClassHeader.ofClassFile c = .ok head) :
    ∃ head', ClassHeader.ofClassFile c' = .ok head' ∧ c'.name = .ok head'.name := by
  obtain ⟨n, hn, hhead⟩ := bind_eq_ok.1 hhead
  obtain ⟨s, hs, hhead⟩ := bind_eq_ok.1 hhead
  obtain ⟨is, his, -⟩ := bind_eq_ok.1 hhead
  obtain ⟨m, -, hm⟩ := h.name hn
  obtain ⟨t, ht⟩ := h.superName hs
  obtain ⟨js, hjs⟩ := h.interfaceNames his
  refine ⟨⟨c'.access, m, t, js⟩, ?_, hm⟩
  exact bind_eq_ok.2 ⟨m, hm, bind_eq_ok.2 ⟨t, ht, bind_eq_ok.2 ⟨js, hjs, rfl⟩⟩⟩

/-- Reading all of a class and reading no further than its interfaces tell the same of it. -/
theorem header_decode {data : Bytes} (h : decode data = .ok c) :
    ClassHeader.decode data = ClassHeader.ofClassFile c := by
  unfold decode Reader.run at h
  split at h
  · next rest hread =>
    cases h
    obtain ⟨head, mid, hhead, hread⟩ := state_bind_eq_ok.1 hread
    obtain ⟨fields, _, -, hread⟩ := state_bind_eq_ok.1 hread
    obtain ⟨methods, _, -, hread⟩ := state_bind_eq_ok.1 hread
    obtain ⟨attributes, _, -, hread⟩ := state_bind_eq_ok.1 hread
    cases hread
    have hrun : Reader.run readHead data = .ok head := by
      unfold Reader.run
      rw [hhead]
    rw [ClassHeader.decode, hrun]
    rfl
  · cases h

end ClassFile

end ClassArchive
