import ClassArchive.Proofs.ClassCodec
import ClassArchive.Proofs.PoolHistory

/-!
What reading a class guarantees, and what stays true of its pool while names are added. The slots
keep the order that their bytes need, and the tables stay those that reading would make, so a class
that is written after such additions is read back as it is.
-/
set_option autoImplicit false

namespace ClassArchive

/-- Whether a constant has bytes of its own, which give it back. -/
def Constant.Own (c : Constant) : Prop := c ≠ .unusable ∧ ∀ data, c = .rawUtf8 data → c.Fits

theorem Constant.own_of_isShared {c : Constant} (h : c.isShared = true) : c.Own := by
  constructor
  · rintro rfl
    cases h
  · rintro data rfl
    cases h

namespace Pool

/-! ### The order of the slots -/

/-- Whether the slots are as reading leaves them, but for the lengths of texts. -/
structure Regular (p : Pool) : Prop where
  paired : Paired p.slots.toList
  raw : ∀ data, .rawUtf8 data ∈ p.slots.toList → (Constant.rawUtf8 data).Fits

theorem Regular.wellFormed {p : Pool} (h : p.Regular) (hsmall : p.slots.size ≤ capacity)
    (htexts : ∀ text, .utf8 text ∈ p.slots.toList → (Constant.utf8 text).Fits) :
    p.WellFormed where
  small := hsmall
  paired := h.paired
  fits c hc := by
    cases c with
    | utf8 text => exact htexts text hc
    | rawUtf8 data => exact h.raw data hc
    | _ => trivial

theorem paired_append_filling {slots : List Constant} {c : Constant} (h : Paired slots)
    (hc : c ≠ .unusable) : Paired (slots ++ filling c) := by
  obtain ⟨constants, hnot, rfl⟩ := exists_constants_of_paired h
  have hmore : constants.flatMap filling ++ filling c = (constants ++ [c]).flatMap filling := by
    simp
  rw [hmore]
  refine paired_flatMap_filling ?_
  simp only [List.mem_append, List.mem_singleton, not_or]
  exact ⟨hnot, hc.symm⟩

theorem mem_filling {c d : Constant} (h : d ∈ filling c) : d = c ∨ d = .unusable := by
  unfold filling at h
  split at h
  · simpa using h
  · exact .inl (by simpa using h)

theorem filling_of_isShared {c : Constant} (h : c.isShared = true) : filling c = [c] := by
  cases c <;> first | rfl | cases h

theorem Regular.push {p q : Pool} {c : Constant} {i : UInt16} (hp : p.Regular) (hc : c.Own)
    (h : push c p = .ok i q) : q.Regular := by
  have hslots := slots_push h
  constructor
  · rw [hslots]
    exact paired_append_filling hp.paired hc.1
  · intro data hdata
    rw [hslots, List.mem_append] at hdata
    rcases hdata with hdata | hdata
    · exact hp.raw data hdata
    · rcases mem_filling hdata with rfl | hunusable
      · exact hc.2 data rfl
      · cases hunusable

theorem Stocked.regular {p q : Pool} (h : Stocked p q) (hp : p.Regular) : q.Regular := by
  induction h with
  | refl => exact hp
  | push _ hc hpush ih => exact ih.push (Constant.own_of_isShared hc) hpush

/-! ### The tables -/

theorem note_with_slots (p : Pool) (slots : Array Constant) (i : UInt16) (c : Constant) :
    { p with slots }.note i c = { p.note i c with slots } := by
  cases c <;> rfl

theorem foldl_note_with_slots (log : List (UInt16 × Constant)) (p : Pool)
    (slots : Array Constant) :
    log.foldl (fun pool w => pool.note w.1 w.2) { p with slots } =
      { log.foldl (fun pool w => pool.note w.1 w.2) p with slots } := by
  induction log generalizing p with
  | nil => rfl
  | cons w log ih => rw [List.foldl_cons, note_with_slots, ih, List.foldl_cons]

/-- Whether the tables are those that reading would make for the slots. -/
def Tabled (p : Pool) : Prop := ofSlots p.slots = p

theorem tabled_ofSlots (slots : Array Constant) : (ofSlots slots).Tabled := by
  rw [Tabled, slots_ofSlots]

theorem Tabled.push {p q : Pool} {c : Constant} {i : UInt16} (hp : p.Tabled)
    (h : push c p = .ok i q) : q.Tabled := by
  have hindex := index_push h
  obtain ⟨-, -, rfl⟩ := push_eq_ok h
  have hlist : (p.slots ++ filling c).toList = p.slots.toList ++ filling c := by simp
  have hsize : 1 + p.slots.toList.length = p.slots.size + 1 := by simp [Nat.add_comm]
  -- the slot behind a wide constant is not noted
  have hnoted : ∀ r : Pool, (numberedFrom (p.slots.size + 1) (filling c)).foldl
      (fun pool w => pool.note w.1 w.2) r = r.note i c := by
    intro r
    unfold filling
    split
    · rw [numberedFrom, numberedFrom, numberedFrom, hindex]
      rfl
    · rw [numberedFrom, numberedFrom, hindex]
      rfl
  -- the constant is noted last, in a pool that differs in its slots only
  have hlog : ofSlots (p.slots ++ filling c) =
      { ofSlots p.slots with slots := p.slots ++ filling c }.note i c := by
    rw [ofSlots, hlist, numberedFrom_append, List.foldl_append, hsize, hnoted]
    exact congrArg (Pool.note · i c) (foldl_note_with_slots _ { slots := p.slots } _)
  rw [Tabled, slots_note, hlog, hp]

theorem Stocked.tabled {p q : Pool} (h : Stocked p q) (hp : p.Tabled) : q.Tabled := by
  induction h with
  | refl => exact hp
  | push _ _ hpush ih => exact ih.push hpush

end Pool

/-! ### Reading -/

theorem Constant.own_of_read {index : UInt16} {cursor rest : Cursor} {c : Constant}
    (h : Constant.read index cursor = .ok (c, rest)) : c.Own := by
  rcases read_eq_ok h with ⟨payload, hlength, rfl, -⟩ | ⟨hfixed, -⟩
  · unfold ofText
    split
    · exact ⟨nofun, nofun⟩
    · next hnone => exact ⟨nofun, fun _ _ => ⟨hlength, hnone⟩⟩
  · constructor
    · rintro rfl
      cases hfixed
    · rintro data rfl
      cases hfixed

namespace Pool

theorem regular_readSlots (n : Nat) (skip : Bool) (index : Nat) (slots : Array Constant)
    {cursor rest : Cursor} {out : Array Constant}
    (h : readSlots n skip index slots cursor = .ok (out, rest))
    (hslots : Regular { slots }) : Regular { slots := out } := by
  induction n generalizing skip index slots cursor with
  | zero =>
    cases h
    exact hslots
  | succ n ih =>
    cases skip with
    | true => exact ih false (index + 1) slots h hslots
    | false =>
      obtain ⟨c, mid, hc, h⟩ := state_bind_eq_ok.1 h
      obtain ⟨husable, hraw⟩ := Constant.own_of_read hc
      rw [appendList_eq] at h
      refine ih c.isWide (index + 1) _ h ⟨paired_append_filling hslots.paired husable, ?_⟩
      intro data hdata
      rcases List.mem_append.1 hdata with hdata | hdata
      · exact hslots.raw data hdata
      · rcases mem_filling hdata with rfl | hunusable
        · exact hraw data rfl
        · cases hunusable

theorem regular_read {cursor rest : Cursor} {p : Pool} (h : read cursor = .ok (p, rest)) :
    p.Regular ∧ p.Tabled := by
  obtain ⟨count, mid, _, h⟩ := state_bind_eq_ok.1 h
  obtain ⟨slots, last, hslots, h⟩ := state_bind_eq_ok.1 h
  cases h
  have hregular := regular_readSlots _ _ _ _ hslots ⟨paired_nil, by simp⟩
  refine ⟨⟨?_, ?_⟩, tabled_ofSlots slots⟩
  · rw [slots_ofSlots]
    exact hregular.paired
  · rw [slots_ofSlots]
    exact hregular.raw

end Pool

namespace ClassFile

structure Sized (c : ClassFile) : Prop where
  interfaces : c.interfaces.length < 65536
  fields : c.fields.length < 65536
  methods : c.methods.length < 65536
  members : ∀ m ∈ c.fields ++ c.methods, Attribute.Fit m.attributes
  attributes : Attribute.Fit c.attributes

theorem readHead_eq_ok {cursor rest : Cursor} {c : ClassFile}
    (h : readHead cursor = .ok (c, rest)) :
    (c.pool.Regular ∧ c.pool.Tabled) ∧ c.interfaces.length < 65536 := by
  obtain ⟨_, _, _, h⟩ := state_bind_eq_ok.1 h
  obtain ⟨_, _, _, h⟩ := state_bind_eq_ok.1 h
  obtain ⟨_, _, _, h⟩ := state_bind_eq_ok.1 h
  obtain ⟨pool, _, hpool, h⟩ := state_bind_eq_ok.1 h
  obtain ⟨_, _, _, h⟩ := state_bind_eq_ok.1 h
  obtain ⟨_, _, _, h⟩ := state_bind_eq_ok.1 h
  obtain ⟨_, _, _, h⟩ := state_bind_eq_ok.1 h
  obtain ⟨interfaces, _, hinterfaces, h⟩ := state_bind_eq_ok.1 h
  cases h
  exact ⟨Pool.regular_read hpool, (Reader.codes_u16.list16.sound hinterfaces).2.1⟩

/-- A class that was read has a regular pool with its own tables, and lists of a fitting length. -/
theorem decode_eq_ok {data : Bytes} {c : ClassFile} (h : decode data = .ok c) :
    (c.pool.Regular ∧ c.pool.Tabled) ∧ c.Sized := by
  unfold decode Reader.run at h
  split at h
  · next rest hread =>
    cases h
    obtain ⟨head, _, hhead, hread⟩ := state_bind_eq_ok.1 hread
    obtain ⟨fields, _, hfields, hread⟩ := state_bind_eq_ok.1 hread
    obtain ⟨methods, _, hmethods, hread⟩ := state_bind_eq_ok.1 hread
    obtain ⟨attributes, _, hattributes, hread⟩ := state_bind_eq_ok.1 hread
    cases hread
    obtain ⟨hpool, hinterfaces⟩ := readHead_eq_ok hhead
    obtain ⟨-, hfields, hfieldsFit⟩ := Member.codes.list16.sound hfields
    obtain ⟨-, hmethods, hmethodsFit⟩ := Member.codes.list16.sound hmethods
    have hattributes := (Attribute.codes_list.sound hattributes).2
    refine ⟨hpool, hinterfaces, hfields, hmethods, ?_, hattributes⟩
    exact List.forall_mem_append.2 ⟨hfieldsFit, hmethodsFit⟩
  · cases h

theorem decode_encode {c : ClassFile} (h : c.WellFormed) (htables : c.pool.Tabled) :
    decode c.encode = .ok c := by
  have hsame : c.reread = c := by
    rw [reread, htables]
  have hread := (restores_read h).run_eq_ok
  rwa [hsame] at hread

end ClassFile

end ClassArchive
