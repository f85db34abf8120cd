import ClassArchive.ClassFile
import ClassArchive.Proofs.PoolEdits

/-!
Constants that a pool finds again by their content. The tables record the first index under which a
content was seen; whether that slot still holds the content is a property of its own, which
appending preserves and replacing may break.
-/
set_option autoImplicit false

namespace ClassArchive

def Constant.isShared : Constant → Bool
  | .utf8 _ | .classInfo _ | .nameAndType _ _ => true
  | _ => false

theorem pairKey_inj {a b c d : UInt16} : pairKey a b = pairKey c d ↔ a = c ∧ b = d := by
  have hb := b.toNat_lt
  have hd := d.toNat_lt
  rw [← UInt16.toNat_inj, ← UInt16.toNat_inj]
  unfold pairKey
  omega

namespace Pool

def recorded? (p : Pool) : Constant → Option UInt16
  | .utf8 s => p.texts[s]?
  | .classInfo n => p.classes[n.toNat]?
  | .nameAndType n d => p.pairs[pairKey n d]?
  | _ => none

theorem getElem?_insertIfNew_or {α : Type} [Ord α] [Std.TransOrd α] [Std.LawfulEqOrd α]
    [DecidableEq α] (t : Std.TreeMap α UInt16) (k a : α) (i : UInt16) :
    (t.insertIfNew k i)[a]? = t[a]?.or (if k = a then some i else none) := by
  rw [Std.TreeMap.getElem?_insertIfNew]
  by_cases h : k = a
  · subst h
    cases ht : t[k]? with
    | none => simp [Std.TreeMap.mem_iff_isSome_getElem?, ht]
    | some j => simp [Std.TreeMap.mem_iff_isSome_getElem?, ht]
  · simp [h]

theorem recorded?_with_slots (p : Pool) (slots : Array Constant) (c : Constant) :
    { p with slots }.recorded? c = p.recorded? c := by
  cases c <;> rfl

theorem recorded?_note (p : Pool) (i : UInt16) (c d : Constant) :
    (p.note i c).recorded? d =
      (p.recorded? d).or (if c = d ∧ d.isShared = true then some i else none) := by
  cases c with
  | utf8 s =>
    cases d with
    | utf8 t => simp [note, recorded?, getElem?_insertIfNew_or, Constant.isShared]
    | _ => simp [note, recorded?]
  | classInfo n =>
    cases d with
    | classInfo m =>
      simp [note, recorded?, getElem?_insertIfNew_or, Constant.isShared, UInt16.toNat_inj]
    | _ => simp [note, recorded?]
  | nameAndType n m =>
    cases d with
    | nameAndType n' m' =>
      simp [note, recorded?, getElem?_insertIfNew_or, Constant.isShared, pairKey_inj]
    | _ => simp [note, recorded?]
  | _ =>
    simp only [note]
    split
    · next h =>
      obtain ⟨rfl, hs⟩ := h
      simp [Constant.isShared] at hs
    · simp

/-! ### Replacing a constant -/

theorem replace_eq_ok {p q : Pool} {i : UInt16} {c : Constant} {u : Unit}
    (h : replace i c p = .ok u q) :
    ∃ old, p.slot? i = some old ∧ old.width = c.width ∧ old ≠ .unusable ∧
      q = { p with slots := p.slots.setIfInBounds (i.toNat - 1) c }.note i c := by
  unfold replace at h
  split at h
  · contradiction
  · next old hold =>
    split at h
    · contradiction
    · next hn =>
      cases h
      simp only [not_or, ne_eq, Decidable.not_not] at hn
      exact ⟨old, hold, hn.1, hn.2, rfl⟩

theorem slot?_replace {p q : Pool} {i : UInt16} {c : Constant} {u : Unit}
    (h : replace i c p = .ok u q) (j : UInt16) :
    q.slot? j = if j = i then some c else p.slot? j := by
  obtain ⟨old, hold, _, _, rfl⟩ := replace_eq_ok h
  rw [slot?_note]
  obtain ⟨hi, hget⟩ := slot?_eq_some.1 hold
  have hlt := (List.getElem?_eq_some_iff.1 hget).1
  by_cases hj : j = i
  · subst hj
    rw [if_pos rfl, slot?_eq_some]
    refine ⟨hi, ?_⟩
    simp only [Array.toList_setIfInBounds]
    exact List.getElem?_set_self hlt
  · rw [if_neg hj]
    unfold slot?
    by_cases h0 : j = 0
    · simp [h0]
    · have hne : i.toNat - 1 ≠ j.toNat - 1 := by
        have hn : j.toNat ≠ i.toNat := fun he => hj (UInt16.toNat_inj.1 he)
        have hz : j.toNat ≠ 0 := fun he => h0 (UInt16.toNat_inj.1 he)
        omega
      simp [h0, Array.getElem?_setIfInBounds_ne hne]

/-! ### Records that are still true -/

/-- Whether each recorded constant of the kind still stands in its slot. -/
def Recalls (kind : Constant → Bool) (p : Pool) : Prop :=
  ∀ c i, kind c = true → p.recorded? c = some i → p.slot? i = some c

/-- Records stay true where the recorded slots are kept and the noted slot holds what is noted. -/
theorem Recalls.note {kind : Constant → Bool} {p : Pool} {slots : Array Constant} {i : UInt16}
    {c : Constant} (hp : p.Recalls kind)
    (hkeep : ∀ d j, kind d = true → p.slot? j = some d → { p with slots }.slot? j = some d)
    (hnew : { p with slots }.slot? i = some c) :
    ({ p with slots }.note i c).Recalls kind := by
  intro d j hd hj
  rw [slot?_note]
  rw [recorded?_note] at hj
  rw [recorded?_with_slots] at hj
  cases hr : p.recorded? d with
  | some k =>
    simp only [hr, Option.some_or, Option.some.injEq] at hj
    subst hj
    exact hkeep d k hd (hp d k hd hr)
  | none =>
    simp only [hr, Option.none_or, Option.ite_none_right_eq_some, Option.some.injEq] at hj
    obtain ⟨⟨rfl, _⟩, rfl⟩ := hj
    exact hnew

theorem Recalls.push {kind : Constant → Bool} {p q : Pool} {c : Constant} {i : UInt16}
    (hp : p.Recalls kind) (h : push c p = .ok i q) : q.Recalls kind := by
  have hext := extends_push h
  have hnew := slot?_push h
  obtain ⟨_, _, rfl⟩ := push_eq_ok h
  simp only [Extends, slot?_note] at hext hnew
  exact hp.note (fun d j _ hj => hext j d hj) hnew

theorem Recalls.grown {kind : Constant → Bool} {p q : Pool} (hp : p.Recalls kind)
    (h : Grown p q) : q.Recalls kind := by
  induction h with
  | refl => exact hp
  | push _ h ih => exact ih.push h

theorem Recalls.replace {kind : Constant → Bool} {p q : Pool} {i : UInt16} {c : Constant} {u : Unit}
    (hp : p.Recalls kind) (h : replace i c p = .ok u q)
    (hold : ∀ old, p.slot? i = some old → kind old = true → old = c) : q.Recalls kind := by
  have hslot := slot?_replace h
  obtain ⟨_, _, _, _, rfl⟩ := replace_eq_ok h
  simp only [slot?_note] at hslot
  refine hp.note (fun d j hd hj => ?_) (by rw [hslot, if_pos rfl])
  rw [hslot]
  by_cases hji : j = i
  · subst hji
    rw [if_pos rfl, hold d hj hd]
  · rwa [if_neg hji]

/-! ### Adding what may be there already -/

theorem reuse_eq_ok {found : Option UInt16} {c : Constant} {p q : Pool} {i : UInt16}
    (h : reuse found c p = .ok i q) :
    (found = some i ∧ q = p) ∨ (found = none ∧ push c p = .ok i q) := by
  cases found with
  | none => exact .inr ⟨rfl, h⟩
  | some j =>
    cases h
    exact .inl ⟨rfl, rfl⟩

theorem addText_eq_ok {s : String} {p q : Pool} {i : UInt16} (h : addText s p = .ok i q) :
    (p.recorded? (.utf8 s) = some i ∧ q = p) ∨
      (p.recorded? (.utf8 s) = none ∧ push (.utf8 s) p = .ok i q) := by
  obtain ⟨_, _, hget, h⟩ := edit_bind_eq_ok.1 h
  cases hget
  exact reuse_eq_ok h

theorem addClass_eq_ok {s : String} {p q : Pool} {i : UInt16} (h : addClass s p = .ok i q) :
    ∃ n r, addText s p = .ok n r ∧
      ((r.recorded? (.classInfo n) = some i ∧ q = r) ∨
        (r.recorded? (.classInfo n) = none ∧ push (.classInfo n) r = .ok i q)) := by
  obtain ⟨n, r, htext, h⟩ := edit_bind_eq_ok.1 h
  obtain ⟨_, _, hget, h⟩ := edit_bind_eq_ok.1 h
  cases hget
  exact ⟨n, r, htext, reuse_eq_ok h⟩

theorem addNameAndType_eq_ok {s t : String} {p q : Pool} {i : UInt16}
    (h : addNameAndType s t p = .ok i q) :
    ∃ n r d o, addText s p = .ok n r ∧ addText t r = .ok d o ∧
      ((o.recorded? (.nameAndType n d) = some i ∧ q = o) ∨
        (o.recorded? (.nameAndType n d) = none ∧ push (.nameAndType n d) o = .ok i q)) := by
  obtain ⟨n, r, hn, h⟩ := edit_bind_eq_ok.1 h
  obtain ⟨d, o, hd, h⟩ := edit_bind_eq_ok.1 h
  obtain ⟨_, _, hget, h⟩ := edit_bind_eq_ok.1 h
  cases hget
  exact ⟨n, r, d, o, hn, hd, reuse_eq_ok h⟩

theorem slot?_addText {kind : Constant → Bool} {s : String} {p q : Pool} {i : UInt16}
    (hp : p.Recalls kind) (hk : kind (.utf8 s) = true) (h : addText s p = .ok i q) :
    q.slot? i = some (.utf8 s) := by
  obtain ⟨hr, rfl⟩ | ⟨_, hpush⟩ := addText_eq_ok h
  · exact hp _ _ hk hr
  · exact slot?_push hpush

theorem nameAndType_addNameAndType {kind : Constant → Bool} {s t : String} {p q : Pool}
    {i : UInt16} (hp : p.Recalls kind) (hs : ∀ s, kind (.utf8 s) = true)
    (hk : ∀ n d, kind (.nameAndType n d) = true) (h : addNameAndType s t p = .ok i q) :
    q.nameAndType i = .ok (s, t) := by
  obtain ⟨n, r, d, o, hn, hd, h⟩ := addNameAndType_eq_ok h
  have hgr := (grows_addText s).of_ok hn
  have hgo := (grows_addText t).of_ok hd
  have hr := hp.grown hgr
  have ho := hr.grown hgo
  have hn := hgo.extends _ _ (slot?_addText hp (hs s) hn)
  have hd := slot?_addText hr (hs t) hd
  obtain ⟨hrec, rfl⟩ | ⟨_, hpush⟩ := h
  · exact nameAndType_eq_ok.2 ⟨n, d, ho _ _ (hk n d) hrec, hn, hd⟩
  · have hq := extends_push hpush
    exact nameAndType_eq_ok.2 ⟨n, d, slot?_push hpush, hq _ _ hn, hq _ _ hd⟩

/-! ### Additions of shared constants -/

inductive Stocked (p : Pool) : Pool → Prop where
  | refl : Stocked p p
  | push {q r : Pool} {c : Constant} {i : UInt16} : Stocked p q → c.isShared = true →
      push c q = .ok i r → Stocked p r

theorem Stocked.trans {p q r : Pool} (hq : Stocked p q) (hr : Stocked q r) : Stocked p r := by
  induction hr with
  | refl => exact hq
  | push _ hc h ih => exact .push ih hc h

theorem Stocked.grown {p q : Pool} (h : Stocked p q) : Grown p q := by
  induction h with
  | refl => exact .refl
  | push _ _ h ih => exact .push ih h

theorem Stocked.extends {p q : Pool} (h : Stocked p q) : p.Extends q := h.grown.extends

theorem stocked_of_reuse {p q : Pool} {c : Constant} {i : UInt16} (hc : c.isShared = true)
    (h : (p.recorded? c = some i ∧ q = p) ∨ (p.recorded? c = none ∧ push c p = .ok i q)) :
    Stocked p q := by
  rcases h with ⟨-, rfl⟩ | ⟨-, hpush⟩
  · exact .refl
  · exact .push .refl hc hpush

theorem stocked_addText {s : String} {p q : Pool} {i : UInt16} (h : addText s p = .ok i q) :
    Stocked p q :=
  stocked_of_reuse rfl (addText_eq_ok h)

theorem stocked_addClass {s : String} {p q : Pool} {i : UInt16} (h : addClass s p = .ok i q) :
    Stocked p q := by
  obtain ⟨n, r, hn, h⟩ := addClass_eq_ok h
  exact (stocked_addText hn).trans (stocked_of_reuse rfl h)

theorem stocked_addNameAndType {s t : String} {p q : Pool} {i : UInt16}
    (h : addNameAndType s t p = .ok i q) : Stocked p q := by
  obtain ⟨n, r, d, o, hn, hd, h⟩ := addNameAndType_eq_ok h
  exact ((stocked_addText hn).trans (stocked_addText hd)).trans (stocked_of_reuse rfl h)

/-! ### Numbered slots -/

def firstIndex (log : List (UInt16 × Constant)) (c : Constant) : Option UInt16 :=
  (log.find? (·.2 = c)).map (·.1)

theorem mem_of_firstIndex {log : List (UInt16 × Constant)} {c : Constant} {i : UInt16}
    (h : firstIndex log c = some i) : (i, c) ∈ log := by
  obtain ⟨⟨j, d⟩, hfind, rfl⟩ := Option.map_eq_some_iff.1 h
  have hd : d = c := by simpa using List.find?_some hfind
  subst hd
  exact List.mem_of_find?_eq_some hfind

theorem firstIndex_nil (c : Constant) : firstIndex [] c = none := rfl

theorem firstIndex_cons (i : UInt16) (c d : Constant) (log : List (UInt16 × Constant)) :
    firstIndex ((i, c) :: log) d = if c = d then some i else firstIndex log d := by
  unfold firstIndex
  by_cases h : c = d
  · simp [h]
  · simp [h]

theorem firstIndex_append (log more : List (UInt16 × Constant)) (c : Constant) :
    firstIndex (log ++ more) c = (firstIndex log c).or (firstIndex more c) := by
  induction log with
  | nil => rfl
  | cons w log ih =>
    obtain ⟨i, d⟩ := w
    rw [List.cons_append, firstIndex_cons, firstIndex_cons, ih]
    split <;> rfl

/-- Noting numbered constants one after the other records the first index of each. -/
theorem recorded?_foldl_note (log : List (UInt16 × Constant)) (p : Pool) {c : Constant}
    (hc : c.isShared = true) :
    (log.foldl (fun p w => p.note w.1 w.2) p).recorded? c =
      (p.recorded? c).or (firstIndex log c) := by
  induction log generalizing p with
  | nil => simp [firstIndex]
  | cons w log ih =>
    obtain ⟨i, d⟩ := w
    rw [List.foldl_cons, ih, recorded?_note, firstIndex_cons, Option.or_assoc]
    simp only [hc, and_true]
    split <;> simp

theorem slots_foldl_note (log : List (UInt16 × Constant)) (p : Pool) :
    (log.foldl (fun p w => p.note w.1 w.2) p).slots = p.slots := by
  induction log generalizing p with
  | nil => rfl
  | cons w log ih => rw [List.foldl_cons, ih, slots_note]

theorem mem_numberedFrom {n : Nat} {l : List Constant} {i : UInt16} {c : Constant} :
    (i, c) ∈ numberedFrom n l ↔ ∃ k, l[k]? = some c ∧ i = (n + k).toUInt16 := by
  induction l generalizing n with
  | nil => simp [numberedFrom]
  | cons d l ih =>
    simp only [numberedFrom, List.mem_cons, Prod.mk.injEq, ih]
    constructor
    · rintro (⟨rfl, rfl⟩ | ⟨k, hk, rfl⟩)
      · exact ⟨0, rfl, rfl⟩
      · refine ⟨k + 1, hk, ?_⟩
        rw [Nat.add_right_comm, Nat.add_assoc]
    · rintro ⟨k, hk, rfl⟩
      cases k with
      | zero =>
        cases hk
        exact .inl ⟨rfl, rfl⟩
      | succ k => exact .inr ⟨k, hk, by rw [Nat.add_right_comm, Nat.add_assoc]⟩

theorem mem_numbered {p : Pool} (hsmall : p.slots.size ≤ 65535) {i : UInt16} {c : Constant} :
    (i, c) ∈ p.numbered ↔ p.slot? i = some c := by
  rw [numbered, mem_numberedFrom, slot?_eq_some]
  constructor
  · rintro ⟨k, hk, rfl⟩
    have hlt := (List.getElem?_eq_some_iff.1 hk).1
    have hi : (1 + k).toUInt16.toNat = k + 1 := by
      rw [Nat.add_comm]
      exact toNat_index (by simp at hlt; omega)
    refine ⟨by omega, ?_⟩
    rw [hi]
    exact hk
  · rintro ⟨hpos, hk⟩
    refine ⟨i.toNat - 1, hk, ?_⟩
    have hi : 1 + (i.toNat - 1) = i.toNat := by omega
    rw [hi]
    simp

/-! ### Pools that were read -/

/-- Whether the tables record every slot, as they do in a pool that was read. -/
structure Indexed (p : Pool) : Prop where
  small : p.slots.size ≤ 65535
  recorded : ∀ c, c.isShared = true → p.recorded? c = firstIndex p.numbered c

theorem indexed_empty : Indexed {} where
  small := by simp
  recorded c hc := by cases c <;> simp [recorded?, numbered, numberedFrom, firstIndex]

theorem indexed_ofSlots {slots : Array Constant} (h : slots.size ≤ 65535) :
    Indexed (ofSlots slots) := by
  have hslots : (ofSlots slots).slots = slots := slots_foldl_note _ _
  refine ⟨by rwa [hslots], fun c hc => ?_⟩
  have hempty : Pool.recorded? { slots } c = none := by cases c <;> simp [recorded?]
  have hrec := recorded?_foldl_note (numberedFrom 1 slots.toList) { slots } hc
  rw [hempty, Option.none_or] at hrec
  rw [numbered, hslots]
  exact hrec

theorem Indexed.recalls {p : Pool} (h : p.Indexed) : p.Recalls Constant.isShared := by
  intro c i hc hi
  rw [h.recorded c hc] at hi
  exact (mem_numbered h.small).1 (mem_of_firstIndex hi)

theorem size_readSlots (n : Nat) (skip : Bool) (index : Nat) (slots : Array Constant)
    {cursor rest : Cursor} {out : Array Constant}
    (h : readSlots n skip index slots cursor = .ok (out, rest)) :
    out.size ≤ slots.size + n + if skip then 0 else 1 := by
  induction n generalizing skip index slots cursor with
  | zero =>
    cases h
    omega
  | succ n ih =>
    cases skip with
    | true =>
      have hn := ih false (index + 1) slots h
      simp only [Bool.false_eq_true, if_false, if_true] at hn ⊢
      omega
    | false =>
      obtain ⟨c, mid, _, h⟩ := state_bind_eq_ok.1 h
      have hn := ih c.isWide (index + 1) _ h
      cases hw : c.isWide with
      | true =>
        simp [filling, hw] at hn ⊢
        omega
      | false =>
        simp [filling, hw] at hn ⊢
        omega

theorem indexed_read {cursor rest : Cursor} {p : Pool} (h : read cursor = .ok (p, rest)) :
    p.Indexed := by
  obtain ⟨count, mid, _, h⟩ := state_bind_eq_ok.1 h
  obtain ⟨slots, last, hslots, h⟩ := state_bind_eq_ok.1 h
  cases h
  have hsize := size_readSlots _ _ _ _ hslots
  have hcount := count.toNat_lt
  refine indexed_ofSlots ?_
  simp at hsize
  omega

end Pool

theorem indexed_readHead {cursor rest : Cursor} {c : ClassFile}
    (h : ClassFile.readHead cursor = .ok (c, rest)) : c.pool.Indexed := by
  obtain ⟨_, _, _, h⟩ := state_bind_eq_ok.1 h
  obtain ⟨_, _, _, h⟩ := state_bind_eq_ok.1 h
  obtain ⟨_, _, _, h⟩ := state_bind_eq_ok.1 h
  obtain ⟨pool, _, hpool, h⟩ := state_bind_eq_ok.1 h
  obtain ⟨_, _, _, h⟩ := state_bind_eq_ok.1 h
  obtain ⟨_, _, _, h⟩ := state_bind_eq_ok.1 h
  obtain ⟨_, _, _, h⟩ := state_bind_eq_ok.1 h
  obtain ⟨_, _, _, h⟩ := state_bind_eq_ok.1 h
  cases h
  exact Pool.indexed_read hpool

theorem indexed_decode {data : Bytes} {c : ClassFile} (h : ClassFile.decode data = .ok c) :
    c.pool.Indexed := by
  unfold ClassFile.decode Reader.run at h
  split at h
  · next rest hread =>
    cases h
    obtain ⟨head, _, hhead, hread⟩ := state_bind_eq_ok.1 hread
    obtain ⟨_, _, _, hread⟩ := state_bind_eq_ok.1 hread
    obtain ⟨_, _, _, hread⟩ := state_bind_eq_ok.1 hread
    obtain ⟨_, _, _, hread⟩ := state_bind_eq_ok.1 hread
    cases hread
    have hpool := indexed_readHead hhead
    exact hpool
  · cases h

end ClassArchive
