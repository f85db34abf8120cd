import ClassArchive.Proofs.RepeatedEdits

/-!
Pools to which only texts are added. A text is appended at most once: when it is there it stays the
only one of the new slots, so what an index names by it does not change any more. An addition of
several texts succeeds exactly if there are as many free slots as texts that the pool lacks.
-/
set_option autoImplicit false

namespace ClassArchive.Pool

/-! ### What an addition appends -/

/-- The pools that come from a pool by additions of texts. -/
inductive Worded (p : Pool) : Pool → Prop where
  | refl : Worded p p
  | add {q r : Pool} {s : String} {i : UInt16} : Worded p q → addText s q = .ok i r → Worded p r

theorem Worded.trans {p q r : Pool} (hq : Worded p q) (hr : Worded q r) : Worded p r := by
  induction hr with
  | refl => exact hq
  | add _ h ih => exact .add ih h

theorem Worded.stocked {p q : Pool} (h : Worded p q) : Stocked p q := by
  induction h with
  | refl => exact .refl
  | add _ h ih => exact ih.trans (stocked_addText h)

theorem Worded.grown {p q : Pool} (h : Worded p q) : Grown p q := h.stocked.grown

theorem worded_mapM {α β : Type} {f : α → Edit β}
    (hf : ∀ x p q y, f x p = .ok y q → Worded p q) {xs : List α} {ys : List β} {p q : Pool}
    (h : xs.mapM f p = .ok ys q) : Worded p q := by
  induction xs generalizing p ys with
  | nil =>
    cases h
    exact .refl
  | cons x xs ih =>
    rw [List.mapM_cons] at h
    obtain ⟨y, mid, hy, h⟩ := edit_bind_eq_ok.1 h
    obtain ⟨rest, last, hrest, h⟩ := edit_bind_eq_ok.1 h
    cases h
    exact (hf x _ _ _ hy).trans (ih hrest)

theorem slots_push_text {p q : Pool} {s : String} {i : UInt16} (h : push (.utf8 s) p = .ok i q) :
    q.slots.toList = p.slots.toList ++ [.utf8 s] :=
  slots_push h

theorem slot?_of_addText {p q : Pool} {s t : String} {i j : UInt16} (h : addText t p = .ok i q)
    (hs : p.recorded? (.utf8 s) ≠ none) (hj : q.slot? j = some (.utf8 s)) :
    p.slot? j = some (.utf8 s) := by
  obtain ⟨-, rfl⟩ | ⟨hnone, hpush⟩ := addText_eq_ok h
  · exact hj
  · obtain ⟨hpos, hget⟩ := slot?_eq_some.1 hj
    rw [slots_push_text hpush] at hget
    refine slot?_eq_some.2 ⟨hpos, ?_⟩
    rcases Nat.lt_or_ge (j.toNat - 1) p.slots.toList.length with hlt | hge
    · rwa [List.getElem?_append_left hlt] at hget
    · -- the new slot holds the text that was missing
      rw [List.getElem?_append_right hge, List.getElem?_singleton] at hget
      split at hget
      · cases hget
        exact absurd hnone hs
      · cases hget

theorem Worded.slot?_of_recorded {p q : Pool} (h : Worded p q) {s : String}
    (hs : p.recorded? (.utf8 s) ≠ none) {j : UInt16} (hj : q.slot? j = some (.utf8 s)) :
    p.slot? j = some (.utf8 s) := by
  induction h with
  | refl => exact hj
  | @add q r t i hworded hadd ih =>
    obtain ⟨k, hk⟩ := Option.ne_none_iff_exists'.1 hs
    refine ih (slot?_of_addText hadd ?_ hj)
    rw [recorded?_grown hworded.grown hk]
    exact Option.some_ne_none k

theorem isText_iff {p : Pool} {i : UInt16} {s : String} :
    p.isText i s = true ↔ p.text i = .ok s := by
  rw [isText]
  cases p.text i <;> simp

theorem Worded.isText_eq {p q : Pool} (h : Worded p q) {s : String}
    (hs : p.recorded? (.utf8 s) ≠ none) (j : UInt16) : q.isText j s = p.isText j s := by
  rw [Bool.eq_iff_iff, isText_iff, isText_iff, text_eq_ok, text_eq_ok]
  exact ⟨h.slot?_of_recorded hs, h.grown.extends j _⟩

/-! ### Room for texts -/

/-- Whether the tables record exactly the texts that some slot holds. -/
def Catalogued (p : Pool) : Prop :=
  ∀ s, .utf8 s ∈ p.slots.toList ↔ p.recorded? (.utf8 s) ≠ none

theorem Indexed.catalogued {p : Pool} (h : p.Indexed) : p.Catalogued := by
  intro s
  rw [h.recorded _ rfl, firstIndex, Ne, Option.map_eq_none_iff, List.find?_eq_none]
  simp only [decide_eq_true_eq, not_forall, Decidable.not_not]
  constructor
  · intro hmem
    obtain ⟨k, hk⟩ := List.getElem?_of_mem hmem
    exact ⟨_, mem_numberedFrom.2 ⟨k, hk, rfl⟩, rfl⟩
  · rintro ⟨⟨i, c⟩, hmem, rfl⟩
    obtain ⟨k, hk, -⟩ := mem_numberedFrom.1 hmem
    exact List.mem_of_getElem? hk

theorem Catalogued.push {p q : Pool} {s : String} {i : UInt16} (hp : p.Catalogued)
    (h : push (.utf8 s) p = .ok i q) : q.Catalogued := by
  intro t
  rw [slots_push_text h, List.mem_append, hp t, recorded?_push h]
  by_cases hts : t = s
  · subst hts
    cases p.recorded? (.utf8 t) <;> simp [Constant.isShared]
  · have hst : ¬ s = t := fun heq => hts heq.symm
    simp [hts, hst]

theorem Catalogued.addText {p q : Pool} {s : String} {i : UInt16} (hp : p.Catalogued)
    (h : addText s p = .ok i q) : q.Catalogued := by
  obtain ⟨-, rfl⟩ | ⟨-, hpush⟩ := addText_eq_ok h
  · exact hp
  · exact hp.push hpush

theorem Catalogued.worded {p q : Pool} (hp : p.Catalogued) (h : Worded p q) : q.Catalogued := by
  induction h with
  | refl => exact hp
  | add _ hadd ih => exact ih.addText hadd

def missing (p : Pool) (texts : List String) : List String :=
  (texts.filter fun t => .utf8 t ∉ p.slots.toList).eraseDups

def free (p : Pool) : Nat := capacity - p.slots.size

def HasRoom (p : Pool) (texts : List String) : Prop := (p.missing texts).length ≤ p.free

instance (p : Pool) (texts : List String) : Decidable (p.HasRoom texts) :=
  inferInstanceAs (Decidable (_ ≤ _))

theorem hasRoom_nil (p : Pool) : p.HasRoom [] := Nat.zero_le _

theorem missing_cons_of_mem {p : Pool} {t : String} (h : .utf8 t ∈ p.slots.toList)
    (texts : List String) : p.missing (t :: texts) = p.missing texts := by
  rw [missing, List.filter_cons_of_neg (by simpa using h), missing]

theorem missing_cons_of_push {p q : Pool} {t : String} {i : UInt16}
    (h : .utf8 t ∉ p.slots.toList) (hpush : push (.utf8 t) p = .ok i q) (texts : List String) :
    p.missing (t :: texts) = t :: q.missing texts := by
  have hfilter : (texts.filter fun s => decide (.utf8 s ∉ p.slots.toList)).filter
      (fun s => !s == t) = texts.filter fun s => .utf8 s ∉ q.slots.toList := by
    rw [List.filter_filter, slots_push_text hpush]
    refine List.filter_congr fun s _ => ?_
    by_cases hst : s = t <;> simp [hst]
  rw [missing, List.filter_cons_of_pos (by simpa using h), List.eraseDups_cons, hfilter, missing]

theorem addText_of_missing {p : Pool} {t : String} (h : p.recorded? (.utf8 t) = none) :
    addText t p = push (.utf8 t) p := by
  change reuse p.texts[t]? (.utf8 t) p = _
  rw [show p.texts[t]? = none from h]
  rfl

theorem free_of_push {p q : Pool} {t : String} {i : UInt16} (h : push (.utf8 t) p = .ok i q) :
    p.free = q.free + 1 := by
  have hsize := congrArg List.length (slots_push_text h)
  have hroom : p.slots.size + 1 ≤ capacity := (push_eq_ok h).1
  simp only [Array.length_toList, List.length_append, List.length_singleton] at hsize
  simp only [free]
  omega

theorem free_of_push_error {p q : Pool} {t : String} {e : FormatError}
    (h : push (.utf8 t) p = .error e q) : p.free = 0 := by
  unfold push at h
  split at h
  · next hfull =>
    have hfull : capacity < p.slots.size + 1 := hfull
    simp only [free]
    omega
  · cases h

theorem hasRoom_cons {p : Pool} (hp : p.Catalogued) (t : String) (texts : List String) :
    p.HasRoom (t :: texts) ↔ ∃ i q, addText t p = .ok i q ∧ q.HasRoom texts := by
  by_cases hmem : .utf8 t ∈ p.slots.toList
  · obtain ⟨i, hi⟩ := Option.ne_none_iff_exists'.1 ((hp t).1 hmem)
    rw [HasRoom, missing_cons_of_mem hmem, Edit.addText_of_recorded hi]
    constructor
    · exact fun hroom => ⟨i, p, rfl, hroom⟩
    · rintro ⟨_, _, heq, hroom⟩
      cases heq
      exact hroom
  · have hnone : p.recorded? (.utf8 t) = none := by
      by_contra hsome
      exact hmem ((hp t).2 hsome)
    rw [addText_of_missing hnone]
    cases hpush : push (.utf8 t) p with
    | ok i q =>
      rw [HasRoom, missing_cons_of_push hmem hpush, List.length_cons, free_of_push hpush,
        Nat.add_le_add_iff_right]
      constructor
      · exact fun hroom => ⟨i, q, rfl, hroom⟩
      · rintro ⟨_, _, heq, hroom⟩
        cases heq
        exact hroom
    | error e q =>
      have hlacks : 0 < (p.missing (t :: texts)).length := by
        rw [missing, List.filter_cons_of_pos (by simpa using hmem), List.eraseDups_cons]
        simp
      rw [HasRoom, free_of_push_error hpush]
      constructor
      · intro hroom
        omega
      · rintro ⟨_, _, heq, -⟩
        cases heq

/-- Edits that add one text each succeed, and leave room for others, exactly if there is room for
them all. -/
theorem hasRoom_mapM {α β : Type} {f : α → Edit β} {text : α → String}
    (hf : ∀ x p q, (∃ y, f x p = .ok y q) ↔ ∃ i, addText (text x) p = .ok i q) (xs : List α)
    (texts : List String) {p : Pool} (hp : p.Catalogued) :
    p.HasRoom (xs.map text ++ texts) ↔ ∃ ys q, xs.mapM f p = .ok ys q ∧ q.HasRoom texts := by
  induction xs generalizing p with
  | nil =>
    constructor
    · exact fun hroom => ⟨[], p, rfl, hroom⟩
    · rintro ⟨ys, q, h, hroom⟩
      cases h
      exact hroom
  | cons x xs ih =>
    rw [List.map_cons, List.cons_append, hasRoom_cons hp, List.mapM_cons]
    constructor
    · rintro ⟨i, mid, hadd, hroom⟩
      obtain ⟨ys, q, hrest, hroom⟩ := (ih (hp.addText hadd)).1 hroom
      obtain ⟨y, hy⟩ := (hf x p mid).2 ⟨i, hadd⟩
      refine ⟨y :: ys, q, edit_bind_eq_ok.2 ⟨y, mid, hy, ?_⟩, hroom⟩
      exact edit_bind_eq_ok.2 ⟨ys, q, hrest, rfl⟩
    · rintro ⟨ys, q, h, hroom⟩
      obtain ⟨y, mid, hy, h⟩ := edit_bind_eq_ok.1 h
      obtain ⟨rest, last, hrest, h⟩ := edit_bind_eq_ok.1 h
      cases h
      obtain ⟨i, hadd⟩ := (hf x p mid).1 ⟨y, hy⟩
      exact ⟨i, mid, hadd, (ih (hp.addText hadd)).2 ⟨rest, _, hrest, hroom⟩⟩

end ClassArchive.Pool
