import ClassArchive.Proofs.Outcome

/-!
What an edit can do to a pool. Every edit but `replace` appends constants, one `push` after the
other, whether it succeeds or breaks off; so a fact about pools that a `push` preserves is preserved
by all of them.
-/
set_option autoImplicit false

namespace ClassArchive.Pool

/-! ### What a slot denotes -/

theorem entry_eq_ok {pool : Pool} {i : UInt16} {c : Constant} :
    pool.entry i = .ok c ↔ pool.slot? i = some c ∧ c ≠ .unusable := by
  unfold entry
  split
  · next h => simp [h]
  · next h =>
    simp only [h, Option.some.injEq, reduceCtorEq, false_iff]
    rintro ⟨rfl, hc⟩
    exact hc rfl
  · next x hne h =>
    simp only [h, Except.ok.injEq, Option.some.injEq]
    constructor
    · rintro rfl
      exact ⟨rfl, fun hx => hne hx⟩
    · exact fun hx => hx.1

theorem text_eq_ok {pool : Pool} {i : UInt16} {s : String} :
    pool.text i = .ok s ↔ pool.slot? i = some (.utf8 s) := by
  rw [text, bind_eq_ok]
  constructor
  · rintro ⟨c, hc, h⟩
    cases c with
    | utf8 t =>
      cases h
      exact (entry_eq_ok.1 hc).1
    | _ => simp at h
  · intro h
    exact ⟨_, entry_eq_ok.2 ⟨h, by simp⟩, rfl⟩

theorem className_eq_ok {pool : Pool} {i : UInt16} {s : String} :
    pool.className i = .ok s ↔
      ∃ k, pool.slot? i = some (.classInfo k) ∧ pool.slot? k = some (.utf8 s) := by
  rw [className, bind_eq_ok]
  constructor
  · rintro ⟨c, hc, h⟩
    cases c with
    | classInfo k => exact ⟨k, (entry_eq_ok.1 hc).1, text_eq_ok.1 h⟩
    | _ => simp at h
  · rintro ⟨k, hk, hs⟩
    exact ⟨_, entry_eq_ok.2 ⟨hk, by simp⟩, text_eq_ok.2 hs⟩

theorem nameAndType_eq_ok {pool : Pool} {i : UInt16} {s t : String} :
    pool.nameAndType i = .ok (s, t) ↔
      ∃ n d, pool.slot? i = some (.nameAndType n d) ∧
        pool.slot? n = some (.utf8 s) ∧ pool.slot? d = some (.utf8 t) := by
  rw [nameAndType, bind_eq_ok]
  constructor
  · rintro ⟨c, hc, h⟩
    cases c with
    | nameAndType n d =>
      obtain ⟨a, ha, h⟩ := bind_eq_ok.1 h
      obtain ⟨b, hb, h⟩ := bind_eq_ok.1 h
      cases h
      exact ⟨n, d, (entry_eq_ok.1 hc).1, text_eq_ok.1 ha, text_eq_ok.1 hb⟩
    | _ => simp at h
  · rintro ⟨n, d, hp, hn, hd⟩
    refine ⟨_, entry_eq_ok.2 ⟨hp, by simp⟩, ?_⟩
    simp only [bind_eq_ok]
    exact ⟨s, text_eq_ok.2 hn, t, text_eq_ok.2 hd, rfl⟩

def reference? : Constant → Option (UInt16 × UInt16)
  | .fieldRef owner pair | .methodRef owner pair | .interfaceMethodRef owner pair =>
      some (owner, pair)
  | _ => none

theorem memberOf_eq_ok {pool : Pool} {owner pair : UInt16} {m : MemberName} :
    pool.memberOf owner pair = .ok m ↔
      pool.className owner = .ok m.owner ∧ pool.nameAndType pair = .ok (m.name, m.descriptor) := by
  rw [memberOf, bind_eq_ok]
  constructor
  · rintro ⟨o, ho, h⟩
    obtain ⟨⟨n, d⟩, hp, h⟩ := bind_eq_ok.1 h
    cases h
    exact ⟨ho, hp⟩
  · rintro ⟨ho, hp⟩
    exact ⟨m.owner, ho, bind_eq_ok.2 ⟨_, hp, rfl⟩⟩

theorem member_eq_ok {pool : Pool} {i : UInt16} {m : MemberName} :
    pool.member i = .ok m ↔
      ∃ c owner pair, pool.slot? i = some c ∧ reference? c = some (owner, pair) ∧
        pool.className owner = .ok m.owner ∧
        pool.nameAndType pair = .ok (m.name, m.descriptor) := by
  rw [member, bind_eq_ok]
  constructor
  · rintro ⟨c, hc, h⟩
    cases c with
    | fieldRef o p | methodRef o p | interfaceMethodRef o p =>
      exact ⟨_, o, p, (entry_eq_ok.1 hc).1, rfl, memberOf_eq_ok.1 h⟩
    | _ => simp at h
  · rintro ⟨c, o, p, hc, hr, hm⟩
    refine ⟨c, entry_eq_ok.2 ⟨hc, by rintro rfl; simp [reference?] at hr⟩, ?_⟩
    cases c with
    | fieldRef o' p' | methodRef o' p' | interfaceMethodRef o' p' =>
      cases hr
      exact memberOf_eq_ok.2 hm
    | _ => simp [reference?] at hr

/-! ### Slots -/

def Extends (p q : Pool) : Prop := ∀ i c, p.slot? i = some c → q.slot? i = some c

namespace Extends

theorem refl (p : Pool) : p.Extends p := fun _ _ h => h

theorem trans {p q r : Pool} (hq : p.Extends q) (hr : q.Extends r) : p.Extends r :=
  fun i c h => hr i c (hq i c h)

variable {p q : Pool} (h : p.Extends q) {i : UInt16}
include h

theorem entry {c : Constant} (hc : p.entry i = .ok c) : q.entry i = .ok c := by
  obtain ⟨hslot, hne⟩ := entry_eq_ok.1 hc
  exact entry_eq_ok.2 ⟨h _ _ hslot, hne⟩

theorem text {s : String} (hs : p.text i = .ok s) : q.text i = .ok s :=
  text_eq_ok.2 (h _ _ (text_eq_ok.1 hs))

theorem className {s : String} (hs : p.className i = .ok s) : q.className i = .ok s := by
  obtain ⟨k, hi, hk⟩ := className_eq_ok.1 hs
  exact className_eq_ok.2 ⟨k, h _ _ hi, h _ _ hk⟩

theorem nameAndType {s t : String} (hs : p.nameAndType i = .ok (s, t)) :
    q.nameAndType i = .ok (s, t) := by
  obtain ⟨n, d, hi, hn, hd⟩ := nameAndType_eq_ok.1 hs
  exact nameAndType_eq_ok.2 ⟨n, d, h _ _ hi, h _ _ hn, h _ _ hd⟩

theorem member {m : MemberName} (hm : p.member i = .ok m) : q.member i = .ok m := by
  obtain ⟨c, o, pair, hi, href, howner, hpair⟩ := member_eq_ok.1 hm
  exact member_eq_ok.2 ⟨c, o, pair, h _ _ hi, href, className h howner, nameAndType h hpair⟩

end Extends

theorem slot?_eq_some {pool : Pool} {i : UInt16} {c : Constant} :
    pool.slot? i = some c ↔ 0 < i.toNat ∧ pool.slots.toList[i.toNat - 1]? = some c := by
  unfold slot?
  by_cases h : i = 0
  · simp [h]
  · have hn : i.toNat ≠ 0 := fun he => h (UInt16.toNat_inj.1 he)
    have hp : 0 < i.toNat := by omega
    simp [h, hp]

@[simp] theorem slots_note (p : Pool) (i : UInt16) (c : Constant) :
    (p.note i c).slots = p.slots := by
  cases c <;> rfl

@[simp] theorem slot?_note (p : Pool) (i j : UInt16) (c : Constant) :
    (p.note i c).slot? j = p.slot? j := by
  simp [slot?]

theorem toNat_index {n : Nat} (h : n < 65535) : ((n + 1).toUInt16).toNat = n + 1 := by
  rw [Nat.toUInt16_eq, UInt16.toNat_ofNat']
  omega

/-! ### Appending a constant -/

theorem one_le_width (c : Constant) : 1 ≤ c.width := by
  unfold Constant.width
  split <;> omega

theorem push_eq_ok {p q : Pool} {c : Constant} {i : UInt16} (h : push c p = .ok i q) :
    p.slots.size + c.width ≤ capacity ∧ i.toNat = p.slots.size + 1 ∧
      q = { p with slots := p.slots ++ filling c }.note i c := by
  unfold push at h
  split at h
  · contradiction
  · next hc =>
    cases h
    have hw := one_le_width c
    have hn : p.slots.size < 65535 := by simp only [capacity] at hc; omega
    exact ⟨Nat.le_of_not_lt hc, toNat_index hn, rfl⟩

theorem slots_push {p q : Pool} {c : Constant} {i : UInt16} (h : push c p = .ok i q) :
    q.slots.toList = p.slots.toList ++ filling c := by
  obtain ⟨_, _, rfl⟩ := push_eq_ok h
  simp

theorem extends_push {p q : Pool} {c : Constant} {i : UInt16} (h : push c p = .ok i q) :
    p.Extends q := by
  intro j d hj
  obtain ⟨hpos, hj⟩ := slot?_eq_some.1 hj
  have hlt := (List.getElem?_eq_some_iff.1 hj).1
  refine slot?_eq_some.2 ⟨hpos, ?_⟩
  rw [slots_push h, List.getElem?_append_left hlt, hj]

theorem slot?_push {p q : Pool} {c : Constant} {i : UInt16} (h : push c p = .ok i q) :
    q.slot? i = some c := by
  obtain ⟨_, hi, _⟩ := push_eq_ok h
  refine slot?_eq_some.2 ⟨by omega, ?_⟩
  rw [slots_push h, hi]
  unfold filling
  split <;> simp

/-! ### Appending step by step -/

inductive Grown (p : Pool) : Pool → Prop where
  | refl : Grown p p
  | push {q r : Pool} {c : Constant} {i : UInt16} : Grown p q → push c q = .ok i r → Grown p r

theorem Grown.trans {p q r : Pool} (hq : Grown p q) (hr : Grown q r) : Grown p r := by
  induction hr with
  | refl => exact hq
  | push _ h ih => exact .push ih h

theorem Grown.extends {p q : Pool} (h : Grown p q) : p.Extends q := by
  induction h with
  | refl => exact fun _ _ hi => hi
  | push _ h ih => exact fun i c hi => extends_push h i c (ih i c hi)

theorem Grown.isPrefix_slots {p q : Pool} (h : Grown p q) :
    p.slots.toList <+: q.slots.toList := by
  induction h with
  | refl => exact List.prefix_refl _
  | push _ hpush ih =>
    rw [slots_push hpush]
    exact ih.trans (List.prefix_append _ _)

/-- The pool that an edit leaves, also where it breaks off. -/
def Edit.final {α : Type} (e : Edit α) (p : Pool) : Pool :=
  match e p with
  | .ok _ q | .error _ q => q

theorem Edit.final_of_ok {α : Type} {e : Edit α} {p q : Pool} {a : α} (h : e p = .ok a q) :
    e.final p = q := by
  simp [final, h]

def Edit.Grows {α : Type} (e : Edit α) : Prop := ∀ p, Grown p (e.final p)

theorem Edit.Grows.of_ok {α : Type} {e : Edit α} (he : e.Grows) {p q : Pool} {a : α}
    (h : e p = .ok a q) : Grown p q := by
  have hg := he p
  rwa [final_of_ok h] at hg

theorem grows_pure {α : Type} (a : α) : (pure a : Edit α).Grows := fun _ => .refl

theorem grows_get : (get : Edit Pool).Grows := fun _ => .refl

theorem grows_bind {α β : Type} {x : Edit α} {f : α → Edit β} (hx : x.Grows)
    (hf : ∀ a, (f a).Grows) : (x >>= f).Grows := by
  intro p
  change Grown p (Edit.final (EStateM.bind x f) p)
  have hp := hx p
  unfold Edit.final EStateM.bind at *
  cases h : x p with
  | error e q => simpa [h] using hp
  | ok a q =>
    have hq := hf a q
    simp only [h] at hp ⊢
    exact hp.trans hq

theorem grows_push (c : Constant) : (push c).Grows := by
  intro p
  cases h : push c p with
  | ok i q =>
    rw [Edit.final_of_ok h]
    exact .push .refl h
  | error e q =>
    have hq : q = p := by
      unfold push at h
      split at h
      · cases h
        rfl
      · cases h
    simp only [Edit.final, h, hq]
    exact .refl

theorem grows_reuse (found : Option UInt16) (c : Constant) : (reuse found c).Grows := by
  cases found with
  | none => exact grows_push c
  | some i => exact grows_pure i

theorem grows_addText (s : String) : (addText s).Grows :=
  grows_bind grows_get fun _ => grows_reuse _ _

theorem grows_addClass (s : String) : (addClass s).Grows :=
  grows_bind (grows_addText s) fun _ => grows_bind grows_get fun _ => grows_reuse _ _

theorem grows_addNameAndType (s t : String) : (addNameAndType s t).Grows :=
  grows_bind (grows_addText s) fun _ => grows_bind (grows_addText t) fun _ =>
    grows_bind grows_get fun _ => grows_reuse _ _

theorem grows_addMember (reference : UInt16 → UInt16 → Constant) (o s t : String) :
    (addMember reference o s t).Grows :=
  grows_bind (grows_addClass o) fun _ => grows_bind (grows_addNameAndType s t) fun _ =>
    grows_push _

end ClassArchive.Pool
