import ClassArchive.Proofs.PoolHistory
import Mathlib.Data.List.Forall2

/-!
Edits that write something with indices in it. What an index means to the pool that an edit leaves,
it means to every pool that extends that one, so facts about what was written outlast the edits that
follow.
-/
set_option autoImplicit false

namespace ClassArchive.Pool

/-- A pool that was decoded or is empty, and has only been added to, answers with true indices. -/
theorem recalls_of_additions {start : Pool}
    (hstart : start = {} ∨ ∃ data c, ClassFile.decode data = .ok c ∧ start = c.pool)
    (additions : List Addition) :
    (after (additions.map .add) start).Recalls Constant.isShared := by
  -- each addition leaves another pool, so this is about all pools
  have hsparing : ∀ p, Sparing (additions.map .add) p := by
    induction additions with
    | nil => exact fun _ => trivial
    | cons addition rest ih => exact fun p => ⟨trivial, ih _⟩
  refine recalls_after _ ?_ (hsparing start)
  obtain rfl | ⟨data, c, hc, rfl⟩ := hstart
  · exact indexed_empty.recalls
  · exact (indexed_decode hc).recalls

namespace Edit

/-- From a pool whose records are true, a run that succeeds only appends, and its answer has the
property in every pool that extends the one it leaves. -/
def Ensures {α : Type} (e : Edit α) (post : Pool → α → Prop) : Prop :=
  ∀ ⦃p q : Pool⦄ ⦃a : α⦄, p.Recalls Constant.isShared → e p = .ok a q →
    Grown p q ∧ ∀ r, q.Extends r → post r a

theorem ensures_pure {α : Type} {a : α} {post : Pool → α → Prop} (h : ∀ r, post r a) :
    (pure a : Edit α).Ensures post := by
  intro p q b _ hrun
  cases hrun
  exact ⟨.refl, fun r _ => h r⟩

/-- What the first step ensures may be used for what the second one ensures: it still holds in
every pool that extends the last. -/
theorem Ensures.bind {α β : Type} {x : Edit α} {f : α → Edit β} {P : Pool → α → Prop}
    {Q : Pool → β → Prop} (hx : x.Ensures P)
    (hf : ∀ a, (f a).Ensures fun r b => P r a → Q r b) : (x >>= f).Ensures Q := by
  intro p q b hp hrun
  obtain ⟨a, mid, ha, hb⟩ := edit_bind_eq_ok.1 hrun
  obtain ⟨hmid, hP⟩ := hx hp ha
  obtain ⟨hq, hQ⟩ := hf a (hp.grown hmid) hb
  exact ⟨hmid.trans hq, fun r hr => hQ r hr (hP r (hq.extends.trans hr))⟩

theorem Ensures.map {α β : Type} {e : Edit α} {P : Pool → α → Prop} (he : e.Ensures P)
    {f : α → β} {Q : Pool → β → Prop} (h : ∀ r a, P r a → Q r (f a)) :
    (e >>= fun a => pure (f a)).Ensures Q := by
  intro p q b hp hrun
  obtain ⟨a, mid, ha, hb⟩ := edit_bind_eq_ok.1 hrun
  cases hb
  obtain ⟨hgrown, hP⟩ := he hp ha
  exact ⟨hgrown, fun r hr => h r a (hP r hr)⟩

theorem ensures_mapM {α β : Type} {f : α → Edit β} {R : α → Pool → β → Prop} (xs : List α)
    (h : ∀ x ∈ xs, (f x).Ensures (R x)) :
    (xs.mapM f).Ensures fun r ys => List.Forall₂ (fun y x => R x r y) ys xs := by
  induction xs with
  | nil => exact ensures_pure fun _ => .nil
  | cons x xs ih =>
    rw [List.mapM_cons]
    refine (h x (by simp)).bind fun y => (ih fun z hz => h z (by simp [hz])).map ?_
    intro r ys hys hy
    exact .cons hy hys

theorem ensures_addClass (name : String) :
    (addClass name).Ensures fun r i => r.className i = .ok name := by
  intro p q i hp hrun
  obtain ⟨hgrown, hfind⟩ := Content.find_add (.classInfo name) hrun
  have hname : q.className i = .ok name := Content.denotes_of_recalls (hp.grown hgrown) hfind
  exact ⟨hgrown, fun r hr => hr.className hname⟩

theorem ensures_addText (s : String) : (addText s).Ensures fun r i => r.text i = .ok s := by
  intro p q i hp hrun
  obtain ⟨hgrown, hfind⟩ := Content.find_add (.text s) hrun
  have htext : q.text i = .ok s := Content.denotes_of_recalls (hp.grown hgrown) hfind
  exact ⟨hgrown, fun r hr => hr.text htext⟩

/-! ### One edit for each element -/

/-- Where the edits of a list keep the records true, each of them starts in the pool that the ones
before it leave. -/
theorem mapM_eq_ok {α β : Type} {f : α → Edit β}
    (hf : ∀ (x : α) (p q : Pool) (y : β), p.Recalls Constant.isShared → f x p = .ok y q →
      Grown p q)
    {xs : List α} {ys : List β} {p q : Pool} (hp : p.Recalls Constant.isShared)
    (h : xs.mapM f p = .ok ys q) :
    Grown p q ∧ ys.length = xs.length ∧ ∀ (i : Nat) (x : α) (y : β), xs[i]? = some x →
      ys[i]? = some y → ∃ earlier before after, (xs.take i).mapM f p = .ok earlier before ∧
        Grown p before ∧ f x before = .ok y after ∧ Grown after q := by
  -- the rest of the list starts in the pool that its first element leaves
  induction xs generalizing p ys with
  | nil =>
    cases h
    exact ⟨.refl, rfl, by simp⟩
  | cons x xs ih =>
    rw [List.mapM_cons] at h
    obtain ⟨y, mid, hy, h⟩ := edit_bind_eq_ok.1 h
    obtain ⟨rest, last, hrest, h⟩ := edit_bind_eq_ok.1 h
    cases h
    have hmid := hf x p mid y hp hy
    obtain ⟨hgrown, hlength, hsteps⟩ := ih (hp.grown hmid) hrest
    refine ⟨hmid.trans hgrown, by simp [hlength], ?_⟩
    intro i x' y' hx' hy'
    cases i with
    | zero =>
      cases hx'
      cases hy'
      exact ⟨[], p, mid, rfl, .refl, hy, hgrown⟩
    | succ i =>
      obtain ⟨earlier, before, after, htake, hbefore, hstep, hafter⟩ := hsteps i x' y' hx' hy'
      refine ⟨y :: earlier, before, after, ?_, hmid.trans hbefore, hstep, hafter⟩
      rw [List.take_succ_cons, List.mapM_cons]
      exact edit_bind_eq_ok.2 ⟨y, mid, hy, edit_bind_eq_ok.2 ⟨earlier, before, htake, rfl⟩⟩

end Edit

end ClassArchive.Pool
