import ClassArchive.Proofs.RenamingGrowth
import Mathlib.Data.List.Nodup

/-!
The pool of a renamed class. The entries are repointed one by one while texts and pairs are shared,
looked up and appended; that no text and no pair is ever replaced carries every fact about an entry
from the step that repoints it to the end.
-/
set_option autoImplicit false

namespace ClassArchive

/-- Whether a constant is a text or a pair of texts, which a renaming never replaces. -/
def Constant.isName : Constant → Bool
  | .utf8 _ | .nameAndType _ _ => true
  | _ => false

namespace Pool

def KeepsNames (p q : Pool) : Prop :=
  ∀ i c, c.isName = true → p.slot? i = some c → q.slot? i = some c

theorem Extends.keepsNames {p q : Pool} (h : p.Extends q) : p.KeepsNames q :=
  fun i c _ hc => h i c hc

theorem KeepsNames.trans {p q r : Pool} (hq : p.KeepsNames q) (hr : q.KeepsNames r) :
    p.KeepsNames r :=
  fun i c hc hi => hr i c hc (hq i c hc hi)

theorem KeepsNames.text {p q : Pool} (h : p.KeepsNames q) {i : UInt16} {s : String}
    (hs : p.text i = .ok s) : q.text i = .ok s :=
  text_eq_ok.2 (h _ _ rfl (text_eq_ok.1 hs))

theorem KeepsNames.nameAndType {p q : Pool} (h : p.KeepsNames q) {i : UInt16} {s t : String}
    (hs : p.nameAndType i = .ok (s, t)) : q.nameAndType i = .ok (s, t) := by
  obtain ⟨n, d, hi, hn, hd⟩ := nameAndType_eq_ok.1 hs
  exact nameAndType_eq_ok.2 ⟨n, d, h _ _ rfl hi, h _ _ rfl hn, h _ _ rfl hd⟩

/-! ### Distinct indices -/

theorem map_fst_numberedFrom (n : Nat) (l : List Constant) :
    (numberedFrom n l).map (·.1) = (List.range' n l.length).map Nat.toUInt16 := by
  induction l generalizing n with
  | nil => rfl
  | cons c l ih => simp [numberedFrom, List.range'_succ, ih]

theorem nodup_numbered {p : Pool} (hsmall : p.slots.size ≤ 65535) :
    (p.numbered.map (·.1)).Nodup := by
  rw [numbered, map_fst_numberedFrom]
  refine List.Nodup.map_on ?_ List.nodup_range'
  intro a ha b hb hab
  simp only [List.mem_range'_1, Array.length_toList] at ha hb
  have hn := congrArg UInt16.toNat hab
  simp only [Nat.toUInt16_eq, UInt16.toNat_ofNat'] at hn
  omega

theorem nodup_entries {p : Pool} (hsmall : p.slots.size ≤ 65535) :
    (p.entries.map (·.1)).Nodup :=
  (nodup_numbered hsmall).sublist (List.filter_sublist.map _)

theorem mem_entries {p : Pool} (hsmall : p.slots.size ≤ 65535) {i : UInt16} {c : Constant} :
    (i, c) ∈ p.entries ↔ p.slot? i = some c ∧ c ≠ .unusable := by
  simp [entries, mem_numbered hsmall]

end Pool

namespace ClassRenamer

variable (r : ClassRenamer)

/-- A pool in the middle of a renaming: its records of texts and pairs are true, and those of the
class as it was are in their places. -/
structure Live (p : Pool) : Prop where
  recalls : p.Recalls Constant.isName
  keeps : r.snapshot.KeepsNames p

variable {r}

theorem Live.grown {p q : Pool} (hp : r.Live p) (h : Pool.Stocked p q) : r.Live q :=
  ⟨hp.recalls.grown h.grown, hp.keeps.trans h.extends.keepsNames⟩

/-! ### One text, one pair -/

theorem text_replaceText {i j : UInt16} {s : String} {p q : Pool} (hp : r.Live p)
    (h : r.replaceText i s p = .ok (j, q)) : Pool.Stocked p q ∧ q.text j = .ok s := by
  refine ⟨(r.yields_replaceText i s p j q h).1, ?_⟩
  obtain ⟨t, mid, hread, h⟩ := state_bind_eq_ok.1 h
  obtain ⟨hmid, ht⟩ := Renaming.yields_read _ _ _ _ hread
  split at h
  · next heq =>
    cases h
    exact (hp.grown hmid).keeps.text (heq ▸ ht)
  · exact Pool.text_eq_ok.2
      (Pool.slot?_addText (hp.grown hmid).recalls rfl (Renaming.edit_eq_ok.1 h))

theorem text_renameText {f : String → Except ArchiveError String} {i j : UInt16} {p q : Pool}
    (hp : r.Live p) (h : r.renameText f i p = .ok (j, q)) :
    Pool.Stocked p q ∧
      ∃ s t, r.snapshot.text i = .ok s ∧ f s = .ok t ∧ q.text j = .ok t := by
  obtain ⟨s, p₁, hread, h⟩ := state_bind_eq_ok.1 h
  obtain ⟨hg₁, hs⟩ := Renaming.yields_read _ _ _ _ hread
  obtain ⟨t, p₂, hrename, h⟩ := state_bind_eq_ok.1 h
  obtain ⟨hg₂, ht⟩ := Renaming.yields_rename _ _ _ _ hrename
  have hg := hg₁.trans hg₂
  obtain ⟨hg₃, htext⟩ := text_replaceText (hp.grown hg) h
  exact ⟨hg.trans hg₃, s, t, hs, ht, htext⟩

theorem nameAndType_replacePair {i j : UInt16} {s t : String} {p q : Pool} (hp : r.Live p)
    (h : r.replacePair i s t p = .ok (j, q)) :
    Pool.Stocked p q ∧ q.nameAndType j = .ok (s, t) := by
  refine ⟨(r.yields_replacePair i s t p j q h).1, ?_⟩
  obtain ⟨pair, mid, hread, h⟩ := state_bind_eq_ok.1 h
  obtain ⟨hmid, hpair⟩ := Renaming.yields_read _ _ _ _ hread
  split at h
  · next heq =>
    cases h
    exact (hp.grown hmid).keeps.nameAndType (heq ▸ hpair)
  · exact Pool.nameAndType_addNameAndType (hp.grown hmid).recalls (fun _ => rfl)
      (fun _ _ => rfl) (Renaming.edit_eq_ok.1 h)

/-- The last steps that all kinds of pairs share: two new names and the pair of them. -/
theorem nameAndType_renamePair {e e' : Except ArchiveError String} {i j : UInt16} {p q : Pool}
    (hp : r.Live p)
    (h : (do
      let s ← rename e
      let t ← rename e'
      r.replacePair i s t : Renaming UInt16) p = .ok (j, q)) :
    Pool.Stocked p q ∧ ∃ s t, e = .ok s ∧ e' = .ok t ∧ q.nameAndType j = .ok (s, t) := by
  obtain ⟨s, p₁, hs, h⟩ := state_bind_eq_ok.1 h
  obtain ⟨hg₁, hs⟩ := Renaming.yields_rename _ _ _ _ hs
  obtain ⟨t, p₂, ht, h⟩ := state_bind_eq_ok.1 h
  obtain ⟨hg₂, ht⟩ := Renaming.yields_rename _ _ _ _ ht
  have hg := hg₁.trans hg₂
  obtain ⟨hg₃, hpair⟩ := nameAndType_replacePair (hp.grown hg) h
  exact ⟨hg.trans hg₃, s, t, hs, ht, hpair⟩

/-! ### One constant -/

variable (r) in
/-- What the constant in a slot becomes. The new texts and pairs are those of the given pool. -/
def Rewrites (pool : Pool) (i : UInt16) : Constant → Constant → Prop
  | .classInfo n, c' => ∃ n' s t, c' = .classInfo n' ∧ r.snapshot.text n = .ok s ∧
      r.names.typeName s = .ok t ∧ pool.text n' = .ok t
  | .fieldRef o _, c' => ∃ pair m s t, c' = .fieldRef o pair ∧ r.snapshot.member i = .ok m ∧
      r.names.fieldName m.owner m.name = .ok s ∧ r.names.descriptor m.descriptor = .ok t ∧
      pool.nameAndType pair = .ok (s, t)
  | .methodRef o _, c' => ∃ pair m s t, c' = .methodRef o pair ∧ r.snapshot.member i = .ok m ∧
      r.names.methodName m.owner m.name m.descriptor = .ok s ∧
      r.names.methodDescriptor m.descriptor = .ok t ∧ pool.nameAndType pair = .ok (s, t)
  | .interfaceMethodRef o _, c' => ∃ pair m s t, c' = .interfaceMethodRef o pair ∧
      r.snapshot.member i = .ok m ∧ r.names.methodName m.owner m.name m.descriptor = .ok s ∧
      r.names.methodDescriptor m.descriptor = .ok t ∧ pool.nameAndType pair = .ok (s, t)
  | .methodType d, c' => ∃ d' s t, c' = .methodType d' ∧ r.snapshot.text d = .ok s ∧
      r.names.methodDescriptor s = .ok t ∧ pool.text d' = .ok t
  | .invokeDynamic b n, c' => ∃ pair name d lambda s t, c' = .invokeDynamic b pair ∧
      r.snapshot.nameAndType n = .ok (name, d) ∧ r.lambdaAt? b d = .ok lambda ∧
      r.callSiteName name lambda = .ok s ∧ r.names.methodDescriptor d = .ok t ∧
      pool.nameAndType pair = .ok (s, t)
  | .dynamic b n, c' => ∃ pair name d t, c' = .dynamic b pair ∧
      r.snapshot.nameAndType n = .ok (name, d) ∧ r.names.descriptor d = .ok t ∧
      pool.nameAndType pair = .ok (name, t)
  | c, c' => c' = c

theorem Rewrites.of_isName {pool : Pool} {i : UInt16} {c c' : Constant}
    (h : r.Rewrites pool i c c') (hc : c.isName = true) : c' = c := by
  cases c with
  | utf8 s | nameAndType n d => exact h
  | _ => simp [Constant.isName] at hc

theorem Rewrites.mono {p q : Pool} (hpq : p.KeepsNames q) {i : UInt16} {c c' : Constant}
    (h : r.Rewrites p i c c') : r.Rewrites q i c c' := by
  cases c with
  | classInfo n | methodType n =>
    obtain ⟨n', s, t, hc, hs, ht, hn⟩ := h
    exact ⟨n', s, t, hc, hs, ht, hpq.text hn⟩
  | fieldRef o n | methodRef o n | interfaceMethodRef o n =>
    obtain ⟨pair, m, s, t, hc, hm, hs, ht, hp⟩ := h
    exact ⟨pair, m, s, t, hc, hm, hs, ht, hpq.nameAndType hp⟩
  | invokeDynamic b n =>
    obtain ⟨pair, name, d, lambda, s, t, hc, hn, hl, hs, ht, hp⟩ := h
    exact ⟨pair, name, d, lambda, s, t, hc, hn, hl, hs, ht, hpq.nameAndType hp⟩
  | dynamic b n =>
    obtain ⟨pair, name, d, t, hc, hn, ht, hp⟩ := h
    exact ⟨pair, name, d, t, hc, hn, ht, hpq.nameAndType hp⟩
  | _ => exact h

theorem rewrites_renameConstant {i : UInt16} {c c' : Constant} {p q : Pool} (hp : r.Live p)
    (h : r.renameConstant i c p = .ok (c', q)) : Pool.Stocked p q ∧ r.Rewrites q i c c' := by
  cases c with
  | classInfo n | methodType n =>
    obtain ⟨n', mid, hn, hc⟩ := state_map_eq_ok.1 h
    cases hc
    obtain ⟨hg, s, t, hs, ht, htext⟩ := text_renameText hp hn
    exact ⟨hg, n', s, t, rfl, hs, ht, htext⟩
  | fieldRef o n | methodRef o n | interfaceMethodRef o n =>
    obtain ⟨pair, mid, hpair, hc⟩ := state_map_eq_ok.1 h
    cases hc
    obtain ⟨m, p₁, hread, hpair⟩ := state_bind_eq_ok.1 hpair
    obtain ⟨hg₁, hm⟩ := Renaming.yields_read _ _ _ _ hread
    obtain ⟨hg₂, s, t, hs, ht, hpair⟩ := nameAndType_renamePair (hp.grown hg₁) hpair
    exact ⟨hg₁.trans hg₂, pair, m, s, t, rfl, hm, hs, ht, hpair⟩
  | invokeDynamic b n =>
    obtain ⟨pair, mid, hpair, hc⟩ := state_map_eq_ok.1 h
    cases hc
    obtain ⟨⟨name, d⟩, p₁, hread, hpair⟩ := state_bind_eq_ok.1 hpair
    obtain ⟨hg₁, hn⟩ := Renaming.yields_read _ _ _ _ hread
    obtain ⟨lambda, p₂, hread, hpair⟩ := state_bind_eq_ok.1 hpair
    obtain ⟨hg₂, hl⟩ := Renaming.yields_read _ _ _ _ hread
    have hg := hg₁.trans hg₂
    obtain ⟨hg₃, s, t, hs, ht, hpair⟩ := nameAndType_renamePair (hp.grown hg) hpair
    exact ⟨hg.trans hg₃, pair, name, d, lambda, s, t, rfl, hn, hl, hs, ht, hpair⟩
  | dynamic b n =>
    obtain ⟨pair, mid, hpair, hc⟩ := state_map_eq_ok.1 h
    cases hc
    obtain ⟨⟨name, d⟩, p₁, hread, hpair⟩ := state_bind_eq_ok.1 hpair
    obtain ⟨hg₁, hn⟩ := Renaming.yields_read _ _ _ _ hread
    obtain ⟨t, p₂, hrename, hpair⟩ := state_bind_eq_ok.1 hpair
    obtain ⟨hg₂, ht⟩ := Renaming.yields_rename _ _ _ _ hrename
    have hg := hg₁.trans hg₂
    obtain ⟨hg₃, hpair⟩ := nameAndType_replacePair (hp.grown hg) hpair
    exact ⟨hg.trans hg₃, pair, name, d, t, rfl, hn, ht, hpair⟩
  | _ =>
    cases h
    exact ⟨.refl, rfl⟩

/-! ### All constants -/

/-- What a step does to a slot that holds the constant of the class as it was. Other slots stay. -/
theorem rewrites_renameSlot {i : UInt16} {c : Constant} {p q : Pool} {u : Unit} (hp : r.Live p)
    (hslot : p.slot? i = some c) (h : r.renameSlot i c p = .ok (u, q)) :
    r.Live q ∧ p.KeepsNames q ∧ (∀ j d, j ≠ i → p.slot? j = some d → q.slot? j = some d) ∧
      ∃ c', q.slot? i = some c' ∧ r.Rewrites q i c c' := by
  obtain ⟨c', mid, hrenamed, h⟩ := state_bind_eq_ok.1 h
  obtain ⟨hgrown, hrewrites⟩ := rewrites_renameConstant hp hrenamed
  have hmid := hgrown.extends i c hslot
  split at h
  · next heq =>
    cases h
    subst heq
    exact ⟨hp.grown hgrown, hgrown.extends.keepsNames, fun j d _ => hgrown.extends j d, c', hmid,
      hrewrites⟩
  · next hne =>
    have h := Renaming.edit_eq_ok.1 h
    have hc : c.isName = false := by
      by_contra hname
      exact hne (hrewrites.of_isName (by simpa using hname))
    have hslots := Pool.slot?_replace h
    have hothers : ∀ j d, j ≠ i → mid.slot? j = some d → q.slot? j = some d := by
      intro j d hj hd
      rw [hslots, if_neg hj, hd]
    have hnames : mid.KeepsNames q := by
      intro j d hd hj
      refine hothers j d ?_ hj
      rintro rfl
      rw [hmid] at hj
      cases hj
      simp [hc] at hd
    refine ⟨⟨?_, ?_⟩, ?_, ?_, c', by rw [hslots, if_pos rfl], hrewrites.mono hnames⟩
    · refine (hp.grown hgrown).recalls.replace h fun old hold hname => ?_
      rw [hmid] at hold
      cases hold
      simp [hc] at hname
    · exact (hp.grown hgrown).keeps.trans hnames
    · exact hgrown.extends.keepsNames.trans hnames
    · exact fun j d hj hd => hothers j d hj (hgrown.extends j d hd)

theorem rewrites_forM (entries : List (UInt16 × Constant)) (hdistinct : (entries.map (·.1)).Nodup)
    {p q : Pool} {u : Unit} (hp : r.Live p) (hslots : ∀ e ∈ entries, p.slot? e.1 = some e.2)
    (h : (entries.forM fun e => r.renameSlot e.1 e.2) p = .ok (u, q)) :
    r.Live q ∧ p.KeepsNames q ∧
      (∀ j d, j ∉ entries.map (·.1) → p.slot? j = some d → q.slot? j = some d) ∧
      ∀ e ∈ entries, ∃ c', q.slot? e.1 = some c' ∧ r.Rewrites q e.1 e.2 c' := by
  induction entries generalizing p with
  | nil =>
    cases h
    exact ⟨hp, fun _ _ _ hc => hc, fun _ _ _ hc => hc, by simp⟩
  | cons e entries ih =>
    obtain ⟨hfresh, hdistinct⟩ := List.nodup_cons.1 hdistinct
    obtain ⟨v, mid, hstep, h⟩ := state_bind_eq_ok.1 h
    obtain ⟨hlive, hnames, hothers, c', hc', hrewrites⟩ :=
      rewrites_renameSlot hp (hslots e (by simp)) hstep
    have hrest : ∀ e' ∈ entries, mid.slot? e'.1 = some e'.2 := by
      intro e' he'
      refine hothers _ _ ?_ (hslots e' (by simp [he']))
      intro heq
      exact hfresh (List.mem_map.2 ⟨e', he', heq⟩)
    obtain ⟨hlive', hnames', hothers', hall⟩ := ih hdistinct hlive hrest h
    refine ⟨hlive', hnames.trans hnames', ?_, ?_⟩
    · intro j d hj hd
      simp only [List.map_cons, List.mem_cons, not_or] at hj
      exact hothers' j d hj.2 (hothers j d hj.1 hd)
    · intro e' he'
      rcases List.mem_cons.1 he' with rfl | he'
      · exact ⟨c', hothers' _ _ hfresh hc', hrewrites.mono hnames'⟩
      · exact hall e' he'

theorem live_snapshot (hr : r.snapshot.Indexed) : r.Live r.snapshot := by
  refine ⟨fun c i hc => hr.recalls c i ?_, fun _ _ _ hc => hc⟩
  cases c with
  | utf8 s | nameAndType n d => rfl
  | _ => simp [Constant.isName] at hc

theorem rewrites_renameConstants (hr : r.snapshot.Indexed) {q : Pool} {u : Unit}
    (h : r.renameConstants r.snapshot = .ok (u, q)) {i : UInt16} {c : Constant}
    (hc : r.snapshot.slot? i = some c) : ∃ c', q.slot? i = some c' ∧ r.Rewrites q i c c' := by
  have hslots : ∀ e ∈ r.snapshot.entries, r.snapshot.slot? e.1 = some e.2 :=
    fun e he => ((Pool.mem_entries hr.small).1 he).1
  obtain ⟨_, _, hothers, hall⟩ :=
    rewrites_forM _ (Pool.nodup_entries hr.small) (live_snapshot hr) hslots h
  by_cases hunusable : c = .unusable
  · subst hunusable
    refine ⟨.unusable, hothers i _ ?_ hc, rfl⟩
    intro hi
    obtain ⟨e, he, rfl⟩ := List.mem_map.1 hi
    obtain ⟨hslot, hne⟩ := (Pool.mem_entries hr.small).1 he
    rw [hc] at hslot
    exact hne (Option.some.inj hslot).symm
  · exact hall (i, c) ((Pool.mem_entries hr.small).2 ⟨hc, hunusable⟩)

end ClassRenamer

end ClassArchive
