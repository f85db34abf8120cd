import ClassArchive.Proofs.TypeOrder
import Mathlib.Data.List.Infix

/-!
The nearest common superclass. A superclass chain is the way from a class to the root along its
superclasses, so two chains run together from the first class that they share. That class is the
same whichever of the two chains is searched for it, and every class on both chains is above it.
-/
set_option autoImplicit false

namespace ClassArchive

open Relation

namespace Loader

variable {load : Loader}

/-! ### Superclass chains -/

/-- The second name is that of the superclass of the first class, which is not the root. A class
without a known superclass stands right under the root. -/
def Rises (load : Loader) (name above : String) : Prop :=
  name ≠ objectClass ∧ ∃ node, load name = some node ∧ above = node.superName.getD objectClass

def OnChain (load : Loader) (name above : String) : Prop := ReflTransGen load.Rises name above

/-- The names on a superclass chain that comes to the root, in its order. -/
inductive Ascent (load : Loader) : String → List String → Prop where
  | root : Ascent load objectClass [objectClass]
  | rise {name above : String} {chain : List String} : load.Rises name above →
      Ascent load above chain → Ascent load name (name :: chain)

theorem Rises.unique {name above above' : String} (h : load.Rises name above)
    (h' : load.Rises name above') : above = above' := by
  obtain ⟨-, node, hnode, rfl⟩ := h
  obtain ⟨-, node', hnode', rfl⟩ := h'
  rw [hnode] at hnode'
  cases hnode'
  rfl

theorem not_rises_root {above : String} : ¬ load.Rises objectClass above := fun h => h.1 rfl

theorem ascent_of_chainOnto {depth : Nat} {below : List String} {name : String}
    {chain : List String} (h : chainOnto load depth below name = .ok chain) :
    ∃ tail, load.Ascent name tail ∧ chain = below.reverse ++ tail := by
  induction depth generalizing below name with
  | zero =>
    unfold chainOnto at h
    split at h
    · next hroot =>
      cases h
      exact ⟨[name], hroot ▸ .root, rfl⟩
    · cases h
  | succ depth ih =>
    unfold chainOnto at h
    split at h
    · next hroot =>
      cases h
      exact ⟨[name], hroot ▸ .root, rfl⟩
    · next hroot =>
      dsimp only at h
      split at h
      · cases h
      · split at h
        · cases h
        · next node hnode =>
          obtain ⟨tail, hascent, rfl⟩ := ih h
          exact ⟨name :: tail, .rise ⟨hroot, node, hnode, rfl⟩ hascent, by simp⟩

theorem ascent_of_superclassChain {name : String} {chain : List String}
    (h : load.superclassChain name = .ok chain) : load.Ascent name chain := by
  obtain ⟨tail, hascent, rfl⟩ := ascent_of_chainOnto h
  exact hascent

namespace Ascent

theorem head? {name : String} {chain : List String} (h : load.Ascent name chain) :
    chain.head? = some name := by
  cases h <;> rfl

theorem root_mem {name : String} {chain : List String} (h : load.Ascent name chain) :
    objectClass ∈ chain := by
  induction h with
  | root => simp
  | rise _ _ ih => exact List.mem_cons_of_mem _ ih

theorem unique {name : String} {chain chain' : List String} (h : load.Ascent name chain)
    (h' : load.Ascent name chain') : chain = chain' := by
  induction h generalizing chain' with
  | root =>
    cases h' with
    | root => rfl
    | rise hrises _ => exact absurd hrises not_rises_root
  | rise hrises _ ih =>
    cases h' with
    | root => exact absurd hrises not_rises_root
    | rise hrises' hascent => rw [ih (hrises.unique hrises' ▸ hascent)]

theorem of_append {name x : String} {lower upper : List String}
    (h : load.Ascent name (lower ++ x :: upper)) : load.Ascent x (x :: upper) := by
  induction lower generalizing name with
  | nil =>
    cases h with
    | root => exact .root
    | rise hrises hascent => exact .rise hrises hascent
  | cons y lower ih =>
    rw [List.cons_append] at h
    cases hrest : lower ++ x :: upper with
    | nil => simp at hrest
    | cons z rest =>
      rw [hrest] at h ih
      cases h with
      | rise _ hascent => exact ih hascent

theorem onChain_of_mem {name x : String} {chain : List String} (h : load.Ascent name chain)
    (hx : x ∈ chain) : load.OnChain name x := by
  induction h with
  | root =>
    cases List.mem_singleton.1 hx
    exact .refl
  | rise hrises _ ih =>
    rcases List.mem_cons.1 hx with rfl | hx
    · exact .refl
    · exact .head hrises (ih hx)

theorem exists_suffix {name x : String} {chain : List String} (h : load.Ascent name chain)
    (hx : load.OnChain name x) : ∃ upper, load.Ascent x upper ∧ upper <:+ chain := by
  induction h with
  | root =>
    rcases hx.cases_head with rfl | ⟨_, hrises, -⟩
    · exact ⟨_, .root, List.suffix_rfl⟩
    · exact absurd hrises not_rises_root
  | rise hrises hascent ih =>
    rcases hx.cases_head with rfl | ⟨next, hrises', hx⟩
    · exact ⟨_, .rise hrises hascent, List.suffix_rfl⟩
    · obtain ⟨upper, hupper, hsuffix⟩ := ih (hrises.unique hrises' ▸ hx)
      exact ⟨upper, hupper, hsuffix.trans (List.suffix_cons _ _)⟩

theorem mem_iff {name x : String} {chain : List String} (h : load.Ascent name chain) :
    x ∈ chain ↔ load.OnChain name x := by
  refine ⟨h.onChain_of_mem, fun hx => ?_⟩
  obtain ⟨upper, hupper, hsuffix⟩ := h.exists_suffix hx
  exact hsuffix.subset (List.mem_of_head? hupper.head?)

/-- No two names of a chain that comes to the root are above each other. -/
theorem antisymm {name x : String} {chain : List String} (h : load.Ascent name chain)
    (hx : load.OnChain name x) (hname : load.OnChain x name) : x = name := by
  obtain ⟨upper, hupper, hsuffix⟩ := h.exists_suffix hx
  obtain ⟨again, hagain, hsuffix'⟩ := hupper.exists_suffix hname
  obtain rfl := hagain.unique h
  have hsame : upper = again := hsuffix.eq_of_length_le hsuffix'.length_le
  have hhead := hupper.head?
  rw [hsame, h.head?] at hhead
  exact (Option.some.inj hhead).symm

end Ascent

structure Nearest (load : Loader) (a b c : String) : Prop where
  left : load.OnChain a c
  right : load.OnChain b c
  least : ∀ x, load.OnChain a x → load.OnChain b x → load.OnChain c x

theorem nearest_find? {a b : String} {chainA chainB : List String} (hA : load.Ascent a chainA)
    (hB : load.Ascent b chainB) :
    load.Nearest a b ((chainA.find? (· ∈ chainB)).getD objectClass) := by
  obtain ⟨c, hc⟩ : ∃ c, chainA.find? (· ∈ chainB) = some c := by
    rw [← Option.isSome_iff_exists, List.find?_isSome]
    exact ⟨objectClass, hA.root_mem, by simpa using hB.root_mem⟩
  obtain ⟨hcB, lower, upper, rfl, hlower⟩ := List.find?_eq_some_iff_append.1 hc
  rw [decide_eq_true_eq] at hcB
  rw [hc]
  refine ⟨hA.onChain_of_mem (by simp), hB.onChain_of_mem hcB, fun x hxA hxB => ?_⟩
  -- what comes before the first shared class is not shared
  have hupper : x ∈ c :: upper := by
    refine (List.mem_append.1 (hA.mem_iff.2 hxA)).resolve_left fun hx => ?_
    simpa [hB.mem_iff.2 hxB] using hlower x hx
  exact hA.of_append.onChain_of_mem hupper

theorem Nearest.symm {a b c : String} (h : load.Nearest a b c) : load.Nearest b a c :=
  ⟨h.right, h.left, fun x hb ha => h.least x ha hb⟩

theorem Nearest.unique {a b c c' : String} {chain : List String} (ha : load.Ascent a chain)
    (h : load.Nearest a b c) (h' : load.Nearest a b c') : c = c' := by
  obtain ⟨upper, hupper, -⟩ := ha.exists_suffix h'.left
  exact hupper.antisymm (h'.least c h.left h.right) (h.least c' h'.left h'.right)

/-! ### Joins -/

def IsInterface (load : Loader) (name : String) : Prop :=
  ∃ node, load name = some node ∧ node.isInterface = true

structure Apart (a b : String) : Prop where
  ne : a ≠ b
  left : a ≠ objectClass
  right : b ≠ objectClass

theorem Apart.symm {a b : String} (h : Apart a b) : Apart b a := ⟨h.ne.symm, h.right, h.left⟩

def interfaceMeet (load : Loader) (a b : String) (isA isB : Bool) : String :=
  if isA && load.isAssignable a b then a
  else if isB && load.isAssignable b a then b
  else objectClass

inductive Meets (load : Loader) (a b : String) : String → Prop where
  | same : a = b → Meets load a b a
  | root : a ≠ b → a = objectClass ∨ b = objectClass → Meets load a b objectClass
  | interface {nodeA nodeB : TypeNode} : Apart a b → load a = some nodeA → load b = some nodeB →
      (nodeA.isInterface || nodeB.isInterface) = true →
      Meets load a b (load.interfaceMeet a b nodeA.isInterface nodeB.isInterface)
  | classes {nodeA nodeB : TypeNode} {chainA chainB : List String} : Apart a b →
      load a = some nodeA → load b = some nodeB →
      (nodeA.isInterface || nodeB.isInterface) = false →
      load.superclassChain a = .ok chainA → load.superclassChain b = .ok chainB →
      Meets load a b ((chainA.find? (· ∈ chainB)).getD objectClass)

theorem node_eq_ok {name : String} {node : TypeNode} :
    load.node name = .ok node ↔ load name = some node := by
  unfold Loader.node
  cases load name <;> simp

theorem meets_of_commonSuperClass {a b c : String} (h : load.commonSuperClass a b = .ok c) :
    load.Meets a b c := by
  unfold commonSuperClass at h
  split at h
  · next hsame =>
    cases h
    exact .same hsame
  · next hne =>
    split at h
    · next hroot =>
      cases h
      exact .root hne hroot
    · next hroot =>
      have hapart : Apart a b := ⟨hne, fun h => hroot (.inl h), fun h => hroot (.inr h)⟩
      obtain ⟨nodeA, hA, h⟩ := bind_eq_ok.1 h
      obtain ⟨nodeB, hB, h⟩ := bind_eq_ok.1 h
      rw [node_eq_ok] at hA hB
      split at h
      · next hinterface =>
        have hmeet := Meets.interface hapart hA hB hinterface
        unfold interfaceMeet at hmeet
        split at h
        · next hassign =>
          cases h
          rwa [if_pos hassign] at hmeet
        · next hassign =>
          rw [if_neg hassign] at hmeet
          split at h
          · next hassign' =>
            cases h
            rwa [if_pos hassign'] at hmeet
          · next hassign' =>
            cases h
            rwa [if_neg hassign'] at hmeet
      · next hinterface =>
        obtain ⟨chainB, hchainB, h⟩ := bind_eq_ok.1 h
        obtain ⟨chainA, hchainA, h⟩ := bind_eq_ok.1 h
        cases h
        exact .classes hapart hA hB (Bool.not_eq_true _ ▸ hinterface) hchainA hchainB

theorem commonSuperClass_of_meets {a b c : String} (h : load.Meets a b c) :
    load.commonSuperClass a b = .ok c := by
  unfold commonSuperClass
  cases h with
  | same hsame =>
    rw [if_pos hsame]
    rfl
  | root hne hroot =>
    rw [if_neg hne, if_pos hroot]
    rfl
  | interface hapart hA hB hinterface =>
    rw [if_neg hapart.ne, if_neg (not_or.2 ⟨hapart.left, hapart.right⟩)]
    refine bind_eq_ok.2 ⟨_, node_eq_ok.2 hA, bind_eq_ok.2 ⟨_, node_eq_ok.2 hB, ?_⟩⟩
    rw [if_pos hinterface]
    unfold interfaceMeet
    repeat' split
    all_goals rfl
  | classes hapart hA hB hclasses hchainA hchainB =>
    rw [if_neg hapart.ne, if_neg (not_or.2 ⟨hapart.left, hapart.right⟩)]
    refine bind_eq_ok.2 ⟨_, node_eq_ok.2 hA, bind_eq_ok.2 ⟨_, node_eq_ok.2 hB, ?_⟩⟩
    rw [if_neg (by simp [hclasses])]
    exact bind_eq_ok.2 ⟨_, hchainB, bind_eq_ok.2 ⟨_, hchainA, rfl⟩⟩

theorem interfaceMeet_comm {a b : String} {isA isB : Bool}
    (h : ¬ (isA = true ∧ isB = true ∧ load.isAssignable a b = true ∧
      load.isAssignable b a = true)) :
    load.interfaceMeet a b isA isB = load.interfaceMeet b a isB isA := by
  unfold interfaceMeet
  simp only [Bool.and_eq_true]
  by_cases hleft : isA = true ∧ load.isAssignable a b = true
  · have hright : ¬ (isB = true ∧ load.isAssignable b a = true) :=
      fun hright => h ⟨hleft.1, hright.1, hleft.2, hright.2⟩
    rw [if_pos hleft, if_neg hright, if_pos hleft]
  · rw [if_neg hleft, if_neg hleft]

/-- Two interfaces each of which can be stored where the other is expected. -/
def Interchangeable (load : Loader) (a b : String) : Prop :=
  load.IsInterface a ∧ load.IsInterface b ∧ load.isAssignable a b = true ∧
    load.isAssignable b a = true

theorem Meets.exists_symm {a b c : String} (h : load.Meets a b c) :
    ∃ c', load.Meets b a c' ∧ (c' = c ∨ load.Interchangeable a b) := by
  cases h with
  | same hsame => exact ⟨b, .same hsame.symm, .inl hsame.symm⟩
  | root hne hroot => exact ⟨objectClass, .root hne.symm hroot.symm, .inl rfl⟩
  | @interface nodeA nodeB hapart hA hB hinterface =>
    refine ⟨_, .interface hapart.symm hB hA (by rwa [Bool.or_comm]), ?_⟩
    by_cases hboth : nodeA.isInterface = true ∧ nodeB.isInterface = true ∧
        load.isAssignable a b = true ∧ load.isAssignable b a = true
    · exact .inr ⟨⟨nodeA, hA, hboth.1⟩, ⟨nodeB, hB, hboth.2.1⟩, hboth.2.2⟩
    · exact .inl (interfaceMeet_comm hboth).symm
  | classes hapart hA hB hclasses hchainA hchainB =>
    refine ⟨_, .classes hapart.symm hB hA (by rwa [Bool.or_comm]) hchainB hchainA, .inl ?_⟩
    have hascentA := ascent_of_superclassChain hchainA
    have hascentB := ascent_of_superclassChain hchainB
    exact (nearest_find? hascentB hascentA).unique hascentB (nearest_find? hascentA hascentB).symm

/-- Classes meet in the nearest class on both their chains. -/
theorem Meets.nearest {a b c : String} (h : load.Meets a b c) (hapart : Apart a b)
    (ha : ¬ load.IsInterface a) (hb : ¬ load.IsInterface b) : load.Nearest a b c := by
  cases h with
  | same hsame => exact absurd hsame hapart.ne
  | root _ hroot => exact absurd hroot (not_or.2 ⟨hapart.left, hapart.right⟩)
  | interface _ hA hB hinterface =>
    rcases Bool.or_eq_true_iff.1 hinterface with hinterface | hinterface
    · exact absurd ⟨_, hA, hinterface⟩ ha
    · exact absurd ⟨_, hB, hinterface⟩ hb
  | classes _ _ _ _ hchainA hchainB =>
    exact nearest_find? (ascent_of_superclassChain hchainA) (ascent_of_superclassChain hchainB)

/-- The join of two types is the root or above both of them. Two classes have as their join the
class on both superclass chains below all others on both. The order of the types matters neither for
whether there is a join nor, unless they are interfaces above each other, for which one it is. -/
theorem commonSuperClass_nearest (load : Loader) (a b : String) :
    (∀ c, load.commonSuperClass a b = .ok c →
      (c = objectClass ∨ ReflTransGen load.Link a c ∧ ReflTransGen load.Link b c) ∧
      (a ≠ b → a ≠ objectClass → b ≠ objectClass →
        ¬ load.IsInterface a → ¬ load.IsInterface b →
        load.OnChain a c ∧ load.OnChain b c ∧
        ∀ x, load.OnChain a x → load.OnChain b x → load.OnChain c x)) ∧
    ((∃ c, load.commonSuperClass b a = .ok c) ↔ ∃ c, load.commonSuperClass a b = .ok c) ∧
    ∀ c c', load.commonSuperClass a b = .ok c → load.commonSuperClass b a = .ok c' →
      c' = c ∨ load.Interchangeable a b := by
  have hswap : ∀ {a b c : String}, load.commonSuperClass a b = .ok c →
      ∃ c', load.commonSuperClass b a = .ok c' ∧ (c' = c ∨ load.Interchangeable a b) := by
    intro a b c h
    obtain ⟨c', hmeets, hc'⟩ := (meets_of_commonSuperClass h).exists_symm
    exact ⟨c', commonSuperClass_of_meets hmeets, hc'⟩
  refine ⟨fun c h => ⟨linked_commonSuperClass h, ?_⟩, ⟨?_, ?_⟩, fun c c' h h' => ?_⟩
  · intro hne ha hb hA hB
    obtain ⟨hleft, hright, hleast⟩ := (meets_of_commonSuperClass h).nearest ⟨hne, ha, hb⟩ hA hB
    exact ⟨hleft, hright, hleast⟩
  · rintro ⟨c, h⟩
    obtain ⟨c', hc', -⟩ := hswap h
    exact ⟨c', hc'⟩
  · rintro ⟨c, h⟩
    obtain ⟨c', hc', -⟩ := hswap h
    exact ⟨c', hc'⟩
  · obtain ⟨c'', hc'', hsame⟩ := hswap h
    rw [h'] at hc''
    cases hc''
    exact hsame

/-- Two lines of classes under a common one, and two interfaces above each other. -/
def twoLines : Loader
  | "D" => some { name := "D", superName := "B", interfaces := ["I"] }
  | "B" => some { name := "B", superName := "P" }
  | "C" => some { name := "C", superName := "P" }
  | "P" => some { name := "P", superName := none }
  | "I" => some { name := "I", superName := objectClass, interfaces := ["J"], isInterface := true }
  | "J" => some { name := "J", superName := objectClass, interfaces := ["I"], isInterface := true }
  | _ => none

theorem not_isInterface_of_all {name : String}
    (h : (load name).all (!·.isInterface) = true) : ¬ load.IsInterface name := by
  rintro ⟨node, hnode, hinterface⟩
  simp [hnode, hinterface] at h

theorem commonSuperClass_nearest_twoLines :
    twoLines.commonSuperClass "D" "C" = .ok "P" ∧ twoLines.commonSuperClass "C" "D" = .ok "P" ∧
    (twoLines.OnChain "D" "P" ∧ twoLines.OnChain "C" "P" ∧
      ∀ x, twoLines.OnChain "D" x → twoLines.OnChain "C" x → twoLines.OnChain "P" x) ∧
    (twoLines.commonSuperClass "I" "J" = .ok "I" ∧ twoLines.commonSuperClass "J" "I" = .ok "J" ∧
      twoLines.IsInterface "I" ∧ twoLines.IsInterface "J") := by
  obtain ⟨hmeet, -, hsame⟩ := commonSuperClass_nearest twoLines "D" "C"
  have hD : ¬ twoLines.IsInterface "D" := not_isInterface_of_all (by decide)
  have hC : ¬ twoLines.IsInterface "C" := not_isInterface_of_all (by decide)
  have hDC : twoLines.commonSuperClass "D" "C" = .ok "P" := by decide
  have hIJ : twoLines.commonSuperClass "I" "J" = .ok "I" := by decide
  have hJI : twoLines.commonSuperClass "J" "I" = .ok "J" := by decide
  obtain ⟨c, hCD⟩ := (commonSuperClass_nearest twoLines "D" "C").2.1.2 ⟨_, hDC⟩
  have hc : c = "P" := (hsame "P" c hDC hCD).resolve_right fun h => hD h.1
  obtain ⟨hI, hJ, -⟩ :=
    ((commonSuperClass_nearest twoLines "I" "J").2.2 "I" "J" hIJ hJI).resolve_left (by decide)
  exact ⟨hDC, hc ▸ hCD,
    (hmeet "P" hDC).2 (by decide) (by decide) (by decide) hD hC, hIJ, hJI, hI, hJ⟩

end Loader

end ClassArchive
