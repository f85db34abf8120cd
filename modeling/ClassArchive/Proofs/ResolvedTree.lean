import ClassArchive.Inheritance
import ClassArchive.Proofs.Outcome
import Mathlib.Logic.Relation
import Mathlib.Data.List.Chain
import Mathlib.Data.List.Nodup

/-!
Trees of classes that were resolved from headers. A tree holds the parents of each of its classes,
and unless a path of links is as long as a walk may go, it holds them as the headers give them. So
the search order of a class depends on the headers alone, not on the tree it is taken from.
-/
set_option autoImplicit false

namespace ClassArchive

open Relation

namespace HeaderSource

def Linked (headers : HeaderSource) (name parent : String) : Prop :=
  ∃ h, headers name = some h ∧ parent ∈ h.parents

/-- No path of links without a repeated class has as many links as a walk may go. -/
def ShortPaths (headers : HeaderSource) : Prop :=
  ∀ path : List String, path.Nodup → path.IsChain headers.Linked → path.length ≤ maxHierarchyDepth

/-- The parents as the header gives them; a class without a readable header has none. -/
def ancestry (headers : HeaderSource) (name : String) : Ancestry :=
  match headers name with
  | some h => .ofHeader h
  | none => {}

theorem mem_parents_ancestry {headers : HeaderSource} {name parent : String} :
    parent ∈ (headers.ancestry name).parents ↔ headers.Linked name parent := by
  unfold ancestry Linked
  cases headers name with
  | none => simp [Ancestry.parents]
  | some h => simp [Ancestry.parents, Ancestry.ofHeader, ClassHeader.parents]

end HeaderSource

open HeaderSource (mem_parents_ancestry)

namespace Inheritance

/-! ### Nodes -/

theorem contains_iff {tree : Inheritance} {name : String} :
    tree.contains name = true ↔ ∃ a, tree.find? name = some a := by
  rw [contains, find?, Std.TreeMap.contains_iff_mem, Std.TreeMap.mem_iff_isSome_getElem?,
    Option.isSome_iff_exists]

theorem find?_empty (name : String) : ({} : Inheritance).find? name = none := by
  simp [find?]

theorem find?_insert (tree : Inheritance) (name : String) (a : Ancestry) (other : String) :
    (tree.insert name a).find? other = if name = other then some a else tree.find? other := by
  simp [find?, insert, Std.TreeMap.getElem?_insert]

def Below (tree tree' : Inheritance) : Prop :=
  ∀ name a, tree.find? name = some a → tree'.find? name = some a

theorem Below.refl (tree : Inheritance) : tree.Below tree := fun _ _ h => h

theorem Below.trans {tree mid tree' : Inheritance} (h : tree.Below mid) (h' : mid.Below tree') :
    tree.Below tree' := fun name a ha => h' name a (h name a ha)

theorem Below.contains {tree tree' : Inheritance} (h : tree.Below tree') {name : String}
    (hname : tree.contains name = true) : tree'.contains name = true := by
  obtain ⟨a, ha⟩ := contains_iff.1 hname
  exact contains_iff.2 ⟨a, h name a ha⟩

theorem below_insert {tree : Inheritance} {name : String} (hnew : ¬ tree.contains name = true)
    (a : Ancestry) : tree.Below (tree.insert name a) := by
  intro other b hb
  have hne : name ≠ other := by
    rintro rfl
    exact hnew (contains_iff.2 ⟨b, hb⟩)
  rw [find?_insert, if_neg hne, hb]

theorem contains_insert {tree : Inheritance} {name other : String} {a : Ancestry} :
    (tree.insert name a).contains other = true ↔ name = other ∨ tree.contains other = true := by
  rw [contains_iff, find?_insert, contains_iff]
  by_cases h : name = other <;> simp [h]

/-! ### One class -/

section Resolving

variable {headers : HeaderSource}

theorem resolveWithin_of_contains {tree : Inheritance} {name : String}
    (h : tree.contains name = true) (depth : Nat) :
    resolveWithin headers depth tree name = tree := by
  cases depth <;> rw [resolveWithin, if_pos h]

theorem resolveWithin_zero {tree : Inheritance} {name : String} (h : ¬ tree.contains name = true) :
    resolveWithin headers 0 tree name = tree.insert name {} := by
  rw [resolveWithin, if_neg h]

theorem resolveWithin_succ (headers : HeaderSource) {tree : Inheritance} {name : String}
    (h : ¬ tree.contains name = true) (depth : Nat) : resolveWithin headers (depth + 1) tree name =
      (headers.ancestry name).parents.foldl (resolveWithin headers depth)
        (tree.insert name (headers.ancestry name)) := by
  rw [resolveWithin, if_neg h]
  simp only [HeaderSource.ancestry]
  split
  · next hnone => simp [hnone, Ancestry.parents]
  · next h hsome => simp [hsome]; rfl

/-- A tree that holds all parents of its classes, except of those that wait for theirs. -/
def ClosedBut (tree : Inheritance) (waiting : List String) : Prop :=
  ∀ name a, tree.find? name = some a → name ∉ waiting → ∀ p ∈ a.parents, tree.contains p = true

structure Walked (headers : HeaderSource) (names : List String) (tree tree' : Inheritance) :
    Prop where
  below : tree.Below tree'
  contains : ∀ name ∈ names, tree'.contains name = true
  closed : ∀ {waiting}, tree.ClosedBut waiting → tree'.ClosedBut waiting
  reached : ∀ {other}, tree'.contains other = true → tree.contains other = true ∨
    ∃ name ∈ names, ReflTransGen headers.Linked name other

theorem Walked.nil (tree : Inheritance) : Walked headers [] tree tree :=
  ⟨.refl tree, by simp, fun h => h, .inl⟩

theorem Walked.cons {name : String} {names : List String} {tree mid tree' : Inheritance}
    (h : Walked headers [name] tree mid) (h' : Walked headers names mid tree') :
    Walked headers (name :: names) tree tree' where
  below := h.below.trans h'.below
  contains := by
    intro other hother
    rcases List.mem_cons.1 hother with rfl | hother
    · exact h'.below.contains (h.contains _ (by simp))
    · exact h'.contains other hother
  closed hclosed := h'.closed (h.closed hclosed)
  reached := by
    intro other hother
    rcases h'.reached hother with hmid | ⟨via, hvia, hreach⟩
    · rcases h.reached hmid with htree | ⟨via, hvia, hreach⟩
      · exact .inl htree
      · rw [List.mem_singleton.1 hvia] at hreach
        exact .inr ⟨name, by simp, hreach⟩
    · exact .inr ⟨via, by simp [hvia], hreach⟩

theorem walked_foldl {visit : Inheritance → String → Inheritance}
    (hvisit : ∀ tree name, Walked headers [name] tree (visit tree name)) (names : List String)
    (tree : Inheritance) : Walked headers names tree (names.foldl visit tree) := by
  induction names generalizing tree with
  | nil => exact .nil tree
  | cons name names ih => exact (hvisit tree name).cons (ih (visit tree name))

/-- While the walk is above a new class, the class itself waits. -/
theorem closedBut_of_walked_insert {tree tree' : Inheritance} {name : String} {a : Ancestry}
    (h : Walked headers a.parents (tree.insert name a) tree') {waiting : List String}
    (hclosed : tree.ClosedBut waiting) : tree'.ClosedBut waiting := by
  have hinsert : (tree.insert name a).ClosedBut (name :: waiting) := by
    intro other b hb hother p hp
    obtain ⟨hne, hother⟩ := not_or.1 (mt List.mem_cons.2 hother)
    rw [find?_insert, if_neg (Ne.symm hne)] at hb
    exact contains_insert.2 (.inr (hclosed other b hb hother p hp))
  intro other b hb hother p hp
  by_cases hname : other = name
  · subst hname
    have hsame := h.below other a (by rw [find?_insert, if_pos rfl])
    obtain rfl : a = b := Option.some.inj (hsame.symm.trans hb)
    exact h.contains p hp
  · exact h.closed hinsert other b hb (by simp [hname, hother]) p hp

theorem walked_insert {tree tree' : Inheritance} {name : String} {a : Ancestry}
    (hnew : ¬ tree.contains name = true) (hlinked : ∀ p ∈ a.parents, headers.Linked name p)
    (h : Walked headers a.parents (tree.insert name a) tree') :
    Walked headers [name] tree tree' where
  below := (below_insert hnew a).trans h.below
  contains := by
    intro other hother
    rw [List.mem_singleton.1 hother]
    exact h.below.contains (contains_insert.2 (.inl rfl))
  closed hclosed := closedBut_of_walked_insert h hclosed
  reached := by
    intro other hother
    rcases h.reached hother with hother | ⟨via, hvia, hreach⟩
    · rcases contains_insert.1 hother with rfl | hother
      · exact .inr ⟨name, by simp, .refl⟩
      · exact .inl hother
    · exact .inr ⟨name, by simp, .head (hlinked via hvia) hreach⟩

theorem Walked.of_contains {tree : Inheritance} {name : String} (h : tree.contains name = true) :
    Walked headers [name] tree tree :=
  ⟨.refl tree, by simp [h], fun h => h, .inl⟩

theorem walked_resolveWithin (headers : HeaderSource) (depth : Nat) (tree : Inheritance)
    (name : String) : Walked headers [name] tree (resolveWithin headers depth tree name) := by
  induction depth generalizing tree name with
  | zero =>
    by_cases h : tree.contains name = true
    · rw [resolveWithin_of_contains h]
      exact .of_contains h
    · rw [resolveWithin_zero h]
      exact walked_insert (a := {}) h (by simp [Ancestry.parents]) (.nil _)
  | succ depth ih =>
    by_cases h : tree.contains name = true
    · rw [resolveWithin_of_contains h]
      exact .of_contains h
    · rw [resolveWithin_succ headers h]
      exact walked_insert h (fun _ => mem_parents_ancestry.1) (walked_foldl ih _ _)

def Faithful (headers : HeaderSource) (tree : Inheritance) : Prop :=
  ∀ name a, tree.find? name = some a → a = headers.ancestry name

theorem faithful_insert {tree : Inheritance} (h : tree.Faithful headers) (name : String) :
    (tree.insert name (headers.ancestry name)).Faithful headers := by
  intro other a ha
  rw [find?_insert] at ha
  split at ha
  · next hname =>
    subst hname
    exact (Option.some.inj ha).symm
  · exact h other a ha

/-- The classes above which the walk stands form a path, the nearest first. -/
theorem faithful_resolveWithin (hshort : headers.ShortPaths) (depth : Nat) {tree : Inheritance}
    {name : String} {path : List String} (hchain : (name :: path).IsChain (flip headers.Linked))
    (hnodup : path.Nodup) (hpath : ∀ below ∈ path, tree.contains below = true)
    (hdepth : path.length + depth = maxHierarchyDepth) (h : tree.Faithful headers) :
    (resolveWithin headers depth tree name).Faithful headers := by
  induction depth generalizing tree name path with
  | zero =>
    by_cases hname : tree.contains name = true
    · rw [resolveWithin_of_contains hname]
      exact h
    · -- a new class this far up would end a path that is too long
      have hnew : (name :: path).Nodup :=
        List.nodup_cons.2 ⟨fun hmem => hname (hpath name hmem), hnodup⟩
      have hlong := hshort (name :: path).reverse (List.nodup_reverse.2 hnew)
        (List.isChain_reverse.2 hchain)
      rw [List.length_reverse, List.length_cons] at hlong
      omega
  | succ depth ih =>
    by_cases hname : tree.contains name = true
    · rw [resolveWithin_of_contains hname]
      exact h
    · have hnew : (name :: path).Nodup :=
        List.nodup_cons.2 ⟨fun hmem => hname (hpath name hmem), hnodup⟩
      have hinsert : ∀ below ∈ name :: path,
          (tree.insert name (headers.ancestry name)).contains below = true := by
        intro below hbelow
        rcases List.mem_cons.1 hbelow with rfl | hbelow
        · exact contains_insert.2 (.inl rfl)
        · exact contains_insert.2 (.inr (hpath below hbelow))
      rw [resolveWithin_succ headers hname]
      -- the walks from the parents keep both the nodes and the classes of the path
      refine (List.foldlRecOn (motive := fun t : Inheritance => t.Faithful headers ∧
        ∀ below ∈ name :: path, t.contains below = true) _ _ ⟨faithful_insert h name, hinsert⟩ ?_).1
      rintro t ⟨ht, hwaiting⟩ p hp
      refine ⟨ih (hchain.cons_cons (mem_parents_ancestry.1 hp)) hnew hwaiting ?_ ht,
        fun below hbelow => ?_⟩
      · rw [List.length_cons]
        omega
      · exact (walked_resolveWithin headers depth t p).below.contains (hwaiting below hbelow)

/-! ### Resolved trees -/

/-- A tree that agrees with the headers on all its classes and on all that is above them. -/
structure Resolved (headers : HeaderSource) (tree : Inheritance) : Prop where
  faithful : tree.Faithful headers
  closed : tree.ClosedBut []

theorem closedBut_empty (waiting : List String) : ClosedBut {} waiting := by
  intro name a h
  simp [find?_empty] at h

theorem resolved_empty : Resolved headers {} where
  faithful name a h := by simp [find?_empty] at h
  closed := closedBut_empty []

theorem resolved_resolve (hshort : headers.ShortPaths) {tree : Inheritance}
    (h : Resolved headers tree) (name : String) : Resolved headers (resolve headers tree name) where
  faithful := faithful_resolveWithin hshort maxHierarchyDepth (List.isChain_singleton _) .nil
    (by simp) (by simp) h.faithful
  closed := (walked_resolveWithin headers _ tree name).closed h.closed

theorem resolved_foldl_resolve (hshort : headers.ShortPaths) (names : List String)
    {tree : Inheritance} (h : Resolved headers tree) :
    Resolved headers (names.foldl (resolve headers) tree) :=
  List.foldlRecOn names _ h fun _ ht name _ => resolved_resolve hshort ht name

theorem Resolved.find? {tree : Inheritance} (h : Resolved headers tree) {name : String}
    (hname : tree.contains name = true) : tree.find? name = some (headers.ancestry name) := by
  obtain ⟨a, ha⟩ := contains_iff.1 hname
  rw [ha, h.faithful name a ha]

theorem Resolved.contains_of_linked {tree : Inheritance} (h : Resolved headers tree)
    {name parent : String} (hname : tree.contains name = true)
    (hlink : headers.Linked name parent) : tree.contains parent = true :=
  h.closed name _ (h.find? hname) (by simp) parent (mem_parents_ancestry.2 hlink)

theorem Resolved.contains_of_reach {tree : Inheritance} (h : Resolved headers tree)
    {name above : String} (hname : tree.contains name = true)
    (hreach : ReflTransGen headers.Linked name above) : tree.contains above = true := by
  induction hreach with
  | refl => exact hname
  | tail _ hlink ih => exact h.contains_of_linked ih hlink

/-! ### Search orders -/

theorem listOnto_of_mem {tree : Inheritance} {name : String} {order : List String}
    (h : name ∈ order) (rest : List String) :
    tree.listOnto (name :: rest) order = tree.listOnto rest order := by
  rw [listOnto, dif_pos h]

theorem listOnto_of_find? {tree : Inheritance} {name : String} {order : List String} {a : Ancestry}
    (h : name ∉ order) (ha : tree.find? name = some a) (rest : List String) :
    tree.listOnto (name :: rest) order = tree.listOnto (a.parents ++ rest) (name :: order) := by
  rw [listOnto, dif_neg h]
  split
  · next hnone => simp [hnone] at ha
  · next b hb =>
    obtain rfl : b = a := Option.some.inj (hb.symm.trans ha)
    rfl

theorem listOnto_of_none {tree : Inheritance} {name : String} {order : List String}
    (h : name ∉ order) (ha : tree.find? name = none) (rest : List String) :
    tree.listOnto (name :: rest) order = tree.listOnto rest order := by
  rw [listOnto, dif_neg h]
  split
  · rfl
  · next b hb => simp [hb] at ha

/-- Two resolved trees list what is above their common classes in the same order. -/
theorem listOnto_eq {tree tree' : Inheritance} (h : Resolved headers tree)
    (h' : Resolved headers tree') {pending order : List String}
    (hpending : ∀ name ∈ pending, tree.contains name = true ∧ tree'.contains name = true) :
    tree.listOnto pending order = tree'.listOnto pending order := by
  induction pending, order using listOnto.induct tree with
  | case1 order => rw [listOnto, listOnto]
  | case2 order name rest hmem ih =>
    rw [listOnto_of_mem hmem, listOnto_of_mem hmem]
    exact ih fun n hn => hpending n (by simp [hn])
  | case3 order name rest hmem hnone ih =>
    -- only a class without a node is skipped
    obtain ⟨a, ha⟩ := contains_iff.1 (hpending name (by simp)).1
    simp [hnone] at ha
  | case4 order name rest hmem a ha _ ih =>
    obtain ⟨hname, hname'⟩ := hpending name (by simp)
    obtain rfl := h.faithful name a ha
    rw [listOnto_of_find? hmem ha, listOnto_of_find? hmem (h'.find? hname')]
    refine ih fun n hn => ?_
    rcases List.mem_append.1 hn with hn | hn
    · have hlink := mem_parents_ancestry.1 hn
      exact ⟨h.contains_of_linked hname hlink, h'.contains_of_linked hname' hlink⟩
    · exact hpending n (by simp [hn])

theorem searchOrder_eq {tree tree' : Inheritance} (h : Resolved headers tree)
    (h' : Resolved headers tree') {name : String} (hname : tree.contains name = true)
    (hname' : tree'.contains name = true) : tree.searchOrder name = tree'.searchOrder name :=
  listOnto_eq h h' (by simp [hname, hname'])

end Resolving

theorem listOnto_append (tree : Inheritance) (pending rest order : List String) :
    tree.listOnto (pending ++ rest) order =
      tree.listOnto rest (tree.listOnto pending order).reverse := by
  induction pending, order using listOnto.induct tree with
  | case1 order =>
    rw [listOnto, List.reverse_reverse]
    rfl
  | case2 order name more hmem ih =>
    rw [List.cons_append, listOnto_of_mem hmem, listOnto_of_mem hmem, ih]
  | case3 order name more hmem hnone ih =>
    rw [List.cons_append, listOnto_of_none hmem hnone, listOnto_of_none hmem hnone, ih]
  | case4 order name more hmem a ha _ ih =>
    rw [List.cons_append, listOnto_of_find? hmem ha, listOnto_of_find? hmem ha, ← ih,
      List.append_assoc]

theorem prefix_listOnto (tree : Inheritance) (pending order : List String) :
    order.reverse <+: tree.listOnto pending order := by
  induction pending, order using listOnto.induct tree with
  | case1 order => simp only [listOnto, List.prefix_rfl]
  | case2 order name more hmem ih => rwa [listOnto_of_mem hmem]
  | case3 order name more hmem hnone ih => rwa [listOnto_of_none hmem hnone]
  | case4 order name more hmem a ha _ ih =>
    rw [listOnto_of_find? hmem ha]
    rw [List.reverse_cons] at ih
    exact (List.prefix_append _ _).trans ih

/-- Classes that were listed before and that the walk never meets stay in front. -/
theorem listOnto_append_apart {tree : Inheritance} (met : String → Prop)
    (hmet : ∀ name a, tree.find? name = some a → met name → ∀ p ∈ a.parents, met p)
    {pending : List String} (hpending : ∀ name ∈ pending, met name) (order : List String)
    {earlier : List String} (hearlier : ∀ name ∈ earlier, ¬ met name) :
    tree.listOnto pending (order ++ earlier) = earlier.reverse ++ tree.listOnto pending order := by
  induction pending, order using listOnto.induct tree with
  | case1 order => rw [listOnto, listOnto, List.reverse_append]
  | case2 order name rest hmem ih =>
    rw [listOnto_of_mem (List.mem_append_left _ hmem), listOnto_of_mem hmem]
    exact ih fun n hn => hpending n (by simp [hn])
  | case3 order name rest hmem hnone ih =>
    have hnew : name ∉ order ++ earlier := by
      simpa [hmem] using fun h => hearlier name h (hpending name (by simp))
    rw [listOnto_of_none hnew hnone, listOnto_of_none hmem hnone]
    exact ih fun n hn => hpending n (by simp [hn])
  | case4 order name rest hmem a ha _ ih =>
    have hname := hpending name (by simp)
    have hnew : name ∉ order ++ earlier := by
      simpa [hmem] using fun h => hearlier name h hname
    rw [listOnto_of_find? hnew ha, listOnto_of_find? hmem ha]
    refine ih fun n hn => ?_
    rcases List.mem_append.1 hn with hn | hn
    · exact hmet name a ha hname n hn
    · exact hpending n (by simp [hn])

/-! ### What a search order lists -/

def Parent (tree : Inheritance) (name parent : String) : Prop :=
  ∃ a, tree.find? name = some a ∧ parent ∈ a.parents

theorem nodup_listOnto {tree : Inheritance} {pending order : List String} (h : order.Nodup) :
    (tree.listOnto pending order).Nodup := by
  induction pending, order using listOnto.induct tree with
  | case1 order => simpa [listOnto] using h
  | case2 order name rest hmem ih =>
    rw [listOnto_of_mem hmem]
    exact ih h
  | case3 order name rest hmem hnone ih =>
    rw [listOnto_of_none hmem hnone]
    exact ih h
  | case4 order name rest hmem a ha _ ih =>
    rw [listOnto_of_find? hmem ha]
    exact ih (List.nodup_cons.2 ⟨hmem, h⟩)

theorem reach_of_mem_listOnto {tree : Inheritance} {pending order : List String} {other : String}
    (h : other ∈ tree.listOnto pending order) :
    other ∈ order ∨ ∃ name ∈ pending, ReflTransGen tree.Parent name other := by
  induction pending, order using listOnto.induct tree with
  | case1 order =>
    rw [listOnto, List.mem_reverse] at h
    exact .inl h
  | case2 order name rest hmem ih =>
    rw [listOnto_of_mem hmem] at h
    simpa using (ih h).imp_right .inr
  | case3 order name rest hmem hnone ih =>
    rw [listOnto_of_none hmem hnone] at h
    simpa using (ih h).imp_right .inr
  | case4 order name rest hmem a ha _ ih =>
    rw [listOnto_of_find? hmem ha] at h
    rcases ih h with hlisted | ⟨via, hvia, hreach⟩
    · rcases List.mem_cons.1 hlisted with rfl | hlisted
      · exact .inr ⟨other, by simp, .refl⟩
      · exact .inl hlisted
    · rcases List.mem_append.1 hvia with hparent | hrest
      · exact .inr ⟨name, by simp, .head ⟨a, ha, hparent⟩ hreach⟩
      · exact .inr ⟨via, by simp [hrest], hreach⟩

theorem contains_pending {tree : Inheritance} (htree : tree.ClosedBut []) {name : String}
    {a : Ancestry} (ha : tree.find? name = some a) {rest : List String}
    (hpending : ∀ n ∈ name :: rest, tree.contains n = true) :
    ∀ n ∈ a.parents ++ rest, tree.contains n = true := by
  intro n hn
  rcases List.mem_append.1 hn with hn | hn
  · exact htree name a ha (by simp) n hn
  · exact hpending n (by simp [hn])

theorem subset_listOnto {tree : Inheritance} (htree : tree.ClosedBut [])
    {pending order : List String} (hpending : ∀ name ∈ pending, tree.contains name = true) :
    pending ⊆ tree.listOnto pending order := by
  induction pending, order using listOnto.induct tree with
  | case1 order => exact List.nil_subset _
  | case2 order name rest hmem ih =>
    have hname := (prefix_listOnto tree rest order).subset (List.mem_reverse.2 hmem)
    rw [listOnto_of_mem hmem]
    exact List.cons_subset.2 ⟨hname, ih fun n hn => hpending n (by simp [hn])⟩
  | case3 order name rest hmem hnone ih =>
    obtain ⟨a, ha⟩ := contains_iff.1 (hpending name (by simp))
    simp [hnone] at ha
  | case4 order name rest hmem a ha _ ih =>
    have hname : name ∈ tree.listOnto (a.parents ++ rest) (name :: order) :=
      (prefix_listOnto tree _ _).subset (by simp)
    rw [listOnto_of_find? hmem ha]
    have hrest := (List.append_subset.1 (ih (contains_pending htree ha hpending))).2
    exact List.cons_subset.2 ⟨hname, hrest⟩

/-- The parents of a listed class are listed or pending all the time, so all of them are listed in
the end. -/
theorem parent_mem_listOnto {tree : Inheritance} (htree : tree.ClosedBut [])
    {pending order : List String} (hpending : ∀ name ∈ pending, tree.contains name = true)
    (horder : ∀ name ∈ order, ∀ p, tree.Parent name p → p ∈ order ∨ p ∈ pending)
    {name p : String} (hname : name ∈ tree.listOnto pending order) (hp : tree.Parent name p) :
    p ∈ tree.listOnto pending order := by
  induction pending, order using listOnto.induct tree with
  | case1 order =>
    rw [listOnto, List.mem_reverse] at hname ⊢
    simpa using horder name hname p hp
  | case2 order first rest hmem ih =>
    rw [listOnto_of_mem hmem] at hname ⊢
    refine ih (fun n hn => hpending n (by simp [hn])) (fun n hn q hq => ?_) hname
    rcases horder n hn q hq with hlisted | hwaiting
    · exact .inl hlisted
    · rcases List.mem_cons.1 hwaiting with rfl | hwaiting
      · exact .inl hmem
      · exact .inr hwaiting
  | case3 order first rest hmem hnone ih =>
    obtain ⟨a, ha⟩ := contains_iff.1 (hpending first (by simp))
    simp [hnone] at ha
  | case4 order first rest hmem a ha _ ih =>
    rw [listOnto_of_find? hmem ha] at hname ⊢
    refine ih (contains_pending htree ha hpending) (fun n hn q hq => ?_) hname
    rcases List.mem_cons.1 hn with rfl | hn
    · obtain ⟨b, hb, hq⟩ := hq
      obtain rfl : b = a := Option.some.inj (hb.symm.trans ha)
      exact .inr (by simp [hq])
    · have hold := horder n hn q hq
      simp only [List.mem_cons, List.mem_append] at hold ⊢
      tauto

theorem mem_searchOrder {tree : Inheritance} (htree : tree.ClosedBut []) {name : String}
    (hname : tree.contains name = true) {other : String} :
    other ∈ tree.searchOrder name ↔ ReflTransGen tree.Parent name other := by
  have hpending : ∀ n ∈ [name], tree.contains n = true := by simpa using hname
  constructor
  · intro hmem
    simpa using reach_of_mem_listOnto hmem
  · intro hreach
    induction hreach with
    | refl => exact subset_listOnto htree hpending (by simp)
    | tail _ hp ih => exact parent_mem_listOnto htree hpending (by simp) ih hp

theorem Resolved.mem_searchOrder {headers : HeaderSource} {tree : Inheritance}
    (h : Resolved headers tree) {name : String} (hname : tree.contains name = true)
    {other : String} :
    other ∈ tree.searchOrder name ↔ ReflTransGen headers.Linked name other := by
  rw [Inheritance.mem_searchOrder h.closed hname]
  constructor
  · refine ReflTransGen.mono (fun n p hp => ?_) _ _
    obtain ⟨a, ha, hp⟩ := hp
    obtain rfl := h.faithful n a ha
    exact mem_parents_ancestry.1 hp
  · intro hreach
    induction hreach with
    | refl => exact .refl
    | tail hreach hlink ih =>
      have hfind := h.find? (h.contains_of_reach hname hreach)
      exact ih.tail ⟨_, hfind, mem_parents_ancestry.2 hlink⟩

theorem nodup_searchOrder (tree : Inheritance) (name : String) : (tree.searchOrder name).Nodup :=
  nodup_listOnto List.nodup_nil

end Inheritance

end ClassArchive
