import ClassArchive.Proofs.TypeOrder
import Mathlib.Data.List.Chain
import Mathlib.Data.List.Nodup
import Mathlib.Data.List.Perm.Subperm

/-!
Assignability is reachability. What a search finds can be reached by links, over every loader. Where
no path without a repeated name is as long as a walk may go, a walk is cut off only at a name that
it has followed before. So the names followed by a search that finds nothing are closed under links,
and the target is not above any of them.
-/
set_option autoImplicit false

namespace ClassArchive

open Relation

namespace Loader

def parentsOf (load : Loader) (name : String) : List String :=
  ((load name).map TypeNode.parents).getD []

/-- No path of links without a repeated name leads from the source over 256 links or more. -/
def ShortFrom (load : Loader) (source : String) : Prop :=
  ∀ names : List String, names.head? = some source → names.Nodup → names.IsChain load.Link →
    names.length ≤ maxHierarchyDepth

variable {load : Loader} {target : String}

theorem mem_parentsOf {name parent : String} :
    parent ∈ load.parentsOf name ↔ load.Link name parent := by
  unfold parentsOf Link
  cases load name <;> simp

theorem shortFrom_of_closed {source : String} (above : List String) (hsource : source ∈ above)
    (hclosed : ∀ name ∈ above, ∀ p ∈ load.parentsOf name, p ∈ above)
    (hfew : above.length ≤ maxHierarchyDepth) : load.ShortFrom source := by
  intro names hhead hnodup hchain
  have hsubset : names ⊆ above := by
    clear hnodup
    induction names generalizing source with
    | nil => exact List.nil_subset _
    | cons name names ih =>
      cases hhead
      refine List.cons_subset.2 ⟨hsource, ?_⟩
      cases names with
      | nil => exact List.nil_subset _
      | cons next names =>
        obtain ⟨hlink, hrest⟩ := List.isChain_cons_cons.1 hchain
        exact ih (hclosed name hsource next (mem_parentsOf.2 hlink)) rfl hrest
  exact (List.subperm_of_subset hnodup hsubset).length_le.trans hfew

/-! ### One name -/

theorem searchFrom_of_found {search : Search} (h : search.found = true) (depth : Nat)
    (name : String) : searchFrom load target depth search name = search := by
  cases depth <;> rw [searchFrom, if_pos h]

theorem searchFrom_target (depth : Nat) (seen : List String) :
    searchFrom load target depth ⟨false, seen⟩ target = ⟨true, seen⟩ := by
  cases depth <;> simp [searchFrom]

theorem searchFrom_of_cut {depth : Nat} {seen : List String} {name : String} (hne : name ≠ target)
    (h : depth = 0 ∨ name ∈ seen) :
    searchFrom load target depth ⟨false, seen⟩ name = ⟨false, seen⟩ := by
  cases depth with
  | zero => simp [searchFrom, hne]
  | succ depth =>
    have hseen : name ∈ seen := h.resolve_left (Nat.succ_ne_zero depth)
    simp [searchFrom, hne, hseen]

theorem searchFrom_of_followed {depth : Nat} {seen : List String} {name : String}
    (hne : name ≠ target) (hnew : name ∉ seen) :
    searchFrom load target (depth + 1) ⟨false, seen⟩ name =
      (load.parentsOf name).reverse.foldl (searchFrom load target depth)
        ⟨false, name :: seen⟩ := by
  rw [searchFrom]
  simp only [Bool.false_eq_true, if_false, hne, hnew, parentsOf]
  cases load name <;> rfl

theorem foldl_searchFrom_of_found {search : Search} (h : search.found = true) (depth : Nat)
    (names : List String) : names.foldl (searchFrom load target depth) search = search := by
  induction names with
  | nil => rfl
  | cons name names ih => rw [List.foldl_cons, searchFrom_of_found h, ih]

/-! ### What an unsuccessful search has followed -/

/-- The target was not followed, and of the names followed all but those that still wait have all
their parents followed. -/
structure Exhausted (load : Loader) (target : String) (waiting seen : List String) : Prop where
  apart : target ∉ seen
  closed : ∀ name ∈ seen, name ∉ waiting → ∀ p ∈ load.parentsOf name, p ∈ seen

/-- What becomes of the followed names when some more names are searched without success. -/
structure Searched (load : Loader) (target : String) (waiting names seen seen' : List String) :
    Prop where
  kept : seen ⊆ seen'
  followed : names ⊆ seen'
  exhausted : load.Exhausted target waiting seen → load.Exhausted target waiting seen'

theorem Searched.nil {waiting seen : List String} : load.Searched target waiting [] seen seen :=
  ⟨fun _ h => h, List.nil_subset _, fun h => h⟩

theorem Searched.cons {name : String} {waiting names seen mid seen' : List String}
    (h : load.Searched target waiting [name] seen mid)
    (h' : load.Searched target waiting names mid seen') :
    load.Searched target waiting (name :: names) seen seen' where
  kept := fun _ hx => h'.kept (h.kept hx)
  followed := List.cons_subset.2 ⟨h'.kept (h.followed (by simp)), h'.followed⟩
  exhausted hseen := h'.exhausted (h.exhausted hseen)

theorem Searched.of_mem {name : String} {waiting seen : List String} (h : name ∈ seen) :
    load.Searched target waiting [name] seen seen :=
  ⟨fun _ h => h, by simpa using h, fun h => h⟩

theorem Searched.of_parents {name : String} {waiting seen seen' : List String}
    (hne : name ≠ target)
    (h : load.Searched target (name :: waiting) (load.parentsOf name).reverse (name :: seen)
      seen') : load.Searched target waiting [name] seen seen' where
  kept := fun _ hx => h.kept (List.mem_cons_of_mem name hx)
  followed := by simpa using h.kept List.mem_cons_self
  exhausted hseen := by
    have hstart : load.Exhausted target (name :: waiting) (name :: seen) := by
      refine ⟨by simp [hne.symm, hseen.apart], fun other hother hwaiting p hp => ?_⟩
      obtain ⟨hother', hwaiting⟩ := not_or.1 (mt List.mem_cons.2 hwaiting)
      have hold := (List.mem_cons.1 hother).resolve_left hother'
      exact List.mem_cons_of_mem name (hseen.closed other hold hwaiting p hp)
    have hend := h.exhausted hstart
    refine ⟨hend.apart, fun other hother hwaiting p hp => ?_⟩
    by_cases hname : other = name
    · subst hname
      exact h.followed (List.mem_reverse.2 hp)
    · exact hend.closed other hother (by simp [hname, hwaiting]) p hp

theorem searched_foldl {depth : Nat} {waiting names : List String}
    (hsearch : ∀ name ∈ names, ∀ seen, waiting ⊆ seen →
      (searchFrom load target depth ⟨false, seen⟩ name).found = false →
        load.Searched target waiting [name] seen
          (searchFrom load target depth ⟨false, seen⟩ name).seen)
    {seen : List String} (hwaiting : waiting ⊆ seen)
    (h : (names.foldl (searchFrom load target depth) ⟨false, seen⟩).found = false) :
    load.Searched target waiting names seen
      (names.foldl (searchFrom load target depth) ⟨false, seen⟩).seen := by
  induction names generalizing seen with
  | nil => exact .nil
  | cons name names ih =>
    obtain ⟨hname, hnames⟩ := List.forall_mem_cons.1 hsearch
    rw [List.foldl_cons] at h ⊢
    rcases hfirst : searchFrom load target depth ⟨false, seen⟩ name with ⟨found, mid⟩
    rw [hfirst] at h
    cases found with
    | true =>
      rw [foldl_searchFrom_of_found rfl] at h
      cases h
    | false =>
      have hstep := hname seen hwaiting (by rw [hfirst])
      rw [hfirst] at hstep
      exact hstep.cons (ih hnames (fun _ hx => hstep.kept (hwaiting hx)) h)

/-- The names above which the search stands form a path from the source, the nearest first. At the
depth where a walk ends, a path to a name that is not on it would be too long. -/
theorem searched_searchFrom {source : String} (hshort : load.ShortFrom source) (depth : Nat)
    {name : String} {path seen : List String} (hfrom : (name :: path).getLast? = some source)
    (hchain : (name :: path).IsChain (flip load.Link)) (hnodup : path.Nodup)
    (hpath : path ⊆ seen) (hdepth : path.length + depth = maxHierarchyDepth)
    (h : (searchFrom load target depth ⟨false, seen⟩ name).found = false) :
    load.Searched target path [name] seen
      (searchFrom load target depth ⟨false, seen⟩ name).seen := by
  induction depth generalizing name path seen with
  | zero =>
    have hne : name ≠ target := by
      rintro rfl
      simp [searchFrom_target] at h
    rw [searchFrom_of_cut hne (.inl rfl)]
    by_cases hname : name ∈ path
    · exact .of_mem (hpath hname)
    · have hlong := hshort (name :: path).reverse
        (by rwa [List.head?_reverse]) (List.nodup_reverse.2 (List.nodup_cons.2 ⟨hname, hnodup⟩))
        (List.isChain_reverse.2 hchain)
      rw [List.length_reverse, List.length_cons] at hlong
      omega
  | succ depth ih =>
    have hne : name ≠ target := by
      rintro rfl
      simp [searchFrom_target] at h
    by_cases hseen : name ∈ seen
    · rw [searchFrom_of_cut hne (.inr hseen)]
      exact .of_mem hseen
    · rw [searchFrom_of_followed hne hseen] at h ⊢
      refine .of_parents hne (searched_foldl ?_ (List.cons_subset_cons name hpath) h)
      intro p hp seen' hpath' hfound
      have hlink := mem_parentsOf.1 (List.mem_reverse.1 hp)
      have hnew : (name :: path).Nodup := List.nodup_cons.2 ⟨fun hx => hseen (hpath hx), hnodup⟩
      refine ih ?_ (hchain.cons_cons hlink) hnew hpath' ?_ hfound
      · rwa [List.getLast?_cons_cons]
      · rw [List.length_cons]
        omega

theorem Exhausted.mem_of_linked {seen : List String} (h : load.Exhausted target [] seen)
    {name above : String} (hname : name ∈ seen) (hlinked : ReflTransGen load.Link name above) :
    above ∈ seen := by
  induction hlinked with
  | refl => exact hname
  | tail _ hlink ih => exact h.closed _ ih List.not_mem_nil _ (mem_parentsOf.2 hlink)

theorem found_searchFrom {source : String} (hshort : load.ShortFrom source)
    (h : ReflTransGen load.Link source target) :
    (searchFrom load target maxHierarchyDepth ⟨false, []⟩ source).found = true := by
  by_contra hfound
  rw [Bool.not_eq_true] at hfound
  have hsearched : load.Searched target [] [source] [] _ :=
    searched_searchFrom hshort maxHierarchyDepth rfl (List.isChain_singleton _) .nil
      (List.nil_subset _) (Nat.zero_add _) hfound
  have hend := hsearched.exhausted ⟨List.not_mem_nil, by simp⟩
  exact hend.apart (hend.mem_of_linked (hsearched.followed (by simp)) h)

/-! ### The search as a loop -/

structure Pursuit where
  pending : List (String × Nat)
  seen : List String := []
  deriving DecidableEq, Repr

def turn (load : Loader) (target : String) : Pursuit → Bool ⊕ Pursuit
  | ⟨[], _⟩ => .inl false
  | ⟨(name, links) :: pending, seen⟩ =>
      if name = target then .inl true
      else if maxHierarchyDepth ≤ links ∨ name ∈ seen then .inr ⟨pending, seen⟩
      else .inr ⟨(load.parentsOf name).reverse.map (·, links + 1) ++ pending, name :: seen⟩

def Turns (load : Loader) (target : String) (p q : Pursuit) : Prop := load.turn target p = .inr q

/-- What the turns spent on some names and on all above them come to: the answer if the target is
among them, otherwise the names that were pending behind them. -/
def Comes (load : Loader) (target : String) (p : Pursuit) (search : Search)
    (pending : List (String × Nat)) : Prop :=
  if search.found then
    ∃ q, ReflTransGen (load.Turns target) p q ∧ load.turn target q = .inl true
  else ReflTransGen (load.Turns target) p ⟨pending, search.seen⟩

theorem Comes.of_turns {p q : Pursuit} {search : Search} {pending : List (String × Nat)}
    (hturns : ReflTransGen (load.Turns target) p q) (h : load.Comes target q search pending) :
    load.Comes target p search pending := by
  unfold Comes at h ⊢
  split at h
  · next hfound =>
    obtain ⟨r, hrest, hanswer⟩ := h
    rw [if_pos hfound]
    exact ⟨r, hturns.trans hrest, hanswer⟩
  · next hfound =>
    rw [if_neg hfound]
    exact hturns.trans h

theorem comes_foldl {room links : Nat}
    (hcomes : ∀ name seen pending, load.Comes target ⟨(name, links) :: pending, seen⟩
      (searchFrom load target room ⟨false, seen⟩ name) pending)
    (names seen : List String) (pending : List (String × Nat)) :
    load.Comes target ⟨names.map (·, links) ++ pending, seen⟩
      (names.foldl (searchFrom load target room) ⟨false, seen⟩) pending := by
  induction names generalizing seen with
  | nil => exact .refl
  | cons name names ih =>
    have hname := hcomes name seen (names.map (·, links) ++ pending)
    rw [List.foldl_cons, List.map_cons, List.cons_append]
    rcases hfirst : searchFrom load target room ⟨false, seen⟩ name with ⟨found, mid⟩
    rw [hfirst] at hname
    cases found with
    | true =>
      rw [foldl_searchFrom_of_found rfl]
      exact hname
    | false => exact .of_turns hname (ih mid)

theorem comes_searchFrom {room links : Nat} (h : links + room = maxHierarchyDepth) (name : String)
    (seen : List String) (pending : List (String × Nat)) :
    load.Comes target ⟨(name, links) :: pending, seen⟩
      (searchFrom load target room ⟨false, seen⟩ name) pending := by
  induction room generalizing name seen pending links with
  | zero =>
    by_cases hname : name = target
    · subst hname
      rw [searchFrom_target]
      exact ⟨_, .refl, by simp [turn]⟩
    · rw [searchFrom_of_cut hname (.inl rfl)]
      have hcut : maxHierarchyDepth ≤ links ∨ name ∈ seen := .inl (by omega)
      exact .single (by simp [Turns, turn, hname, hcut])
  | succ room ih =>
    by_cases hname : name = target
    · subst hname
      rw [searchFrom_target]
      exact ⟨_, .refl, by simp [turn]⟩
    · by_cases hseen : name ∈ seen
      · rw [searchFrom_of_cut hname (.inr hseen)]
        exact .single (by simp [Turns, turn, hname, hseen])
      · have hgo : ¬ (maxHierarchyDepth ≤ links ∨ name ∈ seen) := by
          simp only [hseen, or_false]
          omega
        have hnext : links + 1 + room = maxHierarchyDepth := by omega
        rw [searchFrom_of_followed hname hseen]
        refine .of_turns (.single ?_) (comes_foldl (ih hnext) _ _ pending)
        simp only [Turns, turn, hname, hgo, if_false]

/-- The loop ends over every loader, with the answer that the search finds. -/
theorem exists_answer (load : Loader) (target source : String) :
    ∃ last, ReflTransGen (load.Turns target) ⟨[(source, 0)], []⟩ last ∧
      load.turn target last =
        .inl (searchFrom load target maxHierarchyDepth ⟨false, []⟩ source).found := by
  have hcomes : load.Comes target ⟨[(source, 0)], []⟩ _ [] :=
    comes_searchFrom (Nat.zero_add _) source [] []
  unfold Comes at hcomes
  split at hcomes
  · next hfound =>
    rw [hfound]
    exact hcomes
  · next hfound =>
    rw [Bool.not_eq_true] at hfound
    rw [hfound]
    exact ⟨_, hcomes, rfl⟩

/-! ### Assignability -/

/-- A type can be stored where the target is expected only if the target is the type itself, the
root, or above it. Unless a path from the type is as long as a walk may go, the converse holds. The
loop behind the answer ends over every loader. -/
theorem isAssignable_iff_linked (load : Loader) (target source : String) :
    (load.isAssignable target source = true →
      target = source ∨ target = objectClass ∨ TransGen load.Link source target) ∧
    (load.ShortFrom source →
      target = source ∨ target = objectClass ∨ TransGen load.Link source target →
      load.isAssignable target source = true) ∧
    ∃ last found, ReflTransGen (load.Turns target) ⟨[(source, 0)], []⟩ last ∧
      load.turn target last = .inl found ∧
      load.isAssignable target source = (target = source || target = objectClass || found) := by
  refine ⟨fun h => ?_, fun hshort h => ?_, ?_⟩
  · rcases linked_of_isAssignable h with hroot | hlinked
    · exact .inr (.inl hroot)
    · rcases reflTransGen_iff_eq_or_transGen.1 hlinked with heq | hlinked
      · exact .inl heq
      · exact .inr (.inr hlinked)
  · rcases h with heq | hroot | hlinked
    · simp [isAssignable, heq]
    · simp [isAssignable, hroot]
    · simp [isAssignable, found_searchFrom hshort hlinked.to_reflTransGen]
  · obtain ⟨last, hturns, hanswer⟩ := load.exists_answer target source
    exact ⟨last, _, hturns, hanswer, rfl⟩

/-- Two classes above each other, and two interfaces of which one is not known. -/
def ringed : Loader
  | "A" => some { name := "A", superName := "B", interfaces := ["I"] }
  | "B" => some { name := "B", superName := "A" }
  | "I" => some { name := "I", superName := objectClass, interfaces := ["J"], isInterface := true }
  | _ => none

theorem isAssignable_iff_linked_ringed : ringed.ShortFrom "B" ∧ TransGen ringed.Link "B" "J" ∧
    ringed.isAssignable "J" "B" = true ∧
    ringed.isAssignable "K" "B" = false ∧
    ∃ last, ReflTransGen (ringed.Turns "K") ⟨[("B", 0)], []⟩ last ∧
      ringed.turn "K" last = .inl false := by
  have hshort : ringed.ShortFrom "B" :=
    shortFrom_of_closed ["A", "B", "I", "J", objectClass] (by decide) (by decide) (by decide)
  have hlinked : TransGen ringed.Link "B" "J" := by
    have hBA : ringed.Link "B" "A" := mem_parentsOf.1 (by decide)
    have hAI : ringed.Link "A" "I" := mem_parentsOf.1 (by decide)
    have hIJ : ringed.Link "I" "J" := mem_parentsOf.1 (by decide)
    exact .tail (.tail (.single hBA) hAI) hIJ
  have hnot : ringed.isAssignable "K" "B" = false := by decide
  obtain ⟨last, found, hturns, hanswer, hfound⟩ := (isAssignable_iff_linked ringed "K" "B").2.2
  have hfalse : found = false := by
    rw [hnot] at hfound
    exact (Bool.or_eq_false_iff.1 hfound.symm).2
  exact ⟨hshort, hlinked, (isAssignable_iff_linked ringed "J" "B").2.1 hshort (.inr (.inr hlinked)),
    hnot, last, hturns, hfalse ▸ hanswer⟩

end Loader

end ClassArchive
