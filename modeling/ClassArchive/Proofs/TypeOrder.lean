import ClassArchive.Frame.Merge
import ClassArchive.Proofs.Outcome
import Mathlib.Data.List.Forall2
import Mathlib.Logic.Relation

/-!
The order of verification types over a loader, and the joins as upper bounds in it. The loader is
arbitrary: its links may form cycles and its nodes may name classes that it does not know.
-/
set_option autoImplicit false

namespace ClassArchive

def elementName? (name : String) : Option String :=
  match name.toList with
  | '[' :: element =>
      if isReference element then some (String.ofList (typeName element)) else none
  | _ => none

theorem elementName?_arrayOf (name : String) : elementName? (arrayOf name) = some name := by
  unfold arrayOf
  split
  · next hhead =>
    obtain ⟨cs, hcs⟩ := List.head?_eq_some_iff.1 hhead
    have hlist : ("[" ++ name).toList = '[' :: '[' :: cs := by simp [hcs]
    have hname : String.ofList ('[' :: cs) = name := by rw [← hcs, String.ofList_toList]
    have htype : typeName ('[' :: cs) = '[' :: cs := by simp [typeName]
    simp only [elementName?, hlist, isReference, ↓reduceIte, htype, hname]
  · have hlist : ("[L" ++ name ++ ";").toList = '[' :: 'L' :: (name.toList ++ [';']) := by simp
    simp only [elementName?, hlist, isReference, typeName, List.getLast?_concat, ↓reduceIte,
      List.dropLast_concat, String.ofList_toList]

theorem elementName?_bracket {element : List Char} (h : isReference element = true) :
    elementName? (String.ofList ('[' :: element)) = some (String.ofList (typeName element)) := by
  simp only [elementName?, String.toList_ofList, h, ↓reduceIte]

namespace Loader

open Relation

/-- The least preorder in which every type is below the top type, null is below every class and
array, a class is below its parents, every class and array is below the root, and arrays of
references are ordered as their elements are. -/
inductive Below (load : Loader) : VerificationType → VerificationType → Prop where
  | refl (a : VerificationType) : Below load a a
  | trans {a b c : VerificationType} : Below load a b → Below load b c → Below load a c
  | top (a : VerificationType) : Below load a .top
  | null (name : String) : Below load .null (.object name)
  | parent {name parent : String} {node : TypeNode} : load name = some node →
      parent ∈ node.parents → Below load (.object name) (.object parent)
  | root (name : String) : Below load (.object name) (.object objectClass)
  | array {a b x y : String} : elementName? a = some x → elementName? b = some y →
      Below load (.object x) (.object y) → Below load (.object a) (.object b)

variable {load : Loader}

/-! ### Walks up the hierarchy -/

def Link (load : Loader) (name parent : String) : Prop :=
  ∃ node, load name = some node ∧ parent ∈ node.parents

theorem below_of_linked {a b : String} (h : ReflTransGen load.Link a b) :
    load.Below (.object a) (.object b) := by
  induction h with
  | refl => exact .refl _
  | tail _ hlink ih =>
    obtain ⟨node, hnode, hparent⟩ := hlink
    exact .trans ih (.parent hnode hparent)

theorem linked_foldl_searchFrom {target : String} {depth : Nat}
    (ih : ∀ (search : Search) (name : String),
      (searchFrom load target depth search name).found = true →
        search.found = true ∨ ReflTransGen load.Link name target)
    (names : List String) (search : Search)
    (h : (names.foldl (searchFrom load target depth) search).found = true) :
    search.found = true ∨ ∃ name ∈ names, ReflTransGen load.Link name target := by
  induction names generalizing search with
  | nil => exact .inl h
  | cons name names ihn =>
    rcases ihn _ h with hstep | ⟨p, hp, hlinked⟩
    · rcases ih _ _ hstep with hfound | hlinked
      · exact .inl hfound
      · exact .inr ⟨name, by simp, hlinked⟩
    · exact .inr ⟨p, by simp [hp], hlinked⟩

theorem linked_searchFrom {target : String} (depth : Nat) (search : Search) (name : String)
    (h : (searchFrom load target depth search name).found = true) :
    search.found = true ∨ ReflTransGen load.Link name target := by
  induction depth generalizing search name with
  | zero =>
    unfold searchFrom at h
    split at h
    · exact .inl h
    · split at h
      · next heq => exact .inr (heq ▸ .refl)
      · exact .inl h
  | succ depth ih =>
    unfold searchFrom at h
    split at h
    · exact .inl h
    · split at h
      · next heq => exact .inr (heq ▸ .refl)
      · dsimp only at h
        split at h
        · exact .inl h
        · split at h
          · exact .inl h
          · next node hnode =>
            rcases linked_foldl_searchFrom ih _ _ h with hfound | ⟨p, hp, hlinked⟩
            · exact .inl hfound
            · exact .inr (.head ⟨node, hnode, List.mem_reverse.1 hp⟩ hlinked)

theorem linked_of_isAssignable {target source : String}
    (h : load.isAssignable target source = true) :
    target = objectClass ∨ ReflTransGen load.Link source target := by
  simp only [isAssignable, Bool.or_eq_true, decide_eq_true_eq] at h
  rcases h with (rfl | rfl) | h
  · exact .inr .refl
  · exact .inl rfl
  · rcases linked_searchFrom _ _ _ h with hfound | hlinked
    · cases hfound
    · exact .inr hlinked

theorem mem_of_chainOnto_root {depth : Nat} {under chain : List String}
    (h : chainOnto load depth under objectClass = .ok chain) :
    ∀ x ∈ chain, x ∈ under ∨ x = objectClass := by
  unfold chainOnto at h
  rw [if_pos rfl] at h
  cases h
  intro x hx
  simpa using hx

theorem linked_chainOnto (depth : Nat) (under : List String) (name : String) (chain : List String)
    (h : chainOnto load depth under name = .ok chain) :
    ∀ x ∈ chain, x ∈ under ∨ x = objectClass ∨ ReflTransGen load.Link name x := by
  by_cases hroot : name = objectClass
  · subst hroot
    exact fun x hx => (mem_of_chainOnto_root h x hx).imp_right .inl
  · induction depth generalizing under name with
    | zero =>
      unfold chainOnto at h
      rw [if_neg hroot] at h
      cases h
    | succ depth ih =>
      unfold chainOnto at h
      rw [if_neg hroot] at h
      dsimp only at h
      split at h
      · cases h
      · split at h
        · cases h
        · next node hnode =>
          have hlast : ∀ x ∈ chain, x ∈ name :: under ∨ x = objectClass ∨
              ∃ parent, load.Link name parent ∧ ReflTransGen load.Link parent x := by
            intro x hx
            by_cases hnext : node.superName.getD objectClass = objectClass
            · rw [hnext] at h
              exact (mem_of_chainOnto_root h x hx).imp_right .inl
            · have hparent : load.Link name (node.superName.getD objectClass) := by
                cases hsuper : node.superName with
                | none => simp [hsuper] at hnext
                | some parent => exact ⟨node, hnode, by simp [TypeNode.parents, hsuper]⟩
              rcases ih _ _ h hnext x hx with hunder | hobject | hlinked
              · exact .inl hunder
              · exact .inr (.inl hobject)
              · exact .inr (.inr ⟨_, hparent, hlinked⟩)
          intro x hx
          rcases hlast x hx with hunder | hobject | ⟨parent, hlink, hlinked⟩
          · rcases List.mem_cons.1 hunder with rfl | hunder
            · exact .inr (.inr .refl)
            · exact .inl hunder
          · exact .inr (.inl hobject)
          · exact .inr (.inr (.head hlink hlinked))

theorem linked_superclassChain {name : String} {chain : List String}
    (h : load.superclassChain name = .ok chain) {x : String} (hx : x ∈ chain) :
    x = objectClass ∨ ReflTransGen load.Link name x := by
  rcases linked_chainOnto _ _ _ _ h x hx with hunder | hlinked
  · cases hunder
  · exact hlinked

/-! ### Joins -/

theorem linked_commonSuperClass {a b c : String} (h : load.commonSuperClass a b = .ok c) :
    c = objectClass ∨ (ReflTransGen load.Link a c ∧ ReflTransGen load.Link b c) := by
  unfold commonSuperClass at h
  split at h
  · next heq =>
    cases h
    subst heq
    exact .inr ⟨.refl, .refl⟩
  · split at h
    · cases h
      exact .inl rfl
    · obtain ⟨nodeA, _, h⟩ := bind_eq_ok.1 h
      obtain ⟨nodeB, _, h⟩ := bind_eq_ok.1 h
      split at h
      · split at h
        · next hassign =>
          cases h
          exact (linked_of_isAssignable (Bool.and_eq_true_iff.1 hassign).2).imp_right
            fun hlinked => ⟨.refl, hlinked⟩
        · split at h
          · next hassign =>
            cases h
            exact (linked_of_isAssignable (Bool.and_eq_true_iff.1 hassign).2).imp_right
              fun hlinked => ⟨hlinked, .refl⟩
          · cases h
            exact .inl rfl
      · obtain ⟨chainB, hB, h⟩ := bind_eq_ok.1 h
        obtain ⟨chainA, hA, h⟩ := bind_eq_ok.1 h
        cases h
        cases hfind : chainA.find? (· ∈ chainB) with
        | none => exact .inl rfl
        | some x =>
          have hxB : x ∈ chainB := by simpa using List.find?_some hfind
          rcases linked_superclassChain hA (List.mem_of_find?_eq_some hfind) with hx | hlinkedA
          · exact .inl hx
          · exact (linked_superclassChain hB hxB).imp_right fun hlinkedB => ⟨hlinkedA, hlinkedB⟩

theorem below_commonSuperClass {a b c : String} (h : load.commonSuperClass a b = .ok c) :
    load.Below (.object a) (.object c) ∧ load.Below (.object b) (.object c) := by
  rcases linked_commonSuperClass h with rfl | ⟨ha, hb⟩
  · exact ⟨.root a, .root b⟩
  · exact ⟨below_of_linked ha, below_of_linked hb⟩

theorem below_mergeNames (a b : List Char) (c : String) (h : load.mergeNames a b = .ok c) :
    load.Below (.object (String.ofList a)) (.object c) ∧
      load.Below (.object (String.ofList b)) (.object c) := by
  fun_induction mergeNames load a b generalizing c with
  | case1 a =>
    cases h
    exact ⟨.refl _, .refl _⟩
  | case2 ea eb href _ _ ih =>
    obtain ⟨element, helement, rfl⟩ := map_eq_ok.1 h
    obtain ⟨ha, hb⟩ := Bool.and_eq_true_iff.1 href
    obtain ⟨hbelowA, hbelowB⟩ := ih _ helement
    exact ⟨.array (elementName?_bracket ha) (elementName?_arrayOf element) hbelowA,
      .array (elementName?_bracket hb) (elementName?_arrayOf element) hbelowB⟩
  | case3 | case4 | case5 =>
    cases h
    exact ⟨.root _, .root _⟩
  | case6 a b => exact below_commonSuperClass h

theorem below_mergeType {a b c : VerificationType} (h : load.mergeType a b = .ok c) :
    load.Below a c ∧ load.Below b c := by
  unfold mergeType at h
  split at h
  · next heq =>
    cases h
    subst heq
    exact ⟨.refl _, .refl _⟩
  · split at h
    · cases h
      exact ⟨.null _, .refl _⟩
    · cases h
      exact ⟨.refl _, .null _⟩
    · next x y _ =>
      obtain ⟨name, hname, rfl⟩ := map_eq_ok.1 h
      simpa using below_mergeNames _ _ _ hname
    · cases h
      exact ⟨.top _, .top _⟩

theorem below_mergeTypes {as bs cs : List VerificationType} (hlength : as.length = bs.length)
    (h : load.mergeTypes as bs = .ok cs) :
    List.Forall₂ load.Below as cs ∧ List.Forall₂ load.Below bs cs := by
  induction as generalizing bs cs with
  | nil =>
    cases bs with
    | nil =>
      cases h
      exact ⟨.nil, .nil⟩
    | cons b bs => simp at hlength
  | cons a as ih =>
    cases bs with
    | nil => simp at hlength
    | cons b bs =>
      obtain ⟨c, hc, h⟩ := bind_eq_ok.1 h
      obtain ⟨cs, hcs, h⟩ := bind_eq_ok.1 h
      cases h
      obtain ⟨ha, hb⟩ := below_mergeType hc
      obtain ⟨has, hbs⟩ := ih (by simpa using hlength) hcs
      exact ⟨.cons ha has, .cons hb hbs⟩

/-! ### Frames -/

structure FrameBelow (load : Loader) (f g : Frame) : Prop where
  locals : List.Forall₂ load.Below f.locals g.locals
  stack : List.Forall₂ load.Below f.stack g.stack

theorem forall₂_below_trans {as bs cs : List VerificationType}
    (hab : List.Forall₂ load.Below as bs) (hbc : List.Forall₂ load.Below bs cs) :
    List.Forall₂ load.Below as cs := by
  induction hab generalizing cs with
  | nil => exact hbc
  | cons hab _ ih =>
    cases hbc with
    | cons hbc htail => exact .cons (.trans hab hbc) (ih htail)

theorem FrameBelow.refl (f : Frame) : load.FrameBelow f f :=
  ⟨List.forall₂_same.2 fun a _ => .refl a, List.forall₂_same.2 fun a _ => .refl a⟩

theorem FrameBelow.trans {f g h : Frame} (hfg : load.FrameBelow f g) (hgh : load.FrameBelow g h) :
    load.FrameBelow f h :=
  ⟨forall₂_below_trans hfg.locals hgh.locals, forall₂_below_trans hfg.stack hgh.stack⟩

theorem mergeFrames_eq_ok {pc : Nat} {f g merged : Frame}
    (h : load.mergeFrames pc f g = .ok merged) :
    f.stack.length = g.stack.length ∧ load.mergeTypes f.locals g.locals = .ok merged.locals ∧
      load.mergeTypes f.stack.reverse g.stack.reverse = .ok merged.stack.reverse := by
  unfold mergeFrames at h
  split at h
  · cases h
  · next hlength =>
    obtain ⟨locals, hlocals, h⟩ := bind_eq_ok.1 h
    obtain ⟨stack, hstack, h⟩ := bind_eq_ok.1 h
    cases h
    exact ⟨by simpa using hlength, hlocals, by simpa using hstack⟩

theorem frameBelow_mergeFrames {pc : Nat} {f g merged : Frame}
    (hlocals : f.locals.length = g.locals.length)
    (h : load.mergeFrames pc f g = .ok merged) :
    load.FrameBelow f merged ∧ load.FrameBelow g merged := by
  obtain ⟨hstack, hl, hs⟩ := mergeFrames_eq_ok h
  obtain ⟨hfl, hgl⟩ := below_mergeTypes hlocals hl
  obtain ⟨hfs, hgs⟩ := below_mergeTypes (by simpa using hstack) hs
  exact ⟨⟨hfl, List.forall₂_reverse_iff.1 hfs⟩, ⟨hgl, List.forall₂_reverse_iff.1 hgs⟩⟩

end Loader

end ClassArchive
