import ClassArchive.Proofs.ArchiveTree
import ClassArchive.Proofs.TransformedClass

/-!
Where a tree loses the parents of a class. A walk leaves the class at its last link without parents,
and as each class is added once, it stays without them even if its own entry comes later. All other
classes have the parents that their headers give them.
-/
set_option autoImplicit false

namespace ClassArchive

open Relation

/-- A path of links from one class to another that comes to no class twice. -/
structure HeaderSource.Path (headers : HeaderSource) (name other : String) (path : List String) :
    Prop where
  head : path.head? = some name
  last : path.getLast? = some other
  nodup : path.Nodup
  chain : path.IsChain headers.Linked

namespace Inheritance

variable {headers : HeaderSource}

/-! ### The way to a new class -/

/-- A walk from the first class comes to the second, which is not in the tree by then. The numbers
say how many links it may still follow at the one and at the other. -/
inductive Comes (headers : HeaderSource) : Nat → Inheritance → String → Nat → String → Prop where
  | here {room : Nat} {tree : Inheritance} {name : String} : ¬ tree.contains name = true →
      Comes headers room tree name room name
  | up {room left : Nat} {tree : Inheritance} {name parent other : String}
      {earlier later : List String} : ¬ tree.contains name = true →
      (headers.ancestry name).parents = earlier ++ parent :: later →
      Comes headers room
        (earlier.foldl (resolveWithin headers room) (tree.insert name (headers.ancestry name)))
        parent left other →
      Comes headers (room + 1) tree name left other

theorem below_foldl_resolveWithin (headers : HeaderSource) (room : Nat) (names : List String)
    (tree : Inheritance) : tree.Below (names.foldl (resolveWithin headers room) tree) :=
  (walked_foldl (walked_resolveWithin headers room) names tree).below

theorem Comes.find? {room : Nat} {tree : Inheritance} {name other : String}
    (h : Comes headers room tree name 0 other) :
    (resolveWithin headers room tree name).find? other = some {} := by
  generalize hleft : 0 = left at h
  induction h with
  | here hnew =>
    subst hleft
    rw [resolveWithin_zero hnew, find?_insert, if_pos rfl]
  | @up room left tree name parent other earlier later hnew hparents _ ih =>
    rw [resolveWithin_succ headers hnew, hparents, List.foldl_append, List.foldl_cons]
    exact below_foldl_resolveWithin headers room later _ other {} (ih hleft)

theorem exists_turn {α : Type} {visit : Inheritance → α → Inheritance} {items : List α}
    {tree : Inheritance} {other : String} (hnew : ¬ tree.contains other = true)
    (h : (items.foldl visit tree).contains other = true) :
    ∃ earlier item later, items = earlier ++ item :: later ∧
      ¬ (earlier.foldl visit tree).contains other = true ∧
      (visit (earlier.foldl visit tree) item).contains other = true := by
  induction items generalizing tree with
  | nil => exact absurd h hnew
  | cons item items ih =>
    by_cases hfirst : (visit tree item).contains other = true
    · exact ⟨[], item, items, rfl, hnew, hfirst⟩
    · obtain ⟨earlier, next, later, rfl, hturn⟩ := ih hfirst h
      exact ⟨item :: earlier, next, later, rfl, hturn⟩

/-- A new class has the parents of its header, or a walk came to it with no link left. -/
theorem find?_resolveWithin {room : Nat} {tree : Inheritance} {name other : String}
    (hnew : ¬ tree.contains other = true)
    (h : (resolveWithin headers room tree name).contains other = true) :
    (resolveWithin headers room tree name).find? other = some (headers.ancestry other) ∨
      Comes headers room tree name 0 other := by
  induction room generalizing tree name with
  | zero =>
    by_cases hname : tree.contains name = true
    · rw [resolveWithin_of_contains hname] at h
      exact absurd h hnew
    · rw [resolveWithin_zero hname, contains_insert] at h
      obtain rfl := h.resolve_right hnew
      exact .inr (.here hname)
  | succ room ih =>
    by_cases hname : tree.contains name = true
    · rw [resolveWithin_of_contains hname] at h
      exact absurd h hnew
    · rw [resolveWithin_succ headers hname] at h ⊢
      by_cases hother : name = other
      · subst hother
        refine .inl (below_foldl_resolveWithin headers room _ _ name _ ?_)
        rw [find?_insert, if_pos rfl]
      · have hinsert : ¬ (tree.insert name (headers.ancestry name)).contains other = true := by
          simp [contains_insert, hother, hnew]
        obtain ⟨earlier, parent, later, hparents, hbefore, hturn⟩ := exists_turn hinsert h
        rcases ih hbefore hturn with hfind | hcomes
        · left
          rw [hparents, List.foldl_append, List.foldl_cons]
          exact below_foldl_resolveWithin headers room later _ other _ hfind
        · exact .inr (.up hname hparents hcomes)

theorem Comes.exists_path {room left : Nat} {tree : Inheritance} {name other : String}
    (h : Comes headers room tree name left other) :
    ∃ path, headers.Path name other path ∧ path.length + left = room + 1 ∧
      ∀ x ∈ path, ¬ tree.contains x = true := by
  induction h with
  | @here room tree name hnew =>
    exact ⟨[name], ⟨rfl, rfl, by simp, by simp⟩, by simp [Nat.add_comm], by simpa using hnew⟩
  | @up room left tree name parent other earlier later hnew hparents _ ih =>
    obtain ⟨path, hpath, hlength, hfresh⟩ := ih
    have hinsert : ∀ x ∈ path, name ≠ x ∧ ¬ tree.contains x = true := by
      intro x hx
      have hnot := mt (below_foldl_resolveWithin headers room earlier _).contains (hfresh x hx)
      rwa [contains_insert, not_or] at hnot
    have hlink : headers.Linked name parent :=
      HeaderSource.mem_parents_ancestry.1 (by simp [hparents])
    obtain ⟨rest, rfl⟩ := List.head?_eq_some_iff.1 hpath.head
    refine ⟨name :: parent :: rest, ⟨rfl, ?_, ?_, ?_⟩, ?_, ?_⟩
    · rw [List.getLast?_cons_cons, hpath.last]
    · exact List.nodup_cons.2 ⟨fun hx => (hinsert name hx).1 rfl, hpath.nodup⟩
    · exact List.isChain_cons_cons.2 ⟨hlink, hpath.chain⟩
    · rw [List.length_cons]
      omega
    · exact List.forall_mem_cons.2 ⟨hnew, fun x hx => (hinsert x hx).2⟩

/-! ### The turns of the entries -/

/-- At the turn of some entry, the walk from its class comes to the given class, which no walk has
met before, over exactly as many links as a walk may go. -/
def CutShort (a : Archive) (dependencies : Layers) (name : String) : Prop :=
  ∃ earlier e later h, a.classEntries = earlier ++ e :: later ∧
    ClassHeader.decode e.bytes = .ok h ∧
    Comes (a.headers dependencies) maxHierarchyDepth
      (earlier.foldl (addEntry (a.headers dependencies)) {}) h.name 0 name

section Archives

variable {a : Archive} {dependencies : Layers} (hnamed : a.StoredByName)
include hnamed

theorem foldl_addEntry_append {earlier later : List Entry} {e : Entry} {h : ClassHeader}
    (hentries : a.classEntries = earlier ++ e :: later)
    (hdecode : ClassHeader.decode e.bytes = .ok h) :
    build a (a.headers dependencies) = later.foldl (addEntry (a.headers dependencies))
      (resolve (a.headers dependencies)
        (earlier.foldl (addEntry (a.headers dependencies)) {}) h.name) := by
  have he : e ∈ a.classEntries := by simp [hentries]
  rw [build, hentries, List.foldl_append, List.foldl_cons, addEntry_eq_resolve hdecode
    (Archive.headers_of_classEntry hnamed dependencies he hdecode)]

theorem below_foldl_addEntry {entries : List Entry} (hentries : ∀ e ∈ entries, e ∈ a.classEntries)
    (tree : Inheritance) :
    tree.Below (entries.foldl (addEntry (a.headers dependencies)) tree) := by
  rw [foldl_addEntry hnamed hentries]
  exact below_foldl_resolveWithin _ _ _ _

theorem contains_foldl {entries : List Entry} (hentries : ∀ e ∈ entries, e ∈ a.classEntries)
    {e : Entry} {h : ClassHeader} (he : e ∈ entries)
    (hdecode : ClassHeader.decode e.bytes = .ok h) :
    (entries.foldl (addEntry (a.headers dependencies)) {}).contains h.name = true := by
  have hown : h.name ∈ entries.filterMap ownName? :=
    List.mem_filterMap.2 ⟨e, he, by simp [ownName?, hdecode, Except.toOption]⟩
  rw [foldl_addEntry hnamed hentries]
  exact (walked_foldl (walked_resolveWithin _ maxHierarchyDepth) _ _).contains _ hown

theorem CutShort.find?_build {name : String} (h : CutShort a dependencies name) :
    (build a (a.headers dependencies)).find? name = some {} := by
  obtain ⟨earlier, e, later, h, hentries, hdecode, hcomes⟩ := h
  rw [foldl_addEntry_append hnamed hentries hdecode]
  exact below_foldl_addEntry hnamed (by simp +contextual [hentries]) _ name _ hcomes.find?

theorem find?_build {name : String}
    (hname : (build a (a.headers dependencies)).contains name = true) :
    (build a (a.headers dependencies)).find? name = some ((a.headers dependencies).ancestry name) ∨
      CutShort a dependencies name := by
  have hempty : ¬ ({} : Inheritance).contains name = true := by simp [contains_iff, find?_empty]
  obtain ⟨earlier, e, later, hentries, hbefore, hturn⟩ := exists_turn hempty hname
  cases hdecode : ClassHeader.decode e.bytes with
  | error _ =>
    rw [addEntry, hdecode] at hturn
    exact absurd hturn hbefore
  | ok h =>
    have he : e ∈ a.classEntries := by simp [hentries]
    rw [addEntry_eq_resolve hdecode (Archive.headers_of_classEntry hnamed dependencies he hdecode)]
      at hturn
    rcases find?_resolveWithin hbefore hturn with hfind | hcomes
    · left
      rw [foldl_addEntry_append hnamed hentries hdecode]
      exact below_foldl_addEntry hnamed (by simp +contextual [hentries]) _ name _ hfind
    · exact .inr ⟨earlier, e, later, h, hentries, hdecode, hcomes⟩

/-- The entry of a class that a walk was cut short at has its turn after the entry that the walk
started from, too late to give the class its parents. -/
theorem CutShort.exists_path {e : Entry} {h : ClassHeader} (he : e ∈ a.classEntries)
    (hdecode : ClassHeader.decode e.bytes = .ok h) (hcut : CutShort a dependencies h.name) :
    ∃ first start path, [first, e].Sublist a.classEntries ∧
      ClassHeader.decode first.bytes = .ok start ∧
      (a.headers dependencies).Path start.name h.name path ∧
      path.length = maxHierarchyDepth + 1 := by
  obtain ⟨earlier, first, later, start, hentries, hstart, hcomes⟩ := hcut
  obtain ⟨path, hpath, hlength, hfresh⟩ := hcomes.exists_path
  refine ⟨first, start, path, ?_, hstart, hpath, hlength⟩
  rw [hentries, List.mem_append, List.mem_cons] at he
  rcases he with hearlier | rfl | hlater
  · -- its turn would have put the class into the tree
    exact absurd (contains_foldl hnamed (by simp +contextual [hentries]) hearlier hdecode)
      (hfresh h.name (List.mem_of_getLast? hpath.last))
  · -- the walk would end where it starts
    obtain rfl : start = h := Except.ok.inj (hstart.symm.trans hdecode)
    obtain ⟨rest, rfl⟩ := List.head?_eq_some_iff.1 hpath.head
    cases rest with
    | nil => simp [maxHierarchyDepth] at hlength
    | cons next rest =>
      have hlast := hpath.last
      rw [List.getLast?_cons_cons] at hlast
      exact absurd (List.mem_of_getLast? hlast) (List.nodup_cons.1 hpath.nodup).1
  · rw [hentries]
    exact ((List.singleton_sublist.2 hlater).cons_cons first).trans (List.sublist_append_right _ _)

end Archives

theorem not_cutShort_of_shortPaths {a : Archive} {dependencies : Layers}
    (hshort : (a.headers dependencies).ShortPaths) (name : String) :
    ¬ CutShort a dependencies name := by
  rintro ⟨_, _, _, _, -, -, hcomes⟩
  obtain ⟨path, hpath, hlength, -⟩ := hcomes.exists_path
  have hle := hshort path hpath.nodup hpath.chain
  omega

theorem ofHeader_eq_empty {h : ClassHeader} : Ancestry.ofHeader h = {} ↔ h.parents = [] := by
  simp [Ancestry.ofHeader, ClassHeader.parents]

/-- In the tree of an archive that stores each class under its name, the node of each of its classes
has the superclass and the interfaces of the header of that class, unless the class has some and a
walk was cut short at it. Then the node has none, and the entry of the class comes after an entry
whose class is 256 links below. -/
theorem build_keeps_header_iff {a : Archive} {dependencies : Layers}
    (hnamed : a.StoredByName) {e : Entry} {h : ClassHeader} (he : e ∈ a.classEntries)
    (hdecode : ClassHeader.decode e.bytes = .ok h) :
    ((build a (a.headers dependencies)).find? h.name = some (.ofHeader h) ↔
      h.parents = [] ∨ ¬ CutShort a dependencies h.name) ∧
    (CutShort a dependencies h.name →
      (build a (a.headers dependencies)).find? h.name = some {} ∧
      ∃ first start path, [first, e].Sublist a.classEntries ∧
        ClassHeader.decode first.bytes = .ok start ∧
        (a.headers dependencies).Path start.name h.name path ∧
        path.length = maxHierarchyDepth + 1) := by
  refine ⟨?_, fun hcut => ⟨hcut.find?_build hnamed, hcut.exists_path hnamed he hdecode⟩⟩
  have hancestry : (a.headers dependencies).ancestry h.name = .ofHeader h := by
    rw [HeaderSource.ancestry, Archive.headers_of_classEntry hnamed dependencies he hdecode]
  have hfind : (build a (a.headers dependencies)).find? h.name = some (.ofHeader h) ∨
      CutShort a dependencies h.name := by
    rw [← hancestry]
    exact find?_build hnamed (contains_foldl hnamed (fun _ he => he) he hdecode)
  constructor
  · intro hnode
    by_cases hcut : CutShort a dependencies h.name
    · rw [hcut.find?_build hnamed, Option.some_inj] at hnode
      exact .inl (ofHeader_eq_empty.1 hnode.symm)
    · exact .inr hcut
  · rintro (hparents | hcut)
    · rcases hfind with hfind | hcut
      · exact hfind
      · rw [hcut.find?_build hnamed, ofHeader_eq_empty.2 hparents]
    · exact hfind.resolve_right hcut

theorem build_keeps_header_iff_tangled : tangled.StoredByName ∧
    plainEntry "a/X" "a/Y" ["a/J"] ∈ tangled.classEntries ∧
    ClassHeader.decode (plainEntry "a/X" "a/Y" ["a/J"]).bytes =
      .ok ⟨0, "a/X", some "a/Y", ["a/J"]⟩ ∧
    (build tangled (tangled.headers [tangledBase])).find? "a/X" =
      some { superName := some "a/Y", interfaces := ["a/J"] } := by
  have hnamed : tangled.StoredByName := by decide +kernel
  have he : plainEntry "a/X" "a/Y" ["a/J"] ∈ tangled.classEntries := by decide +kernel
  have hdecode : ClassHeader.decode (plainEntry "a/X" "a/Y" ["a/J"]).bytes =
      .ok ⟨0, "a/X", some "a/Y", ["a/J"]⟩ := by decide +kernel
  have hshort : (tangled.headers [tangledBase]).ShortPaths := Layers.shortPaths (by decide +kernel)
  exact ⟨hnamed, he, hdecode, (build_keeps_header_iff hnamed he hdecode).1.2
    (.inr (not_cutShort_of_shortPaths hshort "a/X"))⟩

/-! ### A class 256 links above another -/

def plainConstants (name superName : String) : List Constant :=
  [.utf8 name, .classInfo 1, .utf8 superName, .classInfo 3]

theorem wellFormed_plainConstants {name superName : String} (hname : (Constant.utf8 name).Fits)
    (hsuper : (Constant.utf8 superName).Fits) :
    (Pool.ofSlots (plainConstants name superName).toArray).WellFormed := by
  constructor <;> rw [Pool.slots_ofSlots]
  · simp [plainConstants, Pool.capacity]
  · have hpaired : Pool.Paired ((plainConstants name superName).flatMap Pool.filling) :=
      Pool.paired_flatMap_filling (by simp [plainConstants])
    exact hpaired
  · simpa [plainConstants, Constant.Fits] using ⟨hname, hsuper⟩

theorem className_plainConstants {name superName : String} {pool : Pool}
    (h : pool.slots = (plainConstants name superName).toArray) :
    pool.className 2 = .ok name ∧ pool.className 4 = .ok superName := by
  simp [Pool.className, Pool.text, Pool.entry, Pool.slot?, h, plainConstants, bind, Except.bind]

theorem decode_plainEntry {name superName : String} (hname : (Constant.utf8 name).Fits)
    (hsuper : (Constant.utf8 superName).Fits) :
    ClassHeader.decode (plainEntry name superName []).bytes =
      .ok { access := 0, name, superName := some superName, interfaces := [] } := by
  have hclass : ClassFile.WellFormed
      { pool := Pool.ofSlots (plainConstants name superName).toArray,
        thisClass := 2, superClass := 4 } :=
    ⟨wellFormed_plainConstants hname hsuper, by simp, by simp, by simp, by simp,
      by simp [Attribute.Fit]⟩
  obtain ⟨pool, hdecode, hslots⟩ := ClassFile.decode_encode_eq_ok hclass
  rw [Pool.slots_ofSlots] at hslots
  obtain ⟨hthis, hparent⟩ := className_plainConstants hslots
  refine (ClassFile.header_decode hdecode).trans ?_
  simp [ClassHeader.ofClassFile, ClassFile.name, ClassFile.superName, ClassFile.optionalName,
    ClassFile.interfaceNames, hthis, hparent, bind, Except.bind, pure, Except.pure, Functor.map,
    Except.map]

def rung (i : Nat) : String := .ofList [.ofNat (97 + i / 26), .ofNat (97 + i % 26)]

def rungEntry (i : Nat) : Entry := plainEntry (rung i) (rung (i + 1)) []

/-- Two classes of a line that goes through the classes of another archive from one to the other. -/
def lineEnds : Archive := .ofEntries "main" [rungEntry 0, rungEntry maxHierarchyDepth]

def lineBetween : Archive :=
  .ofEntries "base" ((List.range (maxHierarchyDepth - 1)).map fun i => rungEntry (i + 1))

theorem fits_rung : ∀ i ≤ maxHierarchyDepth + 1, (Constant.utf8 (rung i)).Fits := by
  decide +kernel

theorem decode_rungEntry (i : Nat) (hi : i ≤ maxHierarchyDepth) :
    ClassHeader.decode (rungEntry i).bytes =
      .ok { access := 0, name := rung i, superName := some (rung (i + 1)), interfaces := [] } :=
  decode_plainEntry (fits_rung i (by omega)) (fits_rung (i + 1) (by omega))

theorem rung_injective {i j : Nat} (hi : i < 676) (hj : j < 676) (h : rung i = rung j) : i = j := by
  have hletter : ∀ k < 26, (Char.ofNat (97 + k)).toNat = 97 + k := by decide
  have hletters := String.ofList_injective h
  simp only [List.cons.injEq, and_true] at hletters
  have hfirst := congrArg Char.toNat hletters.1
  have hsecond := congrArg Char.toNat hletters.2
  rw [hletter _ (by omega), hletter _ (by omega)] at hfirst hsecond
  omega

theorem rungEntry_name_ne {i j : Nat} (hi : i < 676) (hj : j < 676) (h : i ≠ j) :
    (rungEntry i).name ≠ (rungEntry j).name :=
  fun hname => h (rung_injective hi hj (classEntryName_injective hname))

theorem find?_lineEnds_of_between {i : Nat} (hi : 0 < i) (hi' : i < maxHierarchyDepth) :
    lineEnds.find? (rungEntry i).name = none := by
  have hbound : maxHierarchyDepth < 676 := by decide
  rw [lineEnds, Archive.ofEntries, Archive.find?_foldl_insert_of_ne]
  · simp [Archive.find?]
  · simp only [List.mem_cons, List.not_mem_nil, or_false, forall_eq_or_imp, forall_eq]
    exact ⟨rungEntry_name_ne (by omega) (by omega) (by omega),
      rungEntry_name_ne (by omega) (by omega) (by omega)⟩

theorem find?_lineEnds {i : Nat} (hi : i = 0 ∨ i = maxHierarchyDepth) :
    lineEnds.find? (rungEntry i).name = some (rungEntry i) := by
  refine Archive.find?_ofEntries "main" ?_ (by rcases hi with rfl | rfl <;> simp)
  have hne : (rungEntry 0).name ≠ (rungEntry maxHierarchyDepth).name :=
    rungEntry_name_ne (by decide) (by decide) (by decide)
  simpa using hne

theorem find?_lineBetween {i : Nat} (hi : 0 < i) (hi' : i < maxHierarchyDepth) :
    lineBetween.find? (rungEntry i).name = some (rungEntry i) := by
  have hbound : maxHierarchyDepth < 676 := by decide
  refine Archive.find?_ofEntries "base" ?_
    (List.mem_map.2 ⟨i - 1, ?_, by rw [Nat.sub_add_cancel hi]⟩)
  · rw [List.pairwise_map]
    refine List.nodup_range.imp_of_mem fun hj hk hne => ?_
    rw [List.mem_range] at hj hk
    exact rungEntry_name_ne (by omega) (by omega) (by omega)
  · rw [List.mem_range]
    omega

theorem headers_rung {i : Nat} (hi : i ≤ maxHierarchyDepth) :
    lineEnds.headers [lineBetween] (rung i) = some
      { access := 0, name := rung i, superName := some (rung (i + 1)), interfaces := [] } := by
  have hentry : Layers.find? [lineEnds, lineBetween] (rungEntry i).name = some (rungEntry i) := by
    by_cases hbetween : 0 < i ∧ i < maxHierarchyDepth
    · simp [Layers.find?, find?_lineEnds_of_between hbetween.1 hbetween.2,
        find?_lineBetween hbetween.1 hbetween.2]
    · simp [Layers.find?, find?_lineEnds (i := i) (by omega)]
  refine Option.bind_eq_some_iff.2 ⟨rungEntry i, hentry, ?_⟩
  rw [decode_rungEntry i hi]
  rfl

theorem comes_of_line {headers : HeaderSource} (names : Nat → String) {n : Nat}
    (hnames : ∀ i ≤ n, ∀ j ≤ n, names i = names j → i = j)
    (hparents : ∀ i < n, (headers.ancestry (names i)).parents = [names (i + 1)]) {room i : Nat}
    {tree : Inheritance} (hroom : i + room = n)
    (hnew : ∀ j ≤ n, i ≤ j → ¬ tree.contains (names j) = true) :
    Comes headers room tree (names i) 0 (names n) := by
  induction room generalizing i tree with
  | zero =>
    obtain rfl : i = n := hroom
    exact .here (hnew i (by omega) (by omega))
  | succ room ih =>
    have honly : (headers.ancestry (names i)).parents = [] ++ names (i + 1) :: [] :=
      hparents i (by omega)
    refine .up (hnew i (by omega) (by omega)) honly (ih (by omega) ?_)
    intro j hj hij hmem
    rw [List.foldl_nil, contains_insert] at hmem
    rcases hmem with hname | hmem
    · have := hnames i (by omega) j hj hname
      omega
    · exact hnew j hj (by omega) hmem

theorem classEntries_lineEnds :
    lineEnds.classEntries = [rungEntry 0, rungEntry maxHierarchyDepth] := by
  decide +kernel

theorem cutShort_lineEnds : CutShort lineEnds [lineBetween] (rung maxHierarchyDepth) := by
  have hbound : maxHierarchyDepth < 676 := by decide
  refine ⟨[], rungEntry 0, _, _, classEntries_lineEnds, decode_rungEntry 0 (by omega),
    comes_of_line rung (i := 0) ?_ ?_ (Nat.zero_add _) ?_⟩
  · exact fun i hi j hj => rung_injective (by omega) (by omega)
  · intro i hi
    simp [HeaderSource.ancestry, headers_rung hi.le, Ancestry.ofHeader, Ancestry.parents]
  · simp [contains_iff, find?_empty]

/-- A class that was first met 256 links above another class has no parents in the tree, although
its own entry gives it a superclass. -/
theorem build_loses_header_lineEnds : lineEnds.StoredByName ∧
    (∀ e ∈ lineEnds.classEntries, ∃ h, ClassHeader.decode e.bytes = .ok h) ∧
    rungEntry maxHierarchyDepth ∈ lineEnds.classEntries ∧
    ∃ h, ClassHeader.decode (rungEntry maxHierarchyDepth).bytes = .ok h ∧
      h.superName = some (rung (maxHierarchyDepth + 1)) ∧
      (build lineEnds (lineEnds.headers [lineBetween])).find? h.name = some {} ∧
      (build lineEnds (lineEnds.headers [lineBetween])).find? h.name ≠ some (.ofHeader h) := by
  have hnamed : lineEnds.StoredByName := by decide +kernel
  have hfind := cutShort_lineEnds.find?_build hnamed
  refine ⟨hnamed, ?_, by simp [classEntries_lineEnds], _, decode_rungEntry _ le_rfl, rfl, hfind, ?_⟩
  · simp [classEntries_lineEnds, decode_rungEntry]
  · simp [hfind, Ancestry.ofHeader]

end Inheritance

end ClassArchive
