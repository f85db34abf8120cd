import ClassArchive.Proofs.ArchiveCommit
import ClassArchive.Proofs.MappingNames
import ClassArchive.Proofs.TransformedClass

/-!
Entries are named for the classes that they hold, behind a front such as that of a release. A pass
keeps this: the name that it works out for an entry is the one that the written bytes give.
-/
set_option autoImplicit false

namespace ClassArchive

/-! ### Names of entries -/

theorem dropSuffix?_eq_some {suffix text front : String} :
    dropSuffix? suffix text = some front ↔ text = front ++ suffix := by
  unfold dropSuffix?
  constructor
  · intro h
    split at h
    · next hsuffix =>
      cases h
      obtain ⟨before, hbefore⟩ := List.isSuffixOf_iff_suffix.1 hsuffix
      rw [← String.toList_inj]
      simp [← hbefore]
    · cases h
  · rintro rfl
    simp [String.toList_append, List.suffix_append]

theorem destinationName_append (front old new : String) :
    destinationName (front ++ classEntryName old) old new = front ++ classEntryName new := by
  unfold destinationName
  split
  · next heq => rw [heq]
  · rw [dropSuffix?_eq_some.2 rfl]

def IsFront (front : String) : Prop := front = "" ∨ front.toList.getLast? = some '/'

instance (front : String) : Decidable (IsFront front) := inferInstanceAs (Decidable (_ ∨ _))

instance (suffix text : String) : Decidable (∃ front, IsFront front ∧ text = front ++ suffix) :=
  decidable_of_iff (∃ front ∈ dropSuffix? suffix text, IsFront front) <| by
    simp only [Option.mem_def, dropSuffix?_eq_some, and_comm]

namespace Entry

def Agrees (e : Entry) : Prop :=
  ∀ c, ClassFile.decode e.bytes = .ok c → ∀ n, c.name = .ok n →
    ∃ front, IsFront front ∧ e.name = front ++ classEntryName n

instance (e : Entry) : Decidable e.Agrees :=
  inferInstanceAs (Decidable (∀ c, ClassFile.decode e.bytes = .ok c → ∀ n, c.name = .ok n →
    ∃ front, IsFront front ∧ e.name = front ++ classEntryName n))

/-- An entry and what takes its place: the front is the same, the bytes hold the class under its
new name, and where a header could be read one can still be read. -/
structure Follows (names : Renamer) (e output : Entry) (front n m : String) : Prop where
  isFront : IsFront front
  source : ∃ c, ClassFile.decode e.bytes = .ok c ∧ c.name = .ok n
  sourceName : e.name = front ++ classEntryName n
  renamed : names.typeName n = .ok m
  target : ∃ c, ClassFile.decode output.bytes = .ok c ∧ c.name = .ok m
  targetName : output.name = front ++ classEntryName m
  header : ∀ h, ClassHeader.decode e.bytes = .ok h →
    ∃ h', ClassHeader.decode output.bytes = .ok h' ∧ h'.name = m

theorem Follows.agrees {names : Renamer} {e output : Entry} {front n m : String}
    (h : Follows names e output front n m) : output.Agrees := by
  intro c hc n' hn'
  obtain ⟨back, hback, hm⟩ := h.target
  rw [hback] at hc
  cases hc
  rw [hm] at hn'
  cases hn'
  exact ⟨front, h.isFront, h.targetName⟩

end Entry

def Archive.NamesAgree (a : Archive) : Prop := ∀ e ∈ a.entries, e.isClass = true → e.Agrees

instance (a : Archive) : Decidable a.NamesAgree :=
  inferInstanceAs (Decidable (∀ e ∈ a.entries, e.isClass = true → e.Agrees))

/-! ### One entry -/

namespace Pass

variable {p : Pass} {a : Archive} {e output : Entry}

def written (p : Pass) (a : Archive) (e : Entry) : Except ArchiveError ClassFile := do
  let c ← ArchiveError.lift (ClassFile.decode e.bytes)
  let c ← (p.renamer a).classFile c
  let c ← p.parameterNaming.classFile c
  ArchiveError.lift (c.framed ((p.renamer a).loader a p.dependencies) p.settings.computeFrames)

theorem outcome_eq_ok (h : p.outcome a e = .ok output) :
    ∃ c n renamed m final, ClassFile.decode e.bytes = .ok c ∧ c.name = .ok n ∧
      (p.renamer a).classFile c = .ok renamed ∧ renamed.name = .ok m ∧ p.written a e = .ok final ∧
      output = { name := destinationName e.name n m, content := .file final.encode } := by
  obtain ⟨c, hc, h⟩ := bind_eq_ok.1 h
  obtain ⟨n, hn, h⟩ := bind_eq_ok.1 h
  obtain ⟨renamed, hrenamed, h⟩ := bind_eq_ok.1 h
  obtain ⟨m, hm, h⟩ := bind_eq_ok.1 h
  obtain ⟨named, hnamed, h⟩ := bind_eq_ok.1 h
  obtain ⟨final, hfinal, h⟩ := bind_eq_ok.1 h
  cases h
  refine ⟨c, n, renamed, m, final, lift_eq_ok.1 hc, lift_eq_ok.1 hn, hrenamed, lift_eq_ok.1 hm, ?_,
    rfl⟩
  exact bind_eq_ok.2 ⟨c, hc, bind_eq_ok.2 ⟨renamed, hrenamed, bind_eq_ok.2 ⟨named, hnamed, hfinal⟩⟩⟩

theorem renamedFrom_written {c final : ClassFile} (hc : ClassFile.decode e.bytes = .ok c)
    (hsmall : c.pool.slots.size ≤ Pool.capacity) (h : p.written a e = .ok final) :
    ClassFile.RenamedFrom (p.renamer a) c final := by
  obtain ⟨c', hc', h⟩ := bind_eq_ok.1 h
  rw [lift_eq_ok.1 hc'] at hc
  cases hc
  obtain ⟨renamed, hrenamed, h⟩ := bind_eq_ok.1 h
  obtain ⟨named, hnamed, hfinal⟩ := bind_eq_ok.1 h
  have hfirst := ClassFile.renamedFrom_classFile (lift_eq_ok.1 hc') hsmall hrenamed
  exact (hfirst.parameters hnamed).framed (lift_eq_ok.1 hfinal)

theorem follows_of_outcome (hagrees : e.Agrees) (h : p.outcome a e = .ok output)
    (hsmall : ∀ c, ClassFile.decode e.bytes = .ok c → c.pool.slots.size ≤ Pool.capacity)
    (hfits : ∀ c, p.written a e = .ok c → c.Encodable) :
    ∃ front n m, Entry.Follows (p.renamer a) e output front n m := by
  obtain ⟨c, n, renamed, m, final, hc, hn, hrenamed, hm, hfinal, rfl⟩ := outcome_eq_ok h
  obtain ⟨front, hfront, hname⟩ := hagrees c hc n hn
  -- the name is taken after the renaming, and the two later stages and the bytes keep it
  obtain ⟨m', hmapped, hm'⟩ := (ClassFile.renamedFrom_classFile hc (hsmall c hc) hrenamed).name hn
  rw [hm] at hm'
  cases hm'
  obtain ⟨back, hback, hderived⟩ := (renamedFrom_written hc (hsmall c hc) hfinal).decode_encode
    (ClassFile.decode_eq_ok hc).2 (hfits final hfinal)
  obtain ⟨m', hmapped', hbackName⟩ := hderived.name hn
  rw [hmapped] at hmapped'
  cases hmapped'
  refine ⟨front, n, m, hfront, ⟨c, hc, hn⟩, hname, hmapped, ⟨back, hback, hbackName⟩, ?_, ?_⟩
  · rw [hname, destinationName_append]
  · intro head hhead
    rw [ClassFile.header_decode hc] at hhead
    obtain ⟨head', hhead', hnew⟩ := hderived.header hhead
    refine ⟨head', (ClassFile.header_decode hback).trans hhead', ?_⟩
    rw [hbackName] at hnew
    cases hnew
    rfl

/-! ### The archive -/

/-- The entries that a pass leaves: the outputs, and the entries that have none. -/
theorem mem_entries_run {a' : Archive} {report : Report} (h : p.run a = .ok (a', report)) :
    e ∈ a'.entries ↔
      (∃ source ∈ a.entries, source.isClass = true ∧ p.outcome a source = .ok e) ∨
        (e ∈ a.entries ∧ ¬ ∃ output, e.isClass = true ∧ p.outcome a e = .ok output) := by
  unfold run at h
  split at h
  · next hupdate =>
    cases h
    obtain ⟨moves, failures, hsort, hcheck, rfl, -⟩ := update_eq_ok hupdate
    obtain ⟨rfl, -⟩ := sortOutcomes_eq_ok hsort
    rw [mem_entries_commit hcheck]
    refine or_congr ?_ (and_congr_right fun he => not_congr ?_)
    · constructor
      · rintro ⟨w, hw, rfl⟩
        obtain ⟨source, hsource, hclass, -, houtcome⟩ := mem_moves.1 hw
        exact ⟨source, hsource, hclass, houtcome⟩
      · rintro ⟨source, hsource, hclass, houtcome⟩
        exact ⟨⟨source.name, e⟩, mem_moves.2 ⟨source, hsource, hclass, rfl, houtcome⟩, rfl⟩
    · constructor
      · intro hmem
        obtain ⟨w, hw, horigin⟩ := List.mem_map.1 hmem
        obtain ⟨source, hsource, hclass, hname, houtcome⟩ := mem_moves.1 hw
        obtain rfl := Archive.eq_of_name_eq hsource he (hname.trans horigin)
        exact ⟨w.output, hclass, houtcome⟩
      · rintro ⟨output, hclass, houtcome⟩
        exact List.mem_map.2 ⟨⟨e.name, output⟩, mem_moves.2 ⟨e, he, hclass, rfl, houtcome⟩, rfl⟩
  · cases h

/-- A pass over an archive whose entries are named for their classes leaves one. What it transforms
follows the class to its new name, and what fails stays. -/
theorem namesAgree_run {a' : Archive} {report : Report} (hagree : a.NamesAgree)
    (hrun : p.run a = .ok (a', report))
    (hsmall : ∀ e ∈ a.entries, e.isClass = true → ∀ c, ClassFile.decode e.bytes = .ok c →
      c.pool.slots.size ≤ Pool.capacity)
    (hfits : ∀ e ∈ a.entries, e.isClass = true → ∀ c, p.written a e = .ok c → c.Encodable) :
    (∀ e ∈ a.entries, e.isClass = true → ∀ output, p.outcome a e = .ok output →
      output ∈ a'.entries ∧ ∃ front n m, Entry.Follows (p.renamer a) e output front n m) ∧
    (∀ e ∈ a.entries, e.isClass = true → ∀ cause, p.outcome a e = .error cause →
      e ∈ a'.entries ∧ e.Agrees) ∧
    a'.NamesAgree := by
  have hfollows : ∀ e ∈ a.entries, e.isClass = true → ∀ output, p.outcome a e = .ok output →
      ∃ front n m, Entry.Follows (p.renamer a) e output front n m :=
    fun e he hclass output houtcome =>
      follows_of_outcome (hagree e he hclass) houtcome (hsmall e he hclass) (hfits e he hclass)
  refine ⟨?_, ?_, ?_⟩
  · intro e he hclass output houtcome
    exact ⟨(mem_entries_run hrun).2 (.inl ⟨e, he, hclass, houtcome⟩),
      hfollows e he hclass output houtcome⟩
  · intro e he hclass cause hfailed
    refine ⟨(mem_entries_run hrun).2 (.inr ⟨he, ?_⟩), hagree e he hclass⟩
    rintro ⟨output, -, houtcome⟩
    rw [hfailed] at houtcome
    cases houtcome
  · intro e he hclass
    rcases (mem_entries_run hrun).1 he with ⟨source, hsource, hsourceClass, houtcome⟩ | ⟨he, -⟩
    · obtain ⟨front, n, m, h⟩ := hfollows source hsource hsourceClass e houtcome
      exact h.agrees
    · exact hagree e he hclass

/-- A class whose constructor has a branch, and whose name is a literal too. -/
def branchingClass : ClassFile where
  pool := Pool.ofSlots #[.utf8 "A", .classInfo 1, .utf8 "<init>", .utf8 "(I)V", .utf8 "Code",
    .string 1]
  thisClass := 2
  methods := [⟨1, 3, 4, [⟨5, (⟨1, 2, [27, 153, 0, 4, 0, 177], [], []⟩ : Code).encode⟩]⟩]

def releaseEntry : Entry := ⟨"META-INF/versions/9/A.class", .file branchingClass.encode⟩

def brokenEntry : Entry := ⟨"broken.class", .file [202]⟩

def releaseArchive : Archive := .ofEntries "release" [releaseEntry, brokenEntry]

def releasePass : Pass where
  dependencies := []
  mapping := .ofDrafts [{ names := [("left", "A"), ("right", "p/B")] }]
  source := "left"
  target := "right"
  settings := { policy := .skipAndContinue }

/-- The class moves behind its front, with frames for its constructor, and the broken entry is
still there. -/
theorem namesAgree_run_release : ∃ a' report, releaseArchive.NamesAgree ∧
    releasePass.run releaseArchive = .ok (a', report) ∧ a'.NamesAgree ∧ brokenEntry ∈ a'.entries ∧
    ∃ output ∈ a'.entries, output.name = "META-INF/versions/9/p/B.class" ∧
      ∃ c, ClassFile.decode output.bytes = .ok c ∧ c.name = .ok "p/B" := by
  have hagree : releaseArchive.NamesAgree := by decide +kernel
  have hran : (releasePass.run releaseArchive).toOption.any (fun _ => true) = true := by
    decide +kernel
  obtain ⟨⟨a', report⟩, hrun, -⟩ := exists_ok_of_any hran
  obtain ⟨hmoved, hfailed, hagree'⟩ :=
    namesAgree_run hagree hrun (by decide +kernel) (by decide +kernel)
  have hmoves : (releasePass.outcome releaseArchive releaseEntry).toOption.any
      (fun output => output.name = "META-INF/versions/9/p/B.class") = true := by
    decide +kernel
  obtain ⟨output, houtput, hname⟩ := exists_ok_of_any hmoves
  obtain ⟨hmem, front, n, m, hfollows⟩ :=
    hmoved releaseEntry (by decide +kernel) (by decide +kernel) output houtput
  have hstays : releasePass.outcome releaseArchive brokenEntry =
      .error (.format (.unexpectedEnd 0 3)) := by
    decide +kernel
  have hbroken := hfailed brokenEntry (by decide +kernel) (by decide +kernel) _ hstays
  have hA : ∀ c, ClassFile.decode releaseEntry.bytes = .ok c → c.name.toOption = some "A" := by
    decide +kernel
  obtain ⟨c, hc, hn⟩ := hfollows.source
  have hn := hA c hc ▸ toOption_eq_some.2 hn
  cases hn
  have hB : (releasePass.renamer releaseArchive).typeName "A" = .ok "p/B" := by decide +kernel
  have hm := hB.symm.trans hfollows.renamed
  cases hm
  exact ⟨a', report, hagree, hrun, hagree', hbroken.1, output, hmem, by simpa using hname,
    hfollows.target⟩

/-- A class whose superclass is a text. -/
def headlessClass : ClassFile where
  pool := Pool.ofSlots #[.utf8 "a", .classInfo 1]
  access := 33
  thisClass := 2
  superClass := 1

def headlessEntry : Entry := ⟨"a.class", .file headlessClass.encode⟩

def headlessArchive : Archive := .ofEntries "headless" [headlessEntry]

def headlessPass : Pass where
  dependencies := []
  mapping := .ofDrafts [{ names := [("left", "a"), ("right", "b")] }]
  source := "left"
  target := "right"

/-- A class can be read and have no header. It is transformed all the same, and then it has none
either. -/
theorem exists_headless_output : headlessArchive.NamesAgree ∧
    ∃ a' report output c, headlessPass.run headlessArchive = .ok (a', report) ∧
      headlessPass.written headlessArchive headlessEntry = .ok c ∧ c.Encodable ∧
      headlessPass.outcome headlessArchive headlessEntry = .ok output ∧ output ∈ a'.entries ∧
      output.name = "b.class" ∧ ∀ h, ClassHeader.decode output.bytes ≠ .ok h := by
  have hwritten : (headlessPass.written headlessArchive headlessEntry).toOption.any
      (fun c => decide c.Encodable) = true := by
    decide +kernel
  obtain ⟨c, hc, hfits⟩ := exists_ok_of_any hwritten
  have hrun : (headlessPass.run headlessArchive).toOption.any (fun r =>
      (headlessPass.outcome headlessArchive headlessEntry).toOption.any fun output =>
        output ∈ r.1.entries ∧ output.name = "b.class" ∧
          (ClassHeader.decode output.bytes).toOption = none) = true := by
    decide +kernel
  obtain ⟨⟨a', report⟩, hrun, houtcome⟩ := exists_ok_of_any hrun
  obtain ⟨output, houtput, hlast⟩ := exists_ok_of_any houtcome
  obtain ⟨hmem, hname, hnone⟩ := of_decide_eq_true hlast
  refine ⟨by decide +kernel, a', report, output, c, hrun, hc, of_decide_eq_true hfits, houtput,
    hmem, hname, ?_⟩
  intro h hh
  rw [toOption_eq_some.2 hh] at hnone
  cases hnone

end Pass

end ClassArchive
