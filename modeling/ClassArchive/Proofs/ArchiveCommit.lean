import ClassArchive.Transform
import ClassArchive.Proofs.ArchiveEntries
import ClassArchive.Proofs.Outcome
import Mathlib.Data.List.Perm.Basic

/-!
What a pass leaves in an archive. The conflict check gives every destination a single claimant; so
the two loops of the commit lose nothing, whether names are swapped, move in a circle or stay.
-/
set_option autoImplicit false

namespace ClassArchive

namespace Pass

/-! ### The conflict check -/

theorem mem_destinations {moves : List Move} {w : Move} (hw : w ∈ moves) :
    w.output.name ∈ destinations moves := by
  rw [destinations, Std.TreeMap.mem_keys, Std.TreeMap.mem_ofList]
  simpa using ⟨w, hw, rfl⟩

theorem length_claimants_le {a : Archive} {moves : List Move} (h : checkConflicts a moves = .ok ())
    {w : Move} (hw : w ∈ moves) : (claimants a moves w.output.name).length ≤ 1 := by
  unfold checkConflicts at h
  split at h
  · cases h
  · next hnone => simpa using List.find?_eq_none.1 hnone _ (mem_destinations hw)

theorem length_writers_le {a : Archive} {moves : List Move} (h : checkConflicts a moves = .ok ())
    {w : Move} (hw : w ∈ moves) :
    (moves.filter (·.output.name = w.output.name)).length ≤ 1 := by
  have hle := length_claimants_le h hw
  unfold claimants at hle
  dsimp only at hle
  split at hle
  · simp only [List.length_cons, List.length_map] at hle
    omega
  · simpa using hle

theorem nodup_outputs {a : Archive} {moves : List Move} (h : checkConflicts a moves = .ok ()) :
    (moves.map (·.output.name)).Nodup := by
  rw [List.nodup_iff_count_le_one]
  intro name
  by_cases hmem : name ∈ moves.map (·.output.name)
  · obtain ⟨w, hw, rfl⟩ := List.mem_map.1 hmem
    have hle := length_writers_le h hw
    rw [← List.countP_eq_length_filter] at hle
    simpa [List.count, List.countP_map, Function.comp_def, beq_eq_decide] using hle
  · rw [List.count_eq_zero_of_not_mem hmem]
    exact Nat.zero_le 1

theorem eq_of_output_name_eq {a : Archive} {moves : List Move}
    (h : checkConflicts a moves = .ok ()) {w w' : Move} (hw : w ∈ moves) (hw' : w' ∈ moves)
    (heq : w'.output.name = w.output.name) : w' = w :=
  List.inj_on_of_nodup_map (nodup_outputs h) hw' hw heq

theorem output_name_ne {a : Archive} {moves : List Move} (h : checkConflicts a moves = .ok ())
    {w : Move} (hw : w ∈ moves) {e : Entry} (he : e ∈ a.entries)
    (hstays : e.name ∉ moves.map (·.origin)) : w.output.name ≠ e.name := by
  intro heq
  have hle := length_claimants_le h hw
  have hcontains : a.contains w.output.name = true := Archive.contains_iff.2 ⟨e, he, heq.symm⟩
  have hmem : w ∈ moves.filter (·.output.name = w.output.name) := by simp [hw]
  have hpos := List.length_pos_of_mem hmem
  unfold claimants at hle
  rw [if_pos ⟨hcontains, heq ▸ hstays⟩] at hle
  simp only [List.length_cons, List.length_map] at hle
  omega

/-! ### The commit -/

theorem getElem?_foldl_erase (gone : List Move) (a : Archive) (name : String) :
    (gone.foldl (fun a w => a.erase w.origin) a).contents[name]? =
      if name ∈ gone.map (·.origin) then none else a.contents[name]? := by
  induction gone generalizing a with
  | nil => simp
  | cons w gone ih =>
    rw [List.foldl_cons, ih]
    by_cases hw : w.origin = name
    · simp [Archive.erase, hw]
    · have hne : ¬ name = w.origin := fun heq => hw heq.symm
      simp [Archive.erase, Std.TreeMap.getElem?_erase, hw, hne]

theorem getElem?_foldl_insert_of_ne (moves : List Move) (a : Archive) {name : String}
    (h : ∀ w ∈ moves, w.output.name ≠ name) :
    (moves.foldl (fun a w => a.insert w.output) a).contents[name]? = a.contents[name]? := by
  induction moves generalizing a with
  | nil => rfl
  | cons w moves ih =>
    rw [List.foldl_cons, ih _ fun w' hw' => h w' (by simp [hw'])]
    simp [Archive.insert, Std.TreeMap.getElem?_insert, h w (by simp)]

theorem getElem?_foldl_insert (moves : List Move) (a : Archive) {w : Move} (hw : w ∈ moves)
    (h : ∀ w' ∈ moves, w'.output.name = w.output.name → w' = w) :
    (moves.foldl (fun a w => a.insert w.output) a).contents[w.output.name]? =
      some w.output.content := by
  induction moves generalizing a with
  | nil => simp at hw
  | cons v moves ih =>
    rw [List.foldl_cons]
    by_cases hlater : w ∈ moves
    · exact ih _ hlater fun w' hw' => h w' (by simp [hw'])
    · -- no later move writes the name, since only this one does
      have hv : v = w := by
        rcases List.mem_cons.1 hw with heq | hmem
        · exact heq.symm
        · exact absurd hmem hlater
      rw [getElem?_foldl_insert_of_ne]
      · simp [Archive.insert, hv]
      · intro w' hw' heq
        exact hlater (h w' (by simp [hw']) heq ▸ hw')

/-- The entries after a commit: the outputs, and what stays. -/
theorem mem_entries_commit {a : Archive} {moves : List Move} (h : checkConflicts a moves = .ok ())
    {e : Entry} : e ∈ (commit a moves).entries ↔
      (∃ w ∈ moves, w.output = e) ∨ (e ∈ a.entries ∧ e.name ∉ moves.map (·.origin)) := by
  rw [Archive.mem_entries]
  unfold commit
  dsimp only
  by_cases hout : ∃ w ∈ moves, w.output.name = e.name
  · obtain ⟨w, hw, hname⟩ := hout
    rw [← hname, getElem?_foldl_insert moves _ hw fun w' hw' => eq_of_output_name_eq h hw hw']
    constructor
    · intro hcontent
      refine .inl ⟨w, hw, ?_⟩
      cases e
      cases hw' : w.output
      simp_all
    · rintro (⟨w', hw', rfl⟩ | ⟨he, hstays⟩)
      · rw [eq_of_output_name_eq h hw hw' hname.symm]
      · exact absurd hname (output_name_ne h hw he (hname ▸ hstays))
  · have hfree : ∀ w ∈ moves, w.output.name ≠ e.name := fun w hw hname => hout ⟨w, hw, hname⟩
    rw [getElem?_foldl_insert_of_ne moves _ hfree, getElem?_foldl_erase, Archive.mem_entries]
    -- a move of this entry that keeps the name would write it again
    have hrename : e.name ∈ (moves.filter (·.isRename)).map (·.origin) ↔
        e.name ∈ moves.map (·.origin) := by
      simp only [List.mem_map, List.mem_filter, Move.isRename, decide_eq_true_eq]
      constructor
      · rintro ⟨w, ⟨hw, _⟩, horigin⟩
        exact ⟨w, hw, horigin⟩
      · rintro ⟨w, hw, horigin⟩
        exact ⟨w, ⟨hw, fun heq => hfree w hw (heq ▸ horigin)⟩, horigin⟩
    have hnone : ¬ ∃ w ∈ moves, w.output = e := by
      rintro ⟨w, hw, rfl⟩
      exact hfree w hw rfl
    simp only [hrename]
    split
    · next hgone => simp [hgone, hnone]
    · next hstays => simp [hstays, hnone]

example : (commit (.ofEntries "swap" [⟨"A.class", .file [1]⟩, ⟨"B.class", .file [2]⟩])
    [⟨"A.class", ⟨"B.class", .file [3]⟩⟩, ⟨"B.class", ⟨"A.class", .file [4]⟩⟩]).entries =
      [⟨"A.class", .file [4]⟩, ⟨"B.class", .file [3]⟩] := by
  decide +kernel

/-! ### The whole pass -/

def outcome (p : Pass) (a : Archive) (e : Entry) : Except ArchiveError Entry :=
  p.transformEntry (p.renamer a) ((p.renamer a).loader a p.dependencies) e

/-- What takes the place of an entry: the output of a class entry, if there is one, and else the
entry itself. -/
def successor (p : Pass) (a : Archive) (e : Entry) : Entry :=
  if e.isClass then (p.outcome a e).toOption.getD e else e

def move? (p : Pass) (a : Archive) (e : Entry) : Option Move :=
  match p.outcome a e with
  | .ok output => some ⟨e.name, output⟩
  | .error _ => none

def failure? (p : Pass) (a : Archive) (e : Entry) : Option (String × ArchiveError) :=
  match p.outcome a e with
  | .ok _ => none
  | .error cause => some (e.name, cause)

theorem sortOutcomes_eq_ok {p : Pass} {a : Archive} {policy : FailurePolicy} {es : List Entry}
    {moves : List Move} {failures : List (String × ArchiveError)}
    (h : sortOutcomes policy (es.map fun e => (e.name, p.outcome a e)) = .ok (moves, failures)) :
    moves = es.filterMap (p.move? a) ∧ failures = es.filterMap (p.failure? a) := by
  induction es generalizing moves failures with
  | nil =>
    cases h
    exact ⟨rfl, rfl⟩
  | cons e es ih =>
    cases houtcome : p.outcome a e with
    | ok output =>
      simp only [List.map_cons, houtcome, sortOutcomes] at h
      obtain ⟨⟨moves', failures'⟩, hrest, h⟩ := bind_eq_ok.1 h
      cases h
      obtain ⟨rfl, rfl⟩ := ih hrest
      simp [move?, failure?, houtcome]
    | error cause =>
      simp only [List.map_cons, houtcome, sortOutcomes] at h
      split at h
      · cases h
      · obtain ⟨⟨moves', failures'⟩, hrest, h⟩ := bind_eq_ok.1 h
        cases h
        obtain ⟨rfl, rfl⟩ := ih hrest
        simp [move?, failure?, houtcome]

theorem mem_moves {p : Pass} {a : Archive} {w : Move} :
    w ∈ a.classEntries.filterMap (p.move? a) ↔
      ∃ e ∈ a.entries, e.isClass = true ∧ e.name = w.origin ∧ p.outcome a e = .ok w.output := by
  simp only [List.mem_filterMap, Archive.classEntries, List.mem_filter, and_assoc]
  refine exists_congr fun e => and_congr_right fun _ => and_congr_right fun _ => ?_
  unfold move?
  split
  · next output houtcome =>
    cases w
    simp [houtcome]
  · next cause houtcome => simp [houtcome]

theorem successor_of_move {p : Pass} {a : Archive} {w : Move}
    (hw : w ∈ a.classEntries.filterMap (p.move? a)) :
    ∃ e ∈ a.entries, e.name = w.origin ∧ p.successor a e = w.output := by
  obtain ⟨e, he, hclass, hname, houtcome⟩ := mem_moves.1 hw
  exact ⟨e, he, hname, by simp [successor, hclass, houtcome, Except.toOption]⟩

theorem moves_or_stays {p : Pass} {a : Archive} {e : Entry} (he : e ∈ a.entries) :
    (∃ w ∈ a.classEntries.filterMap (p.move? a), w.origin = e.name ∧ w.output = p.successor a e) ∨
      (e.name ∉ (a.classEntries.filterMap (p.move? a)).map (·.origin) ∧ p.successor a e = e) := by
  by_cases hmoves : ∃ output, e.isClass = true ∧ p.outcome a e = .ok output
  · obtain ⟨output, hclass, houtcome⟩ := hmoves
    refine .inl ⟨⟨e.name, output⟩, mem_moves.2 ⟨e, he, hclass, rfl, houtcome⟩, rfl, ?_⟩
    simp [successor, hclass, houtcome, Except.toOption]
  · refine .inr ⟨?_, ?_⟩
    · intro hmem
      obtain ⟨w, hw, horigin⟩ := List.mem_map.1 hmem
      obtain ⟨e', he', hclass, hname, houtcome⟩ := mem_moves.1 hw
      have heq := Archive.eq_of_name_eq he' he (hname.trans horigin)
      subst heq
      exact hmoves ⟨w.output, hclass, houtcome⟩
    · unfold successor
      split
      · next hclass =>
        cases houtcome : p.outcome a e with
        | ok output => exact absurd ⟨output, hclass, houtcome⟩ hmoves
        | error cause => rfl
      · rfl

theorem nodup_successors {p : Pass} {a : Archive}
    (h : checkConflicts a (a.classEntries.filterMap (p.move? a)) = .ok ()) :
    (a.entries.map (p.successor a)).Nodup := by
  refine List.Nodup.map_on ?_ (List.Nodup.of_map _ a.nodup_names)
  intro e he e' he' heq
  rcases moves_or_stays (p := p) he with ⟨w, hw, horigin, houtput⟩ | ⟨hstays, hself⟩
  · rcases moves_or_stays (p := p) he' with ⟨w', hw', horigin', houtput'⟩ | ⟨hstays', hself'⟩
    · have hsame : w' = w := eq_of_output_name_eq h hw hw' (by rw [houtput, houtput', heq])
      refine Archive.eq_of_name_eq he he' ?_
      rw [← horigin, ← horigin', hsame]
    · refine absurd ?_ (output_name_ne h hw he' hstays')
      rw [houtput, heq, hself']
  · rcases moves_or_stays (p := p) he' with ⟨w', hw', horigin', houtput'⟩ | ⟨hstays', hself'⟩
    · refine absurd ?_ (output_name_ne h hw' he hstays)
      rw [houtput', ← heq, hself]
    · rw [← hself, ← hself', heq]

theorem perm_entries_commit {p : Pass} {a : Archive}
    (h : checkConflicts a (a.classEntries.filterMap (p.move? a)) = .ok ()) :
    (commit a (a.classEntries.filterMap (p.move? a))).entries.Perm
      (a.entries.map (p.successor a)) := by
  rw [List.perm_ext_iff_of_nodup (List.Nodup.of_map _ (Archive.nodup_names _)) (nodup_successors h)]
  intro e'
  rw [mem_entries_commit h]
  constructor
  · rintro (⟨w, hw, rfl⟩ | ⟨he', hstays⟩)
    · obtain ⟨e, he, _, hsuccessor⟩ := successor_of_move hw
      exact List.mem_map.2 ⟨e, he, hsuccessor⟩
    · rcases moves_or_stays (p := p) he' with ⟨w, hw, horigin, _⟩ | ⟨_, hself⟩
      · exact absurd (List.mem_map.2 ⟨w, hw, horigin⟩) hstays
      · exact List.mem_map.2 ⟨e', he', hself⟩
  · intro hmem
    obtain ⟨e, he, rfl⟩ := List.mem_map.1 hmem
    rcases moves_or_stays (p := p) he with ⟨w, hw, _, houtput⟩ | ⟨hstays, hself⟩
    · exact .inl ⟨w, hw, houtput⟩
    · rw [hself]
      exact .inr ⟨he, hstays⟩

theorem ofOutcome_eq_ok {α : Type} {x : Except ArchiveError α} {a after : Archive} {v : α} :
    ofOutcome x a = .ok v after ↔ x = .ok v ∧ after = a := by
  cases x with
  | error e =>
    constructor
    · intro h
      cases h
    · rintro ⟨h, _⟩
      cases h
  | ok u =>
    constructor
    · intro h
      cases h
      exact ⟨rfl, rfl⟩
    · rintro ⟨h, rfl⟩
      cases h
      rfl

theorem ofOutcome_bind_eq_error {α β : Type} {x : Except ArchiveError α}
    {f : α → Archive.Update β} {a after : Archive} {e : ArchiveError}
    (h : (ofOutcome x >>= f) a = .error e after) :
    after = a ∨ ∃ v, x = .ok v ∧ f v a = .error e after := by
  cases x with
  | error e' =>
    cases h
    exact .inl rfl
  | ok v => exact .inr ⟨v, rfl, h⟩

theorem update_eq_ok {p : Pass} {a after : Archive} {r : Report}
    (h : p.update.run a = .ok r after) :
    ∃ moves failures,
      sortOutcomes p.settings.policy (p.transformEntries a) = .ok (moves, failures) ∧
      checkConflicts a moves = .ok () ∧ after = commit a moves ∧ r = report moves failures := by
  obtain ⟨_, _, hget, h⟩ := edit_bind_eq_ok.1 h
  cases hget
  obtain ⟨_, s, hsound, hsorting⟩ := edit_bind_eq_ok.1 h
  obtain ⟨-, rfl⟩ := ofOutcome_eq_ok.1 hsound
  obtain ⟨⟨moves, failures⟩, s', hsort, hchecking⟩ := edit_bind_eq_ok.1 hsorting
  obtain ⟨hsort, rfl⟩ := ofOutcome_eq_ok.1 hsort
  obtain ⟨_, t, hcheck, hlast⟩ := edit_bind_eq_ok.1 hchecking
  obtain ⟨hcheck, rfl⟩ := ofOutcome_eq_ok.1 hcheck
  injection hlast with hr hafter
  exact ⟨moves, failures, hsort, hcheck, hafter.symm, hr.symm⟩

theorem eq_of_update_eq_error {p : Pass} {a after : Archive} {e : ArchiveError}
    (h : p.update.run a = .error e after) : after = a := by
  change (ofOutcome (checkBreakdowns (p.transformEntries a)) >>= _) a = _ at h
  rcases ofOutcome_bind_eq_error h with rfl | ⟨_, -, h⟩
  · rfl
  rcases ofOutcome_bind_eq_error h with rfl | ⟨⟨moves, failures⟩, -, h⟩
  · rfl
  rcases ofOutcome_bind_eq_error h with rfl | ⟨_, -, h⟩
  · rfl
  cases h

/-- A pass that fails changes nothing. One that succeeds puts the successor of every entry in its
place and lists, in order, what failed, what was transformed and what was renamed. -/
theorem perm_entries_update (p : Pass) (a : Archive) :
    match p.update.run a with
    | .error _ after => after = a
    | .ok report after =>
        after.entries.Perm (a.entries.map (p.successor a)) ∧ after.size = a.size ∧
        report.failures = a.classEntries.filterMap (p.failure? a) ∧
        report.transformed = (a.classEntries.filterMap (p.move? a)).map (·.output.name) ∧
        report.transformed.Nodup ∧
        report.renames = ((a.classEntries.filterMap (p.move? a)).filter
          fun w => w.origin ≠ w.output.name).map fun w => (w.origin, w.output.name) := by
  cases hrun : p.update.run a with
  | error e after => exact eq_of_update_eq_error hrun
  | ok r after =>
    obtain ⟨moves, failures, hsort, hcheck, rfl, rfl⟩ := update_eq_ok hrun
    obtain ⟨rfl, rfl⟩ := sortOutcomes_eq_ok hsort
    have hperm := perm_entries_commit hcheck
    refine ⟨hperm, ?_, rfl, rfl, nodup_outputs hcheck, rfl⟩
    rw [← Archive.length_entries, ← Archive.length_entries, hperm.length_eq, List.length_map]

end Pass

end ClassArchive
