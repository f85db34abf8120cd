import ClassArchive.Proofs.ArchiveCommit

/-!
Which moves are refused. The check goes through the destinations in the order of their bytes and
stops at the first one that two entries claim; so it refuses exactly the moves that would lose an
entry, and names the least destination at which they would.
-/
set_option autoImplicit false

namespace ClassArchive

/-! ### The byte order of names -/

def nameBytes (name : String) : Bytes := name.toByteArray.data.toList

theorem nameBytes_eq (name : String) :
    nameBytes name = name.toList.flatMap String.utf8EncodeChar := by
  rw [nameBytes, ← String.utf8Encode_toList, List.utf8Encode, List.data_toByteArray]

theorem cons_lt_of_lt {a b : Nat} (h : a < b) (hb : b < 256) (s t : Bytes) :
    UInt8.ofNat a :: s < UInt8.ofNat b :: t := by
  refine List.cons_lt_cons_iff.2 (.inl ?_)
  rw [UInt8.lt_iff_toNat_lt, UInt8.toNat_ofNat', UInt8.toNat_ofNat']
  omega

theorem cons_lt_of_le {a b : Nat} (h : a ≤ b) (hb : b < 256) {s t : Bytes}
    (hrest : a = b → s < t) : UInt8.ofNat a :: s < UInt8.ofNat b :: t := by
  rcases Nat.lt_or_eq_of_le h with hlt | rfl
  · exact cons_lt_of_lt hlt hb s t
  · exact List.cons_lt_cons_iff.2 (.inr ⟨rfl, hrest rfl⟩)

/-- The bytes of a character decide as the character does. Where two characters take the same number
of bytes, the bytes are their digits; where they do not, the leading byte tells. -/
theorem utf8EncodeChar_append_lt {c d : Char} (h : c < d) (s t : Bytes) :
    String.utf8EncodeChar c ++ s < String.utf8EncodeChar d ++ t := by
  have hlt : c.val.toNat < d.val.toNat := h
  have hd : d.val.toNat < 0x110000 := by
    have hvalid := d.valid
    simp only [UInt32.isValidChar, Nat.isValidChar] at hvalid
    omega
  unfold String.utf8EncodeChar
  dsimp only
  split
  · split_ifs <;> exact cons_lt_of_lt (by omega) (by omega) _ _
  split
  · rw [if_neg (by omega)]
    split_ifs
    · refine cons_lt_of_le (by omega) (by omega) fun _ => ?_
      exact cons_lt_of_lt (by omega) (by omega) _ _
    · exact cons_lt_of_lt (by omega) (by omega) _ _
    · exact cons_lt_of_lt (by omega) (by omega) _ _
  split
  · rw [if_neg (by omega), if_neg (by omega)]
    split_ifs
    · refine cons_lt_of_le (by omega) (by omega) fun _ => ?_
      refine cons_lt_of_le (by omega) (by omega) fun _ => ?_
      exact cons_lt_of_lt (by omega) (by omega) _ _
    · exact cons_lt_of_lt (by omega) (by omega) _ _
  · rw [if_neg (by omega), if_neg (by omega), if_neg (by omega)]
    refine cons_lt_of_le (by omega) (by omega) fun _ => ?_
    refine cons_lt_of_le (by omega) (by omega) fun _ => ?_
    refine cons_lt_of_le (by omega) (by omega) fun _ => ?_
    exact cons_lt_of_lt (by omega) (by omega) _ _

theorem flatMap_utf8EncodeChar_lt {cs ds : List Char} (h : cs < ds) :
    cs.flatMap String.utf8EncodeChar < ds.flatMap String.utf8EncodeChar := by
  induction cs generalizing ds with
  | nil =>
    cases ds with
    | nil => exact absurd h (List.lt_irrefl [])
    | cons d ds =>
      obtain ⟨b, more, hb⟩ := List.exists_cons_of_ne_nil (String.utf8EncodeChar_ne_nil (c := d))
      rw [List.flatMap_nil, List.flatMap_cons, hb, List.cons_append]
      exact List.nil_lt_cons _ _
  | cons c cs ih =>
    cases ds with
    | nil => exact absurd h (List.not_lt_nil _)
    | cons d ds =>
      rw [List.flatMap_cons, List.flatMap_cons]
      rcases List.cons_lt_cons_iff.1 h with hlt | ⟨rfl, hlt⟩
      · exact utf8EncodeChar_append_lt hlt _ _
      · exact List.append_left_lt (ih hlt)

theorem nameBytes_lt_iff {s t : String} : nameBytes s < nameBytes t ↔ s < t := by
  have hmono : ∀ {s t : String}, s < t → nameBytes s < nameBytes t := by
    intro s t h
    rw [nameBytes_eq, nameBytes_eq]
    exact flatMap_utf8EncodeChar_lt h
  refine ⟨fun h => ?_, hmono⟩
  by_contra hnot
  by_cases hgt : t < s
  · exact List.lt_asymm h (hmono hgt)
  · obtain rfl : s = t := String.le_antisymm (String.not_lt.1 hgt) (String.not_lt.1 hnot)
    exact List.lt_irrefl _ h

namespace Pass

/-! ### Contested destinations -/

def Stays (a : Archive) (moves : List Move) (name : String) : Prop :=
  a.contains name = true ∧ name ∉ moves.map (·.origin)

instance (a : Archive) (moves : List Move) (name : String) : Decidable (Stays a moves name) :=
  inferInstanceAs (Decidable (_ ∧ _))

/-- Whether a destination is that of an entry that stays, or of several moves. -/
def Contested (a : Archive) (moves : List Move) (destination : String) : Prop :=
  destination ∈ moves.map (·.output.name) ∧
    (Stays a moves destination ∨ 1 < (moves.map (·.output.name)).count destination)

def writers (moves : List Move) (destination : String) : List String :=
  (moves.filter (·.output.name = destination)).map (·.origin)

theorem length_writers (moves : List Move) (destination : String) :
    (writers moves destination).length = (moves.map (·.output.name)).count destination := by
  rw [writers, List.length_map, ← List.countP_eq_length_filter]
  simp [List.count, List.countP_map, Function.comp_def, beq_eq_decide]

theorem claimants_eq (a : Archive) (moves : List Move) (destination : String) :
    claimants a moves destination =
      (if Stays a moves destination then [destination] else []) ++ writers moves destination := by
  unfold claimants
  by_cases hstays : Stays a moves destination
  · rw [if_pos hstays]
    exact if_pos hstays
  · rw [if_neg hstays]
    exact if_neg hstays

theorem contested_iff {a : Archive} {moves : List Move} {destination : String} :
    Contested a moves destination ↔
      destination ∈ moves.map (·.output.name) ∧ 1 < (claimants a moves destination).length := by
  refine and_congr_right fun hmem => ?_
  have hpos := List.count_pos_iff.2 hmem
  rw [claimants_eq, List.length_append, length_writers]
  by_cases hstays : Stays a moves destination
  · simp only [hstays, if_true, true_or, List.length_singleton, true_iff]
    omega
  · simp [hstays]

theorem mem_destinations_iff {moves : List Move} {destination : String} :
    destination ∈ destinations moves ↔ destination ∈ moves.map (·.output.name) := by
  rw [destinations, Std.TreeMap.mem_keys, Std.TreeMap.mem_ofList]
  simp

theorem pairwise_destinations (moves : List Move) : (destinations moves).Pairwise (· < ·) := by
  have hordered : (destinations moves).Pairwise fun s t => compare s t = .lt :=
    Std.TreeMap.ordered_keys
  refine hordered.imp fun {s t} h => ?_
  exact compareOfLessAndEq_eq_lt.1 h

theorem least_of_find? {l : List String} (hl : l.Pairwise (· < ·)) {P : String → Bool} {d : String}
    (h : l.find? P = some d) {d' : String} (hmem : d' ∈ l) (hd' : P d' = true) :
    d = d' ∨ d < d' := by
  obtain ⟨-, before, behind, rfl, hbefore⟩ := List.find?_eq_some_iff_append.1 h
  rcases List.mem_append.1 hmem with hfront | hback
  · have hnot := hbefore d' hfront
    simp [hd'] at hnot
  · rcases List.mem_cons.1 hback with rfl | hback
    · exact .inl rfl
    · exact .inr ((List.pairwise_cons.1 (List.pairwise_append.1 hl).2.1).1 d' hback)

/-! ### The outcome of the check -/

theorem checkConflicts_eq_ok {a : Archive} {moves : List Move} :
    checkConflicts a moves = .ok () ↔ ∀ d, ¬ Contested a moves d := by
  unfold checkConflicts
  split
  · next d hfind =>
    have hd : Contested a moves d := contested_iff.2
      ⟨mem_destinations_iff.1 (List.mem_of_find?_eq_some hfind),
        by simpa using List.find?_some hfind⟩
    simpa using ⟨d, hd⟩
  · next hnone =>
    simp only [true_iff]
    intro d hd
    obtain ⟨hmem, hlength⟩ := contested_iff.1 hd
    have hnot := List.find?_eq_none.1 hnone d (mem_destinations_iff.2 hmem)
    simp only [decide_eq_true_eq] at hnot
    exact hnot hlength

theorem checkConflicts_eq_error {a : Archive} {moves : List Move} {e : ArchiveError}
    (h : checkConflicts a moves = .error e) : ∃ d, Contested a moves d ∧
      (∀ d', Contested a moves d' → d = d' ∨ d < d') ∧
      e = .writeConflict d (claimants a moves d) := by
  unfold checkConflicts at h
  split at h
  · next d hfind =>
    cases h
    refine ⟨d, contested_iff.2 ⟨mem_destinations_iff.1 (List.mem_of_find?_eq_some hfind),
      by simpa using List.find?_some hfind⟩, fun d' hd' => ?_, rfl⟩
    obtain ⟨hmem, hlength⟩ := contested_iff.1 hd'
    exact least_of_find? (pairwise_destinations moves) hfind (mem_destinations_iff.2 hmem)
      (by simpa using hlength)
  · cases h

theorem not_contested_iff {a : Archive} {moves : List Move} :
    (∀ d, ¬ Contested a moves d) ↔
      (moves.map (·.output.name)).Nodup ∧ ∀ w ∈ moves, ¬ Stays a moves w.output.name := by
  rw [List.nodup_iff_count_le_one]
  constructor
  · intro hfree
    refine ⟨fun d => ?_, fun w hw hstays => ?_⟩
    · by_contra hcount
      have hpos : 0 < (moves.map (·.output.name)).count d := by omega
      exact hfree d ⟨List.count_pos_iff.1 hpos, .inr (by omega)⟩
    · exact hfree w.output.name ⟨List.mem_map.2 ⟨w, hw, rfl⟩, .inl hstays⟩
  · rintro ⟨hcount, hstays⟩ d ⟨hmem, hcontested⟩
    obtain ⟨w, hw, rfl⟩ := List.mem_map.1 hmem
    rcases hcontested with hstay | htwo
    · exact hstays w hw hstay
    · have := hcount w.output.name
      omega

/-- The check accepts moves exactly if their destinations are distinct and none of them is the name
of an entry that stays, as it is where the destinations are the origins in another order. Otherwise
it names the least contested destination in byte order, and lists it, if an entry of that name
stays, before the entries that move there. -/
theorem checkConflicts_iff (a : Archive) (moves : List Move) :
    (checkConflicts a moves = .ok () ↔
      (moves.map (·.output.name)).Nodup ∧ ∀ w ∈ moves, ¬ Stays a moves w.output.name) ∧
    (∀ e, checkConflicts a moves = .error e ↔ ∃ d, Contested a moves d ∧
      (∀ d', Contested a moves d' → d = d' ∨ nameBytes d < nameBytes d') ∧
      e = .writeConflict d ((if Stays a moves d then [d] else []) ++ writers moves d)) ∧
    ((moves.map (·.origin)).Nodup →
      (moves.map (·.output.name)).Perm (moves.map (·.origin)) →
      checkConflicts a moves = .ok ()) := by
  refine ⟨checkConflicts_eq_ok.trans not_contested_iff, fun e => ?_, fun hnodup hperm => ?_⟩
  · simp only [nameBytes_lt_iff, ← claimants_eq]
    refine ⟨checkConflicts_eq_error, ?_⟩
    rintro ⟨d, hd, hleast, rfl⟩
    cases hcheck : checkConflicts a moves with
    | ok u => exact absurd hd (checkConflicts_eq_ok.1 hcheck d)
    | error e =>
      obtain ⟨d', hd', hleast', rfl⟩ := checkConflicts_eq_error hcheck
      -- two least destinations are the same
      rcases hleast d' hd' with rfl | hlt
      · rfl
      · rcases hleast' d hd with rfl | hgt
        · rfl
        · exact absurd hgt (String.lt_asymm hlt)
  · refine checkConflicts_eq_ok.2 (not_contested_iff.2 ⟨hperm.nodup_iff.2 hnodup, ?_⟩)
    rintro w hw ⟨-, hgone⟩
    exact hgone (hperm.mem_iff.1 (List.mem_map.2 ⟨w, hw, rfl⟩))

def crowdedArchive : Archive :=
  .ofEntries "crowded" [⟨"A.class", .file [1]⟩, ⟨"B.class", .file [2]⟩, ⟨"C.class", .file [3]⟩,
    ⟨"é.class", .file [4]⟩]

/-- Names that move in a circle are accepted. Where one entry moves to the name of one that stays,
and two others to a greater name, the lesser destination is reported. -/
theorem checkConflicts_iff_crowded :
    (let moves : List Move := [⟨"A.class", ⟨"B.class", .file [5]⟩⟩,
      ⟨"B.class", ⟨"C.class", .file [6]⟩⟩, ⟨"C.class", ⟨"A.class", .file [7]⟩⟩]
    (moves.map (·.origin)).Nodup ∧ (moves.map (·.output.name)).Perm (moves.map (·.origin)) ∧
      checkConflicts crowdedArchive moves = .ok ()) ∧
    checkConflicts crowdedArchive [⟨"A.class", ⟨"日.class", .file [5]⟩⟩,
      ⟨"B.class", ⟨"é.class", .file [6]⟩⟩, ⟨"C.class", ⟨"日.class", .file [7]⟩⟩] =
        .error (.writeConflict "é.class" ["é.class", "B.class"]) := by
  refine ⟨⟨by decide, by decide, (checkConflicts_iff _ _).2.2 (by decide) (by decide)⟩, ?_⟩
  refine ((checkConflicts_iff _ _).2.1 _).2 ⟨"é.class", ⟨by decide, .inl (by decide +kernel)⟩, ?_,
    by decide +kernel⟩
  rintro d ⟨hmem, -⟩
  simp only [List.map_cons, List.map_nil, List.mem_cons, List.not_mem_nil, or_false] at hmem
  rcases hmem with rfl | rfl | rfl
  · exact .inr (by decide +kernel)
  · exact .inl rfl
  · exact .inr (by decide +kernel)

end Pass

end ClassArchive
