import ClassArchive.Proofs.TextCodec
import Mathlib.Algebra.GroupWithZero.Nat

/-!
The bytes in which texts are written: how many there are, which of them occur, and that a payload
that breaks off early is another text or none.
-/
set_option autoImplicit false

namespace ClassArchive.ModifiedUtf8

/-! ### Bytes that occur -/

def Occurs (b : UInt8) : Prop := b ≠ 0 ∧ b ≤ 0xEF

instance : DecidablePred Occurs := fun b => inferInstanceAs (Decidable (b ≠ 0 ∧ b ≤ 0xEF))

theorem occurs_leading_of_two (b : UInt8) (hb : b.toNat < 32) : Occurs (0xC0 ||| b) :=
  forall_byte_lt (P := fun b => Occurs (0xC0 ||| b)) (by decide) b hb

theorem occurs_leading_of_three (b : UInt8) (hb : b.toNat < 16) : Occurs (0xE0 ||| b) :=
  forall_byte_lt (P := fun b => Occurs (0xE0 ||| b)) (by decide) b hb

theorem occurs_following (b : UInt8) (hb : b.toNat < 64) : Occurs (0x80 ||| b) :=
  forall_byte_lt (P := fun b => Occurs (0x80 ||| b)) (by decide) b hb

theorem occurs_low (u : UInt16) : Occurs (0x80 ||| (u &&& 0x3F).toUInt8) :=
  occurs_following _ (by rw [toNat_low]; omega)

theorem occurs_of_mem_encodeUnit {u : UInt16} {b : UInt8} (h : b ∈ encodeUnit u) : Occurs b := by
  unfold encodeUnit at h
  split at h
  · next hone =>
    obtain rfl := List.mem_singleton.1 h
    simp only [UInt16.le_iff_toNat_le, UInt16.reduceToNat] at hone
    have hbyte : u.toUInt8.toNat = u.toNat := by simp; omega
    refine ⟨fun hzero => ?_, ?_⟩
    · rw [hzero] at hbyte
      simp at hbyte
      omega
    · rw [UInt8.le_iff_toNat_le, hbyte]
      simp
      omega
  · split at h
    · next htwo =>
      have hsmall : u.toNat < 2048 := by
        rw [UInt16.le_iff_toNat_le] at htwo
        simp at htwo
        omega
      have hhigh : (u >>> 6).toUInt8.toNat < 32 := by rw [toNat_high u hsmall]; omega
      simp only [List.mem_cons, List.not_mem_nil, or_false] at h
      rcases h with rfl | rfl
      · exact occurs_leading_of_two _ hhigh
      · exact occurs_low u
    · have hhigh : (u >>> 12).toUInt8.toNat < 16 := by
        have hu := u.toNat_lt
        rw [toNat_top]
        omega
      simp only [List.mem_cons, List.not_mem_nil, or_false] at h
      rcases h with rfl | rfl | rfl
      · exact occurs_leading_of_three _ hhigh
      · exact occurs_low (u >>> 6)
      · exact occurs_low u

/-! ### Lengths -/

def unitSize (u : UInt16) : Nat :=
  if 0x0001 ≤ u ∧ u ≤ 0x007F then 1
  else if u = 0x0000 ∨ (0x0080 ≤ u ∧ u ≤ 0x07FF) then 2
  else 3

theorem length_encodeUnit (u : UInt16) : (encodeUnit u).length = unitSize u := by
  unfold encodeUnit unitSize
  split
  · rfl
  · next hone =>
    -- what is left below the two bytes' limit is zero or beyond the single bytes
    have hiff : u ≤ 0x07FF ↔ u = 0x0000 ∨ (0x0080 ≤ u ∧ u ≤ 0x07FF) := by
      simp only [UInt16.le_iff_toNat_le, ← UInt16.toNat_inj, UInt16.reduceToNat] at hone ⊢
      omega
    by_cases htwo : u ≤ 0x07FF
    · rw [if_pos htwo, if_pos (hiff.1 htwo)]
      rfl
    · rw [if_neg htwo, if_neg fun h => htwo (hiff.2 h)]
      rfl

theorem length_flatMap_encodeUnit (us : List UInt16) :
    (us.flatMap encodeUnit).length = (us.map unitSize).sum := by
  simp [List.length_flatMap, length_encodeUnit]

/-- A text is read back from its payload, which has no zero byte and none above `0xEF`, and whose
length is that of its units. -/
theorem lossless_encode (s : String) :
    decode (encode s) = some s ∧ (∀ b ∈ encode s, b ≠ 0 ∧ b ≤ 0xEF) ∧
      (encode s).length = ((s.toList.flatMap units).map unitSize).sum := by
  refine ⟨decode_encode s, fun b hb => ?_, length_flatMap_encodeUnit _⟩
  obtain ⟨u, -, hu⟩ := List.mem_flatMap.1 hb
  exact occurs_of_mem_encodeUnit hu

/-! ### Payloads that break off -/

theorem decodeUnits_append {data more : Bytes} {us : List UInt16} (h : decodeUnits data = some us) :
    decodeUnits (data ++ more) = (decodeUnits more).map (us ++ ·) := by
  -- a unit takes up to three bytes, so the induction is on the length
  induction hn : data.length using Nat.strongRecOn generalizing data us with
  | ind n ih =>
    subst hn
    rw [decodeUnits.eq_def] at h
    split at h
    · cases h
      simp
    · next a rest =>
      simp only [List.length_cons] at ih
      rw [decodeUnits.eq_def]
      simp only [List.cons_append]
      split at h
      · next hone =>
        obtain ⟨us, hus, rfl⟩ := Option.map_eq_some_iff.1 h
        rw [if_pos hone, ih rest.length (by omega) hus rfl, Option.map_map]
        rfl
      · next hone =>
        rw [if_neg hone]
        split at h
        · next htwo =>
          rw [if_pos htwo]
          split at h
          · next b rest =>
            simp only [List.length_cons] at ih
            obtain ⟨us, hus, rfl⟩ := Option.map_eq_some_iff.1 h
            simp only [List.cons_append]
            rw [ih rest.length (by omega) hus rfl, Option.map_map]
            rfl
          · cases h
        · next htwo =>
          rw [if_neg htwo]
          split at h
          · next hthree =>
            rw [if_pos hthree]
            split at h
            · next b c rest =>
              simp only [List.length_cons] at ih
              obtain ⟨us, hus, rfl⟩ := Option.map_eq_some_iff.1 h
              simp only [List.cons_append]
              rw [ih rest.length (by omega) hus rfl, Option.map_map]
              rfl
            · cases h
          · cases h

theorem decodeUnits_eq_nil {data : Bytes} (h : decodeUnits data = some []) : data = [] := by
  cases data with
  | nil => rfl
  | cons a rest =>
    rw [decodeUnits.eq_def] at h
    simp only at h
    split at h
    · simp at h
    split at h
    · split at h <;> simp at h
    split at h
    · split at h <;> simp at h
    · simp at h

/-- A payload without its end is not read as the same text. -/
theorem decode_ne_of_append {data more : Bytes} {s : String} (h : encode s = data ++ more)
    (hmore : more ≠ []) : decode data ≠ some s := by
  intro hdata
  obtain ⟨cs, hcs, rfl⟩ := Option.map_eq_some_iff.1 hdata
  obtain ⟨us, hus, hjoin⟩ := Option.bind_eq_some_iff.1 hcs
  -- the payload already has all units, so nothing can follow
  have hall : decodeUnits (data ++ more) = some us := by
    rw [← h, encode, String.toList_ofList, flatMap_units_of_joinUnits hjoin,
      decodeUnits_flatMap_encodeUnit]
  rw [decodeUnits_append hus] at hall
  obtain ⟨vs, hvs, happend⟩ := Option.map_eq_some_iff.1 hall
  obtain rfl : vs = [] := by simpa using happend
  exact hmore (decodeUnits_eq_nil hvs)

end ClassArchive.ModifiedUtf8
