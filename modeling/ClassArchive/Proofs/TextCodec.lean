import ClassArchive.ModifiedUtf8
import ClassArchive.Proofs.Codec

/-!
Every text is read back from its payload. A unit is split into groups of six bits that do not
overlap, and the leading byte tells how many there are; a character is split into units that only it
has.
-/
set_option autoImplicit false

namespace ClassArchive.ModifiedUtf8

/-! ### Bytes of a unit -/

theorem forall_byte_lt {bound : Nat} {P : UInt8 → Prop}
    (h : ∀ n, n < bound → P (UInt8.ofNat n)) (b : UInt8) (hb : b.toNat < bound) : P b := by
  have hp := h b.toNat hb
  rwa [UInt8.ofNat_toNat] at hp

theorem single_byte (b : UInt8) (hb : b.toNat < 128) : b &&& 0x80 = 0 :=
  forall_byte_lt (P := fun b => b &&& 0x80 = 0) (by decide) b hb

theorem leading_of_two (b : UInt8) (hb : b.toNat < 32) :
    (0xC0 ||| b) &&& 0x80 ≠ 0 ∧ (0xC0 ||| b) &&& 0xE0 = 0xC0 ∧ (0xC0 ||| b) &&& 0x1F = b :=
  forall_byte_lt (P := fun b => (0xC0 ||| b) &&& 0x80 ≠ 0 ∧ (0xC0 ||| b) &&& 0xE0 = 0xC0 ∧
    (0xC0 ||| b) &&& 0x1F = b) (by decide) b hb

theorem leading_of_three (b : UInt8) (hb : b.toNat < 16) :
    (0xE0 ||| b) &&& 0x80 ≠ 0 ∧ (0xE0 ||| b) &&& 0xE0 ≠ 0xC0 ∧ (0xE0 ||| b) &&& 0xF0 = 0xE0 ∧
      (0xE0 ||| b) &&& 0x0F = b :=
  forall_byte_lt (P := fun b => (0xE0 ||| b) &&& 0x80 ≠ 0 ∧ (0xE0 ||| b) &&& 0xE0 ≠ 0xC0 ∧
    (0xE0 ||| b) &&& 0xF0 = 0xE0 ∧ (0xE0 ||| b) &&& 0x0F = b) (by decide) b hb

theorem following (b : UInt8) (hb : b.toNat < 64) : (0x80 ||| b) &&& 0x3F = b :=
  forall_byte_lt (P := fun b => (0x80 ||| b) &&& 0x3F = b) (by decide) b hb

theorem toNat_low (u : UInt16) : (u &&& 0x3F).toUInt8.toNat = u.toNat % 64 := by
  have hmask : u.toNat &&& 63 = u.toNat % 64 := Nat.and_two_pow_sub_one_eq_mod u.toNat 6
  simp only [UInt16.toNat_toUInt8, UInt16.toNat_and, UInt16.reduceToNat, hmask]
  omega

theorem toNat_high (u : UInt16) (hu : u.toNat < 2048) :
    (u >>> 6).toUInt8.toNat = u.toNat / 64 := by
  simp only [UInt16.toNat_toUInt8, UInt16.toNat_shiftRight, UInt16.reduceToNat, Nat.reduceMod,
    Nat.shiftRight_eq_div_pow]
  omega

theorem toNat_top (u : UInt16) : (u >>> 12).toUInt8.toNat = u.toNat / 4096 := by
  have hu := u.toNat_lt
  simp only [UInt16.toNat_toUInt8, UInt16.toNat_shiftRight, UInt16.reduceToNat, Nat.reduceMod,
    Nat.shiftRight_eq_div_pow]
  omega

theorem joined_two (u : UInt16) (hu : u.toNat < 2048) :
    (u >>> 6).toUInt8.toUInt16 <<< 6 ||| (u &&& 0x3F).toUInt8.toUInt16 = u := by
  have hhigh := toNat_high u hu
  have hlow := toNat_low u
  apply UInt16.toNat_inj.1
  simp only [UInt16.toNat_or, UInt16.toNat_shiftLeft, UInt8.toNat_toUInt16, hhigh, hlow,
    UInt16.reduceToNat, Nat.reduceMod, Nat.reducePow]
  rw [Nat.mod_eq_of_lt (by simp only [Nat.shiftLeft_eq]; omega),
    ← Nat.shiftLeft_add_eq_or_of_lt (by omega)]
  simp only [Nat.shiftLeft_eq]
  omega

theorem joined_three (u : UInt16) :
    (u >>> 12).toUInt8.toUInt16 <<< 12 ||| ((u >>> 6) &&& 0x3F).toUInt8.toUInt16 <<< 6 |||
      (u &&& 0x3F).toUInt8.toUInt16 = u := by
  have hu := u.toNat_lt
  have hhigh := toNat_top u
  have hmiddle := toNat_low (u >>> 6)
  have hlow := toNat_low u
  apply UInt16.toNat_inj.1
  simp only [UInt16.toNat_or, UInt16.toNat_shiftLeft, UInt8.toNat_toUInt16, hhigh, hmiddle, hlow,
    UInt16.toNat_shiftRight, UInt16.reduceToNat, Nat.reduceMod, Nat.reducePow,
    Nat.shiftRight_eq_div_pow]
  -- the two upper groups are joined first: they are the unit without its last six bits
  have hupper : (u.toNat / 4096) <<< 12 % 65536 ||| (u.toNat / 64 % 64) <<< 6 % 65536 =
      (u.toNat / 64) <<< 6 := by
    rw [Nat.mod_eq_of_lt (by simp only [Nat.shiftLeft_eq]; omega),
      Nat.mod_eq_of_lt (by simp only [Nat.shiftLeft_eq]; omega),
      ← Nat.shiftLeft_add_eq_or_of_lt (by simp only [Nat.shiftLeft_eq]; omega)]
    simp only [Nat.shiftLeft_eq]
    omega
  rw [hupper, ← Nat.shiftLeft_add_eq_or_of_lt (by omega)]
  simp only [Nat.shiftLeft_eq]
  omega

theorem decodeUnits_encodeUnit_append (u : UInt16) (rest : Bytes) :
    decodeUnits (encodeUnit u ++ rest) = (decodeUnits rest).map (u :: ·) := by
  have hu := u.toNat_lt
  unfold encodeUnit
  split
  · next hone =>
    have hsmall : u.toNat < 128 := by
      have hle := UInt16.le_iff_toNat_le.1 hone.2
      simp at hle
      omega
    have hbyte : u.toUInt8.toNat = u.toNat := by simp; omega
    have hback : u.toUInt8.toUInt16 = u := by
      apply UInt16.toNat_inj.1
      rw [UInt8.toNat_toUInt16, hbyte]
    have hlead := single_byte u.toUInt8 (by omega)
    rw [decodeUnits.eq_def]
    simp only [List.cons_append, List.nil_append]
    rw [if_pos hlead, hback]
  · split
    · next htwo =>
      have hsmall : u.toNat < 2048 := by
        have hle := UInt16.le_iff_toNat_le.1 htwo
        simp at hle
        omega
      have hhigh : (u >>> 6).toUInt8.toNat < 32 := by rw [toNat_high u hsmall]; omega
      have hlow : (u &&& 0x3F).toUInt8.toNat < 64 := by rw [toNat_low]; omega
      obtain ⟨hne, hlead, hdata⟩ := leading_of_two _ hhigh
      rw [decodeUnits.eq_def]
      simp only [List.cons_append, List.nil_append]
      rw [if_neg hne, if_pos hlead, hdata, following _ hlow, joined_two u hsmall]
    · have hhigh : (u >>> 12).toUInt8.toNat < 16 := by rw [toNat_top]; omega
      have hmiddle : ((u >>> 6) &&& 0x3F).toUInt8.toNat < 64 := by rw [toNat_low]; omega
      have hlow : (u &&& 0x3F).toUInt8.toNat < 64 := by rw [toNat_low]; omega
      obtain ⟨hne, hne', hlead, hdata⟩ := leading_of_three _ hhigh
      rw [decodeUnits.eq_def]
      simp only [List.cons_append, List.nil_append]
      rw [if_neg hne, if_neg hne', if_pos hlead, hdata, following _ hmiddle, following _ hlow,
        joined_three u]

theorem decodeUnits_flatMap_encodeUnit (us : List UInt16) :
    decodeUnits (us.flatMap encodeUnit) = some us := by
  induction us with
  | nil => rfl
  | cons u us ih => rw [List.flatMap_cons, decodeUnits_encodeUnit_append, ih, Option.map_some]

/-! ### Units of a character -/

theorem toNat_cases (c : Char) :
    c.toNat < 0xD800 ∨ (0xDFFF < c.toNat ∧ c.toNat < 0x110000) := by
  have hvalid := c.valid
  simp only [UInt32.isValidChar, Nat.isValidChar] at hvalid
  simp only [Char.toNat]
  omega

theorem joinUnits_units_append (c : Char) (rest : List UInt16) :
    joinUnits (units c ++ rest) = (joinUnits rest).map (c :: ·) := by
  have hc := toNat_cases c
  unfold units
  split
  · next hplane =>
    have hunit := toNat_toUInt16 hplane
    have houtside : c.toNat.toUInt16 < 0xD800 ∨ 0xDFFF < c.toNat.toUInt16 := by
      simp only [UInt16.lt_iff_toNat_lt, hunit, UInt16.reduceToNat]
      omega
    rw [joinUnits.eq_def]
    simp only [List.cons_append, List.nil_append]
    rw [if_pos houtside, hunit, Char.ofNat_toNat]
  · next hplane =>
    have hhigh : (0xD800 + (c.toNat - 0x10000) / 0x400).toUInt16.toNat =
        0xD800 + (c.toNat - 0x10000) / 0x400 := toNat_toUInt16 (by omega)
    have hlow : (0xDC00 + (c.toNat - 0x10000) % 0x400).toUInt16.toNat =
        0xDC00 + (c.toNat - 0x10000) % 0x400 := toNat_toUInt16 (by omega)
    rw [joinUnits.eq_def]
    simp only [List.cons_append, List.nil_append, UInt16.lt_iff_toNat_lt, UInt16.le_iff_toNat_le,
      hhigh, hlow, UInt16.reduceToNat]
    rw [if_neg (by omega), if_pos (by omega), if_pos (by omega)]
    have hback : 0x10000 + (0xD800 + (c.toNat - 0x10000) / 0x400 - 0xD800) * 0x400 +
        (0xDC00 + (c.toNat - 0x10000) % 0x400 - 0xDC00) = c.toNat := by omega
    rw [hback, Char.ofNat_toNat]

theorem joinUnits_flatMap_units (cs : List Char) : joinUnits (cs.flatMap units) = some cs := by
  induction cs with
  | nil => rfl
  | cons c cs ih => rw [List.flatMap_cons, joinUnits_units_append, ih, Option.map_some]

theorem decode_encode (s : String) : decode (encode s) = some s := by
  simp [decode, encode, decodeUnits_flatMap_encodeUnit, joinUnits_flatMap_units]

/-! ### Payloads that are written anew -/

theorem toNat_ofNat_of_valid {n : Nat} (h : n < 0xD800 ∨ (0xDFFF < n ∧ n < 0x110000)) :
    (Char.ofNat n).toNat = n := by
  rw [Char.ofNat, dif_pos h]
  rfl

theorem units_of_single {u : UInt16} (h : u < 0xD800 ∨ 0xDFFF < u) :
    units (Char.ofNat u.toNat) = [u] := by
  have hu := u.toNat_lt
  have hchar : (Char.ofNat u.toNat).toNat = u.toNat := by
    refine toNat_ofNat_of_valid ?_
    simp only [UInt16.lt_iff_toNat_lt, UInt16.reduceToNat] at h
    omega
  simp [units, hchar, hu]

theorem units_of_pair {u v : UInt16} (hu : ¬(u < 0xD800 ∨ 0xDFFF < u)) (hhigh : u < 0xDC00)
    (hv : 0xDC00 ≤ v ∧ v ≤ 0xDFFF) :
    units (Char.ofNat (0x10000 + (u.toNat - 0xD800) * 0x400 + (v.toNat - 0xDC00))) = [u, v] := by
  simp only [UInt16.lt_iff_toNat_lt, UInt16.le_iff_toNat_le, UInt16.reduceToNat] at hu hhigh hv
  rw [units, toNat_ofNat_of_valid (by omega), if_neg (by omega)]
  simp only [List.cons.injEq, and_true]
  constructor
  · apply UInt16.toNat_inj.1
    rw [toNat_toUInt16 (by omega)]
    omega
  · apply UInt16.toNat_inj.1
    rw [toNat_toUInt16 (by omega)]
    omega

theorem flatMap_units_of_joinUnits {us : List UInt16} {cs : List Char}
    (h : joinUnits us = some cs) : cs.flatMap units = us := by
  fun_induction joinUnits us generalizing cs with
  | case1 =>
    cases h
    rfl
  | case2 u rest hsingle ih =>
    obtain ⟨cs, hcs, rfl⟩ := Option.map_eq_some_iff.1 h
    simp [units_of_single hsingle, ih hcs]
  | case3 u hnot hhigh v rest hv ih =>
    obtain ⟨cs, hcs, rfl⟩ := Option.map_eq_some_iff.1 h
    simp [units_of_pair hnot hhigh hv, ih hcs]
  | case4 | case5 | case6 => cases h

theorem length_encodeUnit_le_two {u : UInt16} (h : u ≤ 0x07FF) : (encodeUnit u).length ≤ 2 := by
  unfold encodeUnit
  split
  · simp
  · simp

theorem length_encodeUnit_le_three (u : UInt16) : (encodeUnit u).length ≤ 3 := by
  unfold encodeUnit
  split
  · simp
  · split <;> simp

theorem le_of_single (a : UInt8) : a.toUInt16 ≤ 0x07FF := by
  have ha := a.toNat_lt
  rw [UInt16.le_iff_toNat_le, UInt8.toNat_toUInt16]
  simp
  omega

theorem le_of_double (a b : UInt8) :
    (a &&& 0x1F).toUInt16 <<< 6 ||| (b &&& 0x3F).toUInt16 ≤ 0x07FF := by
  have hshort : (a &&& 0x1F).toNat < 32 := by
    rw [UInt8.toNat_and]
    exact Nat.lt_of_le_of_lt Nat.and_le_right (by decide)
  have hlow : (b &&& 0x3F).toNat < 64 := by
    rw [UInt8.toNat_and]
    exact Nat.lt_of_le_of_lt Nat.and_le_right (by decide)
  simp only [UInt16.le_iff_toNat_le, UInt16.toNat_or, UInt16.toNat_shiftLeft, UInt8.toNat_toUInt16,
    UInt16.reduceToNat, Nat.reduceMod]
  rw [Nat.mod_eq_of_lt (by simp only [Nat.shiftLeft_eq]; omega),
    ← Nat.shiftLeft_add_eq_or_of_lt (by omega)]
  simp only [Nat.shiftLeft_eq]
  omega

theorem length_flatMap_encodeUnit_le {data : Bytes} {us : List UInt16}
    (h : decodeUnits data = some us) : (us.flatMap encodeUnit).length ≤ 2 * data.length := by
  induction hn : data.length using Nat.strongRecOn generalizing data us with
  | ind n ih =>
    subst hn
    rw [decodeUnits.eq_def] at h
    split at h
    · cases h
      simp
    · next a rest =>
      simp only [List.length_cons] at ih
      split at h
      · obtain ⟨us, hus, rfl⟩ := Option.map_eq_some_iff.1 h
        have := ih rest.length (by omega) hus rfl
        have := length_encodeUnit_le_two (le_of_single a)
        simp only [List.flatMap_cons, List.length_append, List.length_cons]
        omega
      split at h
      · split at h
        · next b rest =>
          simp only [List.length_cons] at ih
          obtain ⟨us, hus, rfl⟩ := Option.map_eq_some_iff.1 h
          have := ih rest.length (by omega) hus rfl
          have := length_encodeUnit_le_two (le_of_double a b)
          simp only [List.flatMap_cons, List.length_append, List.length_cons]
          omega
        · cases h
      split at h
      · split at h
        · next b c rest =>
          simp only [List.length_cons] at ih
          obtain ⟨us, hus, rfl⟩ := Option.map_eq_some_iff.1 h
          have := ih rest.length (by omega) hus rfl
          have := length_encodeUnit_le_three ((a &&& 0x0F).toUInt16 <<< 12 |||
            (b &&& 0x3F).toUInt16 <<< 6 ||| (c &&& 0x3F).toUInt16)
          simp only [List.flatMap_cons, List.length_append, List.length_cons]
          omega
        · cases h
      · cases h

/-- A text is written in at most twice the bytes from which it was read: only the unit zero can have
been shorter there. -/
theorem length_encode_le {data : Bytes} {text : String} (h : decode data = some text) :
    (encode text).length ≤ 2 * data.length := by
  obtain ⟨cs, hcs, rfl⟩ := Option.map_eq_some_iff.1 h
  obtain ⟨us, hus, hcs⟩ := Option.bind_eq_some_iff.1 hcs
  rw [encode, String.toList_ofList, flatMap_units_of_joinUnits hcs]
  exact length_flatMap_encodeUnit_le hus

end ClassArchive.ModifiedUtf8
