import ClassArchive.Proofs.Codec
import ClassArchive.Proofs.PoolRecall
import ClassArchive.Proofs.TextCodec

/-!
A pool is read back from its bytes, slot by slot. The slot behind a long or double has no bytes of
its own; it comes back because the constant before it fills it.
-/
set_option autoImplicit false

namespace ClassArchive

open Reader

/-! ### Constants -/

namespace Constant

/-- Whether the payload of a text has a length that its field can hold. A payload that is kept as it
is must not be a text. -/
def Fits : Constant → Prop
  | .utf8 text => (ModifiedUtf8.encode text).length < 65536
  | .rawUtf8 data => data.length < 65536 ∧ ModifiedUtf8.decode data = none
  | _ => True

instance : DecidablePred Fits
  | .utf8 text => inferInstanceAs (Decidable ((ModifiedUtf8.encode text).length < 65536))
  | .rawUtf8 data =>
      inferInstanceAs (Decidable (data.length < 65536 ∧ ModifiedUtf8.decode data = none))
  | .integer _ | .float _ | .long _ | .double _ | .classInfo _ | .string _ | .fieldRef _ _
  | .methodRef _ _ | .interfaceMethodRef _ _ | .nameAndType _ _ | .methodHandle _ _
  | .methodType _ | .dynamic _ _ | .invokeDynamic _ _ | .moduleInfo _ | .packageInfo _
  | .unusable => isTrue trivial

theorem restores_text {data : Bytes} (h : data.length < 65536) :
    (do let length ← u16; ofText <$> bytes length.toNat : Reader Constant).Restores
      (count16 data.length ++ data) (ofText data) := by
  refine (restores_u16 data.length.toUInt16).bind ?_
  rw [toNat_toUInt16 h]
  exact (restores_bytes data).map ofText

theorem ofText_encode (text : String) : ofText (ModifiedUtf8.encode text) = .utf8 text := by
  simp [ofText, ModifiedUtf8.decode_encode]

theorem ofText_of_decode {data : Bytes} (h : ModifiedUtf8.decode data = none) :
    ofText data = .rawUtf8 data := by
  simp [ofText, h]

theorem restores_readBody {tag : UInt8} {index : UInt16} {data : Bytes} {c : Constant}
    (h : (readBody tag index).Restores data c) : (read index).Restores (tag :: data) c :=
  (restores_u8 tag).bind h

theorem restores_read {c : Constant} (index : UInt16) (hfit : c.Fits) (hc : c ≠ .unusable) :
    (read index).Restores c.encode c := by
  cases c with
  | utf8 text =>
    have hread := restores_text hfit
    rw [ofText_encode] at hread
    exact restores_readBody hread
  | rawUtf8 data =>
    have hread := restores_text hfit.1
    rw [ofText_of_decode hfit.2] at hread
    exact restores_readBody hread
  | integer value => exact restores_readBody ((restores_u32 value.toUInt32).map _)
  | float bits => exact restores_readBody ((restores_u32 bits).map _)
  | long value => exact restores_readBody ((restores_u64 value.toUInt64).map _)
  | double bits => exact restores_readBody ((restores_u64 bits).map _)
  | classInfo i | string i | methodType i | moduleInfo i | packageInfo i =>
    exact restores_readBody ((restores_u16 i).map _)
  | fieldRef i j | methodRef i j | interfaceMethodRef i j | nameAndType i j | dynamic i j
  | invokeDynamic i j =>
    exact restores_readBody (((restores_u16 i).map _).seq (restores_u16 j))
  | methodHandle kind i =>
    exact restores_readBody (((restores_u8 kind).map _).seq (restores_u16 i))
  | unusable => exact absurd rfl hc

def isFixed : Constant → Bool
  | .utf8 _ | .rawUtf8 _ | .unusable => false
  | _ => true

theorem read_eq_ok {index : UInt16} {cursor rest : Cursor} {c : Constant}
    (h : read index cursor = .ok (c, rest)) :
    (∃ payload, payload.length < 65536 ∧ c = ofText payload ∧
      cursor.rest = encodeText payload ++ rest.rest) ∨
    (c.isFixed = true ∧ cursor.rest = c.encode ++ rest.rest) := by
  obtain ⟨tag, mid, htag, h⟩ := state_bind_eq_ok.1 h
  rw [(codes_u8.sound htag).1]
  unfold readBody at h
  split at h
  · left
    obtain ⟨length, last, hlength, h⟩ := state_bind_eq_ok.1 h
    obtain ⟨payload, end_, hpayload, h⟩ := state_map_eq_ok.1 h
    cases h
    obtain ⟨hdata, hsize⟩ := (codes_bytes _).sound hpayload
    refine ⟨payload, by rw [hsize]; exact length.toNat_lt, rfl, ?_⟩
    simp [encodeText, count16, hsize, (codes_u16.sound hlength).1, hdata]
  case h_18 => cases h
  all_goals
    right
    first
    | obtain ⟨a, rfl, hdata⟩ := codes_u16.sound_map h
      exact ⟨rfl, by simp [encode, hdata]⟩
    | obtain ⟨a, b, rfl, hdata⟩ := codes_u16.sound_seq codes_u16 h
      exact ⟨rfl, by simp [encode, hdata]⟩
    | obtain ⟨a, rfl, hdata⟩ := codes_u32.sound_map h
      exact ⟨rfl, by simp [encode, hdata]⟩
    | obtain ⟨a, rfl, hdata⟩ := codes_u64.sound_map h
      exact ⟨rfl, by simp [encode, hdata]⟩
    | obtain ⟨a, b, rfl, hdata⟩ := codes_u8.sound_seq codes_u16 h
      exact ⟨rfl, by simp [encode, hdata]⟩

end Constant

namespace Pool

/-! ### Slots -/

/-- Whether unusable slots stand exactly behind the longs and doubles. -/
def Paired (slots : List Constant) : Prop :=
  ∀ i : Nat, slots[i]? = some .unusable ↔ 0 < i ∧ slots[i - 1]?.any Constant.isWide = true

theorem paired_nil : Paired [] := by
  intro i
  simp

theorem paired_cons {c : Constant} {rest : List Constant} :
    Paired (c :: rest) ↔ c ≠ .unusable ∧
      ∀ i : Nat, rest[i]? = some .unusable ↔ (c :: rest)[i]?.any Constant.isWide = true := by
  constructor
  · intro h
    exact ⟨by simpa using h 0, fun i => by simpa using h (i + 1)⟩
  · rintro ⟨hc, hrest⟩ i
    cases i with
    | zero => simp [hc]
    | succ i => simpa using hrest i

theorem paired_cons_of_narrow {c : Constant} {rest : List Constant} (hc : c ≠ .unusable)
    (hnarrow : c.isWide = false) : Paired (c :: rest) ↔ Paired rest := by
  have hbehind : ∀ i : Nat, (c :: rest)[i]?.any Constant.isWide = true ↔
      0 < i ∧ rest[i - 1]?.any Constant.isWide = true := by
    intro i
    cases i with
    | zero => simp [hnarrow]
    | succ i => simp
  simp only [paired_cons, hbehind]
  exact ⟨fun h => h.2, fun h => ⟨hc, h⟩⟩

theorem paired_cons_of_wide {c : Constant} {rest : List Constant} (hc : c ≠ .unusable)
    (hwide : c.isWide = true) :
    Paired (c :: rest) ↔ ∃ more, rest = .unusable :: more ∧ Paired more := by
  rw [paired_cons]
  constructor
  · rintro ⟨-, hrest⟩
    have hfirst := (hrest 0).2 (by simpa using hwide)
    obtain ⟨more, rfl⟩ : ∃ more, rest = .unusable :: more := by
      cases rest with
      | nil => simp at hfirst
      | cons d more => exact ⟨more, by simpa using hfirst⟩
    refine ⟨more, rfl, fun i => ?_⟩
    have hi := hrest (i + 1)
    cases i with
    | zero => simpa [Constant.isWide] using hi
    | succ i => simpa using hi
  · rintro ⟨more, rfl, hmore⟩
    refine ⟨hc, fun i => ?_⟩
    match i with
    | 0 => simpa using hwide
    | 1 => simpa [Constant.isWide] using hmore 0
    | i + 2 => simpa using hmore (i + 1)

theorem paired_flatMap_filling {constants : List Constant} (h : .unusable ∉ constants) :
    Paired (constants.flatMap filling) := by
  induction constants with
  | nil => exact paired_nil
  | cons c constants ih =>
    simp only [List.mem_cons, not_or] at h
    have hrest := ih h.2
    rw [List.flatMap_cons, filling]
    split
    · next hwide => exact (paired_cons_of_wide (Ne.symm h.1) hwide).2 ⟨_, rfl, hrest⟩
    · next hnarrow =>
      exact (paired_cons_of_narrow (Ne.symm h.1) (by simpa using hnarrow)).2 hrest

theorem exists_constants_of_paired {slots : List Constant} (h : Paired slots) :
    ∃ constants : List Constant, .unusable ∉ constants ∧ slots = constants.flatMap filling := by
  match slots with
  | [] => exact ⟨[], by simp, rfl⟩
  | c :: rest =>
    have hc := (paired_cons.1 h).1
    cases hwide : c.isWide with
    | false =>
      obtain ⟨constants, hnot, hrest⟩ :=
        exists_constants_of_paired ((paired_cons_of_narrow hc hwide).1 h)
      exact ⟨c :: constants, by simp [hc.symm, hnot], by simp [filling, hwide, hrest]⟩
    | true =>
      obtain ⟨more, rfl, hpaired⟩ := (paired_cons_of_wide hc hwide).1 h
      obtain ⟨constants, hnot, hmore⟩ := exists_constants_of_paired hpaired
      exact ⟨c :: constants, by simp [hc.symm, hnot], by simp [filling, hwide, hmore]⟩
  termination_by slots.length

/-! ### Pools -/

theorem flatMap_encode_filling (constants : List Constant) :
    (constants.flatMap filling).flatMap Constant.encode = constants.flatMap Constant.encode := by
  induction constants with
  | nil => rfl
  | cons c constants ih =>
    rw [List.flatMap_cons, List.flatMap_append, ih, List.flatMap_cons]
    unfold filling
    split <;> simp [Constant.encode]

theorem appendList_eq (slots : Array Constant) (more : List Constant) :
    slots.appendList more = (slots.toList ++ more).toArray := by
  apply Array.toList_inj.1
  simp

theorem restores_readSlots {constants : List Constant} (hfit : ∀ c ∈ constants, c.Fits)
    (hnot : .unusable ∉ constants) (index : Nat) (slots : Array Constant) :
    (readSlots (constants.flatMap filling).length false index slots).Restores
      (constants.flatMap Constant.encode)
      (slots.toList ++ constants.flatMap filling).toArray := by
  induction constants generalizing index slots with
  | nil =>
    rw [List.flatMap_nil, List.append_nil]
    exact restores_pure slots
  | cons c constants ih =>
    simp only [List.mem_cons, not_or] at hnot
    have hc := Constant.restores_read index.toUInt16 (hfit c (by simp)) (Ne.symm hnot.1)
    -- a wide constant takes one more index, but the same slots follow in both cases
    have hrest : ∀ index, (readSlots (constants.flatMap filling).length false index
        (slots.appendList (filling c))).Restores (constants.flatMap Constant.encode)
        (slots.toList ++ (c :: constants).flatMap filling).toArray := by
      intro index
      have hmore := ih (fun d hd => hfit d (by simp [hd])) hnot.2 index
        (slots.appendList (filling c))
      simpa only [appendList_eq, List.append_assoc, List.flatMap_cons] using hmore
    cases hwide : c.isWide with
    | false =>
      have hlength : ((c :: constants).flatMap filling).length =
          (constants.flatMap filling).length + 1 := by
        simp [filling, hwide]
      rw [hlength, List.flatMap_cons, readSlots]
      refine hc.bind ?_
      rw [hwide]
      exact hrest (index + 1)
    | true =>
      have hlength : ((c :: constants).flatMap filling).length =
          (constants.flatMap filling).length + 1 + 1 := by
        simp [filling, hwide]
      rw [hlength, List.flatMap_cons, readSlots]
      refine hc.bind ?_
      rw [hwide, readSlots]
      exact hrest (index + 1 + 1)

/-- A pool whose bytes determine its slots. -/
structure WellFormed (p : Pool) : Prop where
  small : p.slots.size ≤ capacity
  paired : Paired p.slots.toList
  fits : ∀ c ∈ p.slots.toList, c.Fits

theorem restores_read {p : Pool} (h : p.WellFormed) : read.Restores p.encode (ofSlots p.slots) := by
  have hcount : p.count.toNat = p.slots.size + 1 := by
    have hsmall := h.small
    simp only [capacity] at hsmall
    exact toNat_index (by omega)
  -- the reader goes by constants, not by slots
  obtain ⟨constants, hnot, hslots⟩ := exists_constants_of_paired h.paired
  have hfit : ∀ c ∈ constants, c.Fits := by
    intro c hc
    refine h.fits c ?_
    rw [hslots]
    refine List.mem_flatMap.2 ⟨c, hc, ?_⟩
    unfold filling
    split <;> simp
  have hread := restores_readSlots hfit hnot 1 #[]
  rw [← flatMap_encode_filling, ← hslots] at hread
  refine (restores_u16 p.count).bind ?_
  rw [← List.append_nil (p.slots.toList.flatMap Constant.encode)]
  refine Restores.bind ?_ (restores_pure _)
  rw [hcount]
  simpa using hread

theorem slots_ofSlots (slots : Array Constant) : (ofSlots slots).slots = slots :=
  slots_foldl_note _ _

end Pool

end ClassArchive
