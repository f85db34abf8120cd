import ClassArchive.Proofs.ClassCodec

/-!
The bytes that are written as they were read. Reading is lenient in three ways only: it does not
look behind the last attribute, the last wide constant may fill a slot that was not announced, and
a text can stand in more than one way. All other bytes come back one by one.
-/
set_option autoImplicit false

namespace ClassArchive

open Reader

/-! ### Texts -/

namespace ModifiedUtf8

/-- Whether the payload, if it is a text at all, is the one that is written for it. -/
def Canonical (payload : Bytes) : Prop := ∀ text, decode payload = some text → encode text = payload

instance : DecidablePred Canonical := fun payload =>
  match h : decode payload with
  | none => .isTrue (by simp [Canonical, h])
  | some text => decidable_of_iff (encode text = payload) (by simp [Canonical, h])

end ModifiedUtf8

theorem be16_inj {a b : UInt16} : be16 a = be16 b ↔ a = b := by
  constructor
  · intro h
    simp only [be16, List.cons.injEq, and_true] at h
    rw [← word16_be16 a, ← word16_be16 b, h.1, h.2]
  · rintro rfl
    rfl

namespace Constant

/-- The length in front of a payload tells it apart from every other that could stand there. A text
is written in less than twice the bytes, so that a length that wraps around shows. -/
theorem encodeText_append_inj {payload written rest tail : Bytes} (hshort : payload.length < 65536)
    (hlength : written.length ≤ 2 * payload.length) :
    encodeText written ++ tail = encodeText payload ++ rest ↔ written = payload ∧ tail = rest := by
  constructor
  · intro h
    simp only [encodeText, List.cons_append, List.append_assoc, List.cons.injEq, true_and] at h
    obtain ⟨hcount, h⟩ := List.append_inj h (by simp [count16, be16])
    have hsame : written.length = payload.length := by
      have hmod := congrArg UInt16.toNat (be16_inj.1 hcount)
      simp only [Nat.toUInt16_eq, UInt16.toNat_ofNat'] at hmod
      omega
    exact List.append_inj h hsame
  · rintro ⟨rfl, rfl⟩
    rfl

theorem encode_ofText_append_inj {payload rest tail : Bytes} (hshort : payload.length < 65536) :
    (ofText payload).encode ++ tail = encodeText payload ++ rest ↔
      ModifiedUtf8.Canonical payload ∧ tail = rest := by
  unfold ofText
  split
  · next text htext =>
    have hlength := ModifiedUtf8.length_encode_le htext
    simp only [encode, encodeText_append_inj hshort hlength, ModifiedUtf8.Canonical, htext,
      Option.some.injEq, forall_eq']
  · next hnone => simp [encode, ModifiedUtf8.Canonical, hnone]

/-! ### Constants -/

/-- The number of bytes behind a tag. Those of a text start with their own number. -/
def bodySize (tag : UInt8) (rest : Bytes) : Nat :=
  match tag with
  | 1 =>
      match rest with
      | a :: b :: _ => 2 + (word16 a b).toNat
      | _ => 0
  | 5 | 6 => 8
  | 7 | 8 | 16 | 19 | 20 => 2
  | 15 => 3
  | _ => 4

end Constant

namespace Pool

/-- The payloads of the texts among the constants, found by tags and lengths alone. The number of
slots to be filled is given, and whether the next one belongs to the constant before. -/
def textPayloads : Nat → Bool → Bytes → List Bytes
  | n + 1, true, data => textPayloads n false data
  | n + 1, false, tag :: rest =>
      let size := Constant.bodySize tag rest
      let more := textPayloads n (tag = 5 || tag = 6) (rest.drop size)
      if tag = 1 then (rest.take size).drop 2 :: more else more
  | _, _, _ => []

theorem textPayloads_of_isFixed {c : Constant} (h : c.isFixed = true) (n : Nat) (rest : Bytes) :
    textPayloads (n + 1) false (c.encode ++ rest) = textPayloads n c.isWide rest := by
  cases c with
  | utf8 _ | rawUtf8 _ | unusable => cases h
  | _ => simp [Constant.encode, textPayloads, Constant.bodySize, Constant.isWide, be16, be32, be64]

theorem textPayloads_of_text {payload : Bytes} (h : payload.length < 65536) (n : Nat)
    (rest : Bytes) : textPayloads (n + 1) false (Constant.encodeText payload ++ rest) =
      payload :: textPayloads n false rest := by
  obtain ⟨w, hw⟩ : ∃ w : UInt16, payload.length = w.toNat := ⟨_, (toNat_toUInt16 h).symm⟩
  have hcount : count16 payload.length = be16 w := by simp [count16, hw]
  simp [Constant.encodeText, hcount, be16, textPayloads, Constant.bodySize, word16_be16, ← hw,
    Nat.add_comm 2]

theorem readSlots_eq_ok (n : Nat) (skip : Bool) (index : Nat) (slots : Array Constant)
    {cursor rest : Cursor} {out : Array Constant}
    (h : readSlots n skip index slots cursor = .ok (out, rest)) :
    ∃ more, out.toList = slots.toList ++ more ∧ ∀ tail,
      more.flatMap Constant.encode ++ tail = cursor.rest ↔
        (∀ payload ∈ textPayloads n skip cursor.rest, ModifiedUtf8.Canonical payload) ∧
          tail = rest.rest := by
  induction n generalizing skip index slots cursor with
  | zero =>
    cases h
    exact ⟨[], by simp, by simp [textPayloads]⟩
  | succ n ih =>
    cases skip with
    | true => exact ih false (index + 1) slots h
    | false =>
      obtain ⟨c, mid, hc, h⟩ := state_bind_eq_ok.1 h
      obtain ⟨more, hout, hmore⟩ := ih c.isWide (index + 1) _ h
      have hbytes : (filling c ++ more).flatMap Constant.encode =
          c.encode ++ more.flatMap Constant.encode := by
        unfold filling
        split <;> simp [Constant.encode]
      refine ⟨filling c ++ more, by simp [hout], fun tail => ?_⟩
      rcases Constant.read_eq_ok hc with ⟨payload, hshort, rfl, hdata⟩ | ⟨hfixed, hdata⟩
      · have hnarrow : (Constant.ofText payload).isWide = false := by
          unfold Constant.ofText
          split <;> rfl
        rw [hnarrow] at hmore
        rw [hbytes, List.append_assoc, hdata, Constant.encode_ofText_append_inj hshort, hmore,
          textPayloads_of_text hshort, List.forall_mem_cons, and_assoc]
      · rw [hbytes, List.append_assoc, hdata, List.append_cancel_left_eq, hmore,
          textPayloads_of_isFixed hfixed]

/-- The pool that is read comes back exactly if it fills the announced slots and its texts come
back. -/
theorem read_eq_ok {cursor rest : Cursor} {p : Pool} (h : read cursor = .ok (p, rest)) :
    ∃ (count : UInt16) (data : Bytes), cursor.rest = be16 count ++ data ∧ ∀ tail,
      p.encode ++ tail = cursor.rest ↔ count.toNat = p.slots.size + 1 ∧
        (∀ payload ∈ textPayloads (count.toNat - 1) false data, ModifiedUtf8.Canonical payload) ∧
          tail = rest.rest := by
  obtain ⟨count, mid, hcount, h⟩ := state_bind_eq_ok.1 h
  obtain ⟨slots, last, hslots, h⟩ := state_bind_eq_ok.1 h
  cases h
  have hdata := (codes_u16.sound hcount).1
  obtain ⟨more, hmore, hback⟩ := readSlots_eq_ok _ _ _ _ hslots
  have hcounts : (slots.size + 1).toUInt16 = count ↔ count.toNat = slots.size + 1 := by
    have hsize := size_readSlots _ _ _ _ hslots
    have hlt := count.toNat_lt
    rw [← UInt16.toNat_inj, Nat.toUInt16_eq, UInt16.toNat_ofNat']
    simp at hsize
    omega
  refine ⟨count, mid.rest, hdata, fun tail => ?_⟩
  obtain rfl : slots.toList = more := by simpa using hmore
  rw [encode, Pool.count, slots_ofSlots, hdata, List.append_assoc,
    List.append_eq_append_iff_of_size_eq_left (by simp [be16]), be16_inj, hcounts, hback]

end Pool

/-! ### Classes -/

namespace ClassFile

/-- The number of slots that the pool announces, and one more. -/
def announcedCount (data : Bytes) : Nat :=
  match data.drop 8 with
  | a :: b :: _ => (word16 a b).toNat
  | _ => 0

def textPayloads (data : Bytes) : List Bytes :=
  Pool.textPayloads (announcedCount data - 1) false (data.drop 10)

def leftOver (data : Bytes) : Bytes :=
  match read (ofBytes data) with
  | .ok (_, last) => last.rest
  | .error _ => []

theorem rest_of_readMagic {cursor rest : Cursor} (h : readMagic cursor = .ok ((), rest)) :
    cursor.rest = be32 classMagic ++ rest.rest := by
  obtain ⟨magic, mid, hmagic, h⟩ := state_bind_eq_ok.1 h
  split at h
  · next heq =>
    cases h
    rw [(codes_u32.sound hmagic).1, heq]
  · cases h

theorem readHead_inv {data : Bytes} {offset : Nat} {rest : Cursor} {c : ClassFile}
    (h : readHead ⟨offset, data⟩ = .ok (c, rest)) (tail : Bytes) :
    be32 classMagic ++ (be16 c.minor ++ (be16 c.major ++ (c.pool.encode ++ (be16 c.access ++
      (be16 c.thisClass ++ (be16 c.superClass ++ (encode16 be16 c.interfaces ++ tail))))))) = data ↔
      announcedCount data = c.pool.slots.size + 1 ∧
        (∀ payload ∈ textPayloads data, ModifiedUtf8.Canonical payload) ∧ tail = rest.rest := by
  obtain ⟨⟨⟩, s₁, hmagic, h⟩ := state_bind_eq_ok.1 h
  obtain ⟨minor, s₂, hminor, h⟩ := state_bind_eq_ok.1 h
  obtain ⟨major, s₃, hmajor, h⟩ := state_bind_eq_ok.1 h
  obtain ⟨pool, s₄, hpool, h⟩ := state_bind_eq_ok.1 h
  obtain ⟨access, s₅, haccess, h⟩ := state_bind_eq_ok.1 h
  obtain ⟨thisClass, s₆, hthis, h⟩ := state_bind_eq_ok.1 h
  obtain ⟨superClass, s₇, hsuper, h⟩ := state_bind_eq_ok.1 h
  obtain ⟨interfaces, s₈, hinterfaces, h⟩ := state_bind_eq_ok.1 h
  cases h
  obtain ⟨count, slots, hcount, hback⟩ := Pool.read_eq_ok hpool
  have hdata : data = be32 classMagic ++ (be16 minor ++ (be16 major ++ (be16 count ++ slots))) := by
    rw [← hcount, ← (codes_u16.sound hmajor).1, ← (codes_u16.sound hminor).1,
      ← rest_of_readMagic hmagic]
  have hannounced : announcedCount data = count.toNat := by
    simp [hdata, announcedCount, be32, be16, word16_be16]
  have htexts : textPayloads data = Pool.textPayloads (count.toNat - 1) false slots := by
    rw [textPayloads, hannounced]
    simp [hdata, be32, be16]
  have hafter : s₄.rest = be16 access ++ (be16 thisClass ++ (be16 superClass ++
      (encode16 be16 interfaces ++ rest.rest))) := by
    rw [← (codes_u16.list16.sound hinterfaces).1, ← (codes_u16.sound hsuper).1,
      ← (codes_u16.sound hthis).1, ← (codes_u16.sound haccess).1]
  rw [hannounced, htexts]
  rw [hcount] at hback
  conv => lhs; rw [hdata]
  simp only [List.append_cancel_left_eq, hback, hafter]

theorem leftOver_of_read {data : Bytes} {c : ClassFile} {last : Cursor}
    (h : read (ofBytes data) = .ok (c, last)) : leftOver data = last.rest := by
  simp [leftOver, h]

/-- A class that is read from bytes is written as these bytes exactly if none are left over, its
pool fills the slots that they announce, and every text stands there as it is written. -/
theorem encode_eq_iff {data : Bytes} {c : ClassFile} (h : decode data = .ok c) :
    c.encode = data ↔ leftOver data = [] ∧ announcedCount data = c.pool.slots.size + 1 ∧
      ∀ payload ∈ textPayloads data, ModifiedUtf8.Canonical payload := by
  unfold decode Reader.run at h
  split at h
  case h_2 => cases h
  next last hread =>
  cases h
  rw [leftOver_of_read hread]
  obtain ⟨head, s₁, hhead, h⟩ := state_bind_eq_ok.1 hread
  obtain ⟨fields, s₂, hfields, h⟩ := state_bind_eq_ok.1 h
  obtain ⟨methods, s₃, hmethods, h⟩ := state_bind_eq_ok.1 h
  obtain ⟨attributes, s₄, hattributes, h⟩ := state_bind_eq_ok.1 h
  cases h
  have hafter : s₁.rest = encode16 Member.encode fields ++ (encode16 Member.encode methods ++
      (Attribute.encodeList attributes ++ last.rest)) := by
    rw [← (Attribute.codes_list.sound hattributes).1, ← (Member.codes.list16.sound hmethods).1,
      ← (Member.codes.list16.sound hfields).1]
  have hback := readHead_inv hhead (encode16 Member.encode fields ++
    (encode16 Member.encode methods ++ Attribute.encodeList attributes))
  have hend : encode16 Member.encode fields ++ (encode16 Member.encode methods ++
      Attribute.encodeList attributes) = s₁.rest ↔ last.rest = [] := by
    simp [hafter]
  simp only [encode, List.append_assoc, hback, hend]
  constructor
  · rintro ⟨hcount, htexts, hrest⟩
    exact ⟨hrest, hcount, htexts⟩
  · rintro ⟨hrest, hcount, htexts⟩
    exact ⟨hcount, htexts, hrest⟩

/-- A class with a text that has a zero and a character of two units, with a payload that is no
text, and with numbers of two slots, one of which is no number. -/
def assortedBytes : Bytes :=
  [202, 254, 186, 190, 0, 3, 0, 52, 0, 10,
    1, 0, 9, 97, 192, 128, 237, 160, 189, 237, 184, 128, 7, 0, 1,
    5, 255, 255, 255, 255, 255, 255, 255, 254, 1, 0, 3, 237, 160, 128,
    6, 127, 248, 0, 0, 0, 0, 0, 1, 1, 0, 1, 109, 4, 255, 255, 255, 255,
    0, 33, 0, 2, 0, 0, 0, 1, 0, 2, 0, 0, 0, 1, 0, 9, 0, 8, 0, 8, 0, 1, 0, 8, 0, 0, 0, 2, 1, 2, 0, 0]

theorem encode_eq_iff_assorted : ∃ c, decode assortedBytes = .ok c ∧ leftOver assortedBytes = [] ∧
    announcedCount assortedBytes = c.pool.slots.size + 1 ∧
    (∀ payload ∈ textPayloads assortedBytes, ModifiedUtf8.Canonical payload) ∧
    (textPayloads assortedBytes).length = 3 ∧ c.encode = assortedBytes := by
  have hread : (decode assortedBytes).toOption.any
      (fun c => announcedCount assortedBytes = c.pool.slots.size + 1) = true := by
    decide +kernel
  obtain ⟨c, hc, hcount⟩ := exists_ok_of_any hread
  have hcount : announcedCount assortedBytes = c.pool.slots.size + 1 := by simpa using hcount
  have hrest : leftOver assortedBytes = [] := by decide +kernel
  have htexts : ∀ payload ∈ textPayloads assortedBytes, ModifiedUtf8.Canonical payload := by
    decide +kernel
  exact ⟨c, hc, hrest, hcount, htexts, by decide +kernel,
    (encode_eq_iff hc).2 ⟨hrest, hcount, htexts⟩⟩

-- a zero that stands as a single byte is written in two
example : (decode (202 :: 254 :: 186 :: 190 :: [0, 3, 0, 52, 0, 2, 1, 0, 1, 0] ++
    List.replicate 14 0)).toOption.map encode = some (202 :: 254 :: 186 :: 190 ::
      [0, 3, 0, 52, 0, 2, 1, 0, 2, 192, 128] ++ List.replicate 14 0) := by
  decide +kernel

end ClassFile

end ClassArchive
