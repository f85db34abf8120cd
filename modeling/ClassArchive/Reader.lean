import ClassArchive.FormatError

/-!
Big-endian words and a reader over bytes. The reader counts how far it has come, so that data that
ends too early is reported with the offset of the failed read and the number of missing bytes.
-/
set_option autoImplicit false

namespace ClassArchive

abbrev Bytes := List UInt8

def be16 (w : UInt16) : Bytes := [(w >>> 8).toUInt8, w.toUInt8]

def be32 (w : UInt32) : Bytes :=
  [(w >>> 24).toUInt8, (w >>> 16).toUInt8, (w >>> 8).toUInt8, w.toUInt8]

def be64 (w : UInt64) : Bytes := be32 (w >>> 32).toUInt32 ++ be32 w.toUInt32

def word16 (a b : UInt8) : UInt16 := (a.toUInt16 <<< 8) ||| b.toUInt16

def word32 (a b c d : UInt8) : UInt32 :=
  (a.toUInt32 <<< 24) ||| (b.toUInt32 <<< 16) ||| (c.toUInt32 <<< 8) ||| d.toUInt32

def word64 (high low : UInt32) : UInt64 := (high.toUInt64 <<< 32) ||| low.toUInt64

theorem word16_be16 (w : UInt16) : word16 (w >>> 8).toUInt8 w.toUInt8 = w := by
  have hw := w.toNat_lt
  apply UInt16.toNat_inj.1
  simp only [word16, UInt16.toNat_or, UInt16.toNat_shiftLeft, UInt8.toNat_toUInt16,
    UInt16.toNat_toUInt8, UInt16.toNat_shiftRight, UInt16.reduceToNat, Nat.reduceMod]
  rw [Nat.mod_eq_of_lt (by simp only [Nat.shiftLeft_eq, Nat.shiftRight_eq_div_pow]; omega),
    ← Nat.shiftLeft_add_eq_or_of_lt (by omega)]
  simp only [Nat.shiftLeft_eq, Nat.shiftRight_eq_div_pow]
  omega

theorem or_shifted_bytes {a b c d : Nat} (ha : a < 256) (hb : b < 256) (hc : c < 256)
    (hd : d < 256) :
    a <<< 24 % 4294967296 ||| b <<< 16 % 4294967296 ||| c <<< 8 % 4294967296 ||| d =
      a * 16777216 + b * 65536 + c * 256 + d := by
  have high : a <<< 24 % 4294967296 ||| b <<< 16 % 4294967296 = (a * 256 + b) <<< 16 := by
    rw [Nat.mod_eq_of_lt (by simp only [Nat.shiftLeft_eq]; omega),
      Nat.mod_eq_of_lt (by simp only [Nat.shiftLeft_eq]; omega),
      ← Nat.shiftLeft_add_eq_or_of_lt (by simp only [Nat.shiftLeft_eq]; omega)]
    simp only [Nat.shiftLeft_eq]
    omega
  have middle : (a * 256 + b) <<< 16 + c <<< 8 = (a * 65536 + b * 256 + c) <<< 8 := by
    simp only [Nat.shiftLeft_eq]
    omega
  rw [high, Nat.mod_eq_of_lt (by simp only [Nat.shiftLeft_eq]; omega),
    ← Nat.shiftLeft_add_eq_or_of_lt (by simp only [Nat.shiftLeft_eq]; omega), middle,
    ← Nat.shiftLeft_add_eq_or_of_lt (by omega)]
  simp only [Nat.shiftLeft_eq]
  omega

theorem word32_be32 (w : UInt32) :
    word32 (w >>> 24).toUInt8 (w >>> 16).toUInt8 (w >>> 8).toUInt8 w.toUInt8 = w := by
  have hw := w.toNat_lt
  apply UInt32.toNat_inj.1
  simp only [word32, UInt32.toNat_or, UInt32.toNat_shiftLeft, UInt8.toNat_toUInt32,
    UInt32.toNat_toUInt8, UInt32.toNat_shiftRight, UInt32.reduceToNat, Nat.reduceMod, Nat.reducePow]
  rw [or_shifted_bytes (Nat.mod_lt _ (by decide)) (Nat.mod_lt _ (by decide))
    (Nat.mod_lt _ (by decide)) (Nat.mod_lt _ (by decide))]
  simp only [Nat.shiftRight_eq_div_pow]
  omega

/-- A length field of sixteen bits; a longer list leaves its length modulo the width. -/
def count16 (n : Nat) : Bytes := be16 n.toUInt16

structure Cursor where
  offset : Nat
  rest : Bytes
  deriving DecidableEq, Repr

abbrev Reader := StateT Cursor (Except FormatError)

namespace Reader

def ofBytes (bytes : Bytes) : Cursor := ⟨0, bytes⟩

def u8 : Reader UInt8 := fun c =>
  match c.rest with
  | a :: rest => .ok (a, ⟨c.offset + 1, rest⟩)
  | [] => .error (.unexpectedEnd c.offset 1)

def u16 : Reader UInt16 := fun c =>
  match c.rest with
  | a :: b :: rest => .ok (word16 a b, ⟨c.offset + 2, rest⟩)
  | short => .error (.unexpectedEnd c.offset (2 - short.length))

def u32 : Reader UInt32 := fun c =>
  match c.rest with
  | a :: b :: x :: y :: rest => .ok (word32 a b x y, ⟨c.offset + 4, rest⟩)
  | short => .error (.unexpectedEnd c.offset (4 - short.length))

def u64 : Reader UInt64 := do
  let high ← u32
  let low ← u32
  return word64 high low

def bytes (n : Nat) : Reader Bytes := fun c =>
  let taken := c.rest.take n
  if taken.length = n then .ok (taken, ⟨c.offset + n, c.rest.drop n⟩)
  else .error (.unexpectedEnd c.offset (n - taken.length))

theorem u8_cons (b : UInt8) (offset : Nat) (rest : Bytes) :
    u8 ⟨offset, b :: rest⟩ = .ok (b, ⟨offset + 1, rest⟩) := rfl

theorem u16_be16_append (w : UInt16) (offset : Nat) (rest : Bytes) :
    u16 ⟨offset, be16 w ++ rest⟩ = .ok (w, ⟨offset + 2, rest⟩) := by
  simp [u16, be16, word16_be16]

theorem u32_be32_append (w : UInt32) (offset : Nat) (rest : Bytes) :
    u32 ⟨offset, be32 w ++ rest⟩ = .ok (w, ⟨offset + 4, rest⟩) := by
  simp [u32, be32, word32_be32]

theorem bytes_append (data rest : Bytes) (offset : Nat) :
    bytes data.length ⟨offset, data ++ rest⟩ = .ok (data, ⟨offset + data.length, rest⟩) := by
  simp [bytes]

/-- Reads items onto those already read, which stand in reverse. -/
def manyOnto {α : Type} (item : Reader α) : Nat → List α → Reader (List α)
  | 0, seen => return seen.reverse
  | n + 1, seen => do
      let a ← item
      manyOnto item n (a :: seen)

def many {α : Type} (item : Reader α) (n : Nat) : Reader (List α) := manyOnto item n []

def list16 {α : Type} (item : Reader α) : Reader (List α) := do
  let n ← u16
  many item n.toNat

def list8 {α : Type} (item : Reader α) : Reader (List α) := do
  let n ← u8
  many item n.toNat

def fail {α : Type} (e : FormatError) : Reader α := fun _ => .error e

/-- Refuses bytes that are left over in the payload of the named attribute. -/
def finish (name : String) : Reader Unit := fun c =>
  match c.rest with
  | [] => .ok ((), c)
  | _ :: _ => .error (.malformedAttribute name (.trailingBytes c.offset))

def run {α : Type} (reader : Reader α) (data : Bytes) : Except FormatError α :=
  match reader (ofBytes data) with
  | .ok (a, _) => .ok a
  | .error e => .error e

/-- Reads the whole payload of the named attribute. Every cause inside, left-over bytes included,
is reported under that name. -/
def payload {α : Type} (name : String) (reader : Reader α) (data : Bytes) : Except FormatError α :=
  let whole : Reader α := do
    let a ← reader
    finish name
    return a
  match whole.run data with
  | .ok a => .ok a
  | .error e => .error (.insideAttribute name e)

end Reader

def encode16 {α : Type} (item : α → Bytes) (items : List α) : Bytes :=
  count16 items.length ++ items.flatMap item

def encode8 {α : Type} (item : α → Bytes) (items : List α) : Bytes :=
  items.length.toUInt8 :: items.flatMap item

end ClassArchive
