import ClassArchive.Reader

/-!
Modified UTF-8: a text is cut into units of sixteen bits, a supplementary character into two, and
each unit is written in one to three bytes. The unit zero takes two bytes, so no byte is zero.
-/
set_option autoImplicit false

namespace ClassArchive.ModifiedUtf8

def units (c : Char) : List UInt16 :=
  if c.toNat < 0x10000 then [c.toNat.toUInt16]
  else
    let n := c.toNat - 0x10000
    [(0xD800 + n / 0x400).toUInt16, (0xDC00 + n % 0x400).toUInt16]

def encodeUnit (u : UInt16) : Bytes :=
  if 0x0001 ≤ u ∧ u ≤ 0x007F then [u.toUInt8]
  else if u ≤ 0x07FF then
    [(0xC0 : UInt8) ||| (u >>> 6).toUInt8, (0x80 : UInt8) ||| (u &&& 0x3F).toUInt8]
  else
    [(0xE0 : UInt8) ||| (u >>> 12).toUInt8, (0x80 : UInt8) ||| ((u >>> 6) &&& 0x3F).toUInt8,
     (0x80 : UInt8) ||| (u &&& 0x3F).toUInt8]

def encode (s : String) : Bytes := (s.toList.flatMap units).flatMap encodeUnit

/-- The units of a payload. The leading byte alone decides how many bytes form a unit; of the
bytes after it only the low six bits count. -/
def decodeUnits : Bytes → Option (List UInt16)
  | [] => some []
  | a :: rest =>
      if a &&& 0x80 = 0 then (decodeUnits rest).map (a.toUInt16 :: ·)
      else if a &&& 0xE0 = 0xC0 then
        match rest with
        | b :: rest =>
            (decodeUnits rest).map (((a &&& 0x1F).toUInt16 <<< 6 ||| (b &&& 0x3F).toUInt16) :: ·)
        | [] => none
      else if a &&& 0xF0 = 0xE0 then
        match rest with
        | b :: c :: rest =>
            (decodeUnits rest).map
              (((a &&& 0x0F).toUInt16 <<< 12 ||| (b &&& 0x3F).toUInt16 <<< 6 |||
                (c &&& 0x3F).toUInt16) :: ·)
        | _ => none
      else none

/-- The characters of a list of units; a surrogate without its partner has none. -/
def joinUnits : List UInt16 → Option (List Char)
  | [] => some []
  | u :: rest =>
      if u < 0xD800 ∨ 0xDFFF < u then (joinUnits rest).map (Char.ofNat u.toNat :: ·)
      else if u < 0xDC00 then
        match rest with
        | v :: rest =>
            if 0xDC00 ≤ v ∧ v ≤ 0xDFFF then
              (joinUnits rest).map
                (Char.ofNat (0x10000 + (u.toNat - 0xD800) * 0x400 + (v.toNat - 0xDC00)) :: ·)
            else none
        | [] => none
      else none

def decode (data : Bytes) : Option String :=
  ((decodeUnits data).bind joinUnits).map String.ofList

end ClassArchive.ModifiedUtf8
