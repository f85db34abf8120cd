import ClassArchive.Reader

/-!
The names of the entries of a packed archive. They are UTF-8, in which every piece that cannot be
read becomes a replacement character, or of code page 437, in which every byte is a character.
-/
set_option autoImplicit false

namespace ClassArchive.PackedName

def replacement : Char := '\ufffd'

/-- The characters of the code page from 80 in base sixteen on. -/
def codePage : Array Char :=
  ("ÇüéâäàåçêëèïîìÄÅÉæÆôöòûùÿÖÜ¢£¥₧ƒ" ++
    "áíóúñÑªº¿⌐¬½¼¡«»░▒▓│┤╡╢╖╕╣║╗╝╜╛┐" ++
    "└┴┬├─┼╞╟╚╔╩╦╠═╬╧╨╤╥╙╘╒╓╫╪┘┌█▄▌▐▀" ++
    "αßΓπΣσµτΦΘΩδ∞φε∩≡±≥≤⌠⌡÷≈°∙·√ⁿ²■\u00a0").toList.toArray

def ofCodePage (bytes : Bytes) : String :=
  String.ofList (bytes.map fun b =>
    if b < 0x80 then Char.ofNat b.toNat else codePage.getD (b.toNat - 0x80) replacement)

/-- The start of a character by its first byte: its bits, the bounds of the second byte, and how
many bytes follow that one. -/
structure Lead where
  bits : Nat
  low : UInt8
  high : UInt8
  more : Nat

/-- The bounds leave out what could be shorter, surrogates, and what is beyond all characters. -/
def lead? (b : UInt8) : Option Lead :=
  if b < 0xC2 then none
  else if b < 0xE0 then some ⟨b.toNat - 0xC0, 0x80, 0xBF, 0⟩
  else if b < 0xF0 then
    some ⟨b.toNat - 0xE0, if b = 0xE0 then 0xA0 else 0x80, if b = 0xED then 0x9F else 0xBF, 1⟩
  else if b < 0xF5 then
    some ⟨b.toNat - 0xF0, if b = 0xF0 then 0x90 else 0x80, if b = 0xF4 then 0x8F else 0xBF, 2⟩
  else none

/-- What a character still needs: its bits so far, the bounds of the next byte, and how many bytes
follow that one. Without it the next byte starts a character. -/
abbrev Pending := Option Lead

/-- Reads characters. A character that does not go on, and a byte that starts none, are replaced. -/
def readUtf8 : Pending → Bytes → List Char
  | none, [] => []
  | some _, [] => [replacement]
  | none, b :: rest =>
      if b < 0x80 then Char.ofNat b.toNat :: readUtf8 none rest
      else
        match lead? b with
        | some l => readUtf8 (some l) rest
        | none => replacement :: readUtf8 none rest
  | some l, b :: rest =>
      if l.low ≤ b ∧ b ≤ l.high then
        let bits := 64 * l.bits + (b.toNat - 0x80)
        match l.more with
        | 0 => Char.ofNat bits :: readUtf8 none rest
        | more + 1 => readUtf8 (some ⟨bits, 0x80, 0xBF, more⟩) rest
      else if b < 0x80 then replacement :: Char.ofNat b.toNat :: readUtf8 none rest
      else
        match lead? b with
        | some l => replacement :: readUtf8 (some l) rest
        | none => replacement :: replacement :: readUtf8 none rest

def ofUtf8 (bytes : Bytes) : String := String.ofList (readUtf8 none bytes)

end ClassArchive.PackedName
