import ClassArchive.Reader

/-!
The checksum of 32 bits by which a packed archive guards its entries: the remainder of the data as
a polynomial over two elements, the lowest bit of each byte first.
-/
set_option autoImplicit false

namespace ClassArchive.Checksum

/-- Divides by one more power of the variable. -/
def shift (c : UInt32) : UInt32 :=
  if c &&& 1 = 1 then (c >>> 1) ^^^ 0xEDB88320 else c >>> 1

def update (c : UInt32) (b : UInt8) : UInt32 := Nat.repeat shift 8 (c ^^^ b.toUInt32)

def ofBytes (bytes : Bytes) : UInt32 := bytes.foldl update 0xFFFFFFFF ^^^ 0xFFFFFFFF

end ClassArchive.Checksum
