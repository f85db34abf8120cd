import ClassArchive.Pool

/-!
Attributes as the class tree holds them: a name and a payload that is read only on demand.
-/
set_option autoImplicit false

namespace ClassArchive

structure Attribute where
  /-- The pool index of the name. -/
  name : UInt16
  payload : Bytes
  deriving DecidableEq, Repr

namespace Attribute

def encode (a : Attribute) : Bytes :=
  be16 a.name ++ be32 a.payload.length.toUInt32 ++ a.payload

def read : Reader Attribute := do
  let name ← Reader.u16
  let length ← Reader.u32
  let payload ← Reader.bytes length.toNat
  return { name, payload }

def encodeList : List Attribute → Bytes := encode16 encode

def readList : Reader (List Attribute) := Reader.list16 read

def isNamed (pool : Pool) (name : String) (a : Attribute) : Bool := pool.isText a.name name

def position? (pool : Pool) (name : String) (attributes : List Attribute) : Option Nat :=
  attributes.findIdx? (isNamed pool name)

def find? (pool : Pool) (name : String) (attributes : List Attribute) : Option Attribute :=
  attributes.find? (isNamed pool name)

/-- Puts an attribute in the place of the one at the position, or at the end. -/
def place (attributes : List Attribute) (position : Option Nat) (a : Attribute) : List Attribute :=
  match position with
  | some i => attributes.set i a
  | none => attributes ++ [a]

end Attribute

end ClassArchive
