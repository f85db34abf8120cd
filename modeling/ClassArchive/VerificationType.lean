import ClassArchive.Pool

/-!
The types that a verifier gives to local variables and stack values, and their bytes. A class type
is written as an index, so that writing one may append to the pool.
-/
set_option autoImplicit false

namespace ClassArchive

inductive VerificationType where
  | top
  | integer
  | float
  | double
  | long
  | null
  | uninitializedThis
  /-- An internal name or an array descriptor. -/
  | object (name : String)
  /-- The address of the instruction that made the value. -/
  | uninitialized (pc : UInt16)
  deriving DecidableEq, Repr

namespace VerificationType

def isWide : VerificationType → Bool
  | .long | .double => true
  | _ => false

/-- Whether the last byte of a text is only a part of a character. -/
def endsInside (text : List Char) : Bool := text.getLast?.any (1 < ·.utf8Size)

/-- The type of a value that a field descriptor describes. The first letter decides. Of a class
descriptor the last byte is cut off, whatever it is, unless that is all of the name. -/
def ofDescriptor (descriptor : String) : Except FormatError VerificationType :=
  match descriptor.toList with
  | 'Z' :: _ | 'B' :: _ | 'C' :: _ | 'S' :: _ | 'I' :: _ => .ok .integer
  | 'F' :: _ => .ok .float
  | 'J' :: _ => .ok .long
  | 'D' :: _ => .ok .double
  | '[' :: _ => .ok (.object descriptor)
  | 'L' :: name =>
      if descriptor.utf8ByteSize ≤ 2 then .ok .top
      else if endsInside name then .error (.breakdown (.cutText descriptor))
      else .ok (.object (String.ofList name.dropLast))
  | _ => .ok .top

def encode : VerificationType → Pool.Edit Bytes
  | .top => return [0]
  | .integer => return [1]
  | .float => return [2]
  | .double => return [3]
  | .long => return [4]
  | .null => return [5]
  | .uninitializedThis => return [6]
  | .object name => return 7 :: be16 (← Pool.addClass name)
  | .uninitialized pc => return 8 :: be16 pc

def encodeAll (types : List VerificationType) : Pool.Edit Bytes := do
  return (← types.mapM encode).flatten

def readObject (pool : Pool) : Reader VerificationType := do
  let index ← Reader.u16
  match pool.className index with
  | .ok name => return .object name
  | .error e => Reader.fail e

def read (pool : Pool) : Reader VerificationType := do
  let tag ← Reader.u8
  match tag with
  | 0 => return .top
  | 1 => return .integer
  | 2 => return .float
  | 3 => return .double
  | 4 => return .long
  | 5 => return .null
  | 6 => return .uninitializedThis
  | 7 => readObject pool
  | 8 => .uninitialized <$> Reader.u16
  | _ => Reader.fail (.malformedAttribute "StackMapTable" (.unknownTypeTag tag))

end VerificationType

end ClassArchive
