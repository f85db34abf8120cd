import ClassArchive.Attribute

/-!
Annotations and the values of their elements, which hold annotations and lists of values in turn.
-/
set_option autoImplicit false

namespace ClassArchive

inductive ElementValue where
  /-- A primitive or string constant; the tag is the letter of its type. -/
  | const (tag : UInt8) (index : UInt16)
  | enum (type name : UInt16)
  /-- A class literal, given by the text of its return descriptor. -/
  | classLiteral (descriptor : UInt16)
  | nested (type : UInt16) (elements : List (UInt16 × ElementValue))
  | array (values : List ElementValue)
  deriving Repr

structure AnnotationInfo where
  type : UInt16
  elements : List (UInt16 × ElementValue)
  deriving Repr

namespace ElementValue

/-- The letters `B C D F I J S Z s`. -/
def constTags : List UInt8 := [66, 67, 68, 70, 73, 74, 83, 90, 115]

mutual

def encode : ElementValue → Bytes
  | .const tag index => tag :: be16 index
  | .enum type name => 101 :: (be16 type ++ be16 name)
  | .classLiteral descriptor => 99 :: be16 descriptor
  | .nested type elements =>
      64 :: (be16 type ++ count16 elements.length ++ encodeElements elements)
  | .array values => 91 :: (count16 values.length ++ encodeValues values)

def encodeElements : List (UInt16 × ElementValue) → Bytes
  | [] => []
  | (name, value) :: rest => be16 name ++ encode value ++ encodeElements rest

def encodeValues : List ElementValue → Bytes
  | [] => []
  | value :: rest => encode value ++ encodeValues rest

end

def readWithin : Nat → Reader ElementValue
  | 0 => fun c => .error (.unexpectedEnd c.offset 1)
  | depth + 1 => do
      let tag ← Reader.u8
      if constTags.contains tag then
        return .const tag (← Reader.u16)
      else if tag = 101 then
        return .enum (← Reader.u16) (← Reader.u16)
      else if tag = 99 then
        return .classLiteral (← Reader.u16)
      else if tag = 64 then
        let type ← Reader.u16
        let elements ← Reader.list16 do
          let name ← Reader.u16
          let value ← readWithin depth
          return (name, value)
        return .nested type elements
      else if tag = 91 then
        return .array (← Reader.list16 (readWithin depth))
      else
        Reader.fail (.malformedAttribute "annotation" (.unknownElementTag tag))

/-- Every level of nesting takes a byte at least, so the length of a payload bounds the depth. -/
def depthBound (data : Bytes) : Nat := data.length + 1

def defaultName : String := "AnnotationDefault"

def decode (data : Bytes) : Except FormatError ElementValue :=
  Reader.payload defaultName (readWithin (depthBound data)) data

end ElementValue

namespace AnnotationInfo

def visibleName : String := "RuntimeVisibleAnnotations"

def invisibleName : String := "RuntimeInvisibleAnnotations"

def visibleParameterName : String := "RuntimeVisibleParameterAnnotations"

def invisibleParameterName : String := "RuntimeInvisibleParameterAnnotations"

def encode (a : AnnotationInfo) : Bytes :=
  be16 a.type ++ count16 a.elements.length ++ ElementValue.encodeElements a.elements

def readWithin (depth : Nat) : Reader AnnotationInfo := do
  let type ← Reader.u16
  let elements ← Reader.list16 do
    let name ← Reader.u16
    let value ← ElementValue.readWithin depth
    return (name, value)
  return { type, elements }

def encodeTable : List AnnotationInfo → Bytes := encode16 encode

/-- The name is that of the attribute, which two kinds of table share. -/
def decodeTable (name : String) (data : Bytes) : Except FormatError (List AnnotationInfo) :=
  Reader.payload name (Reader.list16 (readWithin (ElementValue.depthBound data))) data

def encodeParameters : List (List AnnotationInfo) → Bytes := encode8 encodeTable

def decodeParameters (name : String) (data : Bytes) :
    Except FormatError (List (List AnnotationInfo)) :=
  let item := readWithin (ElementValue.depthBound data)
  Reader.payload name (Reader.list8 (Reader.list16 item)) data

end AnnotationInfo

end ClassArchive
