import ClassArchive.Attribute

/-!
The body of a method: its instructions, its exception table and the attributes of its own.
-/
set_option autoImplicit false

namespace ClassArchive

structure ExceptionHandler where
  start : UInt16
  stop : UInt16
  handler : UInt16
  /-- The class that is caught; zero catches everything. -/
  catchType : UInt16
  deriving DecidableEq, Repr

namespace ExceptionHandler

def encode (h : ExceptionHandler) : Bytes :=
  be16 h.start ++ be16 h.stop ++ be16 h.handler ++ be16 h.catchType

def read : Reader ExceptionHandler := do
  let start ← Reader.u16
  let stop ← Reader.u16
  let handler ← Reader.u16
  let catchType ← Reader.u16
  return { start, stop, handler, catchType }

end ExceptionHandler

structure Code where
  maxStack : UInt16
  maxLocals : UInt16
  code : Bytes
  handlers : List ExceptionHandler := []
  attributes : List Attribute := []
  deriving DecidableEq, Repr

namespace Code

def attributeName : String := "Code"

def encode (c : Code) : Bytes :=
  be16 c.maxStack ++ be16 c.maxLocals ++ be32 c.code.length.toUInt32 ++ c.code ++
    encode16 ExceptionHandler.encode c.handlers ++ Attribute.encodeList c.attributes

def read : Reader Code := do
  let maxStack ← Reader.u16
  let maxLocals ← Reader.u16
  let length ← Reader.u32
  let code ← Reader.bytes length.toNat
  let handlers ← Reader.list16 ExceptionHandler.read
  let attributes ← Attribute.readList
  return { maxStack, maxLocals, code, handlers, attributes }

def decode : Bytes → Except FormatError Code := Reader.payload attributeName read

end Code

end ClassArchive
