import ClassArchive.Attribute

/-!
Attributes that are tables of pool indices: local variables, method parameters, inner classes,
bootstrap methods and record components.
-/
set_option autoImplicit false

namespace ClassArchive

/-- A row of a table of local variables. In the table of generic types the descriptor index
denotes a signature. -/
structure LocalVariable where
  start : UInt16
  length : UInt16
  name : UInt16
  descriptor : UInt16
  slot : UInt16
  deriving DecidableEq, Repr

namespace LocalVariable

def tableName : String := "LocalVariableTable"

def typeTableName : String := "LocalVariableTypeTable"

def encode (v : LocalVariable) : Bytes :=
  be16 v.start ++ be16 v.length ++ be16 v.name ++ be16 v.descriptor ++ be16 v.slot

def read : Reader LocalVariable := do
  let start ← Reader.u16
  let length ← Reader.u16
  let name ← Reader.u16
  let descriptor ← Reader.u16
  let slot ← Reader.u16
  return { start, length, name, descriptor, slot }

def encodeTable : List LocalVariable → Bytes := encode16 encode

/-- The name is that of the attribute, which two kinds of table share. -/
def decodeTable (name : String) : Bytes → Except FormatError (List LocalVariable) :=
  Reader.payload name (Reader.list16 read)

end LocalVariable

/-- A formal parameter; the name index zero leaves it without a name. -/
structure MethodParameter where
  name : UInt16
  access : UInt16
  deriving DecidableEq, Repr

namespace MethodParameter

def tableName : String := "MethodParameters"

def encode (p : MethodParameter) : Bytes := be16 p.name ++ be16 p.access

def read : Reader MethodParameter := do
  let name ← Reader.u16
  let access ← Reader.u16
  return { name, access }

def encodeTable : List MethodParameter → Bytes := encode8 encode

def decodeTable : Bytes → Except FormatError (List MethodParameter) :=
  Reader.payload tableName (Reader.list8 read)

end MethodParameter

structure InnerClass where
  inner : UInt16
  outer : UInt16
  /-- The simple name; zero for an anonymous class. -/
  name : UInt16
  access : UInt16
  deriving DecidableEq, Repr

namespace InnerClass

def tableName : String := "InnerClasses"

def encode (c : InnerClass) : Bytes :=
  be16 c.inner ++ be16 c.outer ++ be16 c.name ++ be16 c.access

def read : Reader InnerClass := do
  let inner ← Reader.u16
  let outer ← Reader.u16
  let name ← Reader.u16
  let access ← Reader.u16
  return { inner, outer, name, access }

def encodeTable : List InnerClass → Bytes := encode16 encode

def decodeTable : Bytes → Except FormatError (List InnerClass) :=
  Reader.payload tableName (Reader.list16 read)

end InnerClass

structure BootstrapMethod where
  /-- The method handle that links the call site. -/
  method : UInt16
  arguments : List UInt16
  deriving DecidableEq, Repr

namespace BootstrapMethod

def tableName : String := "BootstrapMethods"

def encode (m : BootstrapMethod) : Bytes := be16 m.method ++ encode16 be16 m.arguments

def read : Reader BootstrapMethod := do
  let method ← Reader.u16
  let arguments ← Reader.list16 Reader.u16
  return { method, arguments }

def encodeTable : List BootstrapMethod → Bytes := encode16 encode

def decodeTable : Bytes → Except FormatError (List BootstrapMethod) :=
  Reader.payload tableName (Reader.list16 read)

end BootstrapMethod

structure RecordComponent where
  name : UInt16
  descriptor : UInt16
  attributes : List Attribute
  deriving DecidableEq, Repr

namespace RecordComponent

def tableName : String := "Record"

def encode (c : RecordComponent) : Bytes :=
  be16 c.name ++ be16 c.descriptor ++ Attribute.encodeList c.attributes

def read : Reader RecordComponent := do
  let name ← Reader.u16
  let descriptor ← Reader.u16
  let attributes ← Attribute.readList
  return { name, descriptor, attributes }

def encodeTable : List RecordComponent → Bytes := encode16 encode

def decodeTable : Bytes → Except FormatError (List RecordComponent) :=
  Reader.payload tableName (Reader.list16 read)

end RecordComponent

end ClassArchive
