import ClassArchive.Attribute

/-!
The class tree and its bytes, and the header that places a class in a hierarchy.
-/
set_option autoImplicit false

namespace ClassArchive

def classMagic : UInt32 := 0xCAFEBABE

def constructorName : String := "<init>"

def staticInitializerName : String := "<clinit>"

namespace Access

def isStatic (flags : UInt16) : Bool := flags &&& 0x0008 != 0

def isInterface (flags : UInt16) : Bool := flags &&& 0x0200 != 0

end Access

structure Member where
  access : UInt16
  name : UInt16
  descriptor : UInt16
  attributes : List Attribute := []
  deriving DecidableEq, Repr

namespace Member

def encode (m : Member) : Bytes :=
  be16 m.access ++ be16 m.name ++ be16 m.descriptor ++ Attribute.encodeList m.attributes

def read : Reader Member := do
  let access ← Reader.u16
  let name ← Reader.u16
  let descriptor ← Reader.u16
  let attributes ← Attribute.readList
  return { access, name, descriptor, attributes }

end Member

structure ClassFile where
  minor : UInt16 := 0
  major : UInt16 := 52
  pool : Pool := {}
  access : UInt16 := 0
  thisClass : UInt16 := 0
  /-- Zero for the root of the hierarchy. -/
  superClass : UInt16 := 0
  interfaces : List UInt16 := []
  fields : List Member := []
  methods : List Member := []
  attributes : List Attribute := []

namespace ClassFile

def name (c : ClassFile) : Except FormatError String := c.pool.className c.thisClass

/-- The name of an optional class index, where zero stands for no class. -/
def optionalName (pool : Pool) (index : UInt16) : Except FormatError (Option String) :=
  if index = 0 then .ok none else some <$> pool.className index

def superName (c : ClassFile) : Except FormatError (Option String) :=
  optionalName c.pool c.superClass

def interfaceNames (c : ClassFile) : Except FormatError (List String) :=
  c.interfaces.mapM c.pool.className

def encode (c : ClassFile) : Bytes :=
  be32 classMagic ++ be16 c.minor ++ be16 c.major ++ c.pool.encode ++
    be16 c.access ++ be16 c.thisClass ++ be16 c.superClass ++ encode16 be16 c.interfaces ++
    encode16 Member.encode c.fields ++ encode16 Member.encode c.methods ++
    Attribute.encodeList c.attributes

def readMagic : Reader Unit := do
  let magic ← Reader.u32
  if magic = classMagic then return () else Reader.fail (.invalidMagic magic)

/-- The class up to its interfaces, without members and attributes. -/
def readHead : Reader ClassFile := do
  readMagic
  let minor ← Reader.u16
  let major ← Reader.u16
  let pool ← Pool.read
  let access ← Reader.u16
  let thisClass ← Reader.u16
  let superClass ← Reader.u16
  let interfaces ← Reader.list16 Reader.u16
  return { minor, major, pool, access, thisClass, superClass, interfaces }

def read : Reader ClassFile := do
  let head ← readHead
  let fields ← Reader.list16 Member.read
  let methods ← Reader.list16 Member.read
  let attributes ← Attribute.readList
  return { head with fields, methods, attributes }

/-- Bytes after the last attribute are not looked at. -/
def decode : Bytes → Except FormatError ClassFile := Reader.run read

end ClassFile

structure ClassHeader where
  access : UInt16
  name : String
  superName : Option String
  interfaces : List String
  deriving DecidableEq, Repr

namespace ClassHeader

def parents (h : ClassHeader) : List String := h.superName.toList ++ h.interfaces

def ofClassFile (c : ClassFile) : Except FormatError ClassHeader := do
  let name ← c.name
  let superName ← c.superName
  let interfaces ← c.interfaceNames
  return { access := c.access, name, superName, interfaces }

/-- Reads no further than the interfaces. -/
def decode (data : Bytes) : Except FormatError ClassHeader := do
  ofClassFile (← Reader.run ClassFile.readHead data)

end ClassHeader

end ClassArchive
