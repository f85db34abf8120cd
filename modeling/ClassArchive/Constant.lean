import ClassArchive.ModifiedUtf8

/-!
Constants of a class file and their bytes. Numbers with a point are kept as bit patterns, so that
no pattern is lost; a text whose payload is no text is kept as its payload.
-/
set_option autoImplicit false

namespace ClassArchive

inductive Constant where
  | utf8 (text : String)
  | rawUtf8 (data : Bytes)
  | integer (value : Int32)
  | float (bits : UInt32)
  | long (value : Int64)
  | double (bits : UInt64)
  | classInfo (name : UInt16)
  | string (text : UInt16)
  | fieldRef (owner nameAndType : UInt16)
  | methodRef (owner nameAndType : UInt16)
  | interfaceMethodRef (owner nameAndType : UInt16)
  | nameAndType (name descriptor : UInt16)
  | methodHandle (kind : UInt8) (reference : UInt16)
  | methodType (descriptor : UInt16)
  | dynamic (bootstrap nameAndType : UInt16)
  | invokeDynamic (bootstrap nameAndType : UInt16)
  | moduleInfo (name : UInt16)
  | packageInfo (name : UInt16)
  /-- The second slot of a long or double. -/
  | unusable
  deriving DecidableEq, Repr

namespace Constant

def isWide : Constant → Bool
  | .long _ | .double _ => true
  | _ => false

def width (c : Constant) : Nat := if c.isWide then 2 else 1

def encodeText (data : Bytes) : Bytes := 1 :: (count16 data.length ++ data)

def encode : Constant → Bytes
  | .utf8 text => encodeText (ModifiedUtf8.encode text)
  | .rawUtf8 data => encodeText data
  | .integer value => 3 :: be32 value.toUInt32
  | .float bits => 4 :: be32 bits
  | .long value => 5 :: be64 value.toUInt64
  | .double bits => 6 :: be64 bits
  | .classInfo name => 7 :: be16 name
  | .string text => 8 :: be16 text
  | .fieldRef owner pair => 9 :: (be16 owner ++ be16 pair)
  | .methodRef owner pair => 10 :: (be16 owner ++ be16 pair)
  | .interfaceMethodRef owner pair => 11 :: (be16 owner ++ be16 pair)
  | .nameAndType name descriptor => 12 :: (be16 name ++ be16 descriptor)
  | .methodHandle kind reference => 15 :: kind :: be16 reference
  | .methodType descriptor => 16 :: be16 descriptor
  | .dynamic bootstrap pair => 17 :: (be16 bootstrap ++ be16 pair)
  | .invokeDynamic bootstrap pair => 18 :: (be16 bootstrap ++ be16 pair)
  | .moduleInfo name => 19 :: be16 name
  | .packageInfo name => 20 :: be16 name
  | .unusable => []

def ofText (data : Bytes) : Constant :=
  match ModifiedUtf8.decode data with
  | some text => .utf8 text
  | none => .rawUtf8 data

def readBody (tag : UInt8) (index : UInt16) : Reader Constant :=
  match tag with
  | 1 => do
      let length ← Reader.u16
      ofText <$> Reader.bytes length.toNat
  | 3 => (fun w => .integer w.toInt32) <$> Reader.u32
  | 4 => .float <$> Reader.u32
  | 5 => (fun w => .long w.toInt64) <$> Reader.u64
  | 6 => .double <$> Reader.u64
  | 7 => .classInfo <$> Reader.u16
  | 8 => .string <$> Reader.u16
  | 9 => .fieldRef <$> Reader.u16 <*> Reader.u16
  | 10 => .methodRef <$> Reader.u16 <*> Reader.u16
  | 11 => .interfaceMethodRef <$> Reader.u16 <*> Reader.u16
  | 12 => .nameAndType <$> Reader.u16 <*> Reader.u16
  | 15 => .methodHandle <$> Reader.u8 <*> Reader.u16
  | 16 => .methodType <$> Reader.u16
  | 17 => .dynamic <$> Reader.u16 <*> Reader.u16
  | 18 => .invokeDynamic <$> Reader.u16 <*> Reader.u16
  | 19 => .moduleInfo <$> Reader.u16
  | 20 => .packageInfo <$> Reader.u16
  | _ => Reader.fail (.unknownConstantTag tag index)

def read (index : UInt16) : Reader Constant := do
  let tag ← Reader.u8
  readBody tag index

end Constant

end ClassArchive
