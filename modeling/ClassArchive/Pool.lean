import ClassArchive.Constant
import Std.Data.TreeMap

/-!
The constant pool: slots numbered from one, with the slot after a long or double unusable. Texts,
class entries and name-and-type pairs are found again by content. The first index under which a
content was seen stays its index, also after the slot has been given another constant.
-/
set_option autoImplicit false

namespace ClassArchive

/-- Two indices in one number, the first as the high half. -/
def pairKey (a b : UInt16) : Nat := a.toNat * 65536 + b.toNat

structure Pool where
  slots : Array Constant := #[]
  /-- The first index of each text. -/
  texts : Std.TreeMap String UInt16 := ∅
  /-- The first class entry of each name index. -/
  classes : Std.TreeMap Nat UInt16 := ∅
  /-- The first entry of each pair of name and descriptor index. -/
  pairs : Std.TreeMap Nat UInt16 := ∅

namespace Pool

instance : Inhabited Pool := ⟨{}⟩

def capacity : Nat := 65534

/-- Records a constant under its index, unless its content already has one. -/
def note (pool : Pool) (index : UInt16) : Constant → Pool
  | .utf8 text => { pool with texts := pool.texts.insertIfNew text index }
  | .classInfo name => { pool with classes := pool.classes.insertIfNew name.toNat index }
  | .nameAndType name descriptor =>
      { pool with pairs := pool.pairs.insertIfNew (pairKey name descriptor) index }
  | _ => pool

def numberedFrom : Nat → List Constant → List (UInt16 × Constant)
  | _, [] => []
  | n, c :: rest => (n.toUInt16, c) :: numberedFrom (n + 1) rest

def numbered (pool : Pool) : List (UInt16 × Constant) := numberedFrom 1 pool.slots.toList

def ofSlots (slots : Array Constant) : Pool :=
  (numberedFrom 1 slots.toList).foldl (fun pool (index, c) => pool.note index c) { slots }

def count (pool : Pool) : UInt16 := (pool.slots.size + 1).toUInt16

def entries (pool : Pool) : List (UInt16 × Constant) :=
  pool.numbered.filter fun (_, c) => c ≠ .unusable

/-- The constant in a slot, whether usable or not. -/
def slot? (pool : Pool) (index : UInt16) : Option Constant :=
  if index = 0 then none else pool.slots[index.toNat - 1]?

def entry (pool : Pool) (index : UInt16) : Except FormatError Constant :=
  match pool.slot? index with
  | none | some .unusable => .error (.invalidIndex index)
  | some c => .ok c

def text (pool : Pool) (index : UInt16) : Except FormatError String := do
  match ← pool.entry index with
  | .utf8 text => .ok text
  | _ => .error (.unexpectedConstant index .text)

def className (pool : Pool) (index : UInt16) : Except FormatError String := do
  match ← pool.entry index with
  | .classInfo name => pool.text name
  | _ => .error (.unexpectedConstant index .classInfo)

def nameAndType (pool : Pool) (index : UInt16) : Except FormatError (String × String) := do
  match ← pool.entry index with
  | .nameAndType name descriptor => return (← pool.text name, ← pool.text descriptor)
  | _ => .error (.unexpectedConstant index .nameAndType)

structure MemberName where
  owner : String
  name : String
  descriptor : String
  deriving DecidableEq, Repr

def memberOf (pool : Pool) (owner nameAndType : UInt16) : Except FormatError MemberName := do
  let owner ← pool.className owner
  let (name, descriptor) ← pool.nameAndType nameAndType
  return { owner, name, descriptor }

def member (pool : Pool) (index : UInt16) : Except FormatError MemberName := do
  match ← pool.entry index with
  | .fieldRef owner nameAndType
  | .methodRef owner nameAndType
  | .interfaceMethodRef owner nameAndType => pool.memberOf owner nameAndType
  | _ => .error (.unexpectedConstant index .member)

def isText (pool : Pool) (index : UInt16) (text : String) : Bool :=
  match pool.text index with
  | .ok found => found == text
  | .error _ => false

/-! ### Editing -/

/-- An edit of the pool. What was added before a failure stays. -/
abbrev Edit := EStateM FormatError Pool

def replace (index : UInt16) (c : Constant) : Edit Unit := fun pool =>
  match pool.slot? index with
  | none => .error (.invalidIndex index) pool
  | some old =>
      if old.width ≠ c.width ∨ old = .unusable then .error (.invalidIndex index) pool
      else .ok () ({ pool with slots := pool.slots.setIfInBounds (index.toNat - 1) c }.note index c)

def filling (c : Constant) : List Constant := if c.isWide then [c, .unusable] else [c]

def push (c : Constant) : Edit UInt16 := fun pool =>
  if capacity < pool.slots.size + c.width then .error .outOfSpace pool
  else
    let index := (pool.slots.size + 1).toUInt16
    .ok index ({ pool with slots := pool.slots.appendList (filling c) }.note index c)

/-- The index at which the content was found, or that of the constant appended for it. -/
def reuse (found : Option UInt16) (c : Constant) : Edit UInt16 :=
  match found with
  | some index => return index
  | none => push c

def addText (text : String) : Edit UInt16 := do
  reuse (← get).texts[text]? (.utf8 text)

def addClass (name : String) : Edit UInt16 := do
  let name ← addText name
  reuse (← get).classes[name.toNat]? (.classInfo name)

def addNameAndType (name descriptor : String) : Edit UInt16 := do
  let name ← addText name
  let descriptor ← addText descriptor
  reuse (← get).pairs[pairKey name descriptor]? (.nameAndType name descriptor)

/-- Appends a reference to a member; references are never shared. -/
def addMember (reference : UInt16 → UInt16 → Constant) (owner name descriptor : String) :
    Edit UInt16 := do
  let owner ← addClass owner
  let nameAndType ← addNameAndType name descriptor
  push (reference owner nameAndType)

def addFieldRef : String → String → String → Edit UInt16 := addMember .fieldRef

def addMethodRef : String → String → String → Edit UInt16 := addMember .methodRef

def addInterfaceMethodRef : String → String → String → Edit UInt16 := addMember .interfaceMethodRef

def addMethodHandle (kind : UInt8) (reference : UInt16) : Edit UInt16 :=
  push (.methodHandle kind reference)

def addMethodType (descriptor : String) : Edit UInt16 := do
  push (.methodType (← addText descriptor))

def addInvokeDynamic (bootstrap : UInt16) (name descriptor : String) : Edit UInt16 := do
  push (.invokeDynamic bootstrap (← addNameAndType name descriptor))

def addString (text : String) : Edit UInt16 := do
  push (.string (← addText text))

def addInteger (value : Int32) : Edit UInt16 := push (.integer value)

def addLong (value : Int64) : Edit UInt16 := push (.long value)

/-! ### Bytes -/

def encode (pool : Pool) : Bytes :=
  be16 pool.count ++ pool.slots.toList.flatMap Constant.encode

/-- Reads constants until the announced slots are filled. A wide constant fills the slot after it
too, which it then owns even where it is the last one announced. -/
def readSlots : Nat → Bool → Nat → Array Constant → Reader (Array Constant)
  | 0, _, _, slots => return slots
  | n + 1, true, index, slots => readSlots n false (index + 1) slots
  | n + 1, false, index, slots => do
      let c ← Constant.read index.toUInt16
      readSlots n c.isWide (index + 1) (slots.appendList (filling c))

def read : Reader Pool := do
  let count ← Reader.u16
  let slots ← readSlots (count.toNat - 1) false 1 #[]
  return ofSlots slots

end Pool

end ClassArchive
