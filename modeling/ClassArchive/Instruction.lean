import ClassArchive.VerificationType

/-!
Instructions, grouped by what they do to a frame. Opcodes that differ only in the operation on
values share a form, since a frame knows types and not values.
-/
set_option autoImplicit false

namespace ClassArchive

abbrev CodeArray := Array UInt8

namespace CodeArray

def u16? (code : CodeArray) (i : Nat) : Option UInt16 := do
  return word16 (← code[i]?) (← code[i + 1]?)

def i16? (code : CodeArray) (i : Nat) : Option Int := do
  return (← u16? code i).toInt16.toInt

def i32? (code : CodeArray) (i : Nat) : Option Int := do
  return (word32 (← code[i]?) (← code[i + 1]?) (← code[i + 2]?) (← code[i + 3]?)).toInt32.toInt

end CodeArray

/-- The kinds of local variables, in the order of the opcodes that load and store them. -/
inductive LocalKind where
  | int
  | long
  | float
  | double
  | reference
  deriving DecidableEq, Repr

namespace LocalKind

def ofIndex : Nat → LocalKind
  | 0 => .int
  | 1 => .long
  | 2 => .float
  | 3 => .double
  | _ => .reference

/-- The type of a loaded or stored value; a reference keeps the type it has. -/
def typeOf (kind : LocalKind) (value : VerificationType) : VerificationType :=
  match kind with
  | .int => .integer
  | .long => .long
  | .float => .float
  | .double => .double
  | .reference => value

end LocalKind

inductive StackShuffle where
  | pop
  | pop2
  | dup
  | dupX1
  | dupX2
  | dup2
  | dup2X1
  | dup2X2
  | swap
  deriving DecidableEq, Repr

inductive InvokeKind where
  | virtual
  | special
  | static
  | interface
  deriving DecidableEq, Repr

inductive Instruction where
  | nop
  | push (type : VerificationType)
  | loadConstant (index : UInt16)
  | load (kind : LocalKind) (slot : Nat)
  | store (kind : LocalKind) (slot : Nat)
  | increment (slot : Nat)
  /-- Takes values and leaves one of a fixed type. -/
  | operate (arity : Nat) (result : VerificationType)
  /-- Takes an index and an array of references, and leaves an element. -/
  | loadElement
  | discard (count : Nat)
  | shuffle (s : StackShuffle)
  /-- Takes values, and goes to the offset or on. -/
  | branch (arity : Nat) (offset : Int)
  | jump (offset : Int)
  /-- Takes a value and goes to one of the offsets, of which the default is the first. -/
  | switch (offsets : List Int)
  /-- Leaves the method by a return or a throw. -/
  | exit (arity : Nat)
  | getStatic (member : UInt16)
  | getField (member : UInt16)
  | invoke (kind : InvokeKind) (member : UInt16)
  | invokeDynamic (callSite : UInt16)
  | new (type : UInt16)
  | newArray (element : VerificationType)
  | newObjectArray (component : UInt16)
  | newMultiArray (type : UInt16) (dimensions : Nat)
  | cast (type : UInt16)
  | unsupported (opcode : UInt8)
  deriving DecidableEq, Repr

namespace Instruction

def padding (pc : Nat) : Nat := (4 - (pc + 1) % 4) % 4

def announcedLength? (code : CodeArray) (pc : Nat) : Option Nat := do
  let op := (← code[pc]?).toNat
  let operands := pc + 1 + padding pc
  if op = 0x10 ∨ op = 0x12 ∨ (0x15 ≤ op ∧ op ≤ 0x19) ∨ (0x36 ≤ op ∧ op ≤ 0x3a) ∨ op = 0xa9 ∨
      op = 0xbc then
    return 2
  else if op = 0x11 ∨ op = 0x13 ∨ op = 0x14 ∨ op = 0x84 ∨ (0x99 ≤ op ∧ op ≤ 0xa8) ∨
      (0xb2 ≤ op ∧ op ≤ 0xb8) ∨ op = 0xbb ∨ op = 0xbd ∨ op = 0xc0 ∨ op = 0xc1 ∨ op = 0xc6 ∨
      op = 0xc7 then
    return 3
  else if op = 0xc5 then
    return 4
  else if op = 0xb9 ∨ op = 0xba ∨ op = 0xc8 ∨ op = 0xc9 then
    return 5
  else if op = 0xaa then
    let low ← code.i32? (operands + 4)
    let high ← code.i32? (operands + 8)
    if high < low then none
    else return 1 + padding pc + 12 + (high - low + 1).toNat * 4
  else if op = 0xab then
    let pairs ← code.i32? (operands + 4)
    if pairs < 0 then none
    else return 1 + padding pc + 8 + pairs.toNat * 8
  else if op = 0xc4 then
    return if (← code[pc + 1]?) = 0x84 then 6 else 4
  else
    return 1

def length? (code : CodeArray) (pc : Nat) : Option Nat := do
  let length ← announcedLength? code pc
  if pc + length ≤ code.size then return length else none

def switchOffsets? (code : CodeArray) (pc : Nat) (isTable : Bool) : Option (List Int) := do
  let operands := pc + 1 + padding pc
  let default ← code.i32? operands
  if isTable then
    let low ← code.i32? (operands + 4)
    let high ← code.i32? (operands + 8)
    let cases ← (List.range (high - low + 1).toNat).mapM fun i => code.i32? (operands + 12 + i * 4)
    return default :: cases
  else
    let pairs ← code.i32? (operands + 4)
    let cases ← (List.range pairs.toNat).mapM fun i => code.i32? (operands + 8 + i * 8 + 4)
    return default :: cases

def arrayType? (element : UInt8) : Option VerificationType :=
  match element with
  | 4 => some (.object "[Z")
  | 5 => some (.object "[C")
  | 6 => some (.object "[F")
  | 7 => some (.object "[D")
  | 8 => some (.object "[B")
  | 9 => some (.object "[S")
  | 10 => some (.object "[I")
  | 11 => some (.object "[J")
  | _ => none

/-- The four numeric types in the order of the arithmetic opcodes. -/
def numericType (i : Nat) : VerificationType :=
  match i % 4 with
  | 0 => .integer
  | 1 => .long
  | 2 => .float
  | _ => .double

/-- The types that the conversions leave, in the order of their opcodes. -/
def conversionTypes : List VerificationType :=
  [.long, .float, .double, .integer, .float, .double, .integer, .long, .double, .integer, .long,
   .float, .integer, .integer, .integer]

def shuffles : List StackShuffle :=
  [.pop, .pop2, .dup, .dupX1, .dupX2, .dup2, .dup2X1, .dup2X2, .swap]

def decodeWide? (code : CodeArray) (pc : Nat) : Option Instruction := do
  let opcode ← code[pc + 1]?
  let slot := (← code.u16? (pc + 2)).toNat
  let op := opcode.toNat
  if 0x15 ≤ op ∧ op ≤ 0x19 then return .load (.ofIndex (op - 0x15)) slot
  else if 0x36 ≤ op ∧ op ≤ 0x3a then return .store (.ofIndex (op - 0x36)) slot
  else if op = 0x84 then return .increment slot
  else return .unsupported opcode

/-- The instruction at an address. The tests go up through the opcodes. -/
def decode? (code : CodeArray) (pc : Nat) : Option Instruction := do
  let opcode ← code[pc]?
  let op := opcode.toNat
  let small := code[pc + 1]?
  let index := code.u16? (pc + 1)
  let near := code.i16? (pc + 1)
  if op = 0x00 then return .nop
  else if op = 0x01 then return .push .null
  else if op ≤ 0x08 then return .push .integer
  else if op ≤ 0x0a then return .push .long
  else if op ≤ 0x0d then return .push .float
  else if op ≤ 0x0f then return .push .double
  else if op ≤ 0x11 then return .push .integer
  else if op = 0x12 then return .loadConstant (← small).toUInt16
  else if op ≤ 0x14 then return .loadConstant (← index)
  else if op ≤ 0x19 then return .load (.ofIndex (op - 0x15)) (← small).toNat
  else if op ≤ 0x2d then return .load (.ofIndex ((op - 0x1a) / 4)) ((op - 0x1a) % 4)
  else if op ≤ 0x31 then return .operate 2 (numericType (op - 0x2e))
  else if op = 0x32 then return .loadElement
  else if op ≤ 0x35 then return .operate 2 .integer
  else if op ≤ 0x3a then return .store (.ofIndex (op - 0x36)) (← small).toNat
  else if op ≤ 0x4e then return .store (.ofIndex ((op - 0x3b) / 4)) ((op - 0x3b) % 4)
  else if op ≤ 0x56 then return .discard 3
  else if op ≤ 0x5f then return .shuffle (← shuffles[op - 0x57]?)
  else if op ≤ 0x73 then return .operate 2 (numericType (op - 0x60))
  else if op ≤ 0x77 then return .operate 1 (numericType (op - 0x74))
  else if op ≤ 0x83 then return .operate 2 (numericType ((op - 0x78) % 2))
  else if op = 0x84 then return .increment (← small).toNat
  else if op ≤ 0x93 then return .operate 1 (← conversionTypes[op - 0x85]?)
  else if op ≤ 0x98 then return .operate 2 .integer
  else if op ≤ 0x9e then return .branch 1 (← near)
  else if op ≤ 0xa6 then return .branch 2 (← near)
  else if op = 0xa7 then return .jump (← near)
  else if op ≤ 0xa9 then return .unsupported opcode
  else if op = 0xaa then return .switch (← switchOffsets? code pc true)
  else if op = 0xab then return .switch (← switchOffsets? code pc false)
  else if op ≤ 0xb0 then return .exit 1
  else if op = 0xb1 then return .exit 0
  else if op = 0xb2 then return .getStatic (← index)
  else if op = 0xb3 then return .discard 1
  else if op = 0xb4 then return .getField (← index)
  else if op = 0xb5 then return .discard 2
  else if op = 0xb6 then return .invoke .virtual (← index)
  else if op = 0xb7 then return .invoke .special (← index)
  else if op = 0xb8 then return .invoke .static (← index)
  else if op = 0xb9 then return .invoke .interface (← index)
  else if op = 0xba then return .invokeDynamic (← index)
  else if op = 0xbb then return .new (← index)
  else if op = 0xbc then
    match arrayType? (← small) with
    | some type => return .newArray type
    | none => return .unsupported opcode
  else if op = 0xbd then return .newObjectArray (← index)
  else if op = 0xbe then return .operate 1 .integer
  else if op = 0xbf then return .exit 1
  else if op = 0xc0 then return .cast (← index)
  else if op = 0xc1 then return .operate 1 .integer
  else if op ≤ 0xc3 then return .discard 1
  else if op = 0xc4 then decodeWide? code pc
  else if op = 0xc5 then return .newMultiArray (← index) (← code[pc + 3]?).toNat
  else if op ≤ 0xc7 then return .branch 1 (← near)
  else if op = 0xc8 then return .jump (← code.i32? (pc + 1))
  else return .unsupported opcode

/-- The offsets to which the instruction can go, without the instruction after it. -/
def offsets : Instruction → List Int
  | .branch _ offset | .jump offset => [offset]
  | .switch offsets => offsets
  | _ => []

def fallsThrough : Instruction → Bool
  | .jump _ | .switch _ | .exit _ => false
  | _ => true

end Instruction

end ClassArchive
