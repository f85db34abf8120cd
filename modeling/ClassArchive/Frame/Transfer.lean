import ClassArchive.Frame
import ClassArchive.Descriptor
import ClassArchive.Hierarchy
import ClassArchive.ClassFile

/-!
The effect of one instruction on a frame.
-/
set_option autoImplicit false

namespace ClassArchive

namespace StackShuffle

/-- The stack after the instruction, if it holds the values that are moved. Values of two words
are one entry, so the forms that move two words look at the width of the topmost values. -/
def shuffle? : StackShuffle → List VerificationType → Option (List VerificationType)
  | .pop, _ :: s => some s
  | .pop2, a :: s =>
      if a.isWide then some s
      else
        match s with
        | _ :: s => some s
        | [] => none
  | .dup, a :: s => some (a :: a :: s)
  | .dupX1, a :: b :: s => some (a :: b :: a :: s)
  | .dupX2, a :: b :: s =>
      if b.isWide then some (a :: b :: a :: s)
      else
        match s with
        | c :: s => some (a :: b :: c :: a :: s)
        | [] => none
  | .dup2, a :: s =>
      if a.isWide then some (a :: a :: s)
      else
        match s with
        | b :: s => some (a :: b :: a :: b :: s)
        | [] => none
  | .dup2X1, a :: b :: s =>
      if a.isWide then some (a :: b :: a :: s)
      else
        match s with
        | c :: s => some (a :: b :: c :: a :: b :: s)
        | [] => none
  | .dup2X2, a :: b :: s =>
      if a.isWide then
        if b.isWide then some (a :: b :: a :: s)
        else
          match s with
          | c :: s => some (a :: b :: c :: a :: s)
          | [] => none
      else
        match s with
        | [] => none
        | c :: s =>
            if c.isWide then some (a :: b :: c :: a :: b :: s)
            else
              match s with
              | d :: s => some (a :: b :: c :: d :: a :: b :: s)
              | [] => none
  | .swap, a :: b :: s => some (b :: a :: s)
  | _, _ => none

end StackShuffle

/-- The descriptor of an array of the component, itself a class name or an array descriptor. -/
def arrayOf (component : String) : String :=
  if component.toList.head? = some '[' then "[" ++ component else "[L" ++ component ++ ";"

def elementOf : VerificationType → Except FormatError VerificationType
  | .object name =>
      match name.toList with
      | '[' :: element => VerificationType.ofDescriptor (String.ofList element)
      | _ => .ok .null
  | _ => .ok .null

/-- What instructions refer to: the pool, the class under analysis and the code itself. -/
structure MethodScope where
  pool : Pool
  className : String
  code : CodeArray

namespace MethodScope

def constantType (scope : MethodScope) (index : UInt16) : Except FrameError VerificationType :=
  FrameError.lift do
    match ← scope.pool.entry index with
    | .integer _ => return .integer
    | .float _ => return .float
    | .long _ => return .long
    | .double _ => return .double
    | .string _ => return .object "java/lang/String"
    | .classInfo _ => return .object "java/lang/Class"
    | .methodType _ => return .object "java/lang/invoke/MethodType"
    | .methodHandle _ _ => return .object "java/lang/invoke/MethodHandle"
    | .dynamic _ pair => VerificationType.ofDescriptor (← scope.pool.nameAndType pair).2
    | _ => .error (.unexpectedConstant index .loadable)

def className? (scope : MethodScope) (index : UInt16) : Except FrameError String :=
  FrameError.lift (scope.pool.className index)

def member? (scope : MethodScope) (index : UInt16) : Except FrameError Pool.MemberName :=
  FrameError.lift (scope.pool.member index)

def callSite? (scope : MethodScope) (index : UInt16) : Except FrameError String :=
  FrameError.lift do
    match ← scope.pool.entry index with
    | .invokeDynamic _ pair => return (← scope.pool.nameAndType pair).2
    | _ => .error (.unexpectedConstant index .callSite)

def descriptor? (descriptor : String) : Except FrameError MethodDescriptor :=
  FrameError.lift (MethodDescriptor.parse descriptor)

def typeOf (descriptor : String) : Except FrameError VerificationType :=
  FrameError.lift (VerificationType.ofDescriptor descriptor)

/-- The type that a value gets when its constructor has run, if it is not constructed yet. -/
def constructed? (scope : MethodScope) :
    VerificationType → Except FrameError (Option VerificationType)
  | .uninitializedThis => .ok (some (.object scope.className))
  | .uninitialized pc => do
      match scope.code.u16? (pc.toNat + 1) with
      | some index => return some (.object (← scope.className? index))
      | none => .error (.truncated pc.toNat)
  | _ => .ok none

/-- Takes the receiver of a call. After a constructor call every copy of it is constructed. -/
def takeReceiver (scope : MethodScope) (kind : InvokeKind) (method : String) (pc : Nat)
    (f : Frame) : Except FrameError Frame := do
  if kind = .static then return f
  let (receiver, f) ← f.pop pc
  if kind = .special ∧ method = constructorName then
    match ← scope.constructed? receiver with
    | some type => return f.construct receiver type
    | none => return f
  else return f

def pushResult (d : MethodDescriptor) (f : Frame) : Except FrameError Frame := do
  if d.returns then return f.push (← typeOf d.result) else return f

def transfer (scope : MethodScope) (pc : Nat) (f : Frame) : Instruction → Except FrameError Frame
  | .nop => .ok f
  | .push type => .ok (f.push type)
  | .loadConstant index => do return f.push (← scope.constantType index)
  | .load kind slot => do return f.push (kind.typeOf (← f.local? slot pc))
  | .store kind slot => do
      let (value, f) ← f.pop pc
      f.setLocal slot (kind.typeOf value) pc
  | .increment slot => do
      let _ ← f.local? slot pc
      return f
  | .operate arity result => do return (← f.drop arity pc).push result
  | .loadElement => do
      let f ← f.drop 1 pc
      let (array, f) ← f.pop pc
      return f.push (← FrameError.lift (elementOf array))
  | .discard count => f.drop count pc
  | .shuffle s =>
      match s.shuffle? f.stack with
      | some stack => .ok { f with stack }
      | none => .error (.stackUnderflow pc)
  | .branch arity _ => f.drop arity pc
  | .jump _ => .ok f
  | .switch _ => f.drop 1 pc
  | .exit arity => f.drop arity pc
  | .getStatic index => do return f.push (← typeOf (← scope.member? index).descriptor)
  | .getField index => do
      let field ← scope.member? index
      let f ← f.drop 1 pc
      return f.push (← typeOf field.descriptor)
  | .invoke kind index => do
      let method ← scope.member? index
      let descriptor ← descriptor? method.descriptor
      let f ← f.drop descriptor.parameters.length pc
      let f ← scope.takeReceiver kind method.name pc f
      pushResult descriptor f
  | .invokeDynamic index => do
      let descriptor ← descriptor? (← scope.callSite? index)
      pushResult descriptor (← f.drop descriptor.parameters.length pc)
  | .new _ => .ok (f.push (.uninitialized pc.toUInt16))
  | .newArray type => do return (← f.drop 1 pc).push type
  | .newObjectArray index => do
      let component ← scope.className? index
      return (← f.drop 1 pc).push (.object (arrayOf component))
  | .newMultiArray index dimensions => do
      let type ← scope.className? index
      return (← f.drop dimensions pc).push (.object type)
  | .cast index => do
      let type ← scope.className? index
      return (← f.drop 1 pc).push (.object type)
  | .unsupported opcode => .error (.unsupportedInstruction opcode pc)

end MethodScope

end ClassArchive
