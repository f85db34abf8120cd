import ClassArchive.FormatError

/-!
Why the frames of a method cannot be computed.
-/
set_option autoImplicit false

namespace ClassArchive

inductive FrameError where
  | unsupportedInstruction (opcode : UInt8) (pc : Nat)
  | unreachableCode (pc : Nat)
  | stackUnderflow (pc : Nat)
  | stackHeightMismatch (pc : Nat)
  | invalidBranchTarget (pc : Nat) (target : Int)
  | truncated (pc : Nat)
  | unknownType (name : String)
  | invalidLocal (index pc : Nat)
  | unsettled
  | format (cause : FormatError)
  deriving DecidableEq, Repr

def FrameError.message : FrameError → String
  | .unsupportedInstruction opcode pc =>
      s!"Unsupported instruction 0x{Text.hex 2 opcode.toNat} at pc {pc}"
  | .unreachableCode pc => s!"Unreachable code at pc {pc}"
  | .stackUnderflow pc => s!"Operand stack underflow at pc {pc}"
  | .stackHeightMismatch pc => s!"Operand stack heights disagree at pc {pc}"
  | .invalidBranchTarget pc target =>
      s!"Branch at pc {pc} targets {target}, which is not an instruction"
  | .truncated pc => s!"Instruction at pc {pc} is truncated"
  | .unknownType name => s!"Hierarchy of {name} is unknown"
  | .invalidLocal index pc => s!"Local variable {index} is out of range at pc {pc}"
  | .unsettled => Breakdown.unsettled.message
  | .format cause => cause.message

def FrameError.breakdown? : FrameError → Option Breakdown
  | .unsettled => some .unsettled
  | .format cause => cause.breakdown?
  | _ => none

def FrameError.lift {α : Type} : Except FormatError α → Except FrameError α
  | .ok a => .ok a
  | .error e => .error (.format e)

end ClassArchive
