import ClassArchive.Instruction
import ClassArchive.FrameError
import Std.Data.TreeMap

/-!
The instructions of a method by address, as a walk from the first byte finds them.
-/
set_option autoImplicit false

namespace ClassArchive

structure Located where
  instruction : Instruction
  next : Nat
  deriving DecidableEq, Repr

structure Program where
  code : CodeArray
  /-- The instructions by their addresses. -/
  listing : Std.TreeMap Nat Located

namespace Program

def locate? (code : CodeArray) (pc : Nat) : Option Located := do
  let length ← Instruction.length? code pc
  let instruction ← Instruction.decode? code pc
  return ⟨instruction, pc + length⟩

/-- Collects the instructions from an address on. The first argument bounds the number of
instructions; one byte each is the least they take. -/
def sweep (code : CodeArray) :
    Nat → Nat → Std.TreeMap Nat Located → Except FrameError (Std.TreeMap Nat Located)
  | 0, _, found => .ok found
  | bound + 1, pc, found =>
      if code.size ≤ pc then .ok found
      else
        match locate? code pc with
        | some here => sweep code bound here.next (found.insert pc here)
        | none => .error (.truncated pc)

def decode (code : CodeArray) : Except FrameError Program := do
  return ⟨code, ← sweep code code.size 0 ∅⟩

def addresses (p : Program) : List Nat := p.listing.keys

def isStart (p : Program) (pc : Nat) : Bool := p.listing.contains pc

def target (p : Program) (pc : Nat) (offset : Int) : Except FrameError Nat :=
  let target := (pc : Int) + offset
  if target < 0 ∨ (p.code.size : Int) ≤ target then .error (.invalidBranchTarget pc target)
  else .ok target.toNat

end Program

end ClassArchive
