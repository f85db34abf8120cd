import ClassArchive.Program
import ClassArchive.StackMap

/-!
The types of the local slots and of the stack at one point of a method. A long or double in the
locals takes a slot and the one after it; on the stack it is one value. The top of the stack comes
first.
-/
set_option autoImplicit false

namespace ClassArchive

structure Frame where
  locals : List VerificationType
  stack : List VerificationType
  deriving DecidableEq, Repr

namespace Frame

def drop (count pc : Nat) (f : Frame) : Except FrameError Frame :=
  if f.stack.length < count then .error (.stackUnderflow pc)
  else .ok { f with stack := f.stack.drop count }

def push (type : VerificationType) (f : Frame) : Frame := { f with stack := type :: f.stack }

def pop (pc : Nat) (f : Frame) : Except FrameError (VerificationType × Frame) :=
  match f.stack with
  | [] => .error (.stackUnderflow pc)
  | type :: rest => .ok (type, { f with stack := rest })

def local? (f : Frame) (slot pc : Nat) : Except FrameError VerificationType :=
  match f.locals[slot]? with
  | some type => .ok type
  | none => .error (.invalidLocal slot pc)

def slotCount (type : VerificationType) : Nat := if type.isWide then 2 else 1

def isWideAt (locals : List VerificationType) (slot : Nat) : Bool :=
  match locals[slot]? with
  | some type => type.isWide
  | none => false

def clearIf (condition : Bool) (slot : Nat) (locals : List VerificationType) :
    List VerificationType :=
  if condition then locals.set slot .top else locals

/-- Stores a value that fits. A long or double that loses one of its two slots loses both. -/
def storeLocal (slot : Nat) (type : VerificationType) (locals : List VerificationType) :
    List VerificationType :=
  let locals := clearIf (0 < slot && isWideAt locals (slot - 1)) (slot - 1) locals
  let locals := clearIf (isWideAt locals slot && !type.isWide) (slot + 1) locals
  clearIf type.isWide (slot + 1) (locals.set slot type)

def setLocal (slot : Nat) (type : VerificationType) (pc : Nat) (f : Frame) :
    Except FrameError Frame :=
  if f.locals.length < slot + slotCount type then .error (.invalidLocal slot pc)
  else .ok { f with locals := storeLocal slot type f.locals }

/-- Gives every copy of a value its type once its constructor has run. -/
def construct (before after : VerificationType) (f : Frame) : Frame :=
  let update := fun type => if type = before then after else type
  { locals := f.locals.map update, stack := f.stack.map update }

/-- One entry per value: the second slot of a long or double is left out. -/
def compactSlots : List VerificationType → List VerificationType
  | [] => []
  | [type] => [type]
  | type :: next :: rest =>
      if type.isWide then type :: compactSlots rest else type :: compactSlots (next :: rest)

def trimTop (types : List VerificationType) : List VerificationType :=
  (types.reverse.dropWhile (· = .top)).reverse

def compactLocals (f : Frame) : List VerificationType := trimTop (compactSlots f.locals)

/-- The frame as a table of frames lists it, with the bottom of the stack first. -/
def state (f : Frame) (pc : Nat) : FrameState :=
  { pc := pc.toUInt16, locals := f.compactLocals, stack := f.stack.reverse }

end Frame

end ClassArchive
