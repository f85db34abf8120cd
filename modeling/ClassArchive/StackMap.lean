import ClassArchive.VerificationType

/-!
The table of frames of a method. Each frame says how the locals differ from those of the frame
before it, and its address is one more than the sum of that frame's address and the written delta.
-/
set_option autoImplicit false

namespace ClassArchive

/-- A frame at an absolute address. Locals are one entry per value. -/
structure FrameState where
  pc : UInt16
  locals : List VerificationType
  stack : List VerificationType
  deriving DecidableEq, Repr

inductive StackMapFrame where
  | same (delta : UInt16)
  | sameLocals1 (delta : UInt16) (item : VerificationType)
  /-- Drops the last locals. -/
  | chop (count : UInt8) (delta : UInt16)
  | append (delta : UInt16) (locals : List VerificationType)
  | full (delta : UInt16) (locals stack : List VerificationType)
  deriving DecidableEq, Repr

namespace StackMapFrame

def delta : StackMapFrame → UInt16
  | .same delta | .sameLocals1 delta _ | .chop _ delta | .append delta _ | .full delta _ _ => delta

/-- A short delta is part of the tag; a longer one follows the extended tag. -/
def encodeTag (short extended : UInt8) (delta : UInt16) : Bytes :=
  if delta ≤ 63 then [short + delta.toUInt8] else extended :: be16 delta

def encode : StackMapFrame → Pool.Edit Bytes
  | .same delta => return encodeTag 0 251 delta
  | .sameLocals1 delta item => return encodeTag 64 247 delta ++ (← item.encode)
  | .chop count delta => return (251 - count) :: be16 delta
  | .append delta locals =>
      return (251 + locals.length.toUInt8) :: be16 delta ++ (← VerificationType.encodeAll locals)
  | .full delta locals stack => do
      let localBytes ← VerificationType.encodeAll locals
      let stackBytes ← VerificationType.encodeAll stack
      return 255 :: be16 delta ++ count16 locals.length ++ localBytes ++
        count16 stack.length ++ stackBytes

def read (pool : Pool) : Reader StackMapFrame := do
  let type := VerificationType.read pool
  let tag ← Reader.u8
  if tag ≤ 63 then
    return .same tag.toUInt16
  else if tag ≤ 127 then
    return .sameLocals1 (tag - 64).toUInt16 (← type)
  else if tag ≤ 246 then
    Reader.fail (.malformedAttribute "StackMapTable" (.reservedFrame tag))
  else
    let delta ← Reader.u16
    if tag = 247 then
      return .sameLocals1 delta (← type)
    else if tag ≤ 250 then
      return .chop (251 - tag) delta
    else if tag = 251 then
      return .same delta
    else if tag ≤ 254 then
      return .append delta (← Reader.many type (tag - 251).toNat)
    else
      let locals ← Reader.list16 type
      let stack ← Reader.list16 type
      return .full delta locals stack

/-- The shortest frame that leads from the previous locals to the state. -/
def between (previous : List VerificationType) (state : FrameState) (delta : UInt16) :
    StackMapFrame :=
  let full := .full delta state.locals state.stack
  if state.locals = previous then
    match state.stack with
    | [] => .same delta
    | [item] => .sameLocals1 delta item
    | _ => full
  else if state.stack = [] then
    if state.locals.isPrefixOf previous then
      let dropped := previous.length - state.locals.length
      if dropped ≤ 3 then .chop dropped.toUInt8 delta else full
    else if previous.isPrefixOf state.locals then
      let added := state.locals.drop previous.length
      if added.length ≤ 3 then .append delta added else full
    else full
  else full

end StackMapFrame

namespace StackMap

def attributeName : String := "StackMapTable"

/-- The delta to an address, from the address of the frame before it if there is one. -/
def deltaTo (previous : Option UInt16) (pc : UInt16) : UInt16 :=
  match previous with
  | none => pc
  | some last => pc - last - 1

def compressFrom (previous : Option UInt16) (locals : List VerificationType) :
    List FrameState → List StackMapFrame
  | [] => []
  | state :: rest =>
      StackMapFrame.between locals state (deltaTo previous state.pc) ::
        compressFrom (some state.pc) state.locals rest

def compress (initial : List VerificationType) (states : List FrameState) : List StackMapFrame :=
  compressFrom none initial states

def addressAfter (previous : Option UInt16) (delta : UInt16) : UInt16 :=
  match previous with
  | none => delta
  | some last => last + delta + 1

def offsetsFrom (previous : Option UInt16) : List StackMapFrame → List UInt16
  | [] => []
  | frame :: rest =>
      let pc := addressAfter previous frame.delta
      pc :: offsetsFrom (some pc) rest

def offsets (frames : List StackMapFrame) : List UInt16 := offsetsFrom none frames

def encode (frames : List StackMapFrame) : Pool.Edit Bytes := do
  return count16 frames.length ++ (← frames.mapM StackMapFrame.encode).flatten

def read (pool : Pool) : Reader (List StackMapFrame) := do
  let frames ← Reader.list16 (StackMapFrame.read pool)
  Reader.finish attributeName
  return frames

/-- Causes inside a frame are reported as they are. -/
def decode (pool : Pool) : Bytes → Except FormatError (List StackMapFrame) :=
  Reader.run (read pool)

end StackMap

end ClassArchive
