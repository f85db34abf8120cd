import ClassArchive.Frame.Merge
import ClassArchive.Attribute.Code
import Std.Data.TreeSet

/-!
The frames of a method. A worklist carries frames along branches, into handlers and on to the next
instruction until nothing changes. On its way it marks the addresses that need a frame: handlers,
branch targets, and what stands behind an instruction that does not fall through. There the frames
are listed in the end.
-/
set_option autoImplicit false

namespace ClassArchive

def throwableClass : String := "java/lang/Throwable"

structure CatchRange where
  start : Nat
  stop : Nat
  handler : Nat
  catchType : VerificationType
  deriving DecidableEq, Repr

def CatchRange.covers (range : CatchRange) (pc : Nat) : Bool :=
  range.start ≤ pc && pc < range.stop

/-- The frames found so far, the addresses whose frames have changed since they were used, and those
that need a frame. -/
structure FlowState where
  frames : Std.TreeMap Nat Frame
  queue : List Nat
  leaders : Std.TreeSet Nat

def FlowState.lead (state : FlowState) (pc : Nat) : FlowState :=
  { state with leaders := state.leaders.insert pc }

/-- What stays fixed while the frames of a method are computed. -/
structure Flow where
  load : Loader
  scope : MethodScope
  program : Program
  ranges : List CatchRange

namespace Flow

/-- Joins a frame into an address, which is queued if that changes its frame. -/
def mergeInto (flow : Flow) (state : FlowState) (target : Nat) (incoming : Frame) :
    Except FrameError FlowState := do
  match state.frames[target]? with
  | none =>
      return { state with
        frames := state.frames.insert target incoming
        queue := state.queue ++ [target] }
  | some existing =>
      let merged ← flow.load.mergeFrames target existing incoming
      if merged = existing then return state
      else
        return { state with
          frames := state.frames.insert target merged
          queue := if target ∈ state.queue then state.queue else state.queue ++ [target] }

/-- The handlers around an address see the locals before and after its instruction. -/
def mergeHandlers (flow : Flow) (state : FlowState) (pc : Nat) (before after : Frame) :
    Except FrameError FlowState :=
  (flow.ranges.filter (·.covers pc)).foldlM (fun state range => do
    let stack := [range.catchType]
    let state ← flow.mergeInto state range.handler { locals := before.locals, stack }
    flow.mergeInto state range.handler { locals := after.locals, stack }) state

def mergeTarget (flow : Flow) (pc : Nat) (after : Frame) (state : FlowState) (target : Nat) :
    Except FrameError FlowState :=
  if flow.program.isStart target then flow.mergeInto (state.lead target) target after
  else .error (.invalidBranchTarget pc target)

def visit (flow : Flow) (state : FlowState) (pc : Nat) (before : Frame) (here : Located) :
    Except FrameError FlowState := do
  let after ← flow.scope.transfer pc before here.instruction
  let targets ← here.instruction.offsets.mapM (flow.program.target pc)
  let state ← flow.mergeHandlers state pc before after
  let state ← targets.foldlM (flow.mergeTarget pc after) state
  if here.instruction.fallsThrough then
    if flow.program.code.size ≤ here.next then .error (.invalidBranchTarget pc here.next)
    else flow.mergeInto state here.next after
  else if here.next < flow.program.code.size then return state.lead here.next
  else return state

def step (flow : Flow) (state : FlowState) (pc : Nat) (rest : List Nat) :
    Except FrameError FlowState :=
  let state := { state with queue := rest }
  match state.frames[pc]?, flow.program.listing[pc]? with
  | some before, some here => flow.visit state pc before here
  | some _, none => .error (.format (.breakdown (.noInstruction pc)))
  | none, _ => .ok state

def settle (flow : Flow) : Nat → FlowState → Except FrameError FlowState
  | budget, state =>
      match state.queue with
      | [] => .ok state
      | pc :: rest =>
          match budget with
          | 0 => .error .unsettled
          | budget + 1 => do settle flow budget (← flow.step state pc rest)

def arrayDepth (flow : Flow) (descriptor : String) : Nat :=
  flow.scope.pool.slots.foldl
    (fun depth c => match c with
      | .utf8 text => max depth text.utf8ByteSize
      | _ => depth)
    (max descriptor.utf8ByteSize flow.scope.className.utf8ByteSize) + 1

/-- A bound on the visits. Each visit after the first of an address follows a change of one of its
slots. A slot climbs at most two links below a class hierarchy, the hierarchy itself, and one array
dimension at a time. -/
def budget (flow : Flow) (maxLocals : Nat) (descriptor : String) : Nat :=
  let visits := flow.program.code.size + 1
  visits * (1 + (maxLocals + 2 * visits) * (2 * maxHierarchyDepth + flow.arrayDepth descriptor + 8))

end Flow

structure ComputedFrames where
  /-- The locals that the descriptor implies. -/
  initial : List VerificationType
  states : List FrameState
  deriving DecidableEq, Repr

structure MethodShape where
  name : String
  descriptor : String
  isStatic : Bool
  deriving DecidableEq, Repr

namespace MethodShape

/-- The receiver, which a constructor finds unconstructed everywhere but in the root class. -/
def receiver (m : MethodShape) (className : String) : List VerificationType :=
  if m.isStatic then []
  else if m.name = constructorName ∧ className ≠ objectClass then [.uninitializedThis]
  else [.object className]

/-- The slots of a value: a long or double is followed by an empty one. -/
def slotsOf (type : VerificationType) : List VerificationType :=
  if type.isWide then [type, .top] else [type]

def initialFrame (m : MethodShape) (className : String) (maxLocals : Nat) :
    Except FrameError Frame := do
  let d ← MethodScope.descriptor? m.descriptor
  let parameters ← d.parameters.mapM MethodScope.typeOf
  let slots := (m.receiver className ++ parameters).flatMap slotsOf
  if maxLocals < slots.length then .error (.invalidLocal (slots.length - 1) 0)
  else
    return { locals := slots ++ List.replicate (maxLocals - slots.length) .top, stack := [] }

end MethodShape

namespace Flow

def catchRange (scope : MethodScope) (program : Program) (h : ExceptionHandler) :
    Except FrameError CatchRange := do
  let handler := h.handler.toNat
  if program.isStart handler then
    let name ← if h.catchType = 0 then pure throwableClass else scope.className? h.catchType
    return { start := h.start.toNat, stop := h.stop.toNat, handler, catchType := .object name }
  else .error (.invalidBranchTarget h.start.toNat handler)

def prepare (load : Loader) (pool : Pool) (className : String) (m : MethodShape) (body : Code) :
    Except FrameError (Flow × Frame) := do
  let initial ← m.initialFrame className body.maxLocals.toNat
  let program ← Program.decode body.code.toArray
  let scope : MethodScope := { pool, className, code := program.code }
  let ranges ← body.handlers.mapM (catchRange scope program)
  return ({ load, scope, program, ranges }, initial)

def start (flow : Flow) (initial : Frame) : FlowState where
  frames := (∅ : Std.TreeMap Nat Frame).insert 0 initial
  queue := [0]
  leaders := .ofList (flow.ranges.map (·.handler))

/-- The frames at the leaders, once every instruction has one. -/
def listStates (flow : Flow) (last : FlowState) : Except FrameError (List FrameState) :=
  match flow.program.addresses.find? (!last.frames.contains ·) with
  | some pc => .error (.unreachableCode pc)
  | none => .ok <| last.leaders.toList.filterMap fun pc => last.frames[pc]?.map (·.state pc)

def compute (load : Loader) (pool : Pool) (className : String) (m : MethodShape) (body : Code) :
    Except FrameError ComputedFrames := do
  let (flow, initial) ← prepare load pool className m body
  let last ← flow.settle (flow.budget body.maxLocals.toNat m.descriptor) (flow.start initial)
  let states ← flow.listStates last
  return { initial := initial.compactLocals, states }

end Flow

end ClassArchive
