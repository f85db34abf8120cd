import ClassArchive.ClassFile
import ClassArchive.Frame.Flow

/-!
Writing a class with the frames of its methods computed anew. A method whose frames cannot be
computed keeps the table it has. A computation that breaks off leaves no class at all.
-/
set_option autoImplicit false

namespace ClassArchive

namespace ClassFile

def firstFrameVersion : UInt16 := 50

/-- Puts a table of frames among the attributes of a body, in the place of the one it has. An
empty table is left out. -/
def placeTable (frames : List StackMapFrame) (code : Code) : Pool.Edit Code := do
  let position := Attribute.position? (← get) StackMap.attributeName code.attributes
  if frames.isEmpty then
    match position with
    | some i => return { code with attributes := code.attributes.eraseIdx i }
    | none => return code
  else
    let payload ← StackMap.encode frames
    let name ← Pool.addText StackMap.attributeName
    return { code with attributes := Attribute.place code.attributes position { name, payload } }

def liftRead {α : Type} : Except FormatError α → Pool.Edit α
  | .ok a => pure a
  | .error e => throw e

def reframeBody (load : Loader) (className : String) (method : Member) (position : Nat)
    (body : Attribute) : Pool.Edit Member := do
  let pool ← get
  let code ← liftRead (Code.decode body.payload)
  let name ← liftRead (pool.text method.name)
  let descriptor ← liftRead (pool.text method.descriptor)
  let shape : MethodShape := { name, descriptor, isStatic := Access.isStatic method.access }
  match Flow.compute load pool className shape code with
  | .error e =>
      match e.breakdown? with
      | some cause => throw (.breakdown cause)
      | none => return method
  | .ok computed =>
      let code ← placeTable (StackMap.compress computed.initial computed.states) code
      let body := { body with payload := code.encode }
      return { method with attributes := method.attributes.set position body }

def reframeMethod (load : Loader) (className : String) (method : Member) : Pool.Edit Member := do
  match Attribute.position? (← get) Code.attributeName method.attributes with
  | none => return method
  | some position =>
      match method.attributes[position]? with
      | none => return method
      | some body => reframeBody load className method position body

def reframe (load : Loader) (c : ClassFile) : Except FormatError ClassFile := do
  let className ← c.name
  match (c.methods.mapM (reframeMethod load className)).run c.pool with
  | .ok methods pool => return { c with methods, pool }
  | .error e _ => .error e

/-- The class as it is to be written: with new frames if they are wanted and its version has
frames at all. -/
def framed (load : Loader) (computeFrames : Bool) (c : ClassFile) : Except FormatError ClassFile :=
  if computeFrames ∧ firstFrameVersion ≤ c.major then c.reframe load else .ok c

end ClassFile

end ClassArchive
