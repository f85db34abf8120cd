import ClassArchive.ClassFile
import ClassArchive.Attribute.Code

/-!
Building small classes member by member. Names go into the pool in the order in which they are
given; the first failure ends the building.
-/
set_option autoImplicit false

namespace ClassArchive.ClassFile

def editPool {α : Type} (c : ClassFile) (edit : Pool.Edit α) :
    Except FormatError (α × ClassFile) :=
  match edit.run c.pool with
  | .ok a pool => .ok (a, { c with pool })
  | .error e _ => .error e

def start (name : String) (superName : Option String) : Except FormatError ClassFile := do
  let (thisClass, c) ← editPool { access := 0x0021 } (Pool.addClass name)
  match superName with
  | none => return { c with thisClass }
  | some superName =>
      let (superClass, c) ← c.editPool (Pool.addClass superName)
      return { c with thisClass, superClass }

def addInterface (name : String) (c : ClassFile) : Except FormatError ClassFile := do
  let (index, c) ← c.editPool (Pool.addClass name)
  return { c with interfaces := c.interfaces ++ [index] }

def memberIndices (name descriptor : String) : Pool.Edit (UInt16 × UInt16) := do
  let name ← Pool.addText name
  let descriptor ← Pool.addText descriptor
  return (name, descriptor)

def addField (name descriptor : String) (c : ClassFile) : Except FormatError ClassFile := do
  let ((name, descriptor), c) ← c.editPool (memberIndices name descriptor)
  return { c with fields := c.fields ++ [{ access := 0x0001, name, descriptor }] }

def addMethod (name descriptor : String) (c : ClassFile) : Except FormatError ClassFile := do
  let ((name, descriptor), c) ← c.editPool (memberIndices name descriptor)
  return { c with methods := c.methods ++ [{ access := 0x0401, name, descriptor }] }

def addMethodWithCode (access : UInt16) (name descriptor : String) (body : Pool.Edit Code)
    (c : ClassFile) : Except FormatError ClassFile := do
  let edit : Pool.Edit Member := do
    let (name, descriptor) ← memberIndices name descriptor
    let code ← body
    let codeName ← Pool.addText Code.attributeName
    let attributes := [{ name := codeName, payload := code.encode }]
    return { access, name, descriptor, attributes }
  let (method, c) ← c.editPool edit
  return { c with methods := c.methods ++ [method] }

def attributeEdit (name : String) (payload : Pool.Edit Bytes) : Pool.Edit Attribute := do
  let name ← Pool.addText name
  let payload ← payload
  return { name, payload }

def addMethodAttribute (name : String) (payload : Pool.Edit Bytes) (c : ClassFile) :
    Except FormatError ClassFile := do
  let (a, c) ← c.editPool (attributeEdit name payload)
  match c.methods.getLast? with
  | none => .error (.malformedAttribute name .noMethod)
  | some last =>
      let last := { last with attributes := last.attributes ++ [a] }
      return { c with methods := c.methods.dropLast ++ [last] }

def addAttribute (name : String) (payload : Pool.Edit Bytes) (c : ClassFile) :
    Except FormatError ClassFile := do
  let (a, c) ← c.editPool (attributeEdit name payload)
  return { c with attributes := c.attributes ++ [a] }

end ClassArchive.ClassFile
