import ClassArchive.Renaming.ClassFile

/-!
Tables of parameter names, built from the parameters that a mapping names. A parameter that it
leaves out, in front of one that it names, is called by a stem and its index.
-/
set_option autoImplicit false

namespace ClassArchive

structure ParameterNaming where
  mapping : Mapping
  /-- The namespace in which the class has its names. -/
  ns : String
  stem : String

namespace ParameterNaming

def syntheticFlag : UInt16 := 0x1000

def maxIndex : Nat := 254

def parameterName (p : ParameterNaming) (m : MethodMapping) (index : Nat) : String :=
  (m.parameterName? index p.ns).getD s!"{p.stem}{index}"

def table (p : ParameterNaming) (m : MethodMapping) (last : Nat) :
    Pool.Edit (List MethodParameter) :=
  (List.range (last + 1)).mapM fun index => do
    return { name := ← Pool.addText (p.parameterName m index), access := syntheticFlag }

def placeTable (p : ParameterNaming) (m : MethodMapping) (last : Nat) (method : Member) :
    Pool.Edit Member := do
  let parameters ← p.table m last
  let name ← Pool.addText MethodParameter.tableName
  let position := Attribute.position? (← get) MethodParameter.tableName method.attributes
  let a : Attribute := { name, payload := MethodParameter.encodeTable parameters }
  return { method with attributes := Attribute.place method.attributes position a }

def method (p : ParameterNaming) (className : String) (c : ClassMapping) (method : Member) :
    Renaming Member := do
  let pool ← get
  let name ← Renaming.read (pool.text method.name)
  let descriptor ← Renaming.read (pool.text method.descriptor)
  let id ← Renaming.read (MethodId.ofDescriptor name descriptor)
  match c.method? p.ns id with
  | none => return method
  | some m =>
      match m.lastParameter? with
      | none => return method
      | some last =>
          if maxIndex < last then
            liftM (.error (.malformedMapping s!"{className}.{name}"
              s!"parameter index {last} out of range") : Except ArchiveError Member)
          else Renaming.edit (p.placeTable m last method)

def classFile (p : ParameterNaming) (c : ClassFile) : Except ArchiveError ClassFile := do
  let className ← ArchiveError.lift c.name
  match p.mapping.class? p.ns className with
  | none => return c
  | some mapping =>
      let (methods, pool) ← (c.methods.mapM (p.method className mapping)).run c.pool
      return { c with methods, pool }

end ParameterNaming

end ClassArchive
