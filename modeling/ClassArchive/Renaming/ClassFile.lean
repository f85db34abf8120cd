import ClassArchive.Renaming.Names
import ClassArchive.ClassFile
import ClassArchive.Attribute.Code
import ClassArchive.Attribute.Table
import ClassArchive.Attribute.Annotations

/-!
Renaming a whole class file. Names are read from the pool as it was and new ones are appended, so
that an existing text never changes: a string literal may share it with a name. Entries that refer
to names are repointed in their slots, and the indices inside instructions stay valid.
-/
set_option autoImplicit false

namespace ClassArchive

abbrev Renaming := StateT Pool (Except ArchiveError)

namespace Renaming

def edit {α : Type} (e : Pool.Edit α) : Renaming α := fun pool =>
  match e.run pool with
  | .ok a pool => .ok (a, pool)
  | .error e _ => .error (.format e)

def read {α : Type} (a : Except FormatError α) : Renaming α := fun pool =>
  match a with
  | .ok a => .ok (a, pool)
  | .error e => .error (.format e)

end Renaming

/-- Names of attributes that the renaming knows, beside those of the typed views. -/
def signatureAttribute : String := "Signature"

def enclosingMethodAttribute : String := "EnclosingMethod"

def lambdaFactoryClass : String := "java/lang/invoke/LambdaMetafactory"

structure ClassRenamer where
  names : Renamer
  /-- The pool before the renaming. -/
  snapshot : Pool
  bootstraps : List BootstrapMethod
  className : String

structure LambdaMethod where
  interface : String
  descriptor : String
  deriving DecidableEq, Repr

/-- The interface method behind a call site, if its bootstrap method is a lambda factory. The name
of the call site is then the name of that method. -/
def lambdaMethod? (pool : Pool) (bootstrap : BootstrapMethod) (descriptor : String) :
    Except FormatError (Option LambdaMethod) := do
  let .methodHandle _ reference ← pool.entry bootstrap.method | return none
  let factory ← pool.member reference
  if factory.owner ≠ lambdaFactoryClass ∨
      (factory.name ≠ "metafactory" ∧ factory.name ≠ "altMetafactory") then
    return none
  let argument :: _ := bootstrap.arguments | return none
  let .methodType samDescriptor ← pool.entry argument | return none
  let d ← MethodDescriptor.parse descriptor
  let some interface := Descriptor.className? d.result | return none
  return some { interface, descriptor := ← pool.text samDescriptor }

def bootstrapMethods (pool : Pool) : List Attribute → Except FormatError (List BootstrapMethod)
  | [] => .ok []
  | a :: rest => do
      if (← pool.text a.name) = BootstrapMethod.tableName then BootstrapMethod.decodeTable a.payload
      else bootstrapMethods pool rest

namespace ClassRenamer

def rename (f : Except ArchiveError String) : Renaming String := liftM f

/-- The index of the text: the given one if it holds the text already. -/
def replaceText (r : ClassRenamer) (index : UInt16) (text : String) : Renaming UInt16 := do
  if (← Renaming.read (r.snapshot.text index)) = text then return index
  else Renaming.edit (Pool.addText text)

def renameText (r : ClassRenamer) (f : String → Except ArchiveError String) (index : UInt16) :
    Renaming UInt16 := do
  let text ← Renaming.read (r.snapshot.text index)
  r.replaceText index (← rename (f text))

def replacePair (r : ClassRenamer) (index : UInt16) (name descriptor : String) :
    Renaming UInt16 := do
  if (← Renaming.read (r.snapshot.nameAndType index)) = (name, descriptor) then return index
  else Renaming.edit (Pool.addNameAndType name descriptor)

/-! ### Constants -/

def renameFieldPair (r : ClassRenamer) (index pair : UInt16) : Renaming UInt16 := do
  let m ← Renaming.read (r.snapshot.member index)
  let name ← rename (r.names.fieldName m.owner m.name)
  let descriptor ← rename (r.names.descriptor m.descriptor)
  r.replacePair pair name descriptor

def renameMethodPair (r : ClassRenamer) (index pair : UInt16) : Renaming UInt16 := do
  let m ← Renaming.read (r.snapshot.member index)
  let name ← rename (r.names.methodName m.owner m.name m.descriptor)
  let descriptor ← rename (r.names.methodDescriptor m.descriptor)
  r.replacePair pair name descriptor

def lambdaAt? (r : ClassRenamer) (bootstrap : UInt16) (descriptor : String) :
    Except FormatError (Option LambdaMethod) :=
  match r.bootstraps[bootstrap.toNat]? with
  | some method => lambdaMethod? r.snapshot method descriptor
  | none => .ok none

def callSiteName (r : ClassRenamer) (name : String) :
    Option LambdaMethod → Except ArchiveError String
  | some method => r.names.methodName method.interface name method.descriptor
  | none => .ok name

def renameCallSitePair (r : ClassRenamer) (bootstrap pair : UInt16) : Renaming UInt16 := do
  let (name, descriptor) ← Renaming.read (r.snapshot.nameAndType pair)
  let lambda ← Renaming.read (r.lambdaAt? bootstrap descriptor)
  let name ← rename (r.callSiteName name lambda)
  let descriptor ← rename (r.names.methodDescriptor descriptor)
  r.replacePair pair name descriptor

/-- The pair of a dynamic constant after renaming; its name means nothing to a mapping. -/
def renameDynamicPair (r : ClassRenamer) (pair : UInt16) : Renaming UInt16 := do
  let (name, descriptor) ← Renaming.read (r.snapshot.nameAndType pair)
  let descriptor ← rename (r.names.descriptor descriptor)
  r.replacePair pair name descriptor

def renameConstant (r : ClassRenamer) (index : UInt16) : Constant → Renaming Constant
  | .classInfo name => .classInfo <$> r.renameText r.names.typeName name
  | .fieldRef owner pair => .fieldRef owner <$> r.renameFieldPair index pair
  | .methodRef owner pair => .methodRef owner <$> r.renameMethodPair index pair
  | .interfaceMethodRef owner pair => .interfaceMethodRef owner <$> r.renameMethodPair index pair
  | .methodType descriptor => .methodType <$> r.renameText r.names.methodDescriptor descriptor
  | .invokeDynamic bootstrap pair =>
      .invokeDynamic bootstrap <$> r.renameCallSitePair bootstrap pair
  | .dynamic bootstrap pair => .dynamic bootstrap <$> r.renameDynamicPair pair
  | c => pure c

/-- Renames the constant in a slot, which is written only if it changes. -/
def renameSlot (r : ClassRenamer) (index : UInt16) (c : Constant) : Renaming Unit := do
  let renamed ← r.renameConstant index c
  if renamed = c then return () else Renaming.edit (Pool.replace index renamed)

def renameConstants (r : ClassRenamer) : Renaming Unit :=
  r.snapshot.entries.forM fun (index, c) => r.renameSlot index c

/-! ### Annotations -/

def renameWithin (r : ClassRenamer) (f : String → String → Except ArchiveError String)
    (owner : Option String) (index : UInt16) : Renaming UInt16 :=
  match owner with
  | some owner => r.renameText (f owner) index
  | none => pure index

mutual

def renameValue (r : ClassRenamer) : ElementValue → Renaming ElementValue
  | .const tag index => return .const tag index
  | .enum type name => do
      let descriptor ← Renaming.read (r.snapshot.text type)
      let name ← r.renameWithin r.names.fieldName (Descriptor.className? descriptor) name
      let type ← r.renameText r.names.descriptor type
      return .enum type name
  | .classLiteral descriptor => .classLiteral <$> r.renameText r.names.descriptor descriptor
  | .nested type elements => do
      let owner := Descriptor.className? (← Renaming.read (r.snapshot.text type))
      let elements ← renameElements r owner elements
      let type ← r.renameText r.names.descriptor type
      return .nested type elements
  | .array values => .array <$> renameValues r values

/-- Renames the elements given to an annotation type, if that is a class, and their values. -/
def renameElements (r : ClassRenamer) (owner : Option String) :
    List (UInt16 × ElementValue) → Renaming (List (UInt16 × ElementValue))
  | [] => return []
  | (name, value) :: rest => do
      let name ← r.renameWithin r.names.annotationElement owner name
      let value ← renameValue r value
      let rest ← renameElements r owner rest
      return (name, value) :: rest

def renameValues (r : ClassRenamer) : List ElementValue → Renaming (List ElementValue)
  | [] => return []
  | value :: rest => do
      let value ← renameValue r value
      let rest ← renameValues r rest
      return value :: rest

end

def renameAnnotations (r : ClassRenamer) (a : AnnotationInfo) : Renaming AnnotationInfo := do
  let owner := Descriptor.className? (← Renaming.read (r.snapshot.text a.type))
  let elements ← r.renameElements owner a.elements
  let type ← r.renameText r.names.descriptor a.type
  return { type, elements }

/-! ### Tables -/

def renameLocal (r : ClassRenamer) (f : String → Except ArchiveError String) (v : LocalVariable) :
    Renaming LocalVariable := do
  return { v with descriptor := ← r.renameText f v.descriptor }

def renameInnerClass (r : ClassRenamer) (c : InnerClass) : Renaming InnerClass := do
  if c.name = 0 then return c
  let inner ← Renaming.read (r.snapshot.className c.inner)
  return { c with name := ← r.renameText (r.names.innerClassName inner) c.name }

/-- Renames the method in which a class stands. The class itself is renamed with the pool. -/
def renameEnclosing (r : ClassRenamer) : Bytes → Renaming Bytes
  | [a, b, c, d] => do
      let owner := word16 a b
      let pair := word16 c d
      if pair = 0 then return be16 owner ++ be16 pair
      let ownerName ← Renaming.read (r.snapshot.className owner)
      let (name, descriptor) ← Renaming.read (r.snapshot.nameAndType pair)
      let name ← rename (r.names.methodName ownerName name descriptor)
      let descriptor ← rename (r.names.methodDescriptor descriptor)
      return be16 owner ++ be16 (← r.replacePair pair name descriptor)
  | data =>
      Renaming.read (.error (.malformedAttribute enclosingMethodAttribute
        (.wrongSize 4 data.length)))

def singleIndex (name : String) : Bytes → Except FormatError UInt16
  | [a, b] => .ok (word16 a b)
  | data => .error (.malformedAttribute name (.wrongSize 2 data.length))

/-! ### Attributes and members -/

def renameField (r : ClassRenamer) (name descriptor : UInt16) : Renaming (UInt16 × UInt16) := do
  let fieldName ← Renaming.read (r.snapshot.text name)
  let _ ← Renaming.read (r.snapshot.text descriptor)
  let name ← r.replaceText name (← rename (r.names.fieldName r.className fieldName))
  let descriptor ← r.renameText r.names.descriptor descriptor
  return (name, descriptor)

/-- What the payload of an attribute holds, as far as a renaming looks into it. -/
inductive PayloadKind where
  | signature
  | code
  | locals
  | localTypes
  | annotations
  | parameterAnnotations
  | elementDefault
  | innerClasses
  | enclosingMethod
  | record
  | other
  deriving DecidableEq, Repr

def PayloadKind.ofName (name : String) : PayloadKind :=
  if name = signatureAttribute then .signature
  else if name = Code.attributeName then .code
  else if name = LocalVariable.tableName then .locals
  else if name = LocalVariable.typeTableName then .localTypes
  else if name = AnnotationInfo.visibleName ∨ name = AnnotationInfo.invisibleName then .annotations
  else if name = AnnotationInfo.visibleParameterName ∨
      name = AnnotationInfo.invisibleParameterName then .parameterAnnotations
  else if name = ElementValue.defaultName then .elementDefault
  else if name = InnerClass.tableName then .innerClasses
  else if name = enclosingMethodAttribute then .enclosingMethod
  else if name = RecordComponent.tableName then .record
  else .other

def renameSignature (r : ClassRenamer) (name : String) (data : Bytes) : Renaming Bytes := do
  let index ← Renaming.read (singleIndex name data)
  return be16 (← r.renameText r.names.signature index)

def renameLocals (r : ClassRenamer) (f : String → Except ArchiveError String) (name : String)
    (data : Bytes) : Renaming Bytes := do
  let table ← Renaming.read (LocalVariable.decodeTable name data)
  return LocalVariable.encodeTable (← table.mapM (r.renameLocal f))

def renameAnnotationTable (r : ClassRenamer) (name : String) (data : Bytes) : Renaming Bytes := do
  let table ← Renaming.read (AnnotationInfo.decodeTable name data)
  return AnnotationInfo.encodeTable (← table.mapM r.renameAnnotations)

def renameParameterAnnotations (r : ClassRenamer) (name : String) (data : Bytes) :
    Renaming Bytes := do
  let tables ← Renaming.read (AnnotationInfo.decodeParameters name data)
  return AnnotationInfo.encodeParameters (← tables.mapM (·.mapM r.renameAnnotations))

def renameDefault (r : ClassRenamer) (data : Bytes) : Renaming Bytes := do
  let value ← Renaming.read (ElementValue.decode data)
  return (← r.renameValue value).encode

def renameInnerClasses (r : ClassRenamer) (data : Bytes) : Renaming Bytes := do
  let table ← Renaming.read (InnerClass.decodeTable data)
  return InnerClass.encodeTable (← table.mapM r.renameInnerClass)

def renameInside (r : ClassRenamer) (payload : String → Bytes → Renaming Bytes)
    (attributes : List Attribute) : Renaming (List Attribute) :=
  attributes.mapM fun a => do
    let name ← Renaming.read (r.snapshot.text a.name)
    return { a with payload := ← payload name a.payload }

def renameBody (inside : List Attribute → Renaming (List Attribute)) (data : Bytes) :
    Renaming Bytes := do
  let code ← Renaming.read (Code.decode data)
  let attributes ← inside code.attributes
  return { code with attributes }.encode

def renameComponent (r : ClassRenamer) (inside : List Attribute → Renaming (List Attribute))
    (c : RecordComponent) : Renaming RecordComponent := do
  let (name, descriptor) ← r.renameField c.name c.descriptor
  let attributes ← inside c.attributes
  return { name, descriptor, attributes }

def renameRecord (r : ClassRenamer) (inside : List Attribute → Renaming (List Attribute))
    (data : Bytes) : Renaming Bytes := do
  let table ← Renaming.read (RecordComponent.decodeTable data)
  return RecordComponent.encodeTable (← table.mapM (r.renameComponent inside))

/-- The payload of the named attribute after renaming. Attributes inside it are renamed down to the
given depth. -/
def renamePayload (r : ClassRenamer) : Nat → String → Bytes → Renaming Bytes
  | 0, _, data => return data
  | depth + 1, name, data =>
      let inside := r.renameInside (renamePayload r depth)
      match PayloadKind.ofName name with
      | .signature => r.renameSignature name data
      | .code => renameBody inside data
      | .locals => r.renameLocals r.names.descriptor name data
      | .localTypes => r.renameLocals r.names.signature name data
      | .annotations => r.renameAnnotationTable name data
      | .parameterAnnotations => r.renameParameterAnnotations name data
      | .elementDefault => r.renameDefault data
      | .innerClasses => r.renameInnerClasses data
      | .enclosingMethod => r.renameEnclosing data
      | .record => r.renameRecord inside data
      | .other => return data

/-- An attribute inside a payload is shorter than the payload, so its length bounds the depth. -/
def renameAttribute (r : ClassRenamer) (a : Attribute) : Renaming Attribute := do
  let name ← Renaming.read (r.snapshot.text a.name)
  return { a with payload := ← r.renamePayload (a.payload.length + 1) name a.payload }

def renameFieldMember (r : ClassRenamer) (m : Member) : Renaming Member := do
  let (name, descriptor) ← r.renameField m.name m.descriptor
  let attributes ← m.attributes.mapM r.renameAttribute
  return { m with name, descriptor, attributes }

def renameMethodMember (r : ClassRenamer) (m : Member) : Renaming Member := do
  let methodName ← Renaming.read (r.snapshot.text m.name)
  let methodDescriptor ← Renaming.read (r.snapshot.text m.descriptor)
  let mapped ← rename (r.names.methodName r.className methodName methodDescriptor)
  let name ← r.replaceText m.name mapped
  let descriptor ← r.renameText r.names.methodDescriptor m.descriptor
  let attributes ← m.attributes.mapM r.renameAttribute
  return { m with name, descriptor, attributes }

def renameAll (r : ClassRenamer) (c : ClassFile) : Renaming ClassFile := do
  r.renameConstants
  let fields ← c.fields.mapM r.renameFieldMember
  let methods ← c.methods.mapM r.renameMethodMember
  let attributes ← c.attributes.mapM r.renameAttribute
  return { c with fields, methods, attributes }

end ClassRenamer

def Renamer.classFile (names : Renamer) (c : ClassFile) : Except ArchiveError ClassFile := do
  let className ← ArchiveError.lift c.name
  let bootstraps ← ArchiveError.lift (bootstrapMethods c.pool c.attributes)
  let r : ClassRenamer := { names, snapshot := c.pool, bootstraps, className }
  let (renamed, pool) ← (r.renameAll c).run c.pool
  return { renamed with pool }

end ClassArchive
