import ClassArchive.Text.Quoted

/-!
What can be wrong with the bytes of a class or with the names inside it, and the wording of each
cause. An attribute reader reports every cause inside its payload under the attribute's name. A
breakdown is no report about a class: the computation ends without an answer, whoever asked for it.
-/
set_option autoImplicit false

namespace ClassArchive

/-- What an index into the constant pool was expected to denote. -/
inductive PoolRole where
  | text
  | classInfo
  | nameAndType
  | member
  | callSite
  | loadable
  deriving DecidableEq, Repr

def PoolRole.label : PoolRole → String
  | .text => "Utf8"
  | .classInfo => "Class"
  | .nameAndType => "NameAndType"
  | .member => "member reference"
  | .callSite => "InvokeDynamic"
  | .loadable => "loadable constant"

/-- A flaw of an attribute payload itself, beside the causes that reading its parts can raise. -/
inductive AttributeFlaw where
  | trailingBytes (offset : Nat)
  | unknownElementTag (tag : UInt8)
  | unknownTypeTag (tag : UInt8)
  | reservedFrame (tag : UInt8)
  | wrongSize (expected found : Nat)
  | noMethod
  deriving DecidableEq, Repr

def AttributeFlaw.message : AttributeFlaw → String
  | .trailingBytes offset => s!"trailing bytes after offset {offset}"
  | .unknownElementTag tag =>
      "unknown element value tag " ++ Text.quotedChar (Char.ofNat tag.toNat)
  | .unknownTypeTag tag => s!"unknown verification type tag {tag.toNat}"
  | .reservedFrame tag => s!"reserved frame type {tag.toNat}"
  | .wrongSize expected found => s!"expected {expected} bytes, found {found}"
  | .noMethod => "no method to attach to"

inductive Breakdown where
  /-- A text is cut inside a character. -/
  | cutText (text : String)
  | noInstruction (pc : Nat)
  /-- The types at some join kept changing beyond the number of changes that any hierarchy without
  cycles allows. -/
  | unsettled
  deriving DecidableEq, Repr

def Breakdown.message : Breakdown → String
  | .cutText text => "Text is cut inside a character: " ++ text
  | .noInstruction pc => s!"There is no instruction at pc {pc}"
  | .unsettled => "Frame computation does not settle"

inductive FormatError where
  | invalidMagic (magic : UInt32)
  | unexpectedEnd (offset needed : Nat)
  | unknownConstantTag (tag : UInt8) (index : UInt16)
  | invalidIndex (index : UInt16)
  | unexpectedConstant (index : UInt16) (expected : PoolRole)
  | outOfSpace
  | invalidDescriptor (descriptor : String)
  | malformedAttribute (name : String) (flaw : AttributeFlaw)
  /-- A cause met inside the payload of the named attribute. -/
  | insideAttribute (name : String) (cause : FormatError)
  | breakdown (cause : Breakdown)
  deriving DecidableEq, Repr

def FormatError.message : FormatError → String
  | .invalidMagic magic => "Invalid magic number: 0x" ++ Text.hex 8 magic.toNat
  | .unexpectedEnd offset needed =>
      s!"Unexpected end of class data at offset {offset} (needed {needed} more bytes)"
  | .unknownConstantTag tag index =>
      s!"Unknown constant pool tag {tag.toNat} at index {index.toNat}"
  | .invalidIndex index => s!"Invalid constant pool index: {index.toNat}"
  | .unexpectedConstant index expected =>
      s!"Constant pool index {index.toNat} is not a {expected.label}"
  | .outOfSpace => "Constant pool is out of space"
  | .invalidDescriptor descriptor => "Invalid descriptor: " ++ descriptor
  | .malformedAttribute name flaw => s!"Malformed {name} attribute: " ++ flaw.message
  | .insideAttribute name cause => s!"Malformed {name} attribute: " ++ cause.message
  | .breakdown cause => cause.message

def FormatError.breakdown? : FormatError → Option Breakdown
  | .breakdown cause => some cause
  | .insideAttribute _ cause => cause.breakdown?
  | _ => none

end ClassArchive
