import ClassArchive.ArchiveError
import ClassArchive.Descriptor

/-!
Descriptors and generic signatures as texts with class names in them. Scanning cuts a text into
pieces, and where the text breaks off its grammar, it still gives the pieces up to there: a name
that cannot be renamed is then reported before the break.
-/
set_option autoImplicit false

namespace ClassArchive

inductive Piece where
  /-- Text that stays as it is. -/
  | text (chars : List Char)
  | className (name : String)
  /-- The part after a dot: a class inside the class of the first name. -/
  | innerName (outer inner : String)
  deriving DecidableEq, Repr

/-- The pieces found, and the unread text unless the grammar was left. -/
structure Scan where
  pieces : List Piece
  rest : Option (List Char)
  deriving DecidableEq, Repr

namespace Scan

def broken : Scan := ⟨[], none⟩

def done (rest : List Char) : Scan := ⟨[], some rest⟩

def emit (piece : Piece) (scan : Scan) : Scan := { scan with pieces := piece :: scan.pieces }

def copy (c : Char) (scan : Scan) : Scan := scan.emit (.text [c])

def andThen (scan : Scan) (next : List Char → Scan) : Scan :=
  match scan.rest with
  | none => scan
  | some rest =>
      let more := next rest
      { more with pieces := scan.pieces ++ more.pieces }

end Scan

namespace Descriptor

/-- Scans a descriptor. The name of the class that is being read stands in reverse. -/
def scanFrom : Option (List Char) → List Char → Scan
  | none, [] => .done []
  | some _, [] => .broken
  | none, 'L' :: cs => (scanFrom (some []) cs).copy 'L'
  | none, c :: cs => (scanFrom none cs).copy c
  | some name, ';' :: cs =>
      ((scanFrom none cs).copy ';').emit (.className (String.ofList name.reverse))
  | some name, c :: cs => scanFrom (some (c :: name)) cs

def scan (descriptor : String) : Scan := scanFrom none descriptor.toList

end Descriptor

namespace Signature

/-- Cuts an identifier off the front, which ends before one of the given characters. -/
def identifier? (stops : List Char) (cs : List Char) : Option (List Char × List Char) :=
  match cs.dropWhile (· ∉ stops) with
  | [] => none
  | rest => some (cs.takeWhile (· ∉ stops), rest)

def classStops : List Char := ['<', '.', ';']

mutual

/-- A type: a class, a type variable, an array or a primitive. The first argument of this and of
the following functions bounds the calls inside each other. -/
def scanType : Nat → List Char → Scan
  | 0, _ => .broken
  | bound + 1, 'L' :: cs =>
      match identifier? classStops cs with
      | none => .broken
      | some (name, rest) =>
          let outer := String.ofList name
          ((scanSuffix bound outer rest).emit (.className outer)).copy 'L'
  | _ + 1, 'T' :: cs =>
      match identifier? [';'] cs with
      | some (name, ';' :: rest) => (Scan.done rest).emit (.text ('T' :: name ++ [';']))
      | _ => .broken
  | bound + 1, '[' :: cs => (scanType bound cs).copy '['
  | _ + 1, c :: cs => if Descriptor.isBase c || c = 'V' then (Scan.done cs).copy c else .broken
  | _ + 1, [] => .broken

/-- What follows the name of a class: type arguments, inner classes and the final semicolon. -/
def scanSuffix : Nat → String → List Char → Scan
  | 0, _, _ => .broken
  | bound + 1, outer, '<' :: cs =>
      ((scanArguments bound cs).copy '<').andThen (scanSuffix bound outer)
  | bound + 1, outer, '.' :: cs =>
      match identifier? classStops cs with
      | none => .broken
      | some (name, rest) =>
          let inner := String.ofList name
          ((scanSuffix bound (outer ++ "$" ++ inner) rest).emit (.innerName outer inner)).copy '.'
  | _ + 1, _, ';' :: cs => (Scan.done cs).copy ';'
  | _ + 1, _, _ => .broken

def scanArguments : Nat → List Char → Scan
  | 0, _ => .broken
  | _ + 1, '>' :: cs => (Scan.done cs).copy '>'
  | bound + 1, '*' :: cs => (scanArguments bound cs).copy '*'
  | bound + 1, '+' :: cs => ((scanType bound cs).copy '+').andThen (scanArguments bound)
  | bound + 1, '-' :: cs => ((scanType bound cs).copy '-').andThen (scanArguments bound)
  | bound + 1, cs => (scanType bound cs).andThen (scanArguments bound)

end

/-- The bounds of a type parameter, each behind a colon; the first one may be missing. -/
def scanBounds : Nat → List Char → Scan
  | 0, _ => .broken
  | bound + 1, ':' :: cs =>
      match cs with
      | 'L' :: _ | 'T' :: _ | '[' :: _ =>
          ((scanType bound cs).andThen (scanBounds bound)).copy ':'
      | _ => (scanBounds bound cs).copy ':'
  | _ + 1, cs => .done cs

def scanParameters : Nat → List Char → Scan
  | 0, _ => .broken
  | _ + 1, [] => .broken
  | _ + 1, '>' :: cs => (Scan.done cs).copy '>'
  | bound + 1, cs =>
      match identifier? [':'] cs with
      | none => .broken
      | some (name, rest) =>
          ((scanBounds bound rest).andThen (scanParameters bound)).emit (.text name)

def scanMethodTypes : Nat → List Char → Scan
  | 0, _ => .broken
  | _ + 1, ')' :: cs => (Scan.done cs).copy ')'
  | bound + 1, cs => (scanType bound cs).andThen (scanMethodTypes bound)

def scanThrows : Nat → List Char → Scan
  | 0, _ => .broken
  | bound + 1, '^' :: cs => ((scanType bound cs).andThen (scanThrows bound)).copy '^'
  | _ + 1, cs => .done cs

/-- Types one after the other up to the end, as a class lists its superclass and interfaces. -/
def scanTypes : Nat → List Char → Scan
  | 0, _ => .broken
  | _ + 1, [] => .done []
  | bound + 1, cs => (scanType bound cs).andThen (scanTypes bound)

def scanMethod (bound : Nat) (cs : List Char) : Scan :=
  match cs with
  | '(' :: cs =>
      (((scanMethodTypes bound cs).copy '(').andThen (scanType bound)).andThen (scanThrows bound)
  | cs => .done cs

def scanHead (bound : Nat) (cs : List Char) : Scan :=
  match cs with
  | '<' :: cs => (scanParameters bound cs).copy '<'
  | cs => .done cs

/-- Of two calls inside each other at least one reads a character. -/
def callBound (cs : List Char) : Nat := 2 * cs.length + 2

def scan (signature : String) : Scan :=
  let cs := signature.toList
  let bound := callBound cs
  ((scanHead bound cs).andThen (scanMethod bound)).andThen (scanTypes bound)

end Signature

def afterLast (c : Char) (text : String) : String :=
  String.ofList (text.toList.reverse.takeWhile (· ≠ c)).reverse

def dropStart? (start text : String) : Option String :=
  if start.toList.isPrefixOf text.toList then
    some (String.ofList (text.toList.drop start.toList.length))
  else none

namespace Piece

/-- The piece after renaming. An inner class is written by what its new name adds to that of the
class around it, or else by its new name without the package. -/
def rename (f : String → Except ArchiveError String) : Piece → Except ArchiveError (List Char)
  | .text chars => .ok chars
  | .className name => do return (← f name).toList
  | .innerName outer inner => do
      let name ← f (outer ++ "$" ++ inner)
      let outer ← f outer
      return ((dropStart? (outer ++ "$") name).getD (afterLast '/' name)).toList

end Piece

namespace Scan

def rename (f : String → Except ArchiveError String) (text : String) (scan : Scan) :
    Except ArchiveError String := do
  let parts ← scan.pieces.mapM (Piece.rename f)
  if scan.rest.isSome then return String.ofList parts.flatten
  else .error (.format (.invalidDescriptor text))

end Scan

end ClassArchive
