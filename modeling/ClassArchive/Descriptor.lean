import ClassArchive.FormatError

/-!
Descriptors of fields and methods. A field type is a letter, a class name between `L` and `;`, or
a field type behind `[`; a method descriptor is a list of field types in parentheses before a field
type or `V`.
-/
set_option autoImplicit false

namespace ClassArchive.Descriptor

def isBase (c : Char) : Bool := "BCDFIJSZ".toList.contains c

def splitFieldType? : List Char → Option (List Char × List Char)
  | [] => none
  | '[' :: cs => (splitFieldType? cs).map fun (type, rest) => ('[' :: type, rest)
  | 'L' :: cs =>
      match cs.dropWhile (· ≠ ';') with
      | ';' :: rest =>
          match cs.takeWhile (· ≠ ';') with
          | [] => none
          | name => some ('L' :: name ++ [';'], rest)
      | _ => none
  | c :: cs => if isBase c then some ([c], cs) else none

theorem append_of_splitFieldType? {cs type rest : List Char}
    (h : splitFieldType? cs = some (type, rest)) : cs = type ++ rest ∧ type ≠ [] := by
  induction cs generalizing type rest with
  | nil => simp [splitFieldType?] at h
  | cons c cs ih =>
    unfold splitFieldType? at h
    split at h
    · contradiction
    · next heq =>
      injection heq with hc hcs
      subst hc hcs
      obtain ⟨⟨t, r⟩, htr, heq⟩ := Option.map_eq_some_iff.1 h
      injection heq with ht hr
      subst ht hr
      simp [(ih htr).1]
    · next heq =>
      injection heq with hc hcs
      subst hc hcs
      have hcut := List.takeWhile_append_dropWhile (p := fun x => decide (x ≠ ';')) (l := cs)
      split at h
      · next rest' hd =>
        split at h
        · contradiction
        · simp only [Option.some.injEq, Prod.mk.injEq] at h
          obtain ⟨rfl, rfl⟩ := h
          rw [hd] at hcut
          constructor
          · conv => lhs; rw [← hcut]
            simp
          · simp
      · contradiction
    · next heq =>
      injection heq with hc hcs
      subst hc hcs
      split at h
      · simp only [Option.some.injEq, Prod.mk.injEq] at h
        obtain ⟨rfl, rfl⟩ := h
        simp
      · contradiction

theorem length_lt_of_splitFieldType? {cs type rest : List Char}
    (h : splitFieldType? cs = some (type, rest)) : rest.length < cs.length := by
  obtain ⟨rfl, hne⟩ := append_of_splitFieldType? h
  have := List.length_pos_iff.2 hne
  simp only [List.length_append]
  omega

def splitParameters? (cs : List Char) : Option (List (List Char) × List Char) :=
  match cs with
  | ')' :: rest => some ([], rest)
  | cs =>
      match h : splitFieldType? cs with
      | none => none
      | some (type, rest) =>
          have := length_lt_of_splitFieldType? h
          (splitParameters? rest).map fun (types, rest) => (type :: types, rest)
  termination_by cs.length

def isFieldType (cs : List Char) : Bool :=
  match splitFieldType? cs with
  | some (_, []) => true
  | _ => false

/-- The characters after the given number of bytes, if these end between two characters. -/
def dropBytes? : Nat → List Char → Option (List Char)
  | 0, cs => some cs
  | _ + 1, [] => none
  | n + 1, c :: cs => if c.utf8Size ≤ n + 1 then dropBytes? (n + 1 - c.utf8Size) cs else none

def byteLength : List Char → Nat
  | [] => 0
  | c :: cs => c.utf8Size + byteLength cs

/-- The byte offset at which the field type that starts at the given byte offset ends. -/
def fieldTypeEnd (descriptor : String) (start : Nat) : Except FormatError Nat :=
  match (dropBytes? start descriptor.toList).bind splitFieldType? with
  | some (type, _) => .ok (start + byteLength type)
  | none => .error (.invalidDescriptor descriptor)

def checkField (descriptor : String) : Except FormatError Unit :=
  if isFieldType descriptor.toList then .ok () else .error (.invalidDescriptor descriptor)

def isWide (fieldType : String) : Bool := fieldType == "J" || fieldType == "D"

def className? (descriptor : String) : Option String :=
  match descriptor.toList with
  | 'L' :: cs => if cs.getLast? = some ';' then some (String.ofList cs.dropLast) else none
  | _ => none

end Descriptor

structure MethodDescriptor where
  parameters : List String
  result : String
  deriving DecidableEq, Repr

namespace MethodDescriptor

def render (d : MethodDescriptor) : String := "(" ++ String.join d.parameters ++ ")" ++ d.result

def parse? (cs : List Char) : Option MethodDescriptor :=
  match cs with
  | '(' :: cs =>
      match Descriptor.splitParameters? cs with
      | some (types, result) =>
          if result = ['V'] ∨ Descriptor.isFieldType result then
            some ⟨types.map String.ofList, String.ofList result⟩
          else none
      | none => none
  | _ => none

def parse (descriptor : String) : Except FormatError MethodDescriptor :=
  match parse? descriptor.toList with
  | some d => .ok d
  | none => .error (.invalidDescriptor descriptor)

def returns (d : MethodDescriptor) : Bool := d.result != "V"

end MethodDescriptor

end ClassArchive
