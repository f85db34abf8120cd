import ClassArchive.Frame.Transfer

/-!
The type that stands for two types where control joins. Classes meet in their nearest common
superclass, arrays of references in an array, and what has nothing in common in the top type.
-/
set_option autoImplicit false

namespace ClassArchive

def isReference : List Char → Bool
  | 'L' :: _ | '[' :: _ => true
  | _ => false

/-- The name of the type that a descriptor describes; an array is named by its descriptor. -/
def typeName : List Char → List Char
  | 'L' :: cs => if cs.getLast? = some ';' then cs.dropLast else 'L' :: cs
  | cs => cs

theorem length_typeName_le (cs : List Char) : (typeName cs).length ≤ cs.length := by
  unfold typeName
  split
  · split
    · simp only [List.length_dropLast, List.length_cons]
      omega
    · exact Nat.le_refl _
  · exact Nat.le_refl _

namespace Loader

def mergeNames (load : Loader) (a b : List Char) : Except FrameError String :=
  if a = b then .ok (String.ofList a)
  else
    match a, b with
    | '[' :: ea, '[' :: eb =>
        if isReference ea && isReference eb then
          have := length_typeName_le ea
          (mergeNames load (typeName ea) (typeName eb)).map arrayOf
        else .ok objectClass
    | '[' :: _, _ | _, '[' :: _ => .ok objectClass
    | a, b => load.commonSuperClass (String.ofList a) (String.ofList b)
  termination_by a.length
  decreasing_by simp only [List.length_cons]; omega

def mergeType (load : Loader) (a b : VerificationType) : Except FrameError VerificationType :=
  if a = b then .ok a
  else
    match a, b with
    | .null, .object _ => .ok b
    | .object _, .null => .ok a
    | .object x, .object y => (mergeNames load x.toList y.toList).map .object
    | _, _ => .ok .top

/-- Joins slot by slot; slots without a partner stay. -/
def mergeTypes (load : Loader) :
    List VerificationType → List VerificationType → Except FrameError (List VerificationType)
  | a :: as, b :: bs => do
      let type ← load.mergeType a b
      return type :: (← mergeTypes load as bs)
  | as, _ => .ok as

/-- The join of two frames at an address: first the locals, then the stack from its bottom. -/
def mergeFrames (load : Loader) (pc : Nat) (a b : Frame) : Except FrameError Frame := do
  if a.stack.length ≠ b.stack.length then .error (.stackHeightMismatch pc)
  else
    let locals ← load.mergeTypes a.locals b.locals
    let stack ← load.mergeTypes a.stack.reverse b.stack.reverse
    return { locals, stack := stack.reverse }

end Loader

end ClassArchive
