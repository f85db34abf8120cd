import ClassArchive.Text.Blank

/-!
Settings of a pass over an archive.
-/
set_option autoImplicit false

namespace ClassArchive

inductive FailurePolicy where
  /-- The pass ends and the archive stays as it was. -/
  | failFast
  /-- The entry stays as it was and the others are transformed. -/
  | skipAndContinue
  deriving DecidableEq, Repr

structure Settings where
  /-- Whether entries may be transformed side by side; the outcome does not depend on it. -/
  parallel : Bool := true
  policy : FailurePolicy := .failFast
  computeFrames : Bool := true
  /-- What the names of parameters without a name start with. -/
  parameterStem : String := "arg"
  deriving DecidableEq, Repr

namespace Settings

/-- A switch is off for these words, in any case and between blanks, and on for any other. -/
def offWords : List String := ["0", "false", "no", "off"]

def isOn (value : String) : Bool :=
  !(offWords.contains (String.ofList ((Text.trim value).toList.map Char.toLower)))

def ofSwitches (parallel failFast computeFrames : Option String) : Settings :=
  let defaults : Settings := {}
  { defaults with
    parallel := (parallel.map isOn).getD defaults.parallel
    policy := match failFast with
      | none => defaults.policy
      | some value => if isOn value then .failFast else .skipAndContinue
    computeFrames := (computeFrames.map isOn).getD defaults.computeFrames }

end Settings

end ClassArchive
