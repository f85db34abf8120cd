import ClassArchive.Renaming.Parameters
import ClassArchive.Renaming.Hierarchy
import ClassArchive.Settings
import ClassArchive.Archive.Disk

/-!
Passes over an archive. Every class entry is transformed from the archive as it was; then the new
names are checked against each other and against what stays; then all is put in place at once.
-/
set_option autoImplicit false

namespace ClassArchive

structure Report where
  /-- The names of the transformed entries. -/
  transformed : List String := []
  /-- The entries whose names have changed: old and new name. -/
  renames : List (String × String) := []
  /-- The entries that stay as they were, and why. -/
  failures : List (String × ArchiveError) := []
  deriving DecidableEq, Repr

structure Pass where
  dependencies : Layers
  mapping : Mapping
  source : String
  target : String
  settings : Settings := {}

structure Move where
  origin : String
  output : Entry
  deriving DecidableEq, Repr

def Move.isRename (w : Move) : Bool := w.origin ≠ w.output.name

/-- The entry name of a class that is renamed. What stands in front of the class name stays, as in
archives with classes for several releases. -/
def destinationName (entryName old new : String) : String :=
  if old = new then entryName
  else
    match dropSuffix? (classEntryName old) entryName with
    | some front => front ++ classEntryName new
    | none => classEntryName new

namespace Pass

def renamer (p : Pass) (a : Archive) : Renamer :=
  let headers := Layers.headers (a :: p.dependencies)
  { mapping := p.mapping, source := p.source, target := p.target,
    tree := Inheritance.build a headers, headers }

def parameterNaming (p : Pass) : ParameterNaming :=
  { mapping := p.mapping, ns := p.target, stem := p.settings.parameterStem }

/-- Transforms one entry: names, then parameters, then frames. -/
def transformEntry (p : Pass) (r : Renamer) (load : Loader) (e : Entry) :
    Except ArchiveError Entry := do
  let c ← ArchiveError.lift (ClassFile.decode e.bytes)
  let old ← ArchiveError.lift c.name
  let c ← r.classFile c
  let new ← ArchiveError.lift c.name
  let c ← p.parameterNaming.classFile c
  let c ← ArchiveError.lift (c.framed load p.settings.computeFrames)
  return { name := destinationName e.name old new, content := .file c.encode }

def transformEntries (p : Pass) (a : Archive) : List (String × Except ArchiveError Entry) :=
  let r := p.renamer a
  let load := r.loader a p.dependencies
  a.classEntries.map fun e => (e.name, p.transformEntry r load e)

def breakdown? : Except ArchiveError Entry → Option Breakdown
  | .ok _ => none
  | .error e => e.breakdown?

/-- A breakdown ends the pass whatever the policy is, and before any other failure is looked at. -/
def checkBreakdowns (outcomes : List (String × Except ArchiveError Entry)) :
    Except ArchiveError Unit :=
  match outcomes.findSome? fun (_, outcome) => breakdown? outcome with
  | some cause => .error (.format (.breakdown cause))
  | none => .ok ()

/-- Sorts the outcomes into moves and failures. Where the policy is to end the pass,
the first failure does. -/
def sortOutcomes (policy : FailurePolicy) :
    List (String × Except ArchiveError Entry) →
      Except ArchiveError (List Move × List (String × ArchiveError))
  | [] => .ok ([], [])
  | (name, .ok output) :: rest => do
      let (moves, failures) ← sortOutcomes policy rest
      return (⟨name, output⟩ :: moves, failures)
  | (name, .error e) :: rest =>
      match policy with
      | .failFast => .error (.entry name e)
      | .skipAndContinue => do
          let (moves, failures) ← sortOutcomes policy rest
          return (moves, (name, e) :: failures)

/-- The entries that would end up under a name: the one that stays there, if any, and then those
transformed to it. -/
def claimants (a : Archive) (moves : List Move) (destination : String) : List String :=
  let writers := (moves.filter (·.output.name = destination)).map (·.origin)
  if a.contains destination ∧ destination ∉ moves.map (·.origin) then destination :: writers
  else writers

def destinations (moves : List Move) : List String :=
  (Std.TreeMap.ofList (moves.map fun w => (w.output.name, ())) : Std.TreeMap String Unit).keys

def checkConflicts (a : Archive) (moves : List Move) : Except ArchiveError Unit :=
  match (destinations moves).find? fun d => 1 < (claimants a moves d).length with
  | some d => .error (.writeConflict d (claimants a moves d))
  | none => .ok ()

/-- Puts the transformed entries in place. The old entries go first, so that two classes can swap
their names. -/
def commit (a : Archive) (moves : List Move) : Archive :=
  let cleared := (moves.filter (·.isRename)).foldl (fun a w => a.erase w.origin) a
  moves.foldl (fun a w => a.insert w.output) cleared

def report (moves : List Move) (failures : List (String × ArchiveError)) : Report :=
  { transformed := moves.map (·.output.name)
    renames := (moves.filter (·.isRename)).map fun w => (w.origin, w.output.name)
    failures }

def ofOutcome {α : Type} : Except ArchiveError α → Archive.Update α
  | .ok a => pure a
  | .error e => throw e

/-- The pass as a change of the archive. Nothing is changed before everything is checked. -/
def update (p : Pass) : Archive.Update Report := do
  let a ← get
  let outcomes := p.transformEntries a
  ofOutcome (checkBreakdowns outcomes)
  let (moves, failures) ← ofOutcome (sortOutcomes p.settings.policy outcomes)
  ofOutcome (checkConflicts a moves)
  modify (commit · moves)
  return report moves failures

def run (p : Pass) (a : Archive) : Except ArchiveError (Archive × Report) :=
  match p.update.run a with
  | .ok report a => .ok (a, report)
  | .error e _ => .error e

/-- Opens an archive on a disk, runs the pass and saves the outcome. A pass that fails saves
nothing. -/
def runOnDisk (p : Pass) (input output : Path) : Disk.Action Report := do
  let a ← Disk.openArchive input
  match p.run a with
  | .error e => throw e
  | .ok (a, report) =>
      Disk.save output a
      return report

end Pass

end ClassArchive
