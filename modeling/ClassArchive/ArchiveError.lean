import ClassArchive.FrameError

/-!
What can go wrong with an archive as a whole, with a mapping, or with one entry of an archive.
-/
set_option autoImplicit false

namespace ClassArchive

inductive ArchiveError where
  /-- The disk refuses a path. -/
  | storage
  /-- A file is no packed archive. -/
  | packing
  | missingEntry (name : String)
  | malformedMapping (element message : String)
  | writeConflict (destination : String) (sources : List String)
  | format (cause : FormatError)
  | frame (cause : FrameError)
  /-- A cause met while the named entry was transformed. -/
  | entry (name : String) (cause : ArchiveError)
  deriving DecidableEq, Repr

def ArchiveError.message : ArchiveError → String
  | .storage => "IO error"
  | .packing => "Zip error"
  | .missingEntry name => "Missing entry: " ++ name
  | .malformedMapping element message => s!"Malformed mapping for {element}: {message}"
  | .writeConflict destination sources =>
      s!"Write conflict: {Text.quotedList sources} all map to {destination}"
  | .format cause => "Class format error: " ++ cause.message
  | .frame cause => "Frame computation error: " ++ cause.message
  | .entry name cause => s!"Failed to transform {name}: " ++ cause.message

def ArchiveError.breakdown? : ArchiveError → Option Breakdown
  | .format cause => cause.breakdown?
  | .frame cause => cause.breakdown?
  | .entry _ cause => cause.breakdown?
  | _ => none

def ArchiveError.lift {α : Type} : Except FormatError α → Except ArchiveError α
  | .ok a => .ok a
  | .error e => .error (.format e)

end ClassArchive
