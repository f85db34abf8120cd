import ClassArchive.Archive
import ClassArchive.Archive.PackedName
import ClassArchive.Checksum
import ClassArchive.Inflate

/-!
Archives packed into one file. The file ends with a record that says where a directory of the
entries starts; the directory leads to the data of each entry, plain or compressed. What stands
before the first entry moves all of this by the same amount. Only the names tell directories from
files.
-/
set_option autoImplicit false

namespace ClassArchive.Packed

def namesDirectory (name : String) : Bool :=
  match name.toList.getLast? with
  | some c => c = '/' || c = '\\'
  | none => false

/-- An entry as a packed archive holds it: only the end of the name tells a directory. -/
def entry (e : Entry) : Entry :=
  match e.content with
  | .directory => if namesDirectory e.name then e else { e with name := e.name ++ "/" }
  | .file _ => if namesDirectory e.name then { e with content := .directory } else e

/-! ### Numbers -/

def littleEndian : Bytes → Nat
  | [] => 0
  | b :: rest => b.toNat + 256 * littleEndian rest

def number? (file : Array UInt8) (position width : Nat) : Option Nat :=
  if position + width ≤ file.size then
    some (littleEndian (file.extract position (position + width)).toList)
  else none

def bytes? (file : Array UInt8) (position width : Nat) : Option Bytes :=
  if position + width ≤ file.size then some (file.extract position (position + width)).toList
  else none

def marks (file : Array UInt8) (position mark : Nat) : Bool :=
  number? file position 4 = some mark

/-! ### The end of the file -/

def endMark : Nat := 0x06054b50

structure EndRecord where
  start : Nat
  disk : Nat
  directoryDisk : Nat
  entriesHere : Nat
  entries : Nat
  directorySize : Nat
  directoryOffset : Nat
  commentSize : Nat

/-- The last position from the given one down to a limit at which the mark stands. -/
def lastMark? (file : Array UInt8) (mark limit : Nat) : Nat → Option Nat
  | 0 => if limit = 0 && marks file 0 mark then some 0 else none
  | position + 1 =>
      if position + 1 < limit then none
      else if marks file (position + 1) mark then some (position + 1)
      else lastMark? file mark limit position

/-- The end record. Its comment is in the file, but the file need not end with it. -/
def endRecord? (file : Array UInt8) : Option EndRecord := do
  guard (22 ≤ file.size)
  let start ← lastMark? file endMark (file.size - (22 + 65535)) (file.size - 22)
  let field := fun offset width => number? file (start + offset) width
  let r : EndRecord :=
    { start
      disk := ← field 4 2
      directoryDisk := ← field 6 2
      entriesHere := ← field 8 2
      entries := ← field 10 2
      directorySize := ← field 12 4
      directoryOffset := ← field 16 4
      commentSize := ← field 20 2 }
  guard (start + 22 + r.commentSize ≤ file.size)
  return r

/-- Whether a field of the record holds the value that points to a wider record. -/
def EndRecord.isTooSmall (r : EndRecord) : Bool :=
  [r.disk, r.directoryDisk, r.entriesHere, r.entries].contains 0xFFFF ||
    [r.directorySize, r.directoryOffset].contains 0xFFFFFFFF

/-- Where the directory of the entries starts, how many it lists, and by how much all offsets in
the file are too small. -/
structure Directory where
  shift : Nat
  start : Nat
  count : Nat

def locatorMark : Nat := 0x07064b50

def locator? (file : Array UInt8) (r : EndRecord) : Option Nat :=
  let position := file.size - (42 + r.commentSize)
  if 42 + r.commentSize ≤ file.size && marks file position locatorMark then some position else none

def wideEndMark : Nat := 0x06064b50

def firstMark? (file : Array UInt8) (mark : Nat) : Nat → Nat → Option Nat
  | 0, _ => none
  | count + 1, position =>
      if marks file position mark then some position
      else firstMark? file mark count (position + 1)

def wideDirectory? (file : Array UInt8) (r : EndRecord) (locator : Nat) : Option Directory := do
  let disk ← number? file (locator + 4) 4
  guard (r.isTooSmall || r.disk = disk)
  let nominal ← number? file (locator + 8) 8
  guard (60 ≤ r.start)
  let start ← firstMark? file wideEndMark (r.start - 60 + 1 - nominal) nominal
  let field := fun offset width => number? file (start + offset) width
  guard ((← field 16 4) = (← field 20 4))
  let shift := start - nominal
  return { shift, start := (← field 48 8) + shift, count := ← field 32 8 }

def plainDirectory? (r : EndRecord) : Option Directory := do
  guard (r.directorySize + r.directoryOffset ≤ r.start)
  let shift := r.start - r.directorySize - r.directoryOffset
  return { shift, start := r.directoryOffset + shift, count := r.entriesHere }

def directory? (file : Array UInt8) : Option Directory := do
  let r ← endRecord? file
  guard (r.isTooSmall || r.disk = r.directoryDisk)
  let d ← match locator? file r with
    | some locator => wideDirectory? file r locator
    | none => plainDirectory? r
  guard (d.start < 0x8000000000000000)
  return d

/-! ### The directory -/

structure Header where
  name : String
  isEncrypted : Bool
  /-- Whether an extra field announces a cipher. -/
  isCiphered : Bool := false
  method : Nat
  checksum : Nat
  compressedSize : Nat
  size : Nat
  start : Nat

/-- The value of a size or offset that stands in an extra field instead. -/
def moved : Nat := 0xFFFFFFFF

def takeWide (value : Nat) (bytes : Bytes) : Option (Nat × Bytes) :=
  if value ≠ moved then some (value, bytes)
  else if bytes.length < 8 then none
  else some (littleEndian (bytes.take 8), bytes.drop 8)

/-- Reads the wide values of an extra field up to the end of all extra fields. With the header comes
what is left, unless the bytes ran out. -/
def readWide (h : Header) (bytes : Bytes) : Header × Option Bytes :=
  match takeWide h.size bytes with
  | none => (h, none)
  | some (size, bytes) =>
      let h := { h with size }
      match takeWide h.compressedSize bytes with
      | none => (h, none)
      | some (compressedSize, bytes) =>
          let h := { h with compressedSize }
          match takeWide h.start bytes with
          | none => (h, none)
          | some (start, bytes) => ({ h with start }, some bytes)

/-- Reads the extra field of a cipher: a version, a maker, a strength and the method below it. -/
def readCipher (h : Header) (bytes : Bytes) : Option (Header × Option Bytes) :=
  if bytes.length < 7 then some (h, none)
  else
    let maker := littleEndian ((bytes.drop 2).take 2)
    let version := littleEndian (bytes.take 2)
    let strength := littleEndian ((bytes.drop 4).take 1)
    if maker = 0x4541 ∧ (version = 1 ∨ version = 2) ∧ 1 ≤ strength ∧ strength ≤ 3 then
      let method := littleEndian ((bytes.drop 5).take 2)
      some ({ h with isCiphered := true, method }, some (bytes.drop 7))
    else none

/-- Reads the extra fields. Fields that are cut off say nothing, ones that are wrong spoil the file.
The first argument bounds their number. -/
def readExtra : Nat → Bytes → Header → Option Header
  | 0, _, h => some h
  | bound + 1, bytes, h =>
      if bytes.length < 4 then some h
      else
        let kind := littleEndian (bytes.take 2)
        let length := littleEndian ((bytes.drop 2).take 2)
        let content := bytes.drop 4
        if kind = 0x0001 then
          match readWide h content with
          | (h, none) => some h
          | (h, some rest) =>
              let used := content.length - rest.length
              readExtra bound (rest.drop (length - used)) h
        else if kind = 0x9901 then
          if length ≠ 7 then none
          else
            match readCipher h content with
            | none => none
            | some (h, none) => some h
            | some (h, some rest) => readExtra bound (rest.drop length) h
        else readExtra bound (content.drop length) h

def headerMark : Nat := 0x02014b50

def cipherMethod : Nat := 99

def header? (file : Array UInt8) (shift position : Nat) : Option (Header × Nat) := do
  guard (marks file position headerMark)
  let field := fun offset width => number? file (position + offset) width
  let flags ← field 8 2
  let nameSize ← field 28 2
  let extraSize ← field 30 2
  let commentSize ← field 32 2
  let name ← bytes? file (position + 46) nameSize
  let extra ← bytes? file (position + 46 + nameSize) extraSize
  let next := position + 46 + nameSize + extraSize + commentSize
  guard (next ≤ file.size)
  let h : Header :=
    { name := if flags.testBit 11 then PackedName.ofUtf8 name else PackedName.ofCodePage name
      isEncrypted := flags.testBit 0
      method := ← field 10 2
      checksum := ← field 16 4
      compressedSize := ← field 20 4
      size := ← field 24 4
      start := ← field 42 4 }
  let h ← readExtra extra.length extra h
  guard (h.method ≠ cipherMethod || h.isCiphered)
  return ({ h with start := h.start + shift }, next)

def headers? (file : Array UInt8) (shift : Nat) : Nat → Nat → Option (List Header)
  | 0, _ => some []
  | count + 1, position => do
      let (h, next) ← header? file shift position
      return h :: (← headers? file shift count next)

/-! ### The entries -/

inductive Method where
  | stored
  | deflated
  deriving DecidableEq, Repr

def method? (code : Nat) : Option Method :=
  if code = 0 then some .stored else if code = 8 then some .deflated else none

def entryMark : Nat := 0x04034b50

/-- The data of an entry as the file holds it, as far as the file goes. -/
def content? (file : Array UInt8) (h : Header) : Option (Method × Array UInt8) := do
  guard (!h.isEncrypted && !h.isCiphered)
  guard (marks file h.start entryMark)
  let nameSize ← number? file (h.start + 26) 2
  let extraSize ← number? file (h.start + 28) 2
  let start := h.start + 30 + nameSize + extraSize
  let method ← method? h.method
  return (method, file.extract start (start + h.compressedSize))

/-- The data of an entry. It has to match its checksum; its size is not looked at. -/
def data? (h : Header) (method : Method) (content : Array UInt8) : Option Bytes := do
  let data ← match method with
    | .stored => some content
    | .deflated => Inflate.decode? content
  guard ((Checksum.ofBytes data.toList).toNat = h.checksum)
  return data.toList

/-- The entry of a header. A file that is not laid out as its directory says is no packed archive;
data that cannot be read is a fault of the disk. -/
def readEntry (file : Array UInt8) (h : Header) : Except ArchiveError Entry :=
  match content? file h with
  | none => .error .packing
  | some (method, content) =>
      if namesDirectory h.name then .ok { name := h.name, content := .directory }
      else
        match data? h method content with
        | some data => .ok { name := h.name, content := .file data }
        | none => .error .storage

def entries (bytes : Bytes) : Except ArchiveError (List Entry) :=
  let file := bytes.toArray
  match directory? file with
  | none => .error .packing
  | some d =>
      match headers? file d.shift d.count d.start with
      | none => .error .packing
      | some headers => headers.mapM (readEntry file)

def empty : Bytes := [0x50, 0x4b, 0x05, 0x06] ++ List.replicate 18 0

end ClassArchive.Packed
