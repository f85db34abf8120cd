import ClassArchive.Reader

/-!
Compressed data in blocks. A block holds bytes as they are, or literals and references to bytes
already written, by two codes whose words are as long as a table says. The words of a code are
numbered by length and then by symbol, so the lengths alone determine them.
-/
set_option autoImplicit false

namespace ClassArchive.Inflate

/-- Reads bits of the data from a position on, the lowest bit of a byte first. -/
abbrev BitReader := StateT Nat Option

def bit (data : Array UInt8) : BitReader Nat := fun position =>
  data[position / 8]?.map fun b => (b.toNat / (1 <<< (position % 8)) % 2, position + 1)

def number (data : Array UInt8) : Nat → BitReader Nat
  | 0 => return 0
  | width + 1 => do
      let low ← bit data
      return low + 2 * (← number data width)

def maxLength : Nat := 15

/-- A code: how many words there are of each length from one on, and the symbols in the order of
their words. -/
structure Code where
  counts : List Nat
  symbols : Array Nat

namespace Code

def symbolsOfLength (lengths : List Nat) (length : Nat) : List Nat :=
  lengths.zipIdx.filterMap fun (l, symbol) => if l = length then some symbol else none

def ofLengths (lengths : List Nat) : Code :=
  let groups := (List.range maxLength).map fun l => symbolsOfLength lengths (l + 1)
  { counts := groups.map List.length, symbols := groups.flatten.toArray }

def weight (counts : List Nat) : Nat := counts.foldl (fun total n => 2 * (total + n)) 0

def isComplete (c : Code) : Bool := weight c.counts = 65536

/-- Reads a symbol. Words of one length are consecutive numbers, and the words that are longer
start behind them. -/
def symbol (c : Code) (data : Array UInt8) : BitReader Nat := go c.counts 0 0 0
where
  /-- The word so far, the first word of its length, and the number of shorter words. -/
  go : List Nat → Nat → Nat → Nat → BitReader Nat
    | [], _, _, _ => failure
    | count :: counts, word, first, shorter => do
        let word := word + (← bit data)
        if word < first + count then
          match c.symbols[shorter + (word - first)]? with
          | some symbol => return symbol
          | none => failure
        else go counts (2 * word) (2 * (first + count)) (shorter + count)

end Code

structure Codes where
  literal : Code
  distance : Code

def fixedCodes : Codes where
  literal := .ofLengths (List.replicate 144 8 ++ List.replicate 112 9 ++ List.replicate 24 7 ++
    List.replicate 8 8)
  distance := .ofLengths (List.replicate 32 5)

/-- The order in which a block lists the word lengths of the code for word lengths. -/
def lengthOrder : List Nat := [16, 17, 18, 0, 8, 7, 9, 6, 10, 5, 11, 4, 12, 3, 13, 2, 14, 1, 15]

/-- Reads word lengths up to a total, of which the last came before. The symbols 16 to 18 stand for
repetitions. The first argument bounds their number. -/
def readLengths (data : Array UInt8) (c : Code) (total : Nat) :
    Nat → List Nat → BitReader (List Nat)
  | 0, found => if found.length = total then return found.reverse else failure
  | bound + 1, found => do
      if total ≤ found.length then
        if found.length = total then return found.reverse else failure
      let symbol ← c.symbol data
      if symbol < 16 then readLengths data c total bound (symbol :: found)
      else if symbol = 16 then
        let times := 3 + (← number data 2)
        match found with
        | last :: _ => readLengths data c total bound (List.replicate times last ++ found)
        | [] => failure
      else
        let times ← if symbol = 17 then (3 + ·) <$> number data 3 else (11 + ·) <$> number data 7
        readLengths data c total bound (List.replicate times 0 ++ found)

/-- A code for symbols, which is complete unless it has at most one word. -/
def symbolCode (lengths : List Nat) : BitReader Code :=
  let c := Code.ofLengths lengths
  if c.isComplete || c.symbols.size ≤ 1 then return c else failure

def readCodes (data : Array UInt8) : BitReader Codes := do
  let literals := 257 + (← number data 5)
  let distances := 1 + (← number data 5)
  let listed := 4 + (← number data 4)
  if 286 < literals ∨ 30 < distances then failure
  let widths ← (List.range listed).mapM fun _ => number data 3
  let byOrder := lengthOrder.zip widths
  let c := Code.ofLengths ((List.range 19).map fun symbol => (byOrder.lookup symbol).getD 0)
  if !c.isComplete then failure
  let total := literals + distances
  let lengths ← readLengths data c total total []
  return { literal := ← symbolCode (lengths.take literals)
           distance := ← symbolCode (lengths.drop literals) }

/-- The least length or distance of each symbol, and how many bits add to it. -/
abbrev Scale := Array (Nat × Nat)

def lengthScale : Scale :=
  #[(3, 0), (4, 0), (5, 0), (6, 0), (7, 0), (8, 0), (9, 0), (10, 0), (11, 1), (13, 1), (15, 1),
    (17, 1), (19, 2), (23, 2), (27, 2), (31, 2), (35, 3), (43, 3), (51, 3), (59, 3), (67, 4),
    (83, 4), (99, 4), (115, 4), (131, 5), (163, 5), (195, 5), (227, 5), (258, 0)]

def distanceScale : Scale :=
  #[(1, 0), (2, 0), (3, 0), (4, 0), (5, 1), (7, 1), (9, 2), (13, 2), (17, 3), (25, 3), (33, 4),
    (49, 4), (65, 5), (97, 5), (129, 6), (193, 6), (257, 7), (385, 7), (513, 8), (769, 8),
    (1025, 9), (1537, 9), (2049, 10), (3073, 10), (4097, 11), (6145, 11), (8193, 12), (12289, 12),
    (16385, 13), (24577, 13)]

def Scale.read (scale : Scale) (data : Array UInt8) (symbol : Nat) : BitReader Nat :=
  match scale[symbol]? with
  | some (least, width) => return least + (← number data width)
  | none => failure

/-- Repeats what stands a distance back, which may be bytes that the repetition itself writes. -/
def repeatBack (distance : Nat) : Nat → Array UInt8 → Array UInt8
  | 0, out => out
  | count + 1, out =>
      match out[out.size - distance]? with
      | some b => repeatBack distance count (out.push b)
      | none => out

/-- Reads the symbols of a block up to its end. The first argument bounds their number. -/
def readSymbols (data : Array UInt8) (codes : Codes) :
    Nat → Array UInt8 → BitReader (Array UInt8)
  | 0, _ => failure
  | bound + 1, out => do
      let symbol ← codes.literal.symbol data
      if symbol < 256 then readSymbols data codes bound (out.push symbol.toUInt8)
      else if symbol = 256 then return out
      else
        let length ← lengthScale.read data (symbol - 257)
        let distance ← distanceScale.read data (← codes.distance.symbol data)
        if out.size < distance then failure
        readSymbols data codes bound (repeatBack distance length out)

def readPlain (data : Array UInt8) (out : Array UInt8) : BitReader (Array UInt8) := do
  modify fun position => (position + 7) / 8 * 8
  let length ← number data 16
  let complement ← number data 16
  let start := (← get) / 8
  if length + complement ≠ 65535 ∨ data.size < start + length then failure
  set (8 * (start + length))
  return out ++ data.extract start (start + length)

def readBlocks (data : Array UInt8) : Nat → Array UInt8 → BitReader (Array UInt8)
  | 0, _ => failure
  | bound + 1, out => do
      let isLast ← bit data
      let kind ← number data 2
      let out ←
        if kind = 0 then readPlain data out
        else if kind = 1 then readSymbols data fixedCodes (8 * data.size) out
        else if kind = 2 then readSymbols data (← readCodes data) (8 * data.size) out
        else failure
      if isLast = 1 then return out else readBlocks data bound out

/-- The data that was compressed. What follows the last block does not count. Every block and every
symbol takes a bit at least. -/
def decode? (data : Array UInt8) : Option (Array UInt8) :=
  ((readBlocks data (8 * data.size) #[]).run 0).map (·.1)

end ClassArchive.Inflate
