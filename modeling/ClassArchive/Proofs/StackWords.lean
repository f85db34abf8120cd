import ClassArchive.Frame.Transfer

/-!
Stack instructions word by word. The machine moves words, and a long or double is two of them; a
frame has one entry for each value. Where an instruction takes no value apart, moving the values and
moving their words come to the same.
-/
set_option autoImplicit false

namespace ClassArchive

open ClassArchive.Frame (slotCount)

/-! ### Words -/

inductive StackWord where
  /-- The only word of a value. -/
  | whole (type : VerificationType)
  /-- Of two words, the one nearer to the top. -/
  | upper (type : VerificationType)
  | lower (type : VerificationType)
  deriving DecidableEq, Repr

namespace StackWord

def isLower : StackWord → Bool
  | .lower _ => true
  | _ => false

end StackWord

namespace VerificationType

def words (type : VerificationType) : List StackWord :=
  if type.isWide then [.upper type, .lower type] else [.whole type]

end VerificationType

def wordsOf (stack : List VerificationType) : List StackWord :=
  stack.flatMap VerificationType.words

/-- Whether a cut at a depth goes through a value: the word under the cut is a lower one. -/
def Splits (stack : List VerificationType) (depth : Nat) : Prop :=
  (wordsOf stack)[depth]?.any StackWord.isLower = true

instance (stack : List VerificationType) (depth : Nat) : Decidable (Splits stack depth) :=
  inferInstanceAs (Decidable (_ = true))

section Words

variable {type : VerificationType} {stack : List VerificationType}

@[simp] theorem wordsOf_nil : wordsOf [] = [] := rfl

@[simp] theorem wordsOf_append (stack below : List VerificationType) :
    wordsOf (stack ++ below) = wordsOf stack ++ wordsOf below :=
  List.flatMap_append

theorem wordsOf_cons_of_wide (h : type.isWide = true) :
    wordsOf (type :: stack) = .upper type :: .lower type :: wordsOf stack := by
  simp [wordsOf, VerificationType.words, h]

theorem wordsOf_cons_of_narrow (h : type.isWide = false) :
    wordsOf (type :: stack) = .whole type :: wordsOf stack := by
  simp [wordsOf, VerificationType.words, h]

theorem length_wordsOf_cons (type : VerificationType) (stack : List VerificationType) :
    (wordsOf (type :: stack)).length = slotCount type + (wordsOf stack).length := by
  cases h : type.isWide with
  | true => simp [wordsOf_cons_of_wide h, slotCount, h]; omega
  | false => simp [wordsOf_cons_of_narrow h, slotCount, h]; omega

theorem slotCount_pos (type : VerificationType) : 0 < slotCount type := by
  unfold slotCount
  split <;> decide

theorem exists_append_of_not_splits {depth : Nat} (h : ¬ Splits stack depth)
    (hdepth : depth ≤ (wordsOf stack).length) :
    ∃ above below, stack = above ++ below ∧ (wordsOf above).length = depth := by
  induction stack generalizing depth with
  | nil =>
    obtain rfl : depth = 0 := by simpa using hdepth
    exact ⟨[], [], rfl, rfl⟩
  | cons type stack ih =>
    cases hwide : type.isWide with
    | false =>
      rw [Splits, wordsOf_cons_of_narrow hwide] at h
      rw [wordsOf_cons_of_narrow hwide] at hdepth
      cases depth with
      | zero => exact ⟨[], _, rfl, rfl⟩
      | succ depth =>
        obtain ⟨above, below, rfl, hlength⟩ := ih h (by simpa using hdepth)
        exact ⟨type :: above, below, rfl, by simp [wordsOf_cons_of_narrow hwide, hlength]⟩
    | true =>
      rw [Splits, wordsOf_cons_of_wide hwide] at h
      rw [wordsOf_cons_of_wide hwide] at hdepth
      match depth with
      | 0 => exact ⟨[], _, rfl, rfl⟩
      | 1 => simp [StackWord.isLower] at h
      | depth + 2 =>
        obtain ⟨above, below, rfl, hlength⟩ := ih h (by simpa using hdepth)
        exact ⟨type :: above, below, rfl, by simp [wordsOf_cons_of_wide hwide, hlength]⟩

theorem splits_append_iff (above below : List VerificationType) (depth : Nat) :
    Splits (above ++ below) ((wordsOf above).length + depth) ↔ Splits below depth := by
  simp [Splits, List.getElem?_append_right]

end Words

/-! ### Values that cover words -/

/-- The values on top that cover a number of words, and those beneath. The last value may reach
further down than the words do. -/
def block? : Nat → List VerificationType → Option (List VerificationType × List VerificationType)
  | 0, stack => some ([], stack)
  | _ + 1, [] => none
  | count + 1, type :: stack =>
      (block? (count + 1 - slotCount type) stack).map fun (block, rest) => (type :: block, rest)

section Blocks

variable {count : Nat} {stack block rest : List VerificationType}

@[simp] theorem block?_zero (stack : List VerificationType) :
    block? 0 stack = some ([], stack) := by
  rw [block?]

@[simp] theorem block?_succ_nil (count : Nat) : block? (count + 1) [] = none := rfl

@[simp] theorem block?_one_cons (type : VerificationType) (stack : List VerificationType) :
    block? 1 (type :: stack) = some ([type], stack) := by
  cases h : type.isWide <;> simp [block?, slotCount, h]

@[simp] theorem block?_two_cons (type : VerificationType) (stack : List VerificationType) :
    block? 2 (type :: stack) = if type.isWide then some ([type], stack)
      else (block? 1 stack).map fun (block, rest) => (type :: block, rest) := by
  cases h : type.isWide <;> simp [block?, slotCount, h]

theorem block?_append (h : (wordsOf block).length = count) (rest : List VerificationType) :
    block? count (block ++ rest) = some (block, rest) := by
  induction block generalizing count with
  | nil =>
    subst h
    exact block?_zero rest
  | cons type block ih =>
    rw [length_wordsOf_cons] at h
    have hpos := slotCount_pos type
    obtain ⟨count, rfl⟩ : ∃ n, count = n + 1 := ⟨count - 1, by omega⟩
    have hrest : (wordsOf block).length = count + 1 - slotCount type := by omega
    rw [List.cons_append, block?, ih hrest]
    rfl

theorem block?_eq_some (h : block? count stack = some (block, rest)) :
    stack = block ++ rest ∧ block.length ≤ count ∧ count ≤ (wordsOf block).length := by
  induction stack generalizing count block with
  | nil =>
    cases count with
    | zero =>
      cases h
      simp
    | succ count => cases h
  | cons type stack ih =>
    cases count with
    | zero =>
      cases h
      simp
    | succ count =>
      rw [block?] at h
      obtain ⟨⟨above, rest⟩, habove, h⟩ := Option.map_eq_some_iff.1 h
      cases h
      obtain ⟨rfl, hlength, hcovers⟩ := ih habove
      have hpos := slotCount_pos type
      rw [List.length_cons, length_wordsOf_cons]
      exact ⟨rfl, by omega, by omega⟩

end Blocks

namespace StackShuffle

/-! ### The instructions on words -/

def opcode : StackShuffle → UInt8
  | .pop => 0x57
  | .pop2 => 0x58
  | .dup => 0x59
  | .dupX1 => 0x5a
  | .dupX2 => 0x5b
  | .dup2 => 0x5c
  | .dup2X1 => 0x5d
  | .dup2X2 => 0x5e
  | .swap => 0x5f

/-- The words on top that are dropped, copied or exchanged. -/
def moved : StackShuffle → Nat
  | .pop | .dup | .dupX1 | .dupX2 | .swap => 1
  | .pop2 | .dup2 | .dup2X1 | .dup2X2 => 2

/-- The words beneath them that they are put under. -/
def passed : StackShuffle → Nat
  | .pop | .pop2 | .dup | .dup2 => 0
  | .dupX1 | .dup2X1 | .swap => 1
  | .dupX2 | .dup2X2 => 2

def reach (s : StackShuffle) : Nat := s.moved + s.passed

def arrange {α : Type} (s : StackShuffle) (top next : List α) : List α :=
  match s with
  | .pop | .pop2 => next
  | .dup | .dupX1 | .dupX2 | .dup2 | .dup2X1 | .dup2X2 => top ++ next ++ top
  | .swap => next ++ top

/-- The words after the instruction, whatever they hold. -/
def moveWords? {α : Type} (s : StackShuffle) (words : List α) : Option (List α) :=
  if words.length < s.reach then none
  else
    some (s.arrange (words.take s.moved) ((words.drop s.moved).take s.passed) ++
      words.drop s.reach)

def TakesWhole (s : StackShuffle) (stack : List VerificationType) : Prop :=
  s.reach ≤ (wordsOf stack).length ∧ ¬ Splits stack s.moved ∧ ¬ Splits stack s.reach

instance (s : StackShuffle) (stack : List VerificationType) : Decidable (s.TakesWhole stack) :=
  inferInstanceAs (Decidable (_ ∧ _ ∧ _))

/-! ### Both ways agree -/

theorem moveWords?_append {α : Type} (s : StackShuffle) {top next : List α}
    (htop : top.length = s.moved) (hnext : next.length = s.passed) (rest : List α) :
    s.moveWords? (top ++ (next ++ rest)) = some (s.arrange top next ++ rest) := by
  have hreach : (top ++ next).length = s.reach := by rw [List.length_append, htop, hnext, reach]
  have henough : ¬ (top ++ (next ++ rest)).length < s.reach := by
    rw [← hreach, ← List.append_assoc, List.length_append]
    omega
  rw [moveWords?, if_neg henough, List.take_left' htop, List.drop_left' htop,
    List.take_left' hnext, ← List.append_assoc, List.drop_left' hreach]

example : dup2X1.moveWords? [1, 2, 3, 4] = some [1, 2, 3, 1, 2, 4] := by decide

theorem wordsOf_arrange (s : StackShuffle) (top next : List VerificationType) :
    wordsOf (s.arrange top next) = s.arrange (wordsOf top) (wordsOf next) := by
  cases s <;> simp [arrange]

/-- All forms of an instruction are one: it takes values that cover the moved words, then values
that cover the passed words. -/
theorem shuffle?_eq_blocks (s : StackShuffle) (stack : List VerificationType) :
    s.shuffle? stack = (block? s.moved stack).bind fun (top, below) =>
      (block? s.passed below).map fun (next, rest) => s.arrange top next ++ rest := by
  cases stack with
  | nil => cases s <;> rfl
  | cons a stack =>
    cases s with
    | pop | dup => simp [shuffle?, moved, passed, arrange]
    | dupX1 | swap => cases stack <;> simp [shuffle?, moved, passed, arrange]
    | pop2 | dup2 =>
      cases ha : a.isWide <;> cases stack <;> simp [shuffle?, moved, passed, arrange, ha]
    | dupX2 =>
      cases stack with
      | nil => simp [shuffle?, moved, passed]
      | cons b stack =>
        cases hb : b.isWide <;> cases stack <;> simp [shuffle?, moved, passed, arrange, hb]
    | dup2X1 =>
      cases stack with
      | nil => cases ha : a.isWide <;> simp [shuffle?, moved, passed, ha]
      | cons b stack =>
        cases ha : a.isWide <;> cases stack <;> simp [shuffle?, moved, passed, arrange, ha]
    | dup2X2 =>
      cases stack with
      | nil => cases ha : a.isWide <;> simp [shuffle?, moved, passed, ha]
      | cons b stack =>
        cases ha : a.isWide with
        | true =>
          cases hb : b.isWide <;> cases stack <;> simp [shuffle?, moved, passed, arrange, ha, hb]
        | false =>
          cases stack with
          | nil => simp [shuffle?, moved, passed, ha]
          | cons c stack =>
            cases hc : c.isWide <;> cases stack <;> simp [shuffle?, moved, passed, arrange, ha, hc]

/-- Whatever the widths are, values on top are put under the values after them, and what lies
beneath stays. -/
theorem exists_blocks_of_shuffle? {s : StackShuffle} {stack out : List VerificationType}
    (h : s.shuffle? stack = some out) : ∃ top next rest,
      stack = top ++ (next ++ rest) ∧ out = s.arrange top next ++ rest ∧ top.length ≤ s.moved ∧
        s.moved ≤ (wordsOf top).length ∧ s.passed ≤ (wordsOf next).length := by
  rw [shuffle?_eq_blocks] at h
  obtain ⟨⟨top, below⟩, htop, h⟩ := Option.bind_eq_some_iff.1 h
  obtain ⟨⟨next, rest⟩, hnext, h⟩ := Option.map_eq_some_iff.1 h
  cases h
  obtain ⟨rfl, hfew, hmoved⟩ := block?_eq_some htop
  obtain ⟨rfl, -, hpassed⟩ := block?_eq_some hnext
  exact ⟨top, next, rest, rfl, rfl, hfew, hmoved, hpassed⟩

theorem subset_of_shuffle? {s : StackShuffle} {stack out : List VerificationType}
    (h : s.shuffle? stack = some out) : out ⊆ stack := by
  obtain ⟨top, next, rest, rfl, rfl, -⟩ := exists_blocks_of_shuffle? h
  have harrange : s.arrange top next ⊆ top ++ next := by
    cases s <;> simp [arrange]
  rw [← List.append_assoc]
  exact List.append_subset.2
    ⟨List.Subset.trans harrange (List.subset_append_left _ _), List.subset_append_right _ _⟩

theorem length_le_of_shuffle? {s : StackShuffle} {stack out : List VerificationType}
    (h : s.shuffle? stack = some out) : out.length ≤ stack.length + 2 := by
  obtain ⟨top, next, rest, rfl, rfl, htop, -⟩ := exists_blocks_of_shuffle? h
  have harrange : (s.arrange top next).length ≤ top.length + next.length + top.length := by
    cases s <;> simp only [arrange, List.length_append] <;> omega
  have hmoved : s.moved ≤ 2 := by cases s <;> decide
  simp only [List.length_append]
  omega

/-- No form takes more words than are there, also where it takes values apart. -/
theorem reach_le_of_shuffle? {s : StackShuffle} {stack out : List VerificationType}
    (h : s.shuffle? stack = some out) : s.reach ≤ (wordsOf stack).length := by
  obtain ⟨top, next, rest, rfl, -, -, htop, hnext⟩ := exists_blocks_of_shuffle? h
  simp only [reach, wordsOf_append, List.length_append]
  omega

theorem TakesWhole.exists_blocks {s : StackShuffle} {stack : List VerificationType}
    (h : s.TakesWhole stack) : ∃ top next rest, stack = top ++ (next ++ rest) ∧
      (wordsOf top).length = s.moved ∧ (wordsOf next).length = s.passed := by
  obtain ⟨hwords, hmoved, hreach⟩ := h
  have hdepth : s.moved ≤ (wordsOf stack).length := Nat.le_trans (Nat.le_add_right _ _) hwords
  obtain ⟨top, below, rfl, htop⟩ := exists_append_of_not_splits hmoved hdepth
  rw [reach, ← htop, splits_append_iff] at hreach
  rw [wordsOf_append, List.length_append, reach, htop] at hwords
  obtain ⟨next, rest, rfl, hnext⟩ := exists_append_of_not_splits hreach (by omega)
  exact ⟨top, next, rest, rfl, htop, hnext⟩

theorem TakesWhole.exists_shuffle? {s : StackShuffle} {stack : List VerificationType}
    (h : s.TakesWhole stack) : ∃ out, s.shuffle? stack = some out ∧
      s.moveWords? (wordsOf stack) = some (wordsOf out) := by
  obtain ⟨top, next, rest, rfl, htop, hnext⟩ := h.exists_blocks
  refine ⟨s.arrange top next ++ rest, ?_, ?_⟩
  · simp [shuffle?_eq_blocks, block?_append htop, block?_append hnext]
  · rw [wordsOf_append, wordsOf_append, moveWords?_append s htop hnext, wordsOf_append,
      wordsOf_arrange]

theorem decode?_of_opcode {s : StackShuffle} {code : CodeArray} {pc : Nat}
    (h : code[pc]? = some s.opcode) : Instruction.decode? code pc = some (.shuffle s) := by
  rw [Instruction.decode?, h]
  cases s <;> rfl

end StackShuffle

namespace MethodScope

/-- A stack instruction that takes whole values does to the words of the stack what it does word by
word, and leaves the locals. Where the stack has too few words, it fails. -/
theorem transfer_shuffle_words (scope : MethodScope) (pc : Nat) (f : Frame) (s : StackShuffle)
    (hcode : scope.code[pc]? = some s.opcode) :
    ∃ i, Instruction.decode? scope.code pc = some i ∧
      (s.TakesWhole f.stack → ∃ after, scope.transfer pc f i = .ok after ∧
        s.moveWords? (wordsOf f.stack) = some (wordsOf after.stack) ∧ after.locals = f.locals) ∧
      ((wordsOf f.stack).length < s.reach →
        scope.transfer pc f i = .error (.stackUnderflow pc)) := by
  refine ⟨.shuffle s, StackShuffle.decode?_of_opcode hcode, fun hwhole => ?_, fun hfew => ?_⟩
  · obtain ⟨out, hout, hwords⟩ := hwhole.exists_shuffle?
    exact ⟨{ f with stack := out }, by simp [transfer, hout], hwords, rfl⟩
  · cases hout : s.shuffle? f.stack with
    | none => simp [transfer, hout]
    | some out => exact absurd (StackShuffle.reach_le_of_shuffle? hout) (Nat.not_le.2 hfew)

/-- A long is copied under two values of one word each. -/
def copyLongScope : MethodScope := { pool := Pool.ofSlots #[], className := "A", code := #[0x5e] }

/-- The double at the bottom lies beneath all that is moved. -/
def copyLongFrame : Frame := ⟨[.integer], [.long, .float, .object "A", .double]⟩

def shortFrame : Frame := ⟨[], [.long, .float]⟩

theorem transfer_shuffle_words_dup2X2 :
    (StackShuffle.dup2X2.TakesWhole copyLongFrame.stack ∧
      ∃ i after, Instruction.decode? copyLongScope.code 0 = some i ∧
        copyLongScope.transfer 0 copyLongFrame i = .ok after ∧
        StackShuffle.dup2X2.moveWords? (wordsOf copyLongFrame.stack) =
          some (wordsOf after.stack) ∧ after.locals = [.integer]) ∧
    (wordsOf shortFrame.stack).length < StackShuffle.dup2X2.reach ∧
      ∃ i, Instruction.decode? copyLongScope.code 0 = some i ∧
        copyLongScope.transfer 0 shortFrame i = .error (.stackUnderflow 0) := by
  have hcode : copyLongScope.code[0]? = some StackShuffle.dup2X2.opcode := rfl
  have hwhole : StackShuffle.dup2X2.TakesWhole copyLongFrame.stack := by decide
  have hfew : (wordsOf shortFrame.stack).length < StackShuffle.dup2X2.reach := by decide
  obtain ⟨i, hi, hmoves, -⟩ := transfer_shuffle_words copyLongScope 0 copyLongFrame .dup2X2 hcode
  obtain ⟨after, hafter, hwords, hlocals⟩ := hmoves hwhole
  obtain ⟨j, hj, -, hfails⟩ := transfer_shuffle_words copyLongScope 0 shortFrame .dup2X2 hcode
  exact ⟨⟨hwhole, i, after, hi, hafter, hwords, hlocals⟩, hfew, j, hj, hfails hfew⟩

end MethodScope

end ClassArchive
