import ClassArchive.Proofs.InstructionStarts

/-!
What an instruction takes from the code. Its length, by which a walk goes on to the next one, covers
all bytes from which its operands are read. So it can be decoded wherever it has a length, and in
whatever code it stands.
-/
set_option autoImplicit false

namespace ClassArchive

/-- Both are there, and they are the same. -/
def Alike {α : Type} (x y : Option α) : Prop := ∃ a, x = some a ∧ y = some a

namespace Alike

variable {α β : Type}

theorem pure (a : α) : Alike (Pure.pure a) (Pure.pure a) := ⟨a, rfl, rfl⟩

theorem bind {x y : Option α} {f g : α → Option β} (h : Alike x y)
    (hnext : ∀ a, x = some a → Alike (f a) (g a)) : Alike (x >>= f) (y >>= g) := by
  obtain ⟨a, rfl, rfl⟩ := h
  exact hnext a rfl

theorem ite {c : Prop} [Decidable c] {x y x' y' : Option α} (h : c → Alike x y)
    (h' : ¬ c → Alike x' y') : Alike (if c then x else x') (if c then y else y') := by
  split
  · next hc => exact h hc
  · next hc => exact h' hc

theorem mapM {f g : α → Option β} {xs : List α} (h : ∀ a ∈ xs, Alike (f a) (g a)) :
    Alike (xs.mapM f) (xs.mapM g) := by
  induction xs with
  | nil => exact .pure []
  | cons a xs ih =>
    rw [List.mapM_cons, List.mapM_cons]
    have hrest := ih fun b hb => h b (by simp [hb])
    exact (h a (by simp)).bind fun _ _ => hrest.bind fun _ _ => .pure _

theorem getElem? {xs : List α} {i : Nat} (h : i < xs.length) : Alike xs[i]? xs[i]? :=
  ⟨_, List.getElem?_eq_getElem h, List.getElem?_eq_getElem h⟩

end Alike

namespace Instruction

/-! ### Bytes -/

structure Window (code code' : CodeArray) (pc length : Nat) : Prop where
  inside : pc + length ≤ code.size
  same : ∀ i, pc ≤ i → i < pc + length → code'[i]? = code[i]?

namespace Window

variable {code code' : CodeArray} {pc length : Nat} (h : Window code code' pc length) {i : Nat}
  (hi : pc ≤ i)
include h hi

theorem byte (hlt : i < pc + length) : Alike code[i]? code'[i]? := by
  have hsize : i < code.size := Nat.lt_of_lt_of_le hlt h.inside
  have hbyte := Array.getElem?_eq_getElem hsize
  exact ⟨_, hbyte, (h.same i hi hlt).trans hbyte⟩

theorem u16 (hlt : i + 1 < pc + length) : Alike (code.u16? i) (code'.u16? i) :=
  (h.byte hi (by omega)).bind fun _ _ => (h.byte (by omega) hlt).bind fun _ _ => .pure _

theorem i16 (hlt : i + 1 < pc + length) : Alike (code.i16? i) (code'.i16? i) :=
  (h.u16 hi hlt).bind fun _ _ => .pure _

theorem i32 (hlt : i + 3 < pc + length) : Alike (code.i32? i) (code'.i32? i) :=
  (h.byte hi (by omega)).bind fun _ _ => (h.byte (by omega) (by omega)).bind fun _ _ =>
    (h.byte (by omega) (by omega)).bind fun _ _ => (h.byte (by omega) hlt).bind fun _ _ => .pure _

end Window

/-! ### Lengths by opcode -/

section Lengths

variable {code : CodeArray} {pc length : Nat} {op : UInt8}

/-- The operands that are read behind an opcode lie within a length. The operands of switches are
left out, which have no fixed place. -/
structure Covers (op length : Nat) : Prop where
  byte : op = 0x12 ∨ (0x15 ≤ op ∧ op ≤ 0x19) ∨ (0x36 ≤ op ∧ op ≤ 0x3a) ∨ op = 0x84 ∨ op = 0xbc →
    1 < length
  pair : op = 0x13 ∨ op = 0x14 ∨ (0x99 ≤ op ∧ op ≤ 0xa7) ∨ (0xb2 ≤ op ∧ op ≤ 0xbb) ∨ op = 0xbd ∨
    op = 0xc0 ∨ op = 0xc5 ∨ op = 0xc6 ∨ op = 0xc7 → 2 < length
  triple : op = 0xc4 ∨ op = 0xc5 → 3 < length
  quad : op = 0xc8 → 4 < length

theorem covers_of_announcedLength? (hop : code[pc]? = some op)
    (h : announcedLength? code pc = some length) : Covers op.toNat length := by
  obtain ⟨op', hop', h⟩ := Option.bind_eq_some_iff.1 h
  obtain rfl : op = op' := Option.some.inj (hop.symm.trans hop')
  dsimp only at h
  by_cases hswitch : op.toNat = 0xaa ∨ op.toNat = 0xab
  · constructor <;> omega
  · by_cases hwide : op.toNat = 0xc4
    · simp only [hwide] at h
      obtain ⟨widened, -, h⟩ := Option.bind_eq_some_iff.1 h
      cases h
      constructor <;> split <;> omega
    · simp only [if_neg (not_or.1 hswitch).1, if_neg (not_or.1 hswitch).2, if_neg hwide] at h
      repeat' split at h
      all_goals
        cases h
        constructor <;> omega

theorem length_of_table (hop : code[pc]? = some op) (htable : op.toNat = 0xaa)
    (h : announcedLength? code pc = some length) :
    ∃ low high, code.i32? (pc + 1 + padding pc + 4) = some low ∧
      code.i32? (pc + 1 + padding pc + 8) = some high ∧
      length = 1 + padding pc + 12 + (high - low + 1).toNat * 4 := by
  obtain ⟨op', hop', h⟩ := Option.bind_eq_some_iff.1 h
  obtain rfl : op = op' := Option.some.inj (hop.symm.trans hop')
  simp only [htable] at h
  obtain ⟨low, hlow, h⟩ := Option.bind_eq_some_iff.1 h
  obtain ⟨high, hhigh, h⟩ := Option.bind_eq_some_iff.1 h
  split at h
  · cases h
  · cases h
    exact ⟨low, high, hlow, hhigh, rfl⟩

theorem length_of_lookup (hop : code[pc]? = some op) (hlookup : op.toNat = 0xab)
    (h : announcedLength? code pc = some length) :
    ∃ pairs, code.i32? (pc + 1 + padding pc + 4) = some pairs ∧
      length = 1 + padding pc + 8 + pairs.toNat * 8 := by
  obtain ⟨op', hop', h⟩ := Option.bind_eq_some_iff.1 h
  obtain rfl : op = op' := Option.some.inj (hop.symm.trans hop')
  simp only [hlookup] at h
  obtain ⟨pairs, hpairs, h⟩ := Option.bind_eq_some_iff.1 h
  split at h
  · cases h
  · cases h
    exact ⟨pairs, hpairs, rfl⟩

end Lengths

/-! ### Decoding -/

section Decoding

variable {code code' : CodeArray} {pc length : Nat} {op : UInt8}
  (hwindow : Window code code' pc length)
include hwindow

theorem alike_switchOffsets?_table (hop : code[pc]? = some op) (htable : op.toNat = 0xaa)
    (h : announcedLength? code pc = some length) :
    Alike (switchOffsets? code pc true) (switchOffsets? code' pc true) := by
  obtain ⟨low, high, hlow, hhigh, hlength⟩ := length_of_table hop htable h
  refine (hwindow.i32 (by omega) (by omega)).bind fun _ _ => ?_
  refine (hwindow.i32 (by omega) (by omega)).bind fun low' hlow' => ?_
  refine (hwindow.i32 (by omega) (by omega)).bind fun high' hhigh' => ?_
  obtain rfl : low = low' := Option.some.inj (hlow.symm.trans hlow')
  obtain rfl : high = high' := Option.some.inj (hhigh.symm.trans hhigh')
  refine (Alike.mapM fun i hi => ?_).bind fun _ _ => .pure _
  rw [List.mem_range] at hi
  exact hwindow.i32 (by omega) (by omega)

theorem alike_switchOffsets?_lookup (hop : code[pc]? = some op) (hlookup : op.toNat = 0xab)
    (h : announcedLength? code pc = some length) :
    Alike (switchOffsets? code pc false) (switchOffsets? code' pc false) := by
  obtain ⟨pairs, hpairs, hlength⟩ := length_of_lookup hop hlookup h
  refine (hwindow.i32 (by omega) (by omega)).bind fun _ _ => ?_
  refine (hwindow.i32 (by omega) (by omega)).bind fun pairs' hpairs' => ?_
  obtain rfl : pairs = pairs' := Option.some.inj (hpairs.symm.trans hpairs')
  refine (Alike.mapM fun i hi => ?_).bind fun _ _ => .pure _
  rw [List.mem_range] at hi
  exact hwindow.i32 (by omega) (by omega)

theorem alike_decodeWide? (hlength : 3 < length) :
    Alike (decodeWide? code pc) (decodeWide? code' pc) := by
  refine (hwindow.byte (by omega) (by omega)).bind fun _ _ => ?_
  refine (hwindow.u16 (by omega) (by omega)).bind fun _ _ => ?_
  repeat' refine .ite (fun _ => ?_) (fun _ => ?_)
  all_goals exact .pure _

set_option maxRecDepth 2000 in
theorem alike_decode? (hlength : announcedLength? code pc = some length) (hpos : 0 < length) :
    Alike (decode? code pc) (decode? code' pc) := by
  unfold decode?
  refine (hwindow.byte (Nat.le_refl pc) (by omega)).bind fun op hop => ?_
  have hcovers := covers_of_announcedLength? hop hlength
  have hsmall : 1 < length → Alike code[pc + 1]? code'[pc + 1]? :=
    fun h => hwindow.byte (by omega) (by omega)
  have hindex : 2 < length → Alike (code.u16? (pc + 1)) (code'.u16? (pc + 1)) :=
    fun h => hwindow.u16 (by omega) (by omega)
  have hnear : 2 < length → Alike (code.i16? (pc + 1)) (code'.i16? (pc + 1)) :=
    fun h => hwindow.i16 (by omega) (by omega)
  dsimp only
  repeat' refine .ite (fun _ => ?_) (fun _ => ?_)
  -- the first operand of most instructions is a byte or a pair of bytes, if one is read at all
  all_goals try exact .pure _
  all_goals try exact (hsmall (hcovers.byte (by omega))).bind fun _ _ => .pure _
  all_goals try exact (hindex (hcovers.pair (by omega))).bind fun _ _ => .pure _
  all_goals try exact (hnear (hcovers.pair (by omega))).bind fun _ _ => .pure _
  · exact (Alike.getElem? (by simp [shuffles]; omega)).bind fun _ _ => .pure _
  · exact (Alike.getElem? (by simp [conversionTypes]; omega)).bind fun _ _ => .pure _
  · exact (alike_switchOffsets?_table hwindow hop (by omega) hlength).bind fun _ _ => .pure _
  · exact (alike_switchOffsets?_lookup hwindow hop (by omega) hlength).bind fun _ _ => .pure _
  · refine (hsmall (hcovers.byte (by omega))).bind fun element _ => ?_
    cases arrayType? element with
    | none => exact .pure _
    | some type => exact .pure _
  · exact alike_decodeWide? hwindow (hcovers.triple (by omega))
  · have hlast := hcovers.triple (by omega)
    exact (hindex (hcovers.pair (by omega))).bind fun _ _ =>
      (hwindow.byte (by omega) (by omega)).bind fun _ _ => .pure _
  · have hlast := hcovers.quad (by omega)
    exact (hwindow.i32 (by omega) (by omega)).bind fun _ _ => .pure _

end Decoding

def SameAt (code code' : CodeArray) (pc : Nat) : Prop :=
  ∀ length, length? code pc = some length → ∀ i, pc ≤ i → i < pc + length → code'[i]? = code[i]?

section Extents

variable {code code' : CodeArray} {pc length : Nat} (hlength : length? code pc = some length)
include hlength

theorem announcedLength?_of_length? : announcedLength? code pc = some length := by
  obtain ⟨announced, hannounced, h⟩ := Option.bind_eq_some_iff.1 hlength
  split at h
  · cases h
    exact hannounced
  · cases h

theorem SameAt.window (h : SameAt code code' pc) : Window code code' pc length :=
  ⟨(length?_eq_some hlength).2, h length hlength⟩

/-- An instruction with a length has all its operands, and is the same in other code with the same
bytes. -/
theorem SameAt.alike_decode? (h : SameAt code code' pc) :
    Alike (decode? code pc) (decode? code' pc) :=
  Instruction.alike_decode? (h.window hlength) (announcedLength?_of_length? hlength)
    (length?_eq_some hlength).1

end Extents

/-! ### Walks -/

/-- The walk from the first byte ends with an instruction that ends with the code. -/
def ReachesEnd (code : CodeArray) : Prop :=
  ∃ pc length, StartsAt code pc ∧ length? code pc = some length ∧ pc + length = code.size

def StopsAt (code : CodeArray) (pc : Nat) : Prop := StartsAt code pc ∧ length? code pc = none

section Walks

variable {code : CodeArray} {pc pc' : Nat}

theorem rightUnique_precedes (code : CodeArray) : Relator.RightUnique (Precedes code) := by
  rintro pc next next' ⟨-, length, hlength, rfl⟩ ⟨-, length', hlength', rfl⟩
  rw [hlength] at hlength'
  cases hlength'
  rfl

theorem StartsAt.total (h : StartsAt code pc) (h' : StartsAt code pc') :
    Relation.ReflTransGen (Precedes code) pc pc' ∨
      Relation.ReflTransGen (Precedes code) pc' pc :=
  Relation.ReflTransGen.total_of_right_unique (rightUnique_precedes code) h.2 h'.2

theorem StopsAt.eq_of_walk (h : StopsAt code pc)
    (hwalk : Relation.ReflTransGen (Precedes code) pc pc') : pc = pc' := by
  rcases hwalk.cases_head with rfl | ⟨next, ⟨-, length, hlength, -⟩, -⟩
  · rfl
  · rw [h.2] at hlength
    cases hlength

theorem StopsAt.unique (h : StopsAt code pc) (h' : StopsAt code pc') : pc = pc' := by
  rcases h.1.total h'.1 with hwalk | hwalk
  · exact h.eq_of_walk hwalk
  · exact (h'.eq_of_walk hwalk).symm

theorem ReachesEnd.not_stopsAt (h : ReachesEnd code) (pc : Nat) : ¬ StopsAt code pc := by
  intro hstops
  obtain ⟨last, length, hlast, hlength, hend⟩ := h
  have hne : pc ≠ last := by
    rintro rfl
    rw [hstops.2] at hlength
    cases hlength
  rcases hstops.1.total hlast with hwalk | hwalk
  · exact hne (hstops.eq_of_walk hwalk)
  · -- behind the last instruction there is no other one
    rcases hwalk.cases_head with rfl | ⟨next, ⟨hlt, length', hlength', hnext⟩, -⟩
    · exact hne rfl
    · rw [hlength] at hlength'
      cases hlength'
      omega

theorem ReachesEnd.exists_length (h : ReachesEnd code) (hpc : StartsAt code pc) :
    ∃ length, length? code pc = some length := by
  cases hlength : length? code pc with
  | none => exact absurd ⟨hpc, hlength⟩ (h.not_stopsAt pc)
  | some length => exact ⟨length, rfl⟩

theorem reachesEnd_or_stopsAt (h : StartsAt code pc) :
    ReachesEnd code ∨ ∃ stop, StopsAt code stop := by
  -- each instruction takes the walk closer to the end
  induction hrest : code.size - pc using Nat.strongRecOn generalizing pc with
  | ind rest ih =>
    cases hlength : length? code pc with
    | none => exact .inr ⟨pc, h, hlength⟩
    | some length =>
      obtain ⟨hpos, hle⟩ := length?_eq_some hlength
      by_cases hend : pc + length = code.size
      · exact .inl ⟨pc, length, h, hlength, hend⟩
      · have hnext := h.next ⟨by omega, length, hlength, rfl⟩
        exact ih _ (by omega) hnext rfl

end Walks

end Instruction

namespace Program

open Instruction

variable {code : CodeArray} {pc : Nat}

theorem exists_locate? {length : Nat} (h : length? code pc = some length) :
    ∃ here, locate? code pc = some here := by
  have hself : SameAt code code pc := fun _ _ _ _ _ => rfl
  obtain ⟨i, hdecode, -⟩ := hself.alike_decode? h
  exact ⟨⟨i, pc + length⟩, by simp [locate?, h, hdecode]⟩

theorem stopsAt_of_sweep {bound : Nat} {found : Std.TreeMap Nat Located} {e : FrameError}
    (h : sweep code bound pc found = .error e) (hpc : pc < code.size → StartsAt code pc) :
    ∃ stop, e = .truncated stop ∧ StopsAt code stop := by
  induction bound generalizing pc found with
  | zero => cases h
  | succ bound ih =>
    unfold sweep at h
    split at h
    · cases h
    · next hlt =>
      have hstart := hpc (by omega)
      split at h
      · next here hhere =>
        exact ih h fun hnext => hstart.next (precedes_of_locate? hhere hnext)
      · next hnone =>
        cases h
        refine ⟨pc, rfl, hstart, ?_⟩
        cases hlength : length? code pc with
        | none => rfl
        | some length =>
          obtain ⟨here, hhere⟩ := exists_locate? hlength
          rw [hnone] at hhere
          cases hhere

/-- A program fails to be decoded only where the walk through its code stops. -/
theorem decode_eq_error_iff (hpos : 0 < code.size) {e : FrameError} :
    decode code = .error e ↔ ∃ pc, e = .truncated pc ∧ StopsAt code pc := by
  have hstops : ∀ e, decode code = .error e → ∃ pc, e = .truncated pc ∧ StopsAt code pc := by
    intro e h
    rcases bind_eq_error.1 h with hsweep | ⟨_, _, h⟩
    · exact stopsAt_of_sweep hsweep fun _ => ⟨hpos, .refl⟩
    · cases h
  refine ⟨hstops e, ?_⟩
  rintro ⟨pc, rfl, hstop⟩
  cases hdecode : decode code with
  | error e =>
    obtain ⟨pc', rfl, hstop'⟩ := hstops e hdecode
    rw [hstop.unique hstop']
  | ok program =>
    obtain ⟨here, hhere⟩ := exists_listing hdecode hstop.1
    obtain ⟨-, length, hlength, -⟩ := locate?_eq_some (startsAt_of_listing hdecode hhere).2
    rw [hstop.2] at hlength
    cases hlength

end Program

end ClassArchive
