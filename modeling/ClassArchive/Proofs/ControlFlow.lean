import ClassArchive.Proofs.InstructionStarts

/-!
Where control goes, read off the opcodes and operands: the offsets of branches, jumps and switches,
and the instructions behind which control never goes on.
-/
set_option autoImplicit false

namespace ClassArchive

namespace Instruction

inductive Branches (code : CodeArray) (pc : Nat) : Int → Prop where
  | near {op : UInt8} {offset : Int} : code[pc]? = some op →
      (0x99 ≤ op.toNat ∧ op.toNat ≤ 0xa7) ∨ op.toNat = 0xc6 ∨ op.toNat = 0xc7 →
      code.i16? (pc + 1) = some offset → Branches code pc offset
  | far {op : UInt8} {offset : Int} : code[pc]? = some op → op.toNat = 0xc8 →
      code.i32? (pc + 1) = some offset → Branches code pc offset
  | default {op : UInt8} {offset : Int} : code[pc]? = some op →
      op.toNat = 0xaa ∨ op.toNat = 0xab →
      code.i32? (pc + 1 + padding pc) = some offset → Branches code pc offset
  | table {op : UInt8} {low high offset : Int} {i : Nat} : code[pc]? = some op → op.toNat = 0xaa →
      code.i32? (pc + 1 + padding pc + 4) = some low →
      code.i32? (pc + 1 + padding pc + 8) = some high → low + i ≤ high →
      code.i32? (pc + 1 + padding pc + 12 + i * 4) = some offset → Branches code pc offset
  | lookup {op : UInt8} {pairs offset : Int} {i : Nat} : code[pc]? = some op → op.toNat = 0xab →
      code.i32? (pc + 1 + padding pc + 4) = some pairs → i < pairs →
      code.i32? (pc + 1 + padding pc + 8 + i * 8 + 4) = some offset → Branches code pc offset

/-- The opcodes of jumps, switches, returns and throws. -/
def EndsFlow (op : UInt8) : Prop :=
  op.toNat = 0xa7 ∨ (0xaa ≤ op.toNat ∧ op.toNat ≤ 0xb1) ∨ op.toNat = 0xbf ∨ op.toNat = 0xc8

theorem not_branches {code : CodeArray} {pc : Nat} {op : UInt8} (hop : code[pc]? = some op)
    (h : ¬ (0x99 ≤ op.toNat ∧ op.toNat ≤ 0xa7) ∧ ¬ (0xaa ≤ op.toNat ∧ op.toNat ≤ 0xab) ∧
      ¬ (0xc6 ≤ op.toNat ∧ op.toNat ≤ 0xc8)) (offset : Int) : ¬ Branches code pc offset := by
  intro hbranch
  cases hbranch with
  | near hop' hcode _ | far hop' hcode _ | default hop' hcode _ | table hop' hcode _ _ _ _
  | lookup hop' hcode _ _ _ =>
    rw [hop] at hop'
    cases hop'
    omega

theorem branches_near {code : CodeArray} {pc : Nat} {op : UInt8} (hop : code[pc]? = some op)
    (h : (0x99 ≤ op.toNat ∧ op.toNat ≤ 0xa7) ∨ op.toNat = 0xc6 ∨ op.toNat = 0xc7) {near : Int}
    (hnear : code.i16? (pc + 1) = some near) (offset : Int) :
    offset ∈ [near] ↔ Branches code pc offset := by
  rw [List.mem_singleton]
  constructor
  · rintro rfl
    exact .near hop h hnear
  · intro hbranch
    cases hbranch with
    | near hop' _ hoffset =>
      rw [hnear] at hoffset
      cases hoffset
      rfl
    | far hop' hcode _ | default hop' hcode _ | table hop' hcode _ _ _ _
    | lookup hop' hcode _ _ _ =>
      rw [hop] at hop'
      cases hop'
      omega

theorem branches_far {code : CodeArray} {pc : Nat} {op : UInt8} (hop : code[pc]? = some op)
    (h : op.toNat = 0xc8) {far : Int} (hfar : code.i32? (pc + 1) = some far) (offset : Int) :
    offset ∈ [far] ↔ Branches code pc offset := by
  rw [List.mem_singleton]
  constructor
  · rintro rfl
    exact .far hop h hfar
  · intro hbranch
    cases hbranch with
    | far hop' _ hoffset =>
      rw [hfar] at hoffset
      cases hoffset
      rfl
    | near hop' hcode _ | default hop' hcode _ | table hop' hcode _ _ _ _
    | lookup hop' hcode _ _ _ =>
      rw [hop] at hop'
      cases hop'
      omega

/-! ### Switches -/

theorem mem_of_mapM {α β : Type} {f : α → Option β} {xs : List α} {ys : List β}
    (h : xs.mapM f = some ys) (y : β) : y ∈ ys ↔ ∃ x ∈ xs, f x = some y := by
  induction xs generalizing ys with
  | nil =>
    cases h
    simp
  | cons x xs ih =>
    rw [List.mapM_cons] at h
    obtain ⟨first, hfirst, h⟩ := Option.bind_eq_some_iff.1 h
    obtain ⟨rest, hrest, h⟩ := Option.bind_eq_some_iff.1 h
    cases h
    simp [ih hrest, hfirst, eq_comm]

theorem branches_table {code : CodeArray} {pc : Nat} {op : UInt8} (hop : code[pc]? = some op)
    (h : op.toNat = 0xaa) {offsets : List Int}
    (hoffsets : switchOffsets? code pc true = some offsets) (offset : Int) :
    offset ∈ offsets ↔ Branches code pc offset := by
  obtain ⟨first, hfirst, hoffsets⟩ := Option.bind_eq_some_iff.1 hoffsets
  obtain ⟨low, hlow, hoffsets⟩ := Option.bind_eq_some_iff.1 hoffsets
  obtain ⟨high, hhigh, hoffsets⟩ := Option.bind_eq_some_iff.1 hoffsets
  obtain ⟨cases, hcases, hoffsets⟩ := Option.bind_eq_some_iff.1 hoffsets
  cases hoffsets
  rw [List.mem_cons, mem_of_mapM hcases]
  constructor
  · rintro (rfl | ⟨i, hi, hoffset⟩)
    · exact .default hop (.inl h) hfirst
    · rw [List.mem_range] at hi
      exact .table hop h hlow hhigh (by omega) hoffset
  · intro hbranch
    cases hbranch with
    | default hop' _ hoffset =>
      rw [hfirst] at hoffset
      cases hoffset
      exact .inl rfl
    | @table _ _ _ _ i hop' _ hlow' hhigh' hle hoffset =>
      rw [hlow] at hlow'
      rw [hhigh] at hhigh'
      cases hlow'
      cases hhigh'
      exact .inr ⟨i, List.mem_range.2 (by omega), hoffset⟩
    | near hop' hcode _ | far hop' hcode _ | lookup hop' hcode _ _ _ =>
      rw [hop] at hop'
      cases hop'
      omega

theorem branches_lookup {code : CodeArray} {pc : Nat} {op : UInt8} (hop : code[pc]? = some op)
    (h : op.toNat = 0xab) {offsets : List Int}
    (hoffsets : switchOffsets? code pc false = some offsets) (offset : Int) :
    offset ∈ offsets ↔ Branches code pc offset := by
  obtain ⟨first, hfirst, hoffsets⟩ := Option.bind_eq_some_iff.1 hoffsets
  obtain ⟨pairs, hpairs, hoffsets⟩ := Option.bind_eq_some_iff.1 hoffsets
  obtain ⟨cases, hcases, hoffsets⟩ := Option.bind_eq_some_iff.1 hoffsets
  cases hoffsets
  rw [List.mem_cons, mem_of_mapM hcases]
  constructor
  · rintro (rfl | ⟨i, hi, hoffset⟩)
    · exact .default hop (.inr h) hfirst
    · rw [List.mem_range] at hi
      exact .lookup hop h hpairs (by omega) hoffset
  · intro hbranch
    cases hbranch with
    | default hop' _ hoffset =>
      rw [hfirst] at hoffset
      cases hoffset
      exact .inl rfl
    | @lookup _ _ _ i hop' _ hpairs' hlt hoffset =>
      rw [hpairs] at hpairs'
      cases hpairs'
      exact .inr ⟨i, List.mem_range.2 (by omega), hoffset⟩
    | near hop' hcode _ | far hop' hcode _ | table hop' hcode _ _ _ _ =>
      rw [hop] at hop'
      cases hop'
      omega

/-! ### All opcodes -/

section Outcomes

variable {α β : Type} {P : α → Prop}

theorem forall_mem_ite {c : Prop} [Decidable c] {x y : Option α} (hx : c → ∀ a ∈ x, P a)
    (hy : ¬ c → ∀ a ∈ y, P a) : ∀ a ∈ (if c then x else y), P a := by
  split
  · next h => exact hx h
  · next h => exact hy h

theorem forall_mem_bind {x : Option β} {f : β → Option α}
    (h : ∀ b, x = some b → ∀ a ∈ f b, P a) : ∀ a ∈ (x >>= f), P a := by
  intro a ha
  obtain ⟨b, hb, ha⟩ := Option.bind_eq_some_iff.1 ha
  exact h b hb a ha

theorem forall_mem_pure {a : α} (h : P a) : ∀ b ∈ (pure a : Option α), P b := by
  rintro b ⟨⟩
  exact h

end Outcomes

def isNew : Instruction → Bool
  | .new _ => true
  | _ => false

/-- The flow of control out of an instruction is the one that its bytes tell, and only one opcode
makes objects. -/
structure Controls (code : CodeArray) (pc : Nat) (op : UInt8) (i : Instruction) : Prop where
  offsets : ∀ offset, offset ∈ i.offsets ↔ Branches code pc offset
  fallsThrough : i.fallsThrough = false ↔ EndsFlow op
  new : i.isNew = true → op.toNat = 0xbb

section Controls

variable {code : CodeArray} {pc : Nat} {op : UInt8} {i : Instruction}

theorem controls_straight (hop : code[pc]? = some op)
    (h : ¬ (0x99 ≤ op.toNat ∧ op.toNat ≤ 0xa7) ∧ ¬ (0xaa ≤ op.toNat ∧ op.toNat ≤ 0xb1) ∧
      op.toNat ≠ 0xbf ∧ ¬ (0xc6 ≤ op.toNat ∧ op.toNat ≤ 0xc8))
    (hoffsets : i.offsets = []) (hfalls : i.fallsThrough = true)
    (hnew : i.isNew = false ∨ op.toNat = 0xbb) : Controls code pc op i where
  offsets offset := by
    have hnot := not_branches hop (by omega) offset
    simp [hoffsets, hnot]
  fallsThrough := by
    simp only [hfalls, EndsFlow, Bool.true_eq_false, false_iff]
    omega
  new h := by simpa [h] using hnew

theorem controls_exit (hop : code[pc]? = some op)
    (h : (0xac ≤ op.toNat ∧ op.toNat ≤ 0xb1) ∨ op.toNat = 0xbf) (arity : Nat) :
    Controls code pc op (.exit arity) where
  offsets offset := by
    have hnot := not_branches hop (by omega) offset
    simp [Instruction.offsets, hnot]
  fallsThrough := by
    simp only [Instruction.fallsThrough, EndsFlow, true_iff]
    omega
  new := nofun

theorem controls_branch (hop : code[pc]? = some op)
    (h : (0x99 ≤ op.toNat ∧ op.toNat ≤ 0xa6) ∨ op.toNat = 0xc6 ∨ op.toNat = 0xc7) {offset : Int}
    (hoffset : code.i16? (pc + 1) = some offset) (arity : Nat) :
    Controls code pc op (.branch arity offset) where
  offsets := branches_near hop (by omega) hoffset
  fallsThrough := by
    simp only [Instruction.fallsThrough, EndsFlow, Bool.true_eq_false, false_iff]
    omega
  new := nofun

theorem controls_ending (h : EndsFlow op) (hfalls : i.fallsThrough = false)
    (hoffsets : ∀ offset, offset ∈ i.offsets ↔ Branches code pc offset) (hnew : i.isNew = false) :
    Controls code pc op i where
  offsets := hoffsets
  fallsThrough := by simp [hfalls, h]
  new h := by simp [hnew] at h

theorem controls_decodeWide? (hop : code[pc]? = some op) (h : op.toNat = 0xc4) :
    ∀ i ∈ decodeWide? code pc, Controls code pc op i := by
  unfold decodeWide?
  refine forall_mem_bind fun _ _ => forall_mem_bind fun _ _ => ?_
  repeat' refine forall_mem_ite (fun _ => ?_) (fun _ => ?_)
  all_goals exact forall_mem_pure (controls_straight hop (by omega) rfl rfl (.inl rfl))

set_option maxRecDepth 2000 in
theorem controls_decode? (hop : code[pc]? = some op) :
    ∀ i ∈ decode? code pc, Controls code pc op i := by
  unfold decode?
  refine forall_mem_bind fun opcode hopcode => ?_
  rw [hop] at hopcode
  cases hopcode
  dsimp only
  repeat' refine forall_mem_ite (fun _ => ?_) (fun _ => ?_)
  -- from most instructions control only goes on
  all_goals try exact forall_mem_pure (controls_straight hop (by omega) rfl rfl (.inl rfl))
  all_goals try exact forall_mem_bind fun _ _ =>
    forall_mem_pure (controls_straight hop (by omega) rfl rfl (.inl rfl))
  all_goals try exact forall_mem_pure (controls_exit hop (by omega) _)
  all_goals
    try exact forall_mem_bind fun _ h => forall_mem_pure (controls_branch hop (by omega) h _)
  · exact forall_mem_bind fun _ h => forall_mem_pure
      (controls_ending (.inl (by omega)) rfl (branches_near hop (by omega) h) rfl)
  · exact forall_mem_bind fun _ h => forall_mem_pure
      (controls_ending (.inr (.inl (by omega))) rfl (branches_table hop (by omega) h) rfl)
  · exact forall_mem_bind fun _ h => forall_mem_pure
      (controls_ending (.inr (.inl (by omega))) rfl (branches_lookup hop (by omega) h) rfl)
  · exact forall_mem_bind fun _ _ => forall_mem_pure
      (controls_straight hop (by omega) rfl rfl (.inr (by omega)))
  · refine forall_mem_bind fun _ _ => ?_
    split
    all_goals exact forall_mem_pure (controls_straight hop (by omega) rfl rfl (.inl rfl))
  · exact controls_decodeWide? hop (by omega)
  · exact forall_mem_bind fun _ _ => forall_mem_bind fun _ _ => forall_mem_pure
      (controls_straight hop (by omega) rfl rfl (.inl rfl))
  · exact forall_mem_bind fun _ h => forall_mem_pure
      (controls_ending (.inr (.inr (.inr (by omega)))) rfl (branches_far hop (by omega) h) rfl)

end Controls

end Instruction

end ClassArchive
