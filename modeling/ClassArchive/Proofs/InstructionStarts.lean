import ClassArchive.Program
import ClassArchive.Proofs.Outcome
import Mathlib.Logic.Relation

/-!
Where instructions start. The first stands at the first byte of the code, each other one right
behind another. A program lists exactly the instructions at these addresses.
-/
set_option autoImplicit false

namespace ClassArchive

namespace Instruction

def Precedes (code : CodeArray) (pc next : Nat) : Prop :=
  next < code.size ∧ ∃ length, length? code pc = some length ∧ next = pc + length

def StartsAt (code : CodeArray) (pc : Nat) : Prop :=
  0 < code.size ∧ Relation.ReflTransGen (Precedes code) 0 pc

theorem announcedLength?_pos {code : CodeArray} {pc length : Nat}
    (h : announcedLength? code pc = some length) : 0 < length := by
  obtain ⟨op, _, h⟩ := Option.bind_eq_some_iff.1 h
  dsimp only at h
  by_cases hswitch : op.toNat = 0xaa ∨ op.toNat = 0xab ∨ op.toNat = 0xc4
  · rcases hswitch with hop | hop | hop
    all_goals simp only [hop] at h
    · obtain ⟨low, _, h⟩ := Option.bind_eq_some_iff.1 h
      obtain ⟨high, _, h⟩ := Option.bind_eq_some_iff.1 h
      split at h
      · cases h
      · cases h
        omega
    · obtain ⟨pairs, _, h⟩ := Option.bind_eq_some_iff.1 h
      split at h
      · cases h
      · cases h
        omega
    · obtain ⟨wide, _, h⟩ := Option.bind_eq_some_iff.1 h
      cases h
      split <;> omega
  · obtain ⟨htable, hlookup, hwide⟩ : op.toNat ≠ 0xaa ∧ op.toNat ≠ 0xab ∧ op.toNat ≠ 0xc4 := by
      omega
    simp only [if_neg htable, if_neg hlookup, if_neg hwide] at h
    repeat' split at h
    all_goals
      cases h
      omega

theorem length?_eq_some {code : CodeArray} {pc length : Nat} (h : length? code pc = some length) :
    0 < length ∧ pc + length ≤ code.size := by
  obtain ⟨announced, hannounced, h⟩ := Option.bind_eq_some_iff.1 h
  have hpos := announcedLength?_pos hannounced
  split at h
  · cases h
    exact ⟨hpos, by assumption⟩
  · cases h

theorem StartsAt.lt_size {code : CodeArray} {pc : Nat} (h : StartsAt code pc) :
    pc < code.size := by
  obtain ⟨hpos, hwalk⟩ := h
  rcases hwalk.cases_tail with rfl | ⟨last, _, hlast⟩
  · exact hpos
  · exact hlast.1

theorem StartsAt.next {code : CodeArray} {pc next : Nat} (h : StartsAt code pc)
    (hnext : Precedes code pc next) : StartsAt code next :=
  ⟨h.1, h.2.tail hnext⟩

end Instruction

namespace Program

open Instruction Relation

theorem locate?_eq_some {code : CodeArray} {pc : Nat} {here : Located}
    (h : locate? code pc = some here) :
    Instruction.decode? code pc = some here.instruction ∧
      ∃ length, length? code pc = some length ∧ here.next = pc + length := by
  obtain ⟨length, hlength, h⟩ := Option.bind_eq_some_iff.1 h
  obtain ⟨instruction, hdecode, h⟩ := Option.bind_eq_some_iff.1 h
  cases h
  exact ⟨hdecode, length, hlength, rfl⟩

theorem precedes_of_locate? {code : CodeArray} {pc : Nat} {here : Located}
    (h : locate? code pc = some here) (hnext : here.next < code.size) :
    Precedes code pc here.next :=
  ⟨hnext, (locate?_eq_some h).2⟩

theorem getElem?_insert_located (found : Std.TreeMap Nat Located) (pc k : Nat) (here : Located) :
    (found.insert pc here)[k]? = if pc = k then some here else found[k]? := by
  simp [Std.TreeMap.getElem?_insert]

/-! ### The sweep -/

section Sweep

variable {code : CodeArray} {bound pc : Nat} {found listing : Std.TreeMap Nat Located}

theorem getElem?_of_sweep (h : sweep code bound pc found = .ok listing) {k : Nat} (hk : k < pc) :
    listing[k]? = found[k]? := by
  induction bound generalizing pc found with
  | zero =>
    cases h
    rfl
  | succ bound ih =>
    unfold sweep at h
    split at h
    · cases h
      rfl
    · split at h
      · next here hhere =>
        obtain ⟨-, length, hlength, hnext⟩ := locate?_eq_some hhere
        have hpos := (length?_eq_some hlength).1
        rw [ih h (by omega), getElem?_insert_located, if_neg (by omega)]
      · cases h

theorem walk_of_sweep (h : sweep code bound pc found = .ok listing) {k : Nat} {here : Located}
    (hk : listing[k]? = some here) :
    found[k]? = some here ∨
      (pc < code.size ∧ ReflTransGen (Precedes code) pc k ∧ locate? code k = some here) := by
  induction bound generalizing pc found with
  | zero =>
    cases h
    exact .inl hk
  | succ bound ih =>
    unfold sweep at h
    split at h
    · cases h
      exact .inl hk
    · next hpc =>
      have hlt : pc < code.size := by omega
      split at h
      · next located hlocated =>
        rcases ih h with hfound | ⟨hnext, hwalk, hlocate⟩
        · rw [getElem?_insert_located] at hfound
          split at hfound
          · next heq =>
            subst heq
            cases hfound
            exact .inr ⟨hlt, .refl, hlocated⟩
          · exact .inl hfound
        · exact .inr ⟨hlt, .head (precedes_of_locate? hlocated hnext) hwalk, hlocate⟩
      · cases h

theorem exists_of_sweep (h : sweep code bound pc found = .ok listing)
    (hbound : code.size ≤ pc + bound) (hpc : pc < code.size) {k : Nat}
    (hwalk : ReflTransGen (Precedes code) pc k) : ∃ here, listing[k]? = some here := by
  induction bound generalizing pc found with
  | zero => omega
  | succ bound ih =>
    unfold sweep at h
    rw [if_neg (by omega)] at h
    split at h
    · next here hhere =>
      obtain ⟨-, length, hlength, hnext⟩ := locate?_eq_some hhere
      have hpos := (length?_eq_some hlength).1
      rcases hwalk.cases_head with rfl | ⟨next, ⟨hsize, length', hlength', rfl⟩, hwalk⟩
      · refine ⟨here, ?_⟩
        rw [getElem?_of_sweep h (by omega), getElem?_insert_located, if_pos rfl]
      · rw [hlength] at hlength'
        cases hlength'
        exact ih h (by omega) (by omega) (hnext ▸ hwalk)
    · cases h

end Sweep

/-! ### The program -/

section Decode

variable {code : CodeArray} {program : Program} (h : decode code = .ok program)
include h

theorem code_of_decode : program.code = code := by
  obtain ⟨listing, _, h⟩ := bind_eq_ok.1 h
  cases h
  rfl

theorem exists_listing {pc : Nat} (hpc : StartsAt code pc) :
    ∃ here, program.listing[pc]? = some here := by
  obtain ⟨listing, hsweep, h⟩ := bind_eq_ok.1 h
  cases h
  exact exists_of_sweep hsweep (by omega) hpc.1 hpc.2

theorem startsAt_of_listing {pc : Nat} {here : Located} (hhere : program.listing[pc]? = some here) :
    StartsAt code pc ∧ locate? code pc = some here := by
  obtain ⟨listing, hsweep, h⟩ := bind_eq_ok.1 h
  cases h
  rcases walk_of_sweep hsweep hhere with hempty | ⟨hpos, hwalk, hlocate⟩
  · simp at hempty
  · exact ⟨⟨hpos, hwalk⟩, hlocate⟩

theorem isStart_iff {pc : Nat} : program.isStart pc = true ↔ StartsAt code pc := by
  have hlisted : program.isStart pc = true ↔ ∃ here, program.listing[pc]? = some here := by
    rw [isStart, Std.TreeMap.contains_eq_isSome_getElem?, Option.isSome_iff_exists]
  rw [hlisted]
  constructor
  · rintro ⟨here, hhere⟩
    exact (startsAt_of_listing h hhere).1
  · exact exists_listing h

theorem decode?_of_decode (pc : Nat) (here : Located)
    (hhere : program.listing[pc]? = some here) :
    pc < code.size ∧ Instruction.decode? code pc = some here.instruction := by
  obtain ⟨hstart, hlocate⟩ := startsAt_of_listing h hhere
  exact ⟨hstart.lt_size, (locate?_eq_some hlocate).1⟩

end Decode

end Program

end ClassArchive
