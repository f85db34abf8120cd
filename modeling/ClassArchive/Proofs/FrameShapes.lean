import ClassArchive.Proofs.ComputedFrames
import ClassArchive.Proofs.DescriptorTrees
import ClassArchive.Proofs.FrameTypes
import Mathlib.Algebra.GroupWithZero.Nat

/-!
The shape of the frames of a method. They have the declared number of local slots, a long or double
is followed by an empty slot, and a value that is not constructed yet names the `new` that made it.
So the slots can be told from the listed locals.
-/
set_option autoImplicit false

namespace ClassArchive

namespace Frame

/-! ### Pairs of slots -/

/-- Each long or double is followed by an empty slot. -/
def Paired (locals : List VerificationType) : Prop :=
  ∀ i, isWideAt locals i = true → locals[i + 1]? = some .top

theorem isWideAt_eq_true {locals : List VerificationType} {i : Nat} :
    isWideAt locals i = true ↔ ∃ type, locals[i]? = some type ∧ type.isWide = true := by
  unfold isWideAt
  split
  · next type h => simp [h]
  · next h => simp [h]

theorem getElem?_clearIf (condition : Bool) (slot : Nat) (locals : List VerificationType)
    (i : Nat) : (clearIf condition slot locals)[i]? =
      if condition = true ∧ slot = i ∧ i < locals.length then some .top else locals[i]? := by
  unfold clearIf
  by_cases hc : condition = true
  · by_cases hi : slot = i
    · subst hi
      by_cases hlt : slot < locals.length <;> simp [hc, hlt]
    · simp [hc, hi]
  · simp [hc]

/-- A value is stored, the slot behind a wide one is emptied, and so is the other half of a wide
value that is written over. -/
theorem getElem?_storeLocal {locals : List VerificationType} {slot : Nat} (type : VerificationType)
    (hslot : slot < locals.length) (i : Nat) :
    (storeLocal slot type locals)[i]? =
      if i = slot then some type
      else if i = slot + 1 ∧ i < locals.length ∧
          (type.isWide = true ∨ isWideAt locals slot = true) then some .top
      else if i + 1 = slot ∧ isWideAt locals i = true then some .top
      else locals[i]? := by
  have hfirst : ∀ j, (clearIf (0 < slot && isWideAt locals (slot - 1)) (slot - 1) locals)[j]? =
      if j + 1 = slot ∧ isWideAt locals j = true then some .top else locals[j]? := by
    intro j
    rw [getElem?_clearIf]
    by_cases hj : j + 1 = slot
    · have hpos : 0 < slot := by omega
      have hpred : slot - 1 = j := by omega
      have hlt : j < locals.length := by omega
      simp [hj, hpos, hpred, hlt]
    · have hne : ¬ (0 < slot ∧ slot - 1 = j) := by omega
      simp only [hj, false_and, if_false, Bool.and_eq_true, decide_eq_true_eq]
      rw [if_neg (by tauto)]
  have hwide : isWideAt (clearIf (0 < slot && isWideAt locals (slot - 1)) (slot - 1) locals) slot =
      isWideAt locals slot := by
    rw [isWideAt, hfirst, if_neg fun hslot => absurd hslot.1 (by omega), isWideAt]
  unfold storeLocal
  simp only [getElem?_clearIf, List.getElem?_set, length_clearIf, List.length_set, hwide, hfirst]
  by_cases hi : i = slot
  · subst hi
    simp [hslot]
  · by_cases hnext : i = slot + 1
    · subst hnext
      by_cases hlt : slot + 1 < locals.length
      · cases htype : type.isWide <;> simp [hlt]
      · simp [hlt]
    · have hne : slot ≠ i := fun heq => hi heq.symm
      have hne' : slot + 1 ≠ i := fun heq => hnext heq.symm
      simp [hi, hnext, hne, hne']

theorem Paired.storeLocal {locals : List VerificationType} {slot : Nat} {type : VerificationType}
    (h : Paired locals) (hroom : slot + slotCount type ≤ locals.length) :
    Paired (storeLocal slot type locals) := by
  have hslot : slot < locals.length := by
    unfold slotCount at hroom
    split at hroom <;> omega
  intro i hwide
  obtain ⟨value, hvalue, hwide⟩ := isWideAt_eq_true.1 hwide
  rw [getElem?_storeLocal type hslot] at hvalue ⊢
  by_cases hi : i = slot
  · -- the value that is stored
    subst hi
    simp only [if_true, Option.some.injEq] at hvalue
    subst hvalue
    have hnext : i + 1 < locals.length := by
      simp only [slotCount, hwide, if_true] at hroom
      omega
    simp [hnext, hwide]
  · rw [if_neg hi] at hvalue
    split at hvalue
    · cases hvalue
      cases hwide
    · split at hvalue
      · cases hvalue
        cases hwide
      · next hcleared =>
        -- a value that was there before, and not next to the slot
        have hold := isWideAt_eq_true.2 ⟨value, hvalue, hwide⟩
        have hne : i + 1 ≠ slot := fun heq => hcleared ⟨heq, hold⟩
        have htop := h i hold
        rw [if_neg hne]
        split
        · rfl
        · split
          · rfl
          · exact htop

theorem Paired.construct {locals : List VerificationType} {before : VerificationType}
    {name : String} (h : Paired locals)
    (hbefore : before = .uninitializedThis ∨ ∃ pc, before = .uninitialized pc) :
    Paired (locals.map fun type => if type = before then .object name else type) := by
  intro i hwide
  obtain ⟨value, hvalue, hwide⟩ := isWideAt_eq_true.1 hwide
  rw [List.getElem?_map, Option.map_eq_some_iff] at hvalue
  obtain ⟨old, hold, rfl⟩ := hvalue
  split at hwide
  · cases hwide
  · have htop := h i (isWideAt_eq_true.2 ⟨old, hold, hwide⟩)
    have hne : VerificationType.top ≠ before := by
      rcases hbefore with rfl | ⟨pc, rfl⟩ <;> simp
    simp [htop, hne]

theorem Paired.step {locals after : List VerificationType} (h : Paired locals)
    (hstep : LocalsStep locals after) : Paired after := by
  cases hstep with
  | kept => exact h
  | stored hroom => exact h.storeLocal hroom
  | constructed hbefore => exact h.construct hbefore

end Frame

/-! ### Joins -/

namespace Loader

variable {load : Loader}

theorem length_of_mergeTypes {as bs types : List VerificationType}
    (h : load.mergeTypes as bs = .ok types) : types.length = as.length := by
  induction as generalizing bs types with
  | nil =>
    cases h
    rfl
  | cons a as ih =>
    cases bs with
    | nil =>
      cases h
      rfl
    | cons b bs =>
      obtain ⟨type, _, h⟩ := bind_eq_ok.1 h
      obtain ⟨rest, hrest, h⟩ := bind_eq_ok.1 h
      cases h
      simp [ih hrest]

theorem getElem?_of_mergeTypes {as bs types : List VerificationType}
    (h : load.mergeTypes as bs = .ok types) {i : Nat} {a : VerificationType}
    (ha : as[i]? = some a) :
    (bs[i]? = none ∧ types[i]? = some a) ∨
      ∃ b type, bs[i]? = some b ∧ types[i]? = some type ∧ load.mergeType a b = .ok type := by
  induction as generalizing bs types i with
  | nil => simp at ha
  | cons a' as ih =>
    cases bs with
    | nil =>
      cases h
      exact .inl ⟨by simp, ha⟩
    | cons b bs =>
      obtain ⟨type, htype, h⟩ := bind_eq_ok.1 h
      obtain ⟨rest, hrest, h⟩ := bind_eq_ok.1 h
      cases h
      cases i with
      | zero =>
        cases ha
        exact .inr ⟨b, type, rfl, rfl, htype⟩
      | succ i => exact ih hrest ha

theorem eq_of_mergeType_isWide {a b type : VerificationType} (h : load.mergeType a b = .ok type)
    (hwide : type.isWide = true) : a = type ∧ b = type := by
  unfold mergeType at h
  split at h
  · next heq =>
    cases h
    exact ⟨rfl, heq.symm⟩
  · split at h
    · cases h
      cases hwide
    · cases h
      cases hwide
    · obtain ⟨name, _, rfl⟩ := map_eq_ok.1 h
      cases hwide
    · cases h
      cases hwide

theorem paired_mergeTypes {as bs types : List VerificationType} (has : Frame.Paired as)
    (hbs : Frame.Paired bs) (h : load.mergeTypes as bs = .ok types) : Frame.Paired types := by
  intro i hwide
  obtain ⟨type, htype, hwide⟩ := Frame.isWideAt_eq_true.1 hwide
  obtain ⟨a, ha⟩ : ∃ a, as[i]? = some a := by
    have hlt : i < types.length := (List.getElem?_eq_some_iff.1 htype).1
    rw [length_of_mergeTypes h] at hlt
    exact ⟨as[i], List.getElem?_eq_getElem hlt⟩
  rcases getElem?_of_mergeTypes h ha with ⟨hnone, htype'⟩ | ⟨b, type', hb, htype', hmerge⟩
  · rw [htype] at htype'
    cases htype'
    have htop := has i (Frame.isWideAt_eq_true.2 ⟨type, ha, hwide⟩)
    have hpast : bs[i + 1]? = none := by
      rw [List.getElem?_eq_none_iff] at hnone ⊢
      omega
    rcases getElem?_of_mergeTypes h htop with ⟨-, h⟩ | ⟨b, _, hb, _⟩
    · exact h
    · simp [hpast] at hb
  · rw [htype] at htype'
    cases htype'
    obtain ⟨rfl, rfl⟩ := eq_of_mergeType_isWide hmerge hwide
    have hatop := has i (Frame.isWideAt_eq_true.2 ⟨_, ha, hwide⟩)
    have hbtop := hbs i (Frame.isWideAt_eq_true.2 ⟨_, hb, hwide⟩)
    rcases getElem?_of_mergeTypes h hatop with ⟨-, h⟩ | ⟨b, type', hb', htype', hmerge'⟩
    · exact h
    · rw [hbtop] at hb'
      cases hb'
      simp only [mergeType, if_true] at hmerge'
      cases hmerge'
      exact htype'

end Loader

/-! ### Listed locals -/

namespace Frame

open MethodShape (slotsOf expand)

theorem Paired.tail {type : VerificationType} {locals : List VerificationType}
    (h : Paired (type :: locals)) : Paired locals := by
  intro i hi
  simpa using h (i + 1) (by simpa [isWideAt] using hi)

theorem flatMap_slotsOf_compactSlots {locals : List VerificationType} (h : Paired locals) :
    (compactSlots locals).flatMap slotsOf = locals := by
  fun_induction compactSlots locals with
  | case1 => rfl
  | case2 type =>
    have hnarrow : type.isWide = false := by
      by_contra hwide
      have htop := h 0 (by simpa [isWideAt] using hwide)
      simp at htop
    simp [slotsOf, hnarrow]
  | case3 type next rest hwide ih =>
    have htop := h 0 (by simpa [isWideAt] using hwide)
    simp only [List.getElem?_cons_succ, List.getElem?_cons_zero, Option.some.injEq] at htop
    simp [slotsOf, hwide, htop, ih h.tail.tail]
  | case4 type next rest hnarrow ih =>
    simp [slotsOf, hnarrow, ih h.tail]

theorem exists_trimTop_append (types : List VerificationType) :
    ∃ n, types = trimTop types ++ List.replicate n .top := by
  refine ⟨(types.reverse.takeWhile (· = .top)).length, ?_⟩
  have hcut := List.takeWhile_append_dropWhile (p := fun type => decide (type = .top))
    (l := types.reverse)
  have htop : types.reverse.takeWhile (· = .top) =
      List.replicate (types.reverse.takeWhile (· = .top)).length .top := by
    rw [List.eq_replicate_iff]
    exact ⟨rfl, fun type htype => by simpa using List.mem_takeWhile_imp htype⟩
  rw [htop] at hcut
  have hreverse := congrArg List.reverse hcut
  simpa [trimTop] using hreverse.symm

theorem flatMap_slotsOf_replicate (n : Nat) :
    (List.replicate n VerificationType.top).flatMap slotsOf = List.replicate n .top := by
  induction n with
  | zero => rfl
  | succ n ih => simp [List.replicate_succ, ih, slotsOf, VerificationType.isWide]

/-- The slots of a frame can be told from its listed locals. -/
theorem expand_compactLocals {f : Frame} (h : Paired f.locals) :
    expand f.locals.length f.compactLocals = f.locals := by
  obtain ⟨n, hn⟩ := exists_trimTop_append (compactSlots f.locals)
  have hslots : f.locals = f.compactLocals.flatMap slotsOf ++ List.replicate n .top := by
    rw [compactLocals, ← flatMap_slotsOf_replicate, ← List.flatMap_append, ← hn,
      flatMap_slotsOf_compactSlots h]
  have hlength := congrArg List.length hslots
  rw [List.length_append, List.length_replicate] at hlength
  have hn : f.locals.length - (f.compactLocals.flatMap slotsOf).length = n := by omega
  rw [expand, hn, ← hslots]

/-! ### The first frame -/

theorem compactSlots_cons {type : VerificationType} (h : type.isWide = false)
    (rest : List VerificationType) : compactSlots (type :: rest) = type :: compactSlots rest := by
  cases rest with
  | nil => rfl
  | cons next rest => simp [compactSlots, h]

theorem compactSlots_expand (values : List VerificationType) (n : Nat) :
    compactSlots (values.flatMap slotsOf ++ List.replicate n .top) =
      values ++ List.replicate n .top := by
  induction values with
  | nil =>
    induction n with
    | zero => rfl
    | succ n ih =>
      rw [List.replicate_succ]
      simp only [List.flatMap_nil, List.nil_append] at ih ⊢
      rw [compactSlots_cons rfl, ih]
  | cons value values ih =>
    cases hwide : value.isWide
    · simp [slotsOf, hwide, compactSlots_cons hwide, ih]
    · simp [slotsOf, hwide, compactSlots, ih]

theorem trimTop_append_replicate {values : List VerificationType} (h : ∀ v ∈ values, v ≠ .top)
    (n : Nat) : trimTop (values ++ List.replicate n .top) = values := by
  rw [trimTop, List.reverse_append, List.reverse_replicate,
    List.dropWhile_append_of_pos (by simp)]
  cases hreverse : values.reverse with
  | nil => simpa using hreverse.symm
  | cons last rest =>
    have hlast : last ≠ .top := h last (by rw [← List.mem_reverse, hreverse]; simp)
    rw [List.dropWhile_cons_of_neg (by simpa using hlast), ← hreverse, List.reverse_reverse]

theorem compactLocals_expand {values : List VerificationType} (h : ∀ v ∈ values, v ≠ .top)
    (n : Nat) (stack : List VerificationType) :
    Frame.compactLocals ⟨expand n values, stack⟩ = values := by
  rw [compactLocals, expand, compactSlots_expand, trimTop_append_replicate h]

theorem Paired.cons {locals : List VerificationType} (h : Paired locals)
    {type : VerificationType} (hnext : type.isWide = true → locals[0]? = some .top) :
    Paired (type :: locals) := by
  intro i hi
  cases i with
  | zero => simpa using hnext (by simpa [isWideAt] using hi)
  | succ i => simpa using h i (by simpa [isWideAt] using hi)

theorem paired_expand (n : Nat) (values : List VerificationType) : Paired (expand n values) := by
  unfold expand
  generalize n - (values.flatMap slotsOf).length = k
  induction values with
  | nil =>
    intro i hi
    obtain ⟨type, htype, hwide⟩ := isWideAt_eq_true.1 hi
    simp only [List.flatMap_nil, List.nil_append, List.getElem?_replicate,
      Option.ite_none_right_eq_some, Option.some.injEq] at htype
    rw [← htype.2] at hwide
    cases hwide
  | cons value values ih =>
    cases hwide : value.isWide
    · have hvalue : Paired (value :: _) := ih.cons (by simp [hwide])
      simpa [slotsOf, hwide] using hvalue
    · have htop : Paired (.top :: _) := ih.cons nofun
      have hvalue : Paired (value :: _) := htop.cons (by simp)
      simpa [slotsOf, hwide] using hvalue

end Frame

/-! ### Types of parameters -/

theorem VerificationType.endsInside_semicolon (name : List Char) :
    endsInside (name ++ [';']) = false := by
  rw [endsInside, List.getLast?_concat]
  decide

namespace FieldType

/-- The type of a parameter. What is smaller than a word is an integer. -/
def verificationType : FieldType → VerificationType
  | .base letter =>
      if letter = 'J' then .long
      else if letter = 'D' then .double
      else if letter = 'F' then .float
      else .integer
  | .object name => .object name
  | .array element => .object (FieldType.array element).text

theorem ofDescriptor_text {t : FieldType} (h : t.Valid) :
    VerificationType.ofDescriptor t.text = .ok t.verificationType := by
  cases t with
  | base letter =>
    have hletter : letter = 'B' ∨ letter = 'C' ∨ letter = 'D' ∨ letter = 'F' ∨ letter = 'I' ∨
        letter = 'J' ∨ letter = 'S' ∨ letter = 'Z' := by
      simpa [Valid, Descriptor.isBase] using h
    rcases hletter with rfl | rfl | rfl | rfl | rfl | rfl | rfl | rfl
    all_goals decide
  | object name =>
    have hpos : 0 < name.utf8ByteSize := by
      have hne := mt String.utf8ByteSize_eq_zero_iff.1 h.1
      omega
    have hsize : 2 < (FieldType.object name).text.utf8ByteSize := by
      have htext : (FieldType.object name).text = "L" ++ name ++ ";" := by
        simp [text, chars, ← String.toList_inj]
      have hletters : "L".utf8ByteSize = 1 ∧ ";".utf8ByteSize = 1 := by decide
      rw [htext, String.utf8ByteSize_append, String.utf8ByteSize_append]
      omega
    have hchars : (FieldType.object name).text.toList = 'L' :: (name.toList ++ [';']) := by
      simp [text, chars]
    unfold VerificationType.ofDescriptor
    rw [hchars]
    simp [Nat.not_le.2 hsize, VerificationType.endsInside_semicolon, verificationType]
  | array element =>
    have hchars : (FieldType.array element).text.toList = '[' :: element.chars := by
      simp [text, chars]
    unfold VerificationType.ofDescriptor
    rw [hchars]
    rfl

theorem typeOf_text {t : FieldType} (h : t.Valid) :
    MethodScope.typeOf t.text = .ok t.verificationType := by
  rw [MethodScope.typeOf, ofDescriptor_text h]
  rfl

theorem verificationType_ne_top (t : FieldType) : t.verificationType ≠ .top := by
  cases t with
  | base letter =>
    unfold verificationType
    repeat' split
    all_goals simp
  | object name => simp [verificationType]
  | array element => simp [verificationType]

end FieldType

namespace MethodShape

def arguments (m : MethodShape) (className : String) (t : MethodType) : List VerificationType :=
  m.receiver className ++ t.parameters.map FieldType.verificationType

theorem descriptor?_eq_ok {descriptor : String} {d : MethodDescriptor} :
    MethodScope.descriptor? descriptor = .ok d ↔
      ∃ t : MethodType, t.Valid ∧ descriptor = t.text ∧ d = t.split := by
  rw [← MethodType.parse_eq_ok, MethodScope.descriptor?]
  cases MethodDescriptor.parse descriptor <;> simp [FrameError.lift]

theorem mapM_typeOf {t : MethodType} (h : t.Valid) : t.split.parameters.mapM MethodScope.typeOf =
    .ok (t.parameters.map FieldType.verificationType) := by
  rw [MethodType.split, List.mapM_map]
  exact mapM_eq_map fun p hp => FieldType.typeOf_text (h.1 p hp)

theorem arguments_ne_top (m : MethodShape) (className : String) (t : MethodType) :
    ∀ value ∈ m.arguments className t, value ≠ .top := by
  intro value hvalue
  rcases List.mem_append.1 hvalue with hvalue | hvalue
  · rcases mem_receiver hvalue with rfl | rfl <;> simp
  · obtain ⟨p, _, rfl⟩ := List.mem_map.1 hvalue
    exact p.verificationType_ne_top

theorem length_flatMap_slotsOf (values : List VerificationType) :
    (values.flatMap slotsOf).length = (values.map Frame.slotCount).sum := by
  induction values with
  | nil => rfl
  | cons value values ih =>
    rw [List.flatMap_cons, List.length_append, ih, List.map_cons, List.sum_cons]
    cases hwide : value.isWide <;> simp [slotsOf, Frame.slotCount, hwide]

theorem initialFrame_of_text {m : MethodShape} {className : String} {maxLocals : Nat}
    {initial : Frame} (h : m.initialFrame className maxLocals = .ok initial) :
    ∃ t : MethodType, t.Valid ∧ m.descriptor = t.text ∧
      initial = ⟨expand maxLocals (m.arguments className t), []⟩ := by
  obtain ⟨d, parameters, hd, hparameters, -, rfl⟩ := initialFrame_eq_ok.1 h
  obtain ⟨t, ht, htext, rfl⟩ := descriptor?_eq_ok.1 hd
  rw [mapM_typeOf ht] at hparameters
  cases hparameters
  exact ⟨t, ht, htext, rfl⟩

theorem initialFrame_eq_invalidLocal {m : MethodShape} {className : String} {maxLocals : Nat} :
    (∃ index pc, m.initialFrame className maxLocals = .error (.invalidLocal index pc)) ↔
      ∃ t : MethodType, t.Valid ∧ m.descriptor = t.text ∧
        maxLocals < ((m.arguments className t).map Frame.slotCount).sum := by
  constructor
  · rintro ⟨index, pc, h⟩
    unfold initialFrame at h
    cases hd : MethodScope.descriptor? m.descriptor with
    | error e =>
      obtain ⟨cause, hcause⟩ : ∃ cause, e = .format cause := by
        unfold MethodScope.descriptor? at hd
        cases hparse : MethodDescriptor.parse m.descriptor with
        | ok d => simp [hparse, FrameError.lift] at hd
        | error cause =>
          rw [hparse] at hd
          cases hd
          exact ⟨cause, rfl⟩
      rw [hd, hcause] at h
      cases h
    | ok d =>
      obtain ⟨t, ht, htext, rfl⟩ := descriptor?_eq_ok.1 hd
      refine ⟨t, ht, htext, ?_⟩
      rw [hd] at h
      simp only [bind, Except.bind, mapM_typeOf ht] at h
      split at h
      · next hlt => rwa [length_flatMap_slotsOf] at hlt
      · cases h
  · rintro ⟨t, ht, htext, hlt⟩
    have hd := descriptor?_eq_ok.2 ⟨t, ht, htext, rfl⟩
    unfold initialFrame
    rw [hd]
    simp only [bind, Except.bind, mapM_typeOf ht]
    rw [if_pos (by rwa [length_flatMap_slotsOf])]
    exact ⟨_, _, rfl⟩

end MethodShape

/-! ### All frames of a method -/

def Instruction.NewAt (code : CodeArray) (pc : Nat) : Prop :=
  StartsAt code pc ∧ code[pc]? = some 0xbb

structure Frame.WellShaped (code : CodeArray) (maxLocals : Nat) (f : Frame) : Prop where
  length : f.locals.length = maxLocals
  paired : Frame.Paired f.locals
  made : ∀ pc, .uninitialized pc ∈ f.locals ∨ .uninitialized pc ∈ f.stack →
    Instruction.NewAt code pc.toNat

namespace Flow

theorem keeps_length (flow : Flow) (count : Nat) :
    flow.Keeps fun f => f.locals.length = count where
  transfer _ _ _ _ _ hf h := (MethodScope.length_locals_of_transfer h).trans hf
  caught _ _ _ hf := hf
  merged _ _ _ _ hf _ h := (Loader.length_of_mergeTypes (Loader.mergeFrames_eq_ok h).2.1).trans hf

theorem keeps_paired (flow : Flow) : flow.Keeps fun f => Frame.Paired f.locals where
  transfer _ _ _ _ _ hf h := hf.step (MethodScope.localsStep_transfer h)
  caught _ _ _ hf := hf
  merged _ _ _ _ hf hg h := Loader.paired_mergeTypes hf hg (Loader.mergeFrames_eq_ok h).2.1

variable {load : Loader} {pool : Pool} {className : String} {m : MethodShape} {body : Code}

/-- Addresses of code of at most 65535 bytes fit into the types that name them. -/
theorem supplies_newAt (hsize : body.code.length ≤ 65535) {flow : Flow} {initial : Frame}
    (h : prepare load pool className m body = .ok (flow, initial)) :
    flow.Supplies fun type => ∀ pc, type = .uninitialized pc →
      Instruction.NewAt body.code.toArray pc.toNat := by
  refine supplies_of_prepare ?_ h ?_
  · rintro type htype pc rfl
    cases htype
  · rintro pc here index hhere hnew pc' ⟨⟩
    have hprogram := (prepare_eq_ok h).program
    obtain ⟨hstart, hlocate⟩ := Program.startsAt_of_listing hprogram hhere
    have hlt := hstart.lt_size
    have hpc : pc.toUInt16.toNat = pc := by
      rw [List.size_toArray] at hlt
      rw [Nat.toUInt16_eq, UInt16.toNat_ofNat']
      omega
    have hop : body.code.toArray[pc]? = some (body.code.toArray[pc]) :=
      Array.getElem?_eq_getElem hlt
    have hcontrols := Instruction.controls_decode? hop _ (Program.locate?_eq_some hlocate).1
    have hcode := hcontrols.new (by rw [hnew]; rfl)
    have hbyte : body.code.toArray[pc] = 0xbb := UInt8.toNat_inj.1 hcode
    rw [hpc]
    exact ⟨hstart, by rw [hop, hbyte]⟩

theorem wellShaped_of_runs (hsize : body.code.length ≤ 65535) {flow : Flow} {initial : Frame}
    (h : prepare load pool className m body = .ok (flow, initial)) {n : Nat} {s : FlowState}
    (hruns : flow.Runs n (flow.start initial) s) :
    AllFrames (Frame.WellShaped body.code.toArray body.maxLocals.toNat) s := by
  have hkeeps := ((keeps_length flow body.maxLocals.toNat).and (keeps_paired flow)).and
    (supplies_newAt hsize h).keeps
  have hinitial := (prepare_eq_ok h).initial
  have hall := hkeeps.runs hruns (allFrames_start flow ⟨⟨?_, ?_⟩, ?_⟩)
  · intro pc f hf
    obtain ⟨⟨hlength, hpaired⟩, htypes⟩ := hall pc f hf
    refine ⟨hlength, hpaired, fun pc hpc => ?_⟩
    rcases hpc with hpc | hpc
    · exact htypes.locals _ hpc pc rfl
    · exact htypes.stack _ hpc pc rfl
  · exact length_locals_of_initialFrame hinitial
  · obtain ⟨t, -, -, rfl⟩ := MethodShape.initialFrame_of_text hinitial
    exact Frame.paired_expand _ _
  · exact all_initialFrame (supplies_newAt hsize h).plain hinitial

/-- Every frame is well-shaped at every step of the worklist. So the slots of all frames can be told
from the listed locals, and the first locals are the arguments of the method. -/
theorem wellShaped_frames (load : Loader) (pool : Pool) (className : String) (m : MethodShape)
    (body : Code) (hsize : body.code.length ≤ 65535) :
    (∀ flow initial n s, prepare load pool className m body = .ok (flow, initial) →
      flow.Runs n (flow.start initial) s → ∀ (pc : Nat) (f : Frame), s.frames[pc]? = some f →
        f.WellShaped body.code.toArray body.maxLocals.toNat) ∧
    (∀ result, compute load pool className m body = .ok result →
      ∃ flow initial n last t, prepare load pool className m body = .ok (flow, initial) ∧
        flow.Runs n (flow.start initial) last ∧ last.queue = [] ∧
        t.Valid ∧ m.descriptor = MethodType.text t ∧
        result.initial = m.arguments className t ∧
        ∀ state ∈ result.states, ∃ (pc : Nat) (f : Frame), last.frames[pc]? = some f ∧
          state = f.state pc ∧
          MethodShape.expand body.maxLocals.toNat state.locals = f.locals) ∧
    ((∃ index pc, m.initialFrame className body.maxLocals.toNat =
        .error (.invalidLocal index pc)) ↔
      ∃ t : MethodType, t.Valid ∧ m.descriptor = t.text ∧
        body.maxLocals.toNat < ((m.arguments className t).map Frame.slotCount).sum) := by
  refine ⟨?_, ?_, MethodShape.initialFrame_eq_invalidLocal⟩
  · intro flow initial n s hprepare hruns
    exact wellShaped_of_runs hsize hprepare hruns
  · intro result h
    obtain ⟨flow, initial, n, last, hprepare, hruns, hempty, hstates, hlocals⟩ := runs_of_compute h
    obtain ⟨t, ht, htext, hinitial⟩ :=
      MethodShape.initialFrame_of_text (prepare_eq_ok hprepare).initial
    refine ⟨flow, initial, n, last, t, hprepare, hruns, hempty, ht, htext, ?_, ?_⟩
    · rw [hlocals, hinitial]
      exact Frame.compactLocals_expand (m.arguments_ne_top className t) _ _
    · intro state hstate
      obtain ⟨pc, f, hf, rfl⟩ := (length_le_of_listStates hstates).2 state hstate
      have hshape := wellShaped_of_runs hsize hprepare hruns pc f hf
      refine ⟨pc, f, hf, rfl, ?_⟩
      rw [← hshape.length]
      exact Frame.expand_compactLocals hshape.paired

/-- A new object is stored, and a long argument over its own second slot. -/
def storeOverlapping : Code where
  maxStack := 2
  maxLocals := 6
  code := [0xbb, 0, 2, 0x3a, 5, 0x1f, 0x41, 0xa7, 0, 3, 0xb1]
  handlers := []

theorem wellShaped_frames_overlapping : ∃ result flow initial n last,
    compute siblings castPool "M" ⟨"<init>", "(JI)V", false⟩ storeOverlapping = .ok result ∧
    result.initial = [.uninitializedThis, .long, .integer] ∧
    result.states.map (·.locals) =
      [[.uninitializedThis, .top, .long, .top, .uninitialized 0]] ∧
    prepare siblings castPool "M" ⟨"<init>", "(JI)V", false⟩ storeOverlapping =
      .ok (flow, initial) ∧
    flow.Runs n (flow.start initial) last ∧
    (∀ (pc : Nat) (f : Frame), last.frames[pc]? = some f →
      f.WellShaped storeOverlapping.code.toArray 6) ∧
    ∀ state ∈ result.states, ∃ (pc : Nat) (f : Frame), last.frames[pc]? = some f ∧
      MethodShape.expand 6 state.locals = f.locals := by
  obtain ⟨hshaped, hlisted, -⟩ := wellShaped_frames siblings castPool "M" ⟨"<init>", "(JI)V", false⟩
    storeOverlapping (by decide)
  have hrun : (compute siblings castPool "M" ⟨"<init>", "(JI)V", false⟩
      storeOverlapping).toOption.any (fun result =>
        result.initial = [.uninitializedThis, .long, .integer] && result.states.map (·.locals) =
          [[.uninitializedThis, .top, .long, .top, .uninitialized 0]]) = true := by
    decide +kernel
  obtain ⟨result, hresult, htest⟩ := exists_ok_of_any hrun
  simp only [Bool.and_eq_true, decide_eq_true_eq] at htest
  obtain ⟨flow, initial, n, last, t, hprepare, hruns, -, -, -, -, hstates⟩ := hlisted result hresult
  refine ⟨result, flow, initial, n, last, hresult, htest.1, htest.2, hprepare, hruns,
    hshaped flow initial n last hprepare hruns, fun state hstate => ?_⟩
  obtain ⟨pc, f, hf, -, hexpand⟩ := hstates state hstate
  exact ⟨pc, f, hf, hexpand⟩

end Flow

end ClassArchive
