import ClassArchive.Proofs.ArrayDepths
import ClassArchive.Proofs.DefiniteOutcomes
import ClassArchive.Proofs.FrameAddresses
import Mathlib.Algebra.Order.BigOperators.Group.Finset

/-!
The number of visits. A visit takes an address off the queue, and an address is queued again only
when its frame is new or has climbed. So the steps that are left to climb, over all addresses,
together with the length of the queue, go down with every visit.
-/
set_option autoImplicit false

namespace ClassArchive

/-! ### Heights of stacks -/

namespace Frame

theorem length_stack_of_drop {count pc : Nat} {f g : Frame} (h : f.drop count pc = .ok g) :
    g.stack.length ≤ f.stack.length := by
  unfold drop at h
  split at h
  · cases h
  · cases h
    simp

theorem length_stack_of_pop {pc : Nat} {f g : Frame} {type : VerificationType}
    (h : f.pop pc = .ok (type, g)) : g.stack.length ≤ f.stack.length := by
  rw [stack_of_pop h]
  simp

@[simp] theorem length_stack_push (type : VerificationType) (f : Frame) :
    (f.push type).stack.length = f.stack.length + 1 := rfl

end Frame

namespace MethodScope

theorem length_stack_of_takeReceiver {scope : MethodScope} {kind : InvokeKind} {method : String}
    {pc : Nat} {f g : Frame} (h : scope.takeReceiver kind method pc f = .ok g) :
    g.stack.length ≤ f.stack.length := by
  unfold takeReceiver at h
  split at h
  · cases h
    exact Nat.le_refl _
  · obtain ⟨⟨receiver, popped⟩, hpop, h⟩ := bind_eq_ok.1 h
    have hle := Frame.length_stack_of_pop hpop
    dsimp only at h
    split at h
    · obtain ⟨type, _, h⟩ := bind_eq_ok.1 h
      split at h
      · cases h
        simpa [Frame.construct] using hle
      · cases h
        exact hle
    · cases h
      exact hle

theorem length_stack_of_pushResult {d : MethodDescriptor} {f g : Frame}
    (h : pushResult d f = .ok g) : g.stack.length ≤ f.stack.length + 1 := by
  rcases pushResult_eq_ok h with rfl | ⟨type, -, rfl⟩
  · omega
  · simp

/-- No instruction leaves more than two values on top of what it found. -/
theorem length_stack_of_transfer {scope : MethodScope} {pc : Nat} {f g : Frame} {i : Instruction}
    (h : scope.transfer pc f i = .ok g) : g.stack.length ≤ f.stack.length + 2 := by
  cases i with
  | nop | push type | jump offset | new index =>
    cases h
    simp
  | loadConstant index | load kind slot | increment slot =>
    obtain ⟨_, _, h⟩ := bind_eq_ok.1 h
    cases h
    simp
  | getStatic index =>
    obtain ⟨_, _, h⟩ := bind_eq_ok.1 h
    obtain ⟨_, _, h⟩ := bind_eq_ok.1 h
    cases h
    simp
  | store kind slot =>
    obtain ⟨⟨value, popped⟩, hpop, h⟩ := bind_eq_ok.1 h
    have hle := Frame.length_stack_of_pop hpop
    simp only [Frame.setLocal] at h
    split at h
    · cases h
    · cases h
      exact Nat.le_trans hle (by omega)
  | operate arity result | newArray type =>
    obtain ⟨dropped, hdrop, h⟩ := bind_eq_ok.1 h
    have hle := Frame.length_stack_of_drop hdrop
    cases h
    simp only [Frame.length_stack_push]
    omega
  | loadElement =>
    obtain ⟨dropped, hdrop, h⟩ := bind_eq_ok.1 h
    obtain ⟨⟨array, popped⟩, hpop, h⟩ := bind_eq_ok.1 h
    obtain ⟨_, _, h⟩ := bind_eq_ok.1 h
    have hle := Frame.length_stack_of_drop hdrop
    have hle' := Frame.length_stack_of_pop hpop
    cases h
    simp only [Frame.length_stack_push]
    omega
  | discard count | branch arity offset | switch offsets | exit arity =>
    exact Nat.le_trans (Frame.length_stack_of_drop h) (by omega)
  | shuffle s =>
    simp only [transfer] at h
    split at h
    · next hshuffle =>
      cases h
      exact StackShuffle.length_le_of_shuffle? hshuffle
    · cases h
  | getField index =>
    obtain ⟨_, _, h⟩ := bind_eq_ok.1 h
    obtain ⟨dropped, hdrop, h⟩ := bind_eq_ok.1 h
    obtain ⟨_, _, h⟩ := bind_eq_ok.1 h
    have hle := Frame.length_stack_of_drop hdrop
    cases h
    simp only [Frame.length_stack_push]
    omega
  | newObjectArray index | newMultiArray index dimensions | cast index =>
    obtain ⟨_, _, h⟩ := bind_eq_ok.1 h
    obtain ⟨dropped, hdrop, h⟩ := bind_eq_ok.1 h
    have hle := Frame.length_stack_of_drop hdrop
    cases h
    simp only [Frame.length_stack_push]
    omega
  | invoke kind index =>
    obtain ⟨method, _, h⟩ := bind_eq_ok.1 h
    obtain ⟨descriptor, _, h⟩ := bind_eq_ok.1 h
    obtain ⟨dropped, hdrop, h⟩ := bind_eq_ok.1 h
    obtain ⟨taken, htaken, h⟩ := bind_eq_ok.1 h
    have hle := Frame.length_stack_of_drop hdrop
    have hle' := length_stack_of_takeReceiver htaken
    have hle'' := length_stack_of_pushResult h
    omega
  | invokeDynamic index =>
    obtain ⟨text, _, h⟩ := bind_eq_ok.1 h
    obtain ⟨descriptor, _, h⟩ := bind_eq_ok.1 h
    obtain ⟨dropped, hdrop, h⟩ := bind_eq_ok.1 h
    have hle := Frame.length_stack_of_drop hdrop
    have hle' := length_stack_of_pushResult h
    omega
  | unsupported opcode => cases h

end MethodScope

/-! ### What is left to climb -/

namespace Loader

noncomputable def frameRank (load : Loader) (limit : Nat) (f : Frame) : Nat :=
  load.typesRank limit f.locals + load.typesRank limit f.stack

section Ranks

variable {load : Loader} (h : load.Orderly) {depth limit : Nat}
  (hlimit : maxHierarchyDepth + depth + 2 < limit)
include h hlimit

theorem frameRank_mergeFrames {pc : Nat} {f g merged : Frame}
    (hg : g.All (VerificationType.Nested depth)) (hmerged : load.mergeFrames pc f g = .ok merged) :
    merged = f ∨ load.frameRank limit merged < load.frameRank limit f := by
  obtain ⟨-, hlocals, hstack⟩ := mergeFrames_eq_ok hmerged
  have hlocals' := typesRank_mergeTypes h hlimit hg.locals hlocals
  have hstack' : merged.stack = f.stack ∨
      load.typesRank limit merged.stack < load.typesRank limit f.stack := by
    have hreverse := typesRank_mergeTypes h hlimit
      (fun type htype => hg.stack type (by simpa using htype)) hstack
    simpa [typesRank] using hreverse
  simp only [frameRank]
  rcases hlocals' with hsame | hlt
  · rcases hstack' with hsame' | hlt'
    · left
      cases merged
      cases f
      simp_all
    · right
      rw [hsame]
      omega
  · right
    rcases hstack' with hsame' | hlt'
    · rw [hsame']
      omega
    · omega

theorem frameRank_le {f : Frame} (hf : f.All (VerificationType.Nested depth)) :
    load.frameRank limit f ≤ (f.locals.length + f.stack.length) * limit := by
  have hlocals := typesRank_le h hlimit hf.locals
  have hstack := typesRank_le h hlimit hf.stack
  rw [frameRank, Nat.add_mul]
  omega

end Ranks

end Loader

namespace Flow

variable (flow : Flow) (maxLocals depth limit : Nat)

/-- The most slots of a frame, in code of which each address adds at most two values. -/
def slotBound : Nat := maxLocals + 2 * (flow.program.code.size + 1)

/-- What is left to climb at an address, one step more before it has a frame. -/
noncomputable def addressRank (frames : Std.TreeMap Nat Frame) (pc : Nat) : Nat :=
  match frames[pc]? with
  | none => 1 + flow.slotBound maxLocals * limit
  | some f => flow.load.frameRank limit f

noncomputable def potential (s : FlowState) : Nat :=
  ∑ pc ∈ Finset.range flow.program.code.size, flow.addressRank maxLocals limit s.frames pc +
    s.queue.length

structure Bounded (s : FlowState) : Prop where
  locals : AllFrames (fun f => f.locals.length = maxLocals) s
  types : AllFrames (Frame.All (VerificationType.Nested depth)) s
  addresses : ∀ (pc : Nat) (f : Frame), s.frames[pc]? = some f → pc ≤ flow.program.code.size
  heights : AllFrames (fun f => f.stack.length ≤ 2 * s.frames.size) s

variable {flow maxLocals depth limit}

theorem Bounded.size_le {s : FlowState} (h : flow.Bounded maxLocals depth s) :
    s.frames.size ≤ flow.program.code.size + 1 := by
  have hnodup : s.frames.keys.Nodup :=
    Std.TreeMap.ordered_keys.imp fun hab heq => by simp [heq] at hab
  have hsub : s.frames.keys ⊆ List.range (flow.program.code.size + 1) := by
    intro pc hpc
    obtain ⟨f, hf⟩ := Option.isSome_iff_exists.1
      (Std.TreeMap.mem_iff_isSome_getElem?.1 (Std.TreeMap.mem_keys.1 hpc))
    have := h.addresses pc f hf
    exact List.mem_range.2 (by omega)
  have hlength := (List.subperm_of_subset hnodup hsub).length_le
  rwa [List.length_range, Std.TreeMap.length_keys] at hlength

variable (flow maxLocals limit) in
theorem sum_addressRank_insert (frames : Std.TreeMap Nat Frame) {target : Nat} (f : Frame)
    (htarget : target < flow.program.code.size) :
    ∑ pc ∈ Finset.range flow.program.code.size,
        flow.addressRank maxLocals limit (frames.insert target f) pc +
      flow.addressRank maxLocals limit frames target =
    ∑ pc ∈ Finset.range flow.program.code.size, flow.addressRank maxLocals limit frames pc +
      flow.load.frameRank limit f := by
  have hmem := Finset.mem_range.2 htarget
  have hthere : flow.addressRank maxLocals limit (frames.insert target f) target =
      flow.load.frameRank limit f := by
    simp [addressRank]
  have helsewhere : ∀ pc ∈ (Finset.range flow.program.code.size).erase target,
      flow.addressRank maxLocals limit (frames.insert target f) pc =
        flow.addressRank maxLocals limit frames pc := by
    intro pc hpc
    have hne := (Finset.mem_erase.1 hpc).1
    simp [addressRank, getElem?_insert_frame, hne.symm]
  have hafter := Finset.add_sum_erase _
    (fun pc => flow.addressRank maxLocals limit (frames.insert target f) pc) hmem
  have hbefore := Finset.add_sum_erase _
    (fun pc => flow.addressRank maxLocals limit frames pc) hmem
  have hsame : ∑ pc ∈ (Finset.range flow.program.code.size).erase target,
      flow.addressRank maxLocals limit (frames.insert target f) pc =
      ∑ pc ∈ (Finset.range flow.program.code.size).erase target,
        flow.addressRank maxLocals limit frames pc := Finset.sum_congr rfl helsewhere
  rw [hsame, hthere] at hafter
  omega

theorem size_insert_of_none {frames : Std.TreeMap Nat Frame} {target : Nat} (f : Frame)
    (h : frames[target]? = none) : (frames.insert target f).size = frames.size + 1 := by
  rw [Std.TreeMap.size_insert, Std.TreeMap.contains_eq_isSome_getElem?, h]
  rfl

theorem size_insert_of_some {frames : Std.TreeMap Nat Frame} {target : Nat} (f : Frame) {g : Frame}
    (h : frames[target]? = some g) : (frames.insert target f).size = frames.size := by
  rw [Std.TreeMap.size_insert, Std.TreeMap.contains_eq_isSome_getElem?, h]
  rfl

theorem length_stack_of_mergeFrames {load : Loader} {pc : Nat} {f g merged : Frame}
    (h : load.mergeFrames pc f g = .ok merged) : merged.stack.length = f.stack.length := by
  have hlength := Loader.length_of_mergeTypes (Loader.mergeFrames_eq_ok h).2.2
  simpa using hlength

section Joins

theorem Bounded.mergeInto {s t : FlowState} {target : Nat} {f : Frame}
    (hs : flow.Bounded maxLocals depth s)
    (hkeeps : flow.Keeps (Frame.All (VerificationType.Nested depth)))
    (hlocals : f.locals.length = maxLocals)
    (htypes : f.All (VerificationType.Nested depth)) (htarget : target < flow.program.code.size)
    (hheight : f.stack.length ≤ 2 * (s.frames.size + 1))
    (h : flow.mergeInto s target f = .ok t) :
    flow.Bounded maxLocals depth t ∧ s.frames.size ≤ t.frames.size := by
  have hlocals' := (keeps_length flow maxLocals).mergeInto hs.locals hlocals h
  have htypes' := hkeeps.mergeInto hs.types htypes h
  have haddress : ∀ (g : Frame) (pc : Nat) (f' : Frame),
      (s.frames.insert target g)[pc]? = some f' → pc ≤ flow.program.code.size := by
    intro g pc f' hf'
    rw [getElem?_insert_frame] at hf'
    split at hf'
    · omega
    · exact hs.addresses pc f' hf'
  rcases mergeInto_cases h with ⟨hnone, rfl⟩ | ⟨existing, merged, hexisting, hmerged, hcases⟩
  · have hsize := size_insert_of_none f hnone
    refine ⟨⟨hlocals', htypes', haddress f, ?_⟩, by simp only [hsize]; omega⟩
    simp only [hsize]
    refine allFrames_insert ?_ hheight
    intro pc g hg
    have := hs.heights pc g hg
    omega
  · rcases hcases with ⟨-, rfl⟩ | ⟨-, rfl⟩
    · exact ⟨hs, Nat.le_refl _⟩
    · have hsize := size_insert_of_some merged hexisting
      have hold := hs.heights target existing hexisting
      have hsame := length_stack_of_mergeFrames hmerged
      refine ⟨⟨hlocals', htypes', haddress merged, ?_⟩, by simp only [hsize]; omega⟩
      simp only [hsize]
      exact allFrames_insert hs.heights (by omega)

variable (hload : flow.load.Orderly) (hlimit : maxHierarchyDepth + depth + 2 < limit)
include hload hlimit

theorem frameRank_le_slotBound {f : Frame} (hlocals : f.locals.length = maxLocals)
    (htypes : f.All (VerificationType.Nested depth))
    (hheight : f.stack.length ≤ 2 * (flow.program.code.size + 1)) :
    flow.load.frameRank limit f ≤ flow.slotBound maxLocals * limit := by
  refine Nat.le_trans (Loader.frameRank_le hload hlimit htypes) (Nat.mul_le_mul_right _ ?_)
  unfold slotBound
  omega

/-- A join does not raise the potential: the address that it queues has climbed. -/
theorem potential_mergeInto_le {s t : FlowState} {target : Nat} {f : Frame}
    (ht : flow.Bounded maxLocals depth t) (htypes : f.All (VerificationType.Nested depth))
    (htarget : target < flow.program.code.size) (h : flow.mergeInto s target f = .ok t) :
    flow.potential maxLocals limit t ≤ flow.potential maxLocals limit s := by
  rcases mergeInto_cases h with ⟨hnone, rfl⟩ | ⟨existing, merged, hexisting, hmerged, hcases⟩
  · have hsum := sum_addressRank_insert flow maxLocals limit s.frames f htarget
    have hthere : ((s.frames.insert target f))[target]? = some f := by simp
    have hheight := ht.heights target f hthere
    have hsize := ht.size_le
    have hrank := frameRank_le_slotBound hload hlimit (ht.locals target f hthere) htypes (by omega)
    have hrest : flow.addressRank maxLocals limit s.frames target =
        1 + flow.slotBound maxLocals * limit := by
      simp [addressRank, hnone]
    simp only [potential, List.length_append, List.length_singleton]
    omega
  · rcases hcases with ⟨-, rfl⟩ | ⟨hne, rfl⟩
    · exact Nat.le_refl _
    · have hsum := sum_addressRank_insert flow maxLocals limit s.frames merged htarget
      have hrank := (Loader.frameRank_mergeFrames hload hlimit htypes hmerged).resolve_left hne
      have hold : flow.addressRank maxLocals limit s.frames target =
          flow.load.frameRank limit existing := by
        simp [addressRank, hexisting]
      have hqueue : (if target ∈ s.queue then s.queue else s.queue ++ [target]).length ≤
          s.queue.length + 1 := by
        split <;> simp
      simp only [potential]
      omega

end Joins

/-! ### Runs -/

section Runs

variable {load : Loader} {pool : Pool} {className : String} {m : MethodShape} {body : Code}
  {initial : Frame} (hprepared : Prepared load pool className m body flow initial)
  (hload : load.Orderly)
  (hlimit : maxHierarchyDepth + flow.arrayDepth m.descriptor + 2 < limit)
include hprepared hload hlimit

theorem potential_step_lt {s t : FlowState} {pc : Nat} {rest : List Nat}
    (hs : flow.Bounded maxLocals (flow.arrayDepth m.descriptor) s) (hqueue : s.queue = pc :: rest)
    (h : flow.step s pc rest = .ok t) :
    flow.Bounded maxLocals (flow.arrayDepth m.descriptor) t ∧
      flow.potential maxLocals limit t < flow.potential maxLocals limit s := by
  have hkeeps := keeps_nested hprepared hload
  have hload' : flow.load.Orderly := hprepared.load ▸ hload
  have htaken : flow.Bounded maxLocals (flow.arrayDepth m.descriptor) { s with queue := rest } :=
    ⟨hs.locals, hs.types, hs.addresses, hs.heights⟩
  have hless : flow.potential maxLocals limit { s with queue := rest } <
      flow.potential maxLocals limit s := by
    simp only [potential, hqueue, List.length_cons]
    omega
  rcases step_cases h with ⟨-, rfl⟩ | ⟨before, here, after, hbefore, hhere, hafter, hjoins⟩
  · exact ⟨htaken, hless⟩
  · have hlocals := hs.locals pc before hbefore
    have htypes := hs.types pc before hbefore
    have hlocals' := (MethodScope.length_locals_of_transfer hafter).trans hlocals
    have htypes' := hkeeps.transfer pc here before after hhere htypes hafter
    have hgrowth := MethodScope.length_stack_of_transfer hafter
    have hheight := hs.heights pc before hbefore
    -- along the joins of the visit there are never fewer frames than before it
    have hrun : flow.Bounded maxLocals (flow.arrayDepth m.descriptor) t ∧
        s.frames.size ≤ t.frames.size ∧
        flow.potential maxLocals limit t ≤
          flow.potential maxLocals limit { s with queue := rest } := by
      clear h
      induction hjoins with
      | refl => exact ⟨htaken, Nat.le_refl _, Nat.le_refl _⟩
      | tail _ hjoin ih =>
        obtain ⟨hbounded, hsize, hpotential⟩ := ih
        cases hjoin with
        | lead _ =>
          exact ⟨⟨hbounded.locals, hbounded.types, hbounded.addresses, hbounded.heights⟩, hsize,
            hpotential⟩
        | @merge target f _ hsent hmerge =>
          have htarget := (leads_of_sends hprepared hhere hsent).2.lt_size
          rw [← Program.code_of_decode hprepared.program] at htarget
          have hnested := hkeeps.sends htypes htypes' hsent
          have hlength := (keeps_length flow maxLocals).sends hlocals hlocals' hsent
          have hshort : f.stack.length ≤ before.stack.length + 2 := by
            cases hsent with
            | caught _ _ _ => simp
            | branch _ _ _ => exact hgrowth
            | next _ _ => exact hgrowth
          obtain ⟨hbounded', hsize'⟩ :=
            hbounded.mergeInto hkeeps hlength hnested htarget (by omega) hmerge
          have hle := potential_mergeInto_le hload' hlimit hbounded' hnested htarget hmerge
          exact ⟨hbounded', by omega, by omega⟩
    obtain ⟨hbounded, -, hle⟩ := hrun
    exact ⟨hbounded, by omega⟩

theorem visits_le_potential {n : Nat} {s t : FlowState} (h : flow.Runs n s t)
    (hs : flow.Bounded maxLocals (flow.arrayDepth m.descriptor) s) :
    n + flow.potential maxLocals limit t ≤ flow.potential maxLocals limit s := by
  induction h with
  | refl => omega
  | visit hqueue hstep _ ih =>
    obtain ⟨hbounded, hlt⟩ := potential_step_lt hprepared hload hlimit hs hqueue hstep
    have := ih hbounded
    omega

omit hload hlimit in
theorem bounded_start :
    flow.Bounded body.maxLocals.toNat (flow.arrayDepth m.descriptor) (flow.start initial) where
  locals := allFrames_start flow (length_locals_of_initialFrame hprepared.initial)
  types := allFrames_start flow (nested_initial hprepared)
  addresses pc f hf := by
    simp only [start, getElem?_insert_frame] at hf
    split at hf
    · omega
    · simp at hf
  heights := by
    obtain ⟨_, _, -, -, -, rfl⟩ := MethodShape.initialFrame_eq_ok.1 hprepared.initial
    exact allFrames_start flow (by simp)

theorem potential_start_le :
    flow.potential body.maxLocals.toNat limit (flow.start initial) ≤
      (flow.program.code.size + 1) * (1 + flow.slotBound body.maxLocals.toNat * limit) := by
  have hload' : flow.load.Orderly := hprepared.load ▸ hload
  have hbounded := bounded_start hprepared
  have hrank : ∀ pc ∈ Finset.range flow.program.code.size,
      flow.addressRank body.maxLocals.toNat limit (flow.start initial).frames pc ≤
        1 + flow.slotBound body.maxLocals.toNat * limit := by
    intro pc _
    unfold addressRank
    split
    · exact Nat.le_refl _
    · next f hf =>
      have hheight := hbounded.heights pc f hf
      have hsize := hbounded.size_le
      have hle := frameRank_le_slotBound hload' hlimit (hbounded.locals pc f hf)
        (hbounded.types pc f hf) (by omega)
      omega
  have hsum := Finset.sum_le_card_nsmul _
    (fun pc => flow.addressRank body.maxLocals.toNat limit (flow.start initial).frames pc) _ hrank
  rw [Finset.card_range, Nat.nsmul_eq_mul] at hsum
  have hqueue : (flow.start initial).queue.length = 1 := rfl
  rw [potential, hqueue, Nat.succ_mul]
  omega

end Runs

theorem visits_le_budget {load : Loader} (hload : load.Orderly) {pool : Pool} {className : String}
    {m : MethodShape} {body : Code} {initial : Frame}
    (h : prepare load pool className m body = .ok (flow, initial)) {n : Nat} {s : FlowState}
    (hruns : flow.Runs n (flow.start initial) s) :
    n + s.queue.length ≤ flow.budget body.maxLocals.toNat m.descriptor := by
  have hprepared := prepare_eq_ok h
  have hlimit : maxHierarchyDepth + flow.arrayDepth m.descriptor + 2 <
      2 * maxHierarchyDepth + flow.arrayDepth m.descriptor + 8 := by
    omega
  have hvisits := visits_le_potential hprepared hload hlimit hruns (bounded_start hprepared)
  have hstart := potential_start_le hprepared hload hlimit
  have hbudget : flow.budget body.maxLocals.toNat m.descriptor =
      (flow.program.code.size + 1) * (1 + flow.slotBound body.maxLocals.toNat *
        (2 * maxHierarchyDepth + flow.arrayDepth m.descriptor + 8)) := rfl
  have hqueue : s.queue.length ≤ flow.potential body.maxLocals.toNat
      (2 * maxHierarchyDepth + flow.arrayDepth m.descriptor + 8) s := Nat.le_add_left _ _
  omega

/-! ### The end of the worklist -/

section End

variable {load : Loader} (hload : load.Orderly) {pool : Pool} {className : String} {m : MethodShape}
  {body : Code} {initial : Frame}
include hload

theorem exists_end (h : prepare load pool className m body = .ok (flow, initial)) :
    ∃ n last, flow.Runs n (flow.start initial) last ∧
      ((last.queue = [] ∧ compute load pool className m body =
          (flow.listStates last).map fun states => ⟨initial.compactLocals, states⟩) ∨
        ∃ pc rest e, last.queue = pc :: rest ∧ flow.step last pc rest = .error e ∧
          compute load pool className m body = .error e) := by
  have hcompute := compute_eq_settle h
  rcases flow.settle_cases (flow.budget body.maxLocals.toNat m.descriptor) (flow.start initial) with
    ⟨n, last, -, hruns, hempty, hsettle⟩ |
    ⟨n, last, pc, rest, e, -, hruns, hqueue, hstep, hsettle⟩ | ⟨last, hruns, hne, -⟩
  · rw [hsettle] at hcompute
    exact ⟨n, last, hruns, .inl ⟨hempty, hcompute⟩⟩
  · rw [hsettle] at hcompute
    exact ⟨n, last, hruns, .inr ⟨pc, rest, e, hqueue, hstep, hcompute⟩⟩
  -- with the budget used up and an address still queued, there are more visits than the bound
  · have hvisits := visits_le_budget hload h hruns
    have hlength := List.length_pos_iff.2 hne
    omega

theorem breakdown_of_compute {e : FrameError} {cause : Breakdown}
    (h : compute load pool className m body = .error e) (hcause : e.breakdown? = some cause) :
    ∃ flow initial n s, prepare load pool className m body = .ok (flow, initial) ∧
      flow.Runs n (flow.start initial) s ∧
      ((∃ pc before, flow.program.listing[pc]? = none ∧ s.frames[pc]? = some before ∧
          cause = .noInstruction pc) ∨
        ∃ descriptor, flow.MeetsCut s descriptor ∧ cause = .cutText descriptor) := by
  have hreports : ∀ e : FrameError, e.Ordinary → e.breakdown? ≠ some cause := by
    intro e he
    simp [he.breakdown?_eq_none]
  cases hprepare : prepare load pool className m body with
  | error e' =>
    unfold compute at h
    rw [hprepare] at h
    cases h
    refine absurd hcause (failsOnly_prepare hreports (fun e he => ?_) e hprepare)
    obtain ⟨pc, rfl⟩ := Program.failsOnly_decode _ e he
    simp [FrameError.breakdown?]
  | ok p =>
    obtain ⟨flow, initial⟩ := p
    obtain ⟨n, last, hruns, ⟨-, hcompute⟩ | ⟨pc, rest, e', hqueue, hstep, hcompute⟩⟩ :=
      exists_end hload hprepare
    · have hlisted := (flow.failsOnly_listStates hreports last).map
        fun states => (⟨initial.compactLocals, states⟩ : ComputedFrames)
      exact absurd hcause (hlisted e (hcompute.symm.trans h))
    · cases hcompute.symm.trans h
      refine ⟨flow, initial, n, last, rfl, hruns, ?_⟩
      rcases breakdown_of_step hqueue hstep with
        hnone | ⟨hnone, ⟨before, hbefore⟩, rfl⟩ | ⟨descriptor, hmeets, rfl⟩
      · simp [hnone] at hcause
      · cases hcause
        exact .inl ⟨pc, before, hnone, hbefore, rfl⟩
      · cases hcause
        exact .inr ⟨descriptor, hmeets, rfl⟩

theorem compute_of_meetsCut (h : prepare load pool className m body = .ok (flow, initial)) {n : Nat}
    {s : FlowState} (hruns : flow.Runs n (flow.start initial) s) {descriptor : String}
    (hmeets : flow.MeetsCut s descriptor) : compute load pool className m body =
      .error (.format (.breakdown (.cutText descriptor))) := by
  obtain ⟨pc, rest, hqueue, hstep⟩ := hmeets.step_eq_error
  have hvisits := visits_le_budget hload h hruns
  rw [hqueue, List.length_cons] at hvisits
  rw [compute_eq_settle h, hruns.settle_eq_error hqueue hstep (by omega)]
  rfl

end End

/-- Over an orderly hierarchy the worklist runs out or meets an error, whatever the code. No run
exceeds the bound on the visits, so the bound never decides the outcome. Unless there is no code,
the outcome is a result or a report, except where a run comes to an instruction that takes a
descriptor which is cut short. -/
theorem ends_of_orderly {load : Loader} (hload : load.Orderly) (pool : Pool) (className : String)
    (m : MethodShape) (body : Code) :
    compute load pool className m body ≠ .error .unsettled ∧
    (∀ flow initial, prepare load pool className m body = .ok (flow, initial) →
      (∀ n s, flow.Runs n (flow.start initial) s →
        n + s.queue.length ≤ flow.budget body.maxLocals.toNat m.descriptor) ∧
      ∃ n last, flow.Runs n (flow.start initial) last ∧
        ((last.queue = [] ∧ compute load pool className m body =
            (flow.listStates last).map fun states => ⟨initial.compactLocals, states⟩) ∨
          ∃ pc rest e, last.queue = pc :: rest ∧ flow.step last pc rest = .error e ∧
            compute load pool className m body = .error e)) ∧
    (0 < body.code.length → ∀ cause,
      (∃ e, compute load pool className m body = .error e ∧ e.breakdown? = some cause) ↔
        ∃ flow initial n s descriptor, prepare load pool className m body = .ok (flow, initial) ∧
          flow.Runs n (flow.start initial) s ∧ flow.MeetsCut s descriptor ∧
          cause = .cutText descriptor) := by
  refine ⟨fun hunsettled => ?_, fun flow initial hprepare => ?_, fun hpos cause => ⟨?_, ?_⟩⟩
  · obtain ⟨_, _, _, _, -, -, ⟨_, _, -, -, hcause⟩ | ⟨_, -, hcause⟩⟩ :=
      breakdown_of_compute hload hunsettled rfl
    · cases hcause
    · cases hcause
  · exact ⟨fun n s hruns => visits_le_budget hload hprepare hruns, exists_end hload hprepare⟩
  · rintro ⟨e, herror, hcause⟩
    obtain ⟨flow, initial, n, s, hprepare, hruns, hmeets⟩ :=
      breakdown_of_compute hload herror hcause
    rcases hmeets with ⟨pc, f, hnone, hf, -⟩ | ⟨descriptor, hmeets, rfl⟩
    · have hprepared := prepare_eq_ok hprepare
      have hfirst : Instruction.StartsAt body.code.toArray 0 := ⟨by simpa using hpos, .refl⟩
      obtain ⟨here, hhere⟩ := Program.exists_listing hprepared.program
        (reached_of_runs hprepared hruns hfirst pc f hf).1
      rw [hnone] at hhere
      cases hhere
    · exact ⟨flow, initial, n, s, descriptor, hprepare, hruns, hmeets, rfl⟩
  · rintro ⟨flow, initial, n, s, descriptor, hprepare, hruns, hmeets, rfl⟩
    exact ⟨_, compute_of_meetsCut hload hprepare hruns hmeets, rfl⟩

theorem linked_siblings {name parent : String} (h : siblings.Link name parent) :
    (name = "A" ∨ name = "B") ∧ parent = "C" := by
  obtain ⟨node, hnode, hparent⟩ := h
  unfold siblings at hnode
  split at hnode <;> cases hnode <;> simp_all [TypeNode.parents]

theorem orderly_siblings : siblings.Orderly where
  acyclic name h := by
    obtain ⟨_, hfirst, -⟩ := Relation.TransGen.head'_iff.1 h
    obtain ⟨_, -, hlast⟩ := Relation.TransGen.tail'_iff.1 h
    have := linked_siblings hfirst
    have := linked_siblings hlast
    simp_all
  short names _ hchain := by
    match names, hchain with
    | [], _ | [_], _ | [_, _], _ => simp [maxHierarchyDepth]
    | _ :: _ :: _ :: _, hchain =>
      obtain ⟨hfirst, hsecond, -⟩ := by simpa using hchain
      have := linked_siblings hfirst
      have := linked_siblings hsecond
      simp_all
  plain name parent h := by
    rw [(linked_siblings h).2]
    decide

/-- A loop whose local is null at first, then one of two classes, then the other. -/
def castLoop : Code where
  maxStack := 1
  maxLocals := 1
  code := [1, 75, 42, 87, 1, 192, 0, 2, 75, 3, 153, 0xff, 0xf8, 1, 192, 0, 4, 75, 167, 0xff, 0xf0]

theorem ends_of_orderly_castLoop : siblings.Orderly ∧ ∃ flow initial n last states,
    prepare siblings castPool "M" ⟨"m", "()V", true⟩ castLoop = .ok (flow, initial) ∧
    flow.Runs n (flow.start initial) last ∧ n ≤ flow.budget 1 "()V" ∧ last.queue = [] ∧
    flow.listStates last = .ok states ∧ states = [⟨2, [.object "C"], []⟩] ∧
    ∀ n s descriptor, flow.Runs n (flow.start initial) s → ¬ flow.MeetsCut s descriptor := by
  have hrun : (compute siblings castPool "M" ⟨"m", "()V", true⟩ castLoop).toOption.any
      (fun result => result.states = [⟨2, [.object "C"], []⟩]) = true := by
    decide +kernel
  obtain ⟨result, hresult, hstates⟩ := exists_ok_of_any hrun
  rw [decide_eq_true_eq] at hstates
  obtain ⟨flow, initial, -, -, hprepare, -⟩ := runs_of_compute hresult
  obtain ⟨-, hends, hbreaks⟩ :=
    ends_of_orderly orderly_siblings castPool "M" ⟨"m", "()V", true⟩ castLoop
  obtain ⟨hbound, n, last, hruns, ⟨hempty, hcompute⟩ | ⟨_, _, _, -, -, hcompute⟩⟩ :=
    hends _ _ hprepare
  · have hvisits := hbound n last hruns
    rw [hresult] at hcompute
    obtain ⟨states, hlisted, rfl⟩ := map_eq_ok.1 hcompute.symm
    refine ⟨orderly_siblings, flow, initial, n, last, states, hprepare, hruns,
      Nat.le_of_add_right_le hvisits, hempty, hlisted, hstates, fun k s descriptor hs hmeets => ?_⟩
    obtain ⟨e, herror, -⟩ := (hbreaks (by decide) (.cutText descriptor)).2
      ⟨flow, initial, k, s, descriptor, hprepare, hs, hmeets, rfl⟩
    rw [hresult] at herror
    cases herror
  · rw [hresult] at hcompute
    cases hcompute

/-- The type of a field is taken from the text `Lé`. -/
def cutField : Code where
  maxStack := 1
  maxLocals := 0
  code := [0xb2, 0, 6, 0x57, 0xb1]

def cutFieldPool : Pool := Pool.ofSlots
  #[.utf8 "A", .classInfo 1, .utf8 "f", .utf8 "Lé", .nameAndType 3 4, .fieldRef 2 5]

/-- Over an orderly hierarchy a computation can end without a result and without a report. -/
theorem breaks_down_at_cutField : siblings.Orderly ∧ 0 < cutField.code.length ∧
    ∃ e, compute siblings cutFieldPool "A" ⟨"m", "()V", true⟩ cutField = .error e ∧
      e.breakdown? = some (.cutText "Lé") :=
  ⟨orderly_siblings, by decide, .format (.breakdown (.cutText "Lé")), by decide +kernel, rfl⟩

end Flow

end ClassArchive
