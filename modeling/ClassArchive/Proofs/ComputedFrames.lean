import ClassArchive.Proofs.InstructionStarts
import ClassArchive.Proofs.PoolEdits
import ClassArchive.Proofs.SettledFrames
import Mathlib.Data.List.Perm.Subperm

/-!
The frames of a method do not depend on what is appended to the pool later: an index that could be
resolved keeps its meaning, and the longer bound on the visits is not needed. Their number and their
locals are limited by the size of the code and by the declared number of slots.
-/
set_option autoImplicit false

namespace ClassArchive

theorem Persists.lift {α : Type} {x y : Except FormatError α} (h : Persists x y) :
    Persists (FrameError.lift x) (FrameError.lift y) := by
  intro a ha
  cases x with
  | error e => cases ha
  | ok b =>
    cases ha
    rw [h a rfl]
    rfl

/-! ### Instructions in a longer pool -/

namespace MethodScope

def inPool (scope : MethodScope) (pool : Pool) : MethodScope := { scope with pool }

variable {scope : MethodScope} {q : Pool} (h : scope.pool.Extends q)
include h

theorem persists_className? (index : UInt16) :
    Persists (scope.className? index) ((scope.inPool q).className? index) :=
  .lift fun _ => h.className

theorem persists_member? (index : UInt16) :
    Persists (scope.member? index) ((scope.inPool q).member? index) :=
  .lift fun _ => h.member

theorem persists_callSite? (index : UInt16) :
    Persists (scope.callSite? index) ((scope.inPool q).callSite? index) := by
  refine .lift (.bind (fun _ => h.entry) fun c => ?_)
  cases c with
  | invokeDynamic bootstrap pair => exact .bind (fun _ => h.nameAndType) fun _ => .refl _
  | _ => exact .refl _

theorem persists_constantType (index : UInt16) :
    Persists (scope.constantType index) ((scope.inPool q).constantType index) := by
  refine .lift (.bind (fun _ => h.entry) fun c => ?_)
  cases c with
  | dynamic bootstrap pair => exact .bind (fun _ => h.nameAndType) fun _ => .refl _
  | _ => exact .refl _

theorem persists_constructed? (type : VerificationType) :
    Persists (scope.constructed? type) ((scope.inPool q).constructed? type) := by
  cases type with
  | uninitialized pc =>
    unfold constructed?
    simp only [inPool]
    split
    · exact (persists_className? h _).bind fun _ => .refl _
    · exact .refl _
  | _ => exact .refl _

theorem persists_takeReceiver (kind : InvokeKind) (method : String) (pc : Nat) (f : Frame) :
    Persists (scope.takeReceiver kind method pc f)
      ((scope.inPool q).takeReceiver kind method pc f) := by
  unfold takeReceiver
  split
  · exact .refl _
  · refine .bind (.refl _) fun popped => ?_
    dsimp only
    split
    · exact (persists_constructed? h _).bind fun _ => .refl _
    · exact .refl _

theorem persists_transfer (pc : Nat) (f : Frame) (i : Instruction) :
    Persists (scope.transfer pc f i) ((scope.inPool q).transfer pc f i) := by
  cases i with
  | loadConstant index => exact (persists_constantType h index).bind fun _ => .refl _
  | getStatic index | getField index => exact (persists_member? h index).bind fun _ => .refl _
  | invoke kind index =>
    refine (persists_member? h index).bind fun method => .bind (.refl _) fun descriptor =>
      .bind (.refl _) fun dropped => ?_
    exact (persists_takeReceiver h kind method.name pc dropped).bind fun _ => .refl _
  | invokeDynamic index => exact (persists_callSite? h index).bind fun _ => .refl _
  | newObjectArray index | newMultiArray index dimensions | cast index =>
    exact (persists_className? h index).bind fun _ => .refl _
  | _ => exact .refl _

end MethodScope

/-! ### Methods in a longer pool -/

namespace Flow

def inPool (flow : Flow) (pool : Pool) : Flow := { flow with scope := flow.scope.inPool pool }

theorem persists_step {flow : Flow} {q : Pool} (h : flow.scope.pool.Extends q) (state : FlowState)
    (pc : Nat) (rest : List Nat) :
    Persists (flow.step state pc rest) ((flow.inPool q).step state pc rest) := by
  unfold step
  simp only [inPool]
  split
  · exact (MethodScope.persists_transfer h _ _ _).bind fun _ => .refl _
  · exact .refl _
  · exact .refl _

theorem Runs.inPool {flow : Flow} {q : Pool} (h : flow.scope.pool.Extends q) {n : Nat}
    {s t : FlowState} (hruns : flow.Runs n s t) : (flow.inPool q).Runs n s t := by
  induction hruns with
  | refl s => exact .refl s
  | visit hqueue hstep _ ih => exact .visit hqueue (persists_step h _ _ _ _ hstep) ih

theorem le_foldl_of_le {α : Type} {grow : Nat → α → Nat} (h : ∀ n a, n ≤ grow n a) (xs : List α)
    (n : Nat) : n ≤ xs.foldl grow n := by
  induction xs generalizing n with
  | nil => exact Nat.le_refl _
  | cons x xs ih => exact Nat.le_trans (h n x) (ih _)

theorem arrayDepth_le_inPool {flow : Flow} {q : Pool} (h : Pool.Grown flow.scope.pool q)
    (descriptor : String) :
    flow.arrayDepth descriptor ≤ (flow.inPool q).arrayDepth descriptor := by
  obtain ⟨more, hmore⟩ := h.isPrefix_slots
  unfold arrayDepth
  simp only [inPool, MethodScope.inPool, ← Array.foldl_toList, ← hmore, List.foldl_append]
  refine Nat.succ_le_succ (le_foldl_of_le ?_ more _)
  intro depth c
  split
  · exact Nat.le_max_left _ _
  · exact Nat.le_refl _

theorem budget_le_inPool {flow : Flow} {q : Pool} (h : Pool.Grown flow.scope.pool q)
    (maxLocals : Nat) (descriptor : String) :
    flow.budget maxLocals descriptor ≤ (flow.inPool q).budget maxLocals descriptor := by
  have hdepth := arrayDepth_le_inPool h descriptor
  refine Nat.mul_le_mul_left _ (Nat.add_le_add_left (Nat.mul_le_mul_left _ ?_) _)
  omega

theorem persists_catchRange {scope : MethodScope} {q : Pool} (h : scope.pool.Extends q)
    (program : Program) (handler : ExceptionHandler) :
    Persists (catchRange scope program handler) (catchRange (scope.inPool q) program handler) := by
  unfold catchRange
  dsimp only
  split
  · split
    · exact .refl _
    · exact (MethodScope.persists_className? h _).bind fun _ => .refl _
  · exact .refl _

theorem prepare_inPool {load : Loader} {p q : Pool} (h : p.Extends q) {className : String}
    {m : MethodShape} {body : Code} {flow : Flow} {initial : Frame}
    (hprepare : prepare load p className m body = .ok (flow, initial)) :
    prepare load q className m body = .ok (flow.inPool q, initial) ∧ flow.scope.pool = p := by
  obtain ⟨first, hfirst, hprepare⟩ := bind_eq_ok.1 hprepare
  obtain ⟨program, hprogram, hprepare⟩ := bind_eq_ok.1 hprepare
  obtain ⟨ranges, hranges, hprepare⟩ := bind_eq_ok.1 hprepare
  cases hprepare
  let scope : MethodScope := { pool := p, className, code := program.code }
  have hkept : Persists (body.handlers.mapM (catchRange scope program))
      (body.handlers.mapM (catchRange (scope.inPool q) program)) :=
    Persists.mapM (persists_catchRange h program) body.handlers
  refine ⟨?_, rfl⟩
  exact bind_eq_ok.2 ⟨initial, hfirst, bind_eq_ok.2 ⟨program, hprogram,
    bind_eq_ok.2 ⟨ranges, hkept ranges hranges, rfl⟩⟩⟩

/-- What is appended to the pool does not change the frames of a method. -/
theorem persists_compute {load : Loader} {p q : Pool} (h : Pool.Grown p q) (className : String)
    (m : MethodShape) (body : Code) :
    Persists (compute load p className m body) (compute load q className m body) := by
  intro computed hcomputed
  obtain ⟨⟨flow, initial⟩, hprepare, hcomputed⟩ := bind_eq_ok.1 hcomputed
  obtain ⟨last, hsettle, hlist⟩ := bind_eq_ok.1 hcomputed
  -- listing the states does not look at the pool, so only the visits are to be compared
  obtain ⟨hprepared, rfl⟩ := prepare_inPool h.extends hprepare
  refine bind_eq_ok.2 ⟨_, hprepared, bind_eq_ok.2 ⟨last, ?_, hlist⟩⟩
  obtain ⟨n, hle, hruns, hempty⟩ := runs_of_settle hsettle
  exact (hruns.inPool h.extends).settle_eq_ok hempty (Nat.le_trans hle (budget_le_inPool h _ _))

end Flow

/-! ### Sizes -/

namespace Frame

theorem length_compactSlots_le (types : List VerificationType) :
    (compactSlots types).length ≤ types.length := by
  fun_induction compactSlots types with
  | case1 | case2 => exact Nat.le_refl _
  | case3 type next rest _ ih =>
    simp only [List.length_cons]
    omega
  | case4 type next rest _ ih =>
    simp only [List.length_cons] at ih ⊢
    omega

theorem length_compactLocals_le (f : Frame) : f.compactLocals.length ≤ f.locals.length := by
  have htrim : ∀ types, (trimTop types).length ≤ types.length := by
    intro types
    simpa [trimTop] using (List.dropWhile_sublist (· = .top) (l := types.reverse)).length_le
  exact Nat.le_trans (htrim _) (length_compactSlots_le f.locals)

end Frame

namespace Flow

theorem length_locals_of_initialFrame {m : MethodShape} {className : String} {maxLocals : Nat}
    {initial : Frame} (h : m.initialFrame className maxLocals = .ok initial) :
    initial.locals.length = maxLocals := by
  obtain ⟨d, _, h⟩ := bind_eq_ok.1 h
  obtain ⟨parameters, _, h⟩ := bind_eq_ok.1 h
  dsimp only at h
  split at h
  · cases h
  · cases h
    rw [List.length_append, List.length_replicate]
    omega

theorem length_le_of_listStates {flow : Flow} {last : FlowState} {states : List FrameState}
    (h : flow.listStates last = .ok states) : states.length ≤ last.leaders.toList.length ∧
      ∀ state ∈ states, ∃ (pc : Nat) (f : Frame), last.frames[pc]? = some f ∧
        state = f.state pc := by
  unfold listStates at h
  split at h
  · cases h
  · cases h
    refine ⟨List.length_filterMap_le _ _, ?_⟩
    intro state hstate
    obtain ⟨pc, -, hpc⟩ := List.mem_filterMap.1 hstate
    obtain ⟨f, hf, rfl⟩ := Option.map_eq_some_iff.1 hpc
    exact ⟨pc, f, hf, rfl⟩

section Sizes

variable {load : Loader} {pool : Pool} {className : String} {m : MethodShape} {body : Code}
  {flow : Flow} {initial : Frame}

theorem lt_size_of_isStart (h : Prepared load pool className m body flow initial) {pc : Nat}
    (hpc : flow.program.isStart pc = true) : pc < body.code.length := by
  simpa using ((Program.isStart_iff h.program).1 hpc).lt_size

theorem Runs.length_leaders_le (h : Prepared load pool className m body flow initial) {n : Nat}
    {s : FlowState} (hruns : flow.Runs n (flow.start initial) s) :
    s.leaders.toList.length ≤ body.code.length := by
  have hinside : ∀ pc ∈ s.leaders, pc < body.code.length := by
    refine hruns.leaders ?_ ?_
    · intro range hrange
      obtain ⟨handler, -, hcatch⟩ := exists_source_of_mapM h.ranges range hrange
      obtain ⟨hstart, name, -, rfl⟩ := catchRange_eq_ok hcatch
      exact lt_size_of_isStart h hstart
    · intro pc here target _ hmarks
      cases hmarks with
      | branch _ _ hstart => exact lt_size_of_isStart h hstart
      | behind _ hlt => simpa [Program.code_of_decode h.program] using hlt
  have hnodup : s.leaders.toList.Nodup :=
    Std.TreeSet.ordered_toList.imp fun hab heq => by simp [heq] at hab
  have hsub : s.leaders.toList ⊆ List.range body.code.length := fun pc hpc =>
    List.mem_range.2 (hinside pc (Std.TreeSet.mem_toList.1 hpc))
  simpa using (List.subperm_of_subset hnodup hsub).length_le

/-- Code of a size that fits its length field has few enough frames, each with few enough locals,
for a table of frames. -/
theorem Runs.sizes (h : Prepared load pool className m body flow initial) {n : Nat}
    {last : FlowState} (hruns : flow.Runs n (flow.start initial) last) {states : List FrameState}
    (hstates : flow.listStates last = .ok states) : states.length ≤ body.code.length ∧
      ∀ state ∈ states, state.locals.length ≤ body.maxLocals.toNat := by
  obtain ⟨hfew, hframes⟩ := length_le_of_listStates hstates
  refine ⟨Nat.le_trans hfew (hruns.length_leaders_le h), fun state hstate => ?_⟩
  obtain ⟨pc, f, hf, rfl⟩ := hframes state hstate
  have hlength := hruns.consistent.locals pc f hf
  rw [length_locals_of_initialFrame h.initial] at hlength
  exact hlength ▸ f.length_compactLocals_le

theorem sizes_of_compute {computed : ComputedFrames}
    (h : compute load pool className m body = .ok computed) :
    computed.states.length ≤ body.code.length ∧
      ∀ state ∈ computed.states, state.locals.length ≤ body.maxLocals.toNat := by
  obtain ⟨flow, initial, n, last, hprepare, hruns, -, hstates, -⟩ := runs_of_compute h
  exact hruns.sizes (prepare_eq_ok hprepare) hstates

end Sizes

end Flow

end ClassArchive
