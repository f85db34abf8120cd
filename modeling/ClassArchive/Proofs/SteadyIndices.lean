import ClassArchive.Proofs.ComputedFrames
import ClassArchive.Proofs.FrameTypes

/-!
Frames that cannot be computed. Constants that are appended to a pool can make a look-up succeed
that failed before, but only through an index that named nothing. Where every index that is followed
names the same constant as before, or still none, all look-ups have the same outcome in the longer
pool, and so has the computation of the frames.
-/
set_option autoImplicit false

namespace ClassArchive

/-! ### Look-ups -/

def Constant.references : Constant → List UInt16
  | .classInfo name => [name]
  | .fieldRef owner pair | .methodRef owner pair | .interfaceMethodRef owner pair => [owner, pair]
  | .nameAndType name descriptor => [name, descriptor]
  | .dynamic _ pair | .invokeDynamic _ pair => [pair]
  | _ => []

namespace Pool

/-- Whether an index names the same constant in both pools, or none in both. -/
def SameAt (p q : Pool) (i : UInt16) : Prop := q.slot? i = p.slot? i

instance (p q : Pool) (i : UInt16) : Decidable (SameAt p q i) :=
  inferInstanceAs (Decidable (q.slot? i = p.slot? i))

def reached (p : Pool) : Nat → UInt16 → List UInt16
  | 0, i => [i]
  | steps + 1, i =>
      i :: match p.slot? i with
        | some c => c.references.flatMap (p.reached steps)
        | none => []

/-- The most steps of a look-up: from a member to its pair of names and on to a name. -/
def lookupSteps : Nat := 2

def Agrees (p q : Pool) (steps : Nat) (i : UInt16) : Prop := ∀ j ∈ p.reached steps i, SameAt p q j

section Agrees

variable {p q : Pool} {steps : Nat} {i : UInt16}

theorem Agrees.sameAt (h : p.Agrees q steps i) : SameAt p q i := by
  refine h i ?_
  cases steps <;> simp [reached]

theorem Agrees.entry_eq (h : p.Agrees q steps i) : q.entry i = p.entry i := by
  rw [entry, entry, h.sameAt]

theorem SameAt.text_eq (h : SameAt p q i) : q.text i = p.text i := by
  rw [text, text, entry, entry, h]

theorem Agrees.next (h : p.Agrees q (steps + 1) i) {c : Constant} (hc : p.entry i = .ok c)
    {j : UInt16} (hj : j ∈ c.references) : p.Agrees q steps j := by
  intro k hk
  refine h k (List.mem_cons_of_mem _ ?_)
  rw [(entry_eq_ok.1 hc).1]
  exact List.mem_flatMap.2 ⟨j, hj, hk⟩

theorem Agrees.className_eq (h : p.Agrees q (steps + 1) i) : q.className i = p.className i := by
  rw [className, className, h.entry_eq]
  refine bind_congr_ok fun c hc => ?_
  cases c with
  | classInfo name => exact (h.next hc (by simp [Constant.references])).sameAt.text_eq
  | _ => rfl

theorem Agrees.nameAndType_eq (h : p.Agrees q (steps + 1) i) :
    q.nameAndType i = p.nameAndType i := by
  rw [nameAndType, nameAndType, h.entry_eq]
  refine bind_congr_ok fun c hc => ?_
  cases c with
  | nameAndType name descriptor =>
    have hname : p.Agrees q steps name := h.next hc (by simp [Constant.references])
    have hdescriptor : p.Agrees q steps descriptor := h.next hc (by simp [Constant.references])
    simp only [hname.sameAt.text_eq, hdescriptor.sameAt.text_eq]
  | _ => rfl

theorem Agrees.member_eq (h : p.Agrees q (steps + 2) i) : q.member i = p.member i := by
  rw [member, member, h.entry_eq]
  refine bind_congr_ok fun c hc => ?_
  cases c with
  | fieldRef owner pair | methodRef owner pair | interfaceMethodRef owner pair =>
    have howner : p.Agrees q (steps + 1) owner := h.next hc (by simp [Constant.references])
    have hpair : p.Agrees q (steps + 1) pair := h.next hc (by simp [Constant.references])
    simp only [memberOf, howner.className_eq, hpair.nameAndType_eq]
  | _ => rfl

end Agrees

theorem Grown.sameAt_of_le {p q : Pool} (h : Grown p q) {i : UInt16}
    (hi : i.toNat ≤ p.slots.size) : SameAt p q i := by
  obtain ⟨more, hmore⟩ := h.isPrefix_slots
  unfold SameAt slot?
  split
  · rfl
  · next hne =>
    have hpos : 0 < i.toNat := Nat.pos_of_ne_zero fun hzero => hne (UInt16.toNat_inj.1 hzero)
    have hlt : i.toNat - 1 < p.slots.toList.length := by
      rw [Array.length_toList]
      omega
    rw [← Array.getElem?_toList, ← Array.getElem?_toList, ← hmore, List.getElem?_append_left hlt]

/-- What is the same after all additions is the same after some of them. -/
theorem Grown.sameAt {p q r : Pool} (hq : Grown p q) (hr : Grown q r) {i : UInt16}
    (h : SameAt p r i) : SameAt p q i := by
  unfold SameAt at h ⊢
  cases hslot : p.slot? i with
  | some c => exact hq.extends i c hslot
  | none =>
    rw [hslot] at h
    cases hmid : q.slot? i with
    | none => rfl
    | some c =>
      rw [hr.extends i c hmid] at h
      cases h

end Pool

/-! ### Instructions -/

/-- The index that an instruction looks up, or that is looked up when what it makes is
constructed. -/
def Instruction.references : Instruction → List UInt16
  | .loadConstant index | .getStatic index | .getField index | .invoke _ index
  | .invokeDynamic index | .new index | .newObjectArray index | .newMultiArray index _
  | .cast index => [index]
  | _ => []

/-- A type whose value is constructed from a class that is the same in both pools. -/
def SteadyType (p q : Pool) (code : CodeArray) (type : VerificationType) : Prop :=
  ∀ pc index, type = .uninitialized pc → code.u16? (pc.toNat + 1) = some index →
    p.Agrees q Pool.lookupSteps index

namespace MethodScope

variable {scope : MethodScope} {q : Pool}

theorem className?_inPool {index : UInt16} (h : scope.pool.Agrees q Pool.lookupSteps index) :
    (scope.inPool q).className? index = scope.className? index :=
  congrArg FrameError.lift h.className_eq

theorem member?_inPool {index : UInt16} (h : scope.pool.Agrees q Pool.lookupSteps index) :
    (scope.inPool q).member? index = scope.member? index :=
  congrArg FrameError.lift h.member_eq

theorem callSite?_inPool {index : UInt16} (h : scope.pool.Agrees q Pool.lookupSteps index) :
    (scope.inPool q).callSite? index = scope.callSite? index := by
  unfold callSite?
  simp only [inPool, h.entry_eq]
  refine congrArg FrameError.lift (bind_congr_ok fun c hc => ?_)
  cases c with
  | invokeDynamic bootstrap pair =>
    have hpair : scope.pool.Agrees q 1 pair := h.next hc (by simp [Constant.references])
    simp only [hpair.nameAndType_eq]
  | _ => rfl

theorem constantType_inPool {index : UInt16} (h : scope.pool.Agrees q Pool.lookupSteps index) :
    (scope.inPool q).constantType index = scope.constantType index := by
  unfold constantType
  simp only [inPool, h.entry_eq]
  refine congrArg FrameError.lift (bind_congr_ok fun c hc => ?_)
  cases c with
  | dynamic bootstrap pair =>
    have hpair : scope.pool.Agrees q 1 pair := h.next hc (by simp [Constant.references])
    simp only [hpair.nameAndType_eq]
  | _ => rfl

theorem constructed?_inPool {type : VerificationType}
    (h : SteadyType scope.pool q scope.code type) :
    (scope.inPool q).constructed? type = scope.constructed? type := by
  cases type with
  | uninitialized pc =>
    unfold constructed?
    simp only [inPool]
    split
    · next index hindex =>
      have hclass := className?_inPool (h pc index rfl hindex)
      exact congrArg (· >>= _) hclass
    · rfl
  | _ => rfl

theorem takeReceiver_inPool {kind : InvokeKind} {method : String} {pc : Nat} {f : Frame}
    (hf : f.All (SteadyType scope.pool q scope.code)) :
    (scope.inPool q).takeReceiver kind method pc f = scope.takeReceiver kind method pc f := by
  unfold takeReceiver
  split
  · rfl
  · refine bind_congr_ok fun popped hpop => ?_
    obtain ⟨receiver, rest⟩ := popped
    simp only [constructed?_inPool (hf.pop hpop).1]

theorem transfer_inPool {pc : Nat} {f : Frame} {i : Instruction}
    (hsame : ∀ index ∈ i.references, scope.pool.Agrees q Pool.lookupSteps index)
    (hf : f.All (SteadyType scope.pool q scope.code)) :
    (scope.inPool q).transfer pc f i = scope.transfer pc f i := by
  cases i with
  | loadConstant index =>
    have hindex := hsame index (List.mem_singleton_self index)
    exact congrArg (· >>= _) (constantType_inPool hindex)
  | getStatic index | getField index =>
    have hindex := hsame index (List.mem_singleton_self index)
    exact congrArg (· >>= _) (member?_inPool hindex)
  | newObjectArray index | newMultiArray index dimensions | cast index =>
    have hindex := hsame index (List.mem_singleton_self index)
    exact congrArg (· >>= _) (className?_inPool hindex)
  | invokeDynamic index =>
    have hindex := hsame index (List.mem_singleton_self index)
    exact congrArg (· >>= _) (callSite?_inPool hindex)
  | invoke kind index =>
    have hindex := hsame index (List.mem_singleton_self index)
    simp only [transfer, member?_inPool hindex]
    refine bind_congr_ok fun method _ => bind_congr_ok fun descriptor _ =>
      bind_congr_ok fun dropped hdrop => ?_
    rw [takeReceiver_inPool (hf.drop hdrop)]
  | _ => rfl

end MethodScope

/-! ### Methods -/

def Program.references (program : Program) : List UInt16 :=
  program.listing.toList.flatMap fun located => located.2.instruction.references

def Code.references (body : Code) : List UInt16 :=
  body.handlers.map (·.catchType) ++
    match Program.decode body.code.toArray with
    | .ok program => program.references
    | .error _ => []

theorem Code.mem_references_of_handler {body : Code} {h : ExceptionHandler}
    (hmem : h ∈ body.handlers) : h.catchType ∈ body.references :=
  List.mem_append_left _ (List.mem_map.2 ⟨h, hmem, rfl⟩)

theorem Code.mem_references_of_instruction {body : Code} {program : Program}
    (hprogram : Program.decode body.code.toArray = .ok program) {pc : Nat} {here : Located}
    (hhere : program.listing[pc]? = some here) {index : UInt16}
    (hindex : index ∈ here.instruction.references) : index ∈ body.references := by
  refine List.mem_append_right _ ?_
  rw [hprogram]
  exact List.mem_flatMap.2 ⟨(pc, here), Std.TreeMap.mem_toList_iff_getElem?_eq_some.2 hhere, hindex⟩

namespace Flow

structure SteadyIn (flow : Flow) (q : Pool) : Prop where
  instructions : ∀ (pc : Nat) (here : Located), flow.program.listing[pc]? = some here →
    ∀ index ∈ here.instruction.references, flow.scope.pool.Agrees q Pool.lookupSteps index
  types : flow.Supplies (SteadyType flow.scope.pool q flow.scope.code)

theorem steadyIn_of_prepare {load : Loader} {p q : Pool} {className : String} {m : MethodShape}
    {body : Code} {flow : Flow} {initial : Frame}
    (hbody : ∀ i ∈ body.references, p.Agrees q Pool.lookupSteps i)
    (hsize : body.code.length ≤ 65535)
    (h : prepare load p className m body = .ok (flow, initial)) : flow.SteadyIn q := by
  have hprepared := prepare_eq_ok h
  have hlisting := Program.decode?_of_decode hprepared.program
  have hinstructions : ∀ (pc : Nat) (here : Located), flow.program.listing[pc]? = some here →
      ∀ index ∈ here.instruction.references, flow.scope.pool.Agrees q Pool.lookupSteps index := by
    intro pc here hhere index hindex
    rw [hprepared.scope]
    exact hbody index (Code.mem_references_of_instruction hprepared.program hhere hindex)
  refine ⟨hinstructions, supplies_of_prepare ?_ h ?_⟩
  · rintro type htype pc index rfl
    cases htype
  · -- the operand that is read again when the value is constructed is the one of this instruction
    intro pc here index hhere hnew pc' index' htype hindex'
    obtain ⟨hlt, hdecode⟩ := hlisting pc here hhere
    have hmade := Instruction.made_decode? _ _ _ hdecode
    rw [hnew] at hmade
    cases htype
    have hpc : pc.toUInt16.toNat = pc := by
      rw [List.size_toArray] at hlt
      rw [Nat.toUInt16_eq, UInt16.toNat_ofNat']
      omega
    rw [hpc, hprepared.scope, Program.code_of_decode hprepared.program] at hindex'
    rw [Instruction.Made, hindex'] at hmade
    cases hmade
    refine hinstructions pc here hhere index ?_
    rw [hnew]
    exact List.mem_singleton_self index

variable {flow : Flow} {q : Pool} (hflow : flow.SteadyIn q)
include hflow

theorem step_inPool {s : FlowState} {pc : Nat} {rest : List Nat}
    (hs : HasTypes (SteadyType flow.scope.pool q flow.scope.code) s) :
    (flow.inPool q).step s pc rest = flow.step s pc rest := by
  unfold step
  simp only [inPool]
  split
  · next before here hbefore hhere =>
    have htransfer : (flow.scope.inPool q).transfer pc before here.instruction =
        flow.scope.transfer pc before here.instruction :=
      MethodScope.transfer_inPool (hflow.instructions pc here hhere) (hs pc before hbefore)
    exact congrArg (· >>= _) htransfer
  · rfl
  · rfl

theorem Runs.inSteadyPool {n : Nat} {s t : FlowState} (h : flow.Runs n s t)
    (hs : HasTypes (SteadyType flow.scope.pool q flow.scope.code) s) :
    (flow.inPool q).Runs n s t ∧ HasTypes (SteadyType flow.scope.pool q flow.scope.code) t := by
  induction h with
  | refl s => exact ⟨.refl s, hs⟩
  | visit hqueue hstep _ ih =>
    obtain ⟨hruns, ht⟩ := ih (hasTypes_step hflow.types hs hstep)
    exact ⟨.visit hqueue ((step_inPool hflow hs).trans hstep) hruns, ht⟩

/-- A larger bound changes nothing where the smaller one was not used up. -/
theorem settle_inPool {s : FlowState}
    (hs : HasTypes (SteadyType flow.scope.pool q flow.scope.code) s) {budget larger : Nat}
    (hle : budget ≤ larger) (hends : flow.settle budget s ≠ .error .unsettled) :
    (flow.inPool q).settle larger s = flow.settle budget s := by
  rcases flow.settle_cases budget s with ⟨n, t, hn, hruns, hempty, hsettle⟩ |
    ⟨n, t, pc, rest, e, hn, hruns, hqueue, hstep, hsettle⟩ | ⟨_, -, -, hsettle⟩
  · obtain ⟨hruns', -⟩ := hruns.inSteadyPool hflow hs
    rw [hsettle, hruns'.settle_eq_ok hempty (Nat.le_trans hn hle)]
  · obtain ⟨hruns', ht⟩ := hruns.inSteadyPool hflow hs
    have hstep' := (step_inPool hflow ht).trans hstep
    rw [hsettle, hruns'.settle_eq_error hqueue hstep' (Nat.lt_of_lt_of_le hn hle)]
  · exact absurd hsettle hends

omit hflow in
theorem hasTypes_start {P : VerificationType → Prop}
    (hplain : ∀ type, type.isPlain = true → P type) {load : Loader} {p : Pool}
    {className : String} {m : MethodShape} {body : Code} {initial : Frame}
    (h : prepare load p className m body = .ok (flow, initial)) : 
    HasTypes P (flow.start initial) :=
  allFrames_start flow (all_initialFrame hplain (prepare_eq_ok h).initial)

omit hflow in
theorem catchRanges_inPool (scope : MethodScope) (program : Program)
    {handlers : List ExceptionHandler}
    (h : ∀ handler ∈ handlers, scope.pool.Agrees q Pool.lookupSteps handler.catchType) :
    handlers.mapM (catchRange (scope.inPool q) program) =
      handlers.mapM (catchRange scope program) := by
  induction handlers with
  | nil => rfl
  | cons handler handlers ih =>
    obtain ⟨hfirst, hrest⟩ := List.forall_mem_cons.1 h
    have hhandler : catchRange (scope.inPool q) program handler =
        catchRange scope program handler := by
      unfold catchRange
      rw [MethodScope.className?_inPool hfirst]
    rw [List.mapM_cons, List.mapM_cons, ih hrest, hhandler]

omit hflow in
theorem prepare_steady {load : Loader} {p : Pool} {className : String} {m : MethodShape}
    {body : Code} (hbody : ∀ i ∈ body.references, p.Agrees q Pool.lookupSteps i) :
    prepare load q className m body =
      (fun prepared => (prepared.1.inPool q, prepared.2)) <$> prepare load p className m body := by
  have hranges : ∀ program : Program,
      body.handlers.mapM (catchRange { pool := q, className, code := program.code } program) =
        body.handlers.mapM (catchRange { pool := p, className, code := program.code } program) :=
    fun program => catchRanges_inPool { pool := p, className, code := program.code } program
      fun h hmem => hbody h.catchType (Code.mem_references_of_handler hmem)
  unfold prepare
  simp only [hranges, map_bind]
  rfl

omit hflow in
/-- Frames in a longer pool where all that is referred to is the same. The computation has the same
outcome, also where it fails, unless it was cut off by its bound. -/
theorem compute_steady {load : Loader} {p : Pool} {className : String} {m : MethodShape}
    {body : Code} (hgrown : p.Grown q)
    (hbody : ∀ i ∈ body.references, p.Agrees q Pool.lookupSteps i)
    (hsize : body.code.length ≤ 65535)
    (hends : compute load p className m body ≠ .error .unsettled) :
    compute load q className m body = compute load p className m body := by
  cases hprepare : prepare load p className m body with
  | error e =>
    unfold compute
    rw [prepare_steady hbody, hprepare]
    rfl
  | ok prepared =>
    obtain ⟨flow, initial⟩ := prepared
    have hflow : flow.SteadyIn q := steadyIn_of_prepare hbody hsize hprepare
    obtain ⟨hprepare', rfl⟩ := prepare_inPool hgrown.extends hprepare
    have hcompute := compute_eq_settle hprepare
    have hsettles : flow.settle (flow.budget body.maxLocals.toNat m.descriptor)
        (flow.start initial) ≠ .error .unsettled := by
      intro hunsettled
      rw [hunsettled] at hcompute
      exact hends hcompute
    rw [hcompute, compute_eq_settle hprepare', ← settle_inPool hflow
      (hasTypes_start hflow.types.plain hprepare) (budget_le_inPool hgrown _ _) hsettles]
    rfl

end Flow

end ClassArchive
