import ClassArchive.Proofs.DefiniteOutcomes
import ClassArchive.Proofs.FrameAddresses
import ClassArchive.Proofs.FrameShapes
import ClassArchive.Proofs.InstructionExtents

/-!
Where the code of a method is read. The walk through the code and the visits agree on where
instructions start and end: only starts are queued, and all that a visit reads lies within its
instruction or within a `new` whose object is in its frame. So code that ends with an instruction is
never found to be cut off, and other code is, right where the walk through it stops.
-/
set_option autoImplicit false

namespace ClassArchive

open Instruction

theorem FrameError.Ordinary.ne_truncated (e : FrameError) (h : e.Ordinary) (pc : Nat) :
    e ≠ .truncated pc := by
  rintro rfl
  exact h

namespace MethodScope

def inCode (scope : MethodScope) (code : CodeArray) : MethodScope := { scope with code }

/-! ### Effects in other code -/

section InCode

variable {scope : MethodScope} {code : CodeArray}

theorem constructed?_inCode {type : VerificationType}
    (h : ∀ q, type = .uninitialized q → code.u16? (q.toNat + 1) = scope.code.u16? (q.toNat + 1)) :
    (scope.inCode code).constructed? type = scope.constructed? type := by
  cases type with
  | uninitialized q =>
    unfold constructed?
    simp only [inCode, h q rfl]
    rfl
  | _ => rfl

variable {f : Frame} (hf : f.All fun type => ∀ q, type = .uninitialized q →
  code.u16? (q.toNat + 1) = scope.code.u16? (q.toNat + 1))
include hf

theorem takeReceiver_inCode (kind : InvokeKind) (method : String) (pc : Nat) :
    (scope.inCode code).takeReceiver kind method pc f = scope.takeReceiver kind method pc f := by
  unfold takeReceiver
  split
  · rfl
  · refine bind_congr_ok fun popped hpop => ?_
    obtain ⟨receiver, rest⟩ := popped
    simp only [constructed?_inCode (hf.pop hpop).1]

/-- The effect of an instruction depends on the code only through the operands of the `new`
instructions whose objects are in the frame. -/
theorem transfer_inCode (pc : Nat) (i : Instruction) :
    (scope.inCode code).transfer pc f i = scope.transfer pc f i := by
  cases i with
  | invoke kind index =>
    refine bind_congr_ok fun method _ => bind_congr_ok fun descriptor _ =>
      bind_congr_ok fun dropped hdrop => ?_
    rw [takeReceiver_inCode (hf.drop hdrop)]
  | _ => rfl

end InCode

/-- Whether a visit reads the code only in places of its own. The instruction that it runs goes as
far as its length and is told by its bytes alone. Its effect on the frame depends on no bytes but
those of `new` instructions whose objects are in the frame. -/
structure ReadsInPlace (scope : MethodScope) (pc : Nat) (here : Located) (f : Frame) : Prop where
  extent : ∃ length, length? scope.code pc = some length ∧ here.next = pc + length
  own : ∀ code, SameAt scope.code code pc → decode? code pc = some here.instruction
  new : f.All fun type => ∀ q, type = .uninitialized q → NewAt scope.code q.toNat
  effect : ∀ code,
    (f.All fun type => ∀ q, type = .uninitialized q → SameAt scope.code code q.toNat) →
    (scope.inCode code).transfer pc f here.instruction = scope.transfer pc f here.instruction

end MethodScope

namespace Instruction

theorem NewAt.alike_u16? {code code' : CodeArray} {pc : Nat} (h : NewAt code pc)
    (hend : ReachesEnd code) (hsame : SameAt code code' pc) :
    Alike (code.u16? (pc + 1)) (code'.u16? (pc + 1)) := by
  obtain ⟨length, hlength⟩ := hend.exists_length h.1
  have hcovers := covers_of_announcedLength? h.2 (announcedLength?_of_length? hlength)
  have hpair := hcovers.pair (by decide)
  exact (hsame.window hlength).u16 (by omega) (by omega)

end Instruction

namespace Flow

open MethodScope

section Prepared

variable {load : Loader} {pool : Pool} {className : String} {m : MethodShape} {body : Code}
  {flow : Flow} {initial : Frame}

theorem Prepared.scope_eq (h : Prepared load pool className m body flow initial) :
    flow.scope = ⟨pool, className, body.code.toArray⟩ := by
  rw [h.scope, Program.code_of_decode h.program]

theorem Prepared.startsAt_frames (h : Prepared load pool className m body flow initial)
    (hpos : 0 < body.code.toArray.size) {t : FlowState} (ht : flow.Passes (flow.start initial) t) :
    ∀ (pc : Nat) (f : Frame), t.frames[pc]? = some f → StartsAt body.code.toArray pc := by
  refine (preserves_addresses ?_).passes ?_ ht
  · intro pc here before after target f _ hhere hsends
    exact (leads_of_sends h hhere hsends).2
  · intro pc f hf
    simp only [start, getElem?_insert_frame] at hf
    split at hf
    · next heq => exact heq ▸ ⟨hpos, .refl⟩
    · simp at hf

theorem queued_of_passes {t : FlowState} (ht : flow.Passes (flow.start initial) t) :
    ∀ pc ∈ t.queue, ∃ f, t.frames[pc]? = some f := by
  refine flow.preserves_queued.passes ?_ ht
  intro pc hpc
  rw [List.mem_singleton.1 hpc]
  exact exists_frame_insert initial (.inl rfl)

variable (hprepare : prepare load pool className m body = .ok (flow, initial))
  (hsize : body.code.length ≤ 65535)
include hprepare hsize

theorem newAt_of_passes {t : FlowState} (ht : flow.Passes (flow.start initial) t) :
    AllFrames (Frame.All fun type => ∀ q, type = .uninitialized q →
      NewAt body.code.toArray q.toNat) t := by
  have hsupplies := supplies_newAt hsize hprepare
  exact hsupplies.keeps.preserves.passes
    (allFrames_start flow (all_initialFrame hsupplies.plain (prepare_eq_ok hprepare).initial)) ht

/-! ### Code that ends with an instruction -/

variable (hend : ReachesEnd body.code.toArray) {t : FlowState}
  (ht : flow.Passes (flow.start initial) t) {pc : Nat} {f : Frame} (hf : t.frames[pc]? = some f)
include hend ht hf

theorem readsInPlace_of_passes (hpos : 0 < body.code.toArray.size) :
    ∃ here, flow.program.listing[pc]? = some here ∧
      ReadsInPlace ⟨pool, className, body.code.toArray⟩ pc here f := by
  have hprepared := prepare_eq_ok hprepare
  have hstart := hprepared.startsAt_frames hpos ht pc f hf
  have hmade := newAt_of_passes hprepare hsize ht pc f hf
  obtain ⟨here, hhere⟩ := Program.exists_listing hprepared.program hstart
  obtain ⟨hdecode, length, hlength, hnext⟩ :=
    Program.locate?_eq_some (Program.startsAt_of_listing hprepared.program hhere).2
  refine ⟨here, hhere, ⟨length, hlength, hnext⟩, ?_, hmade, ?_⟩
  · intro code hsame
    obtain ⟨i, hown, hother⟩ := hsame.alike_decode? hlength
    rw [hother, ← hown, hdecode]
  · intro code hsame
    refine transfer_inCode ((hmade.and hsame).imp ?_) pc here.instruction
    rintro type ⟨hnew, hsame⟩ q hq
    obtain ⟨index, hindex, hindex'⟩ := (hnew q hq).alike_u16? hend (hsame q hq)
    exact hindex'.trans hindex.symm

end Prepared

section Failures

variable {load : Loader} {pool : Pool} {className : String} {m : MethodShape} {body : Code}
  (hpos : 0 < body.code.toArray.size) (hsize : body.code.length ≤ 65535)
  (hend : ReachesEnd body.code.toArray)
include hpos hsize hend

omit hpos in
theorem not_truncated_of_step {flow : Flow} {initial : Frame}
    (hprepare : prepare load pool className m body = .ok (flow, initial)) {n : Nat}
    {t : FlowState} (ht : flow.Runs n (flow.start initial) t) (pc : Nat) (rest : List Nat) :
    FailsOnly (fun e => ∀ q, e ≠ .truncated q) (flow.step t pc rest) := by
  intro e h
  obtain ⟨before, hbefore, ⟨-, rfl⟩ | ⟨here, hhere, htransfer | ⟨after, hafter, hjoined⟩⟩⟩ :=
    step_eq_error h
  · simp
  · have hmade := newAt_of_passes hprepare hsize (.between ht) pc before hbefore
    refine failsOnly_transfer FrameError.Ordinary.ne_truncated (hmade.imp ?_) (by simp) pc e
      htransfer
    -- the operand of each `new` is there
    intro type hnew q hq hnone
    obtain ⟨index, hindex, -⟩ := (hnew q hq).alike_u16? hend fun _ _ _ _ _ => rfl
    simp [(prepare_eq_ok hprepare).scope_eq, hindex] at hnone
  · cases hjoined with
    | clash _ _ hmerge =>
      exact flow.failsOnly_mergeInto FrameError.Ordinary.ne_truncated _ _ _ e hmerge
    | astray _ => simp

omit hsize in
theorem not_truncated_of_prepare :
    FailsOnly (fun e => ∀ q, e ≠ .truncated q) (prepare load pool className m body) := by
  refine failsOnly_prepare FrameError.Ordinary.ne_truncated fun e h => ?_
  obtain ⟨stop, -, hstop⟩ := (Program.decode_eq_error_iff hpos).1 h
  exact absurd hstop (hend.not_stopsAt stop)

theorem compute_ne_truncated (pc : Nat) :
    compute load pool className m body ≠ .error (.truncated pc) := by
  suffices hfails : FailsOnly (fun e => ∀ q, e ≠ .truncated q)
      (compute load pool className m body) from fun h => hfails _ h pc rfl
  refine .bind_ok (not_truncated_of_prepare hpos hend) fun (flow, initial) hprepare => ?_
  refine .bind (fun e h => ?_) fun last =>
    .bind (flow.failsOnly_listStates FrameError.Ordinary.ne_truncated last) fun _ => .ok _
  rcases flow.settle_cases (flow.budget body.maxLocals.toNat m.descriptor) (flow.start initial) with
    ⟨_, _, -, -, -, hsettle⟩ | ⟨n, t, pc', rest, e', -, ht, -, hstep, hsettle⟩ | ⟨_, -, -, hsettle⟩
  · cases h.symm.trans hsettle
  · cases h.symm.trans hsettle
    exact not_truncated_of_step hsize hend hprepare ht pc' rest e hstep
  · cases h.symm.trans hsettle
    simp

end Failures

/-- In code whose instructions go up to its end, only addresses of instructions are ever queued,
each visit reads the code in place, and the code is never found to be cut off. Through other code
the walk stops at some address, and if the method has a first frame, the code is found to be cut
off there. -/
theorem reads_in_place (load : Loader) (pool : Pool) (className : String) (m : MethodShape)
    (body : Code) (hpos : 0 < body.code.length) (hsize : body.code.length ≤ 65535) :
    (ReachesEnd body.code.toArray ∨ ∃ pc, StopsAt body.code.toArray pc) ∧
    (ReachesEnd body.code.toArray →
      (∀ flow initial t, prepare load pool className m body = .ok (flow, initial) →
        flow.Passes (flow.start initial) t →
        (∀ pc ∈ t.queue, StartsAt body.code.toArray pc) ∧
        ∀ (pc : Nat) (f : Frame), t.frames[pc]? = some f →
          ∃ here, flow.program.listing[pc]? = some here ∧
            ReadsInPlace ⟨pool, className, body.code.toArray⟩ pc here f) ∧
      ∀ pc, compute load pool className m body ≠ .error (.truncated pc)) ∧
    ∀ pc initial, StopsAt body.code.toArray pc →
      m.initialFrame className body.maxLocals.toNat = .ok initial →
      compute load pool className m body = .error (.truncated pc) := by
  rw [← List.size_toArray] at hpos
  refine ⟨reachesEnd_or_stopsAt ⟨hpos, .refl⟩, fun hend => ⟨?_, ?_⟩, ?_⟩
  · intro flow initial t hprepare ht
    refine ⟨fun pc hpc => ?_, fun pc f hf => ?_⟩
    · obtain ⟨f, hf⟩ := queued_of_passes ht pc hpc
      exact (prepare_eq_ok hprepare).startsAt_frames hpos ht pc f hf
    · exact readsInPlace_of_passes hprepare hsize hend ht hf hpos
  · exact compute_ne_truncated hpos hsize hend
  · intro pc initial hstop hinitial
    have hdecode := (Program.decode_eq_error_iff hpos).2 ⟨pc, rfl, hstop⟩
    simp [compute, prepare, hinitial, hdecode, bind, Except.bind]

/-- An object is made and constructed. Then comes a switch, with two bytes of padding. -/
def constructAndSwitch : Code where
  maxStack := 2
  maxLocals := 0
  code := [0xbb, 0, 2, 0x59, 0xb7, 0, 6, 0x57, 0x03, 0xaa, 0, 0, 0, 0, 0, 19, 0, 0, 0, 0, 0, 0, 0,
    0, 0, 0, 0, 19, 0xb1]
  handlers := []

def constructorPool : Pool := Pool.ofSlots
  #[.utf8 "A", .classInfo 1, .utf8 "<init>", .utf8 "()V", .nameAndType 3 4, .methodRef 2 5]

def cutBranch : Code where
  maxStack := 1
  maxLocals := 0
  code := [0x03, 0x99, 0]
  handlers := []

theorem reads_in_place_constructed :
    (ReachesEnd constructAndSwitch.code.toArray ∧
      ∃ flow initial t f here, prepare siblings constructorPool "M" ⟨"m", "()V", true⟩
          constructAndSwitch = .ok (flow, initial) ∧
        flow.Passes (flow.start initial) t ∧ t.frames[4]? = some f ∧ .uninitialized 0 ∈ f.stack ∧
        ReadsInPlace ⟨constructorPool, "M", constructAndSwitch.code.toArray⟩ 4 here f) ∧
    StopsAt cutBranch.code.toArray 1 ∧
    compute siblings constructorPool "M" ⟨"m", "()V", true⟩ cutBranch = .error (.truncated 1) := by
  obtain ⟨hwalk, hreads, -⟩ := reads_in_place siblings constructorPool "M" ⟨"m", "()V", true⟩
    constructAndSwitch (by decide) (by decide)
  have hrun : (prepare siblings constructorPool "M" ⟨"m", "()V", true⟩
      constructAndSwitch).toOption.any (fun p =>
        (p.1.settle 7 (p.1.start p.2)).toOption.any fun last =>
          last.frames[4]?.any fun f => .uninitialized 0 ∈ f.stack) = true := by
    decide +kernel
  obtain ⟨⟨flow, initial⟩, hprepare, hsettles⟩ := exists_ok_of_any hrun
  obtain ⟨last, hsettle, hframe⟩ := exists_ok_of_any hsettles
  obtain ⟨n, -, hruns, -⟩ := runs_of_settle hsettle
  obtain ⟨f, hf, hstack⟩ := (Option.any_eq_true _ _).1 hframe
  have hend : ReachesEnd constructAndSwitch.code.toArray := by
    refine hwalk.resolve_right ?_
    rintro ⟨pc, hstop⟩
    have hdecode := (Program.decode_eq_error_iff (by decide)).2 ⟨pc, rfl, hstop⟩
    rw [(prepare_eq_ok hprepare).program] at hdecode
    cases hdecode
  have hstop : StopsAt cutBranch.code.toArray 1 :=
    ⟨⟨by decide, .single ⟨by decide, 1, by decide +kernel, rfl⟩⟩, by decide +kernel⟩
  obtain ⟨-, -, hcut⟩ := reads_in_place siblings constructorPool "M" ⟨"m", "()V", true⟩ cutBranch
    (by decide) (by decide)
  obtain ⟨here, -, hread⟩ := ((hreads hend).1 flow initial last hprepare (.between hruns)).2 4 f hf
  exact ⟨⟨hend, flow, initial, last, f, here, hprepare, .between hruns, hf, by simpa using hstack,
    hread⟩, hstop, hcut 1 ⟨[], []⟩ hstop (by decide +kernel)⟩

end Flow

end ClassArchive
