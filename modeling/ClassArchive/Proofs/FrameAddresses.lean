import ClassArchive.Proofs.ControlFlow
import ClassArchive.Proofs.SettledFrames

/-!
The addresses at which frames are listed. They are those of handlers and branch targets, and of what
stands right behind a jump, a switch, a return or a throw. Where frames are listed, control reaches
every instruction.
-/
set_option autoImplicit false

namespace ClassArchive

open Instruction Relation

namespace Code

inductive Leads (body : Code) (pc : Nat) : Nat → Prop where
  | caught {handler : ExceptionHandler} : handler ∈ body.handlers → handler.start.toNat ≤ pc →
      pc < handler.stop.toNat → Leads body pc handler.handler.toNat
  | branch {offset : Int} {target : Nat} : Branches body.code.toArray pc offset →
      (target : Int) = pc + offset → Leads body pc target
  | next {op : UInt8} {next : Nat} : body.code.toArray[pc]? = some op → ¬ EndsFlow op →
      Precedes body.code.toArray pc next → Leads body pc next

inductive NeedsFrame (body : Code) : Nat → Prop where
  | handler {handler : ExceptionHandler} : handler ∈ body.handlers →
      NeedsFrame body handler.handler.toNat
  | target {source target : Nat} {offset : Int} : StartsAt body.code.toArray source →
      Branches body.code.toArray source offset → (target : Int) = source + offset →
      NeedsFrame body target
  | behind {source next : Nat} {op : UInt8} : StartsAt body.code.toArray source →
      body.code.toArray[source]? = some op → EndsFlow op →
      Precedes body.code.toArray source next → NeedsFrame body next

end Code

namespace Flow

/-! ### Instructions of a prepared method -/

section Prepared

variable {load : Loader} {pool : Pool} {className : String} {m : MethodShape} {body : Code}
  {flow : Flow} {initial : Frame} (h : Prepared load pool className m body flow initial)
include h

theorem controls_of_listing {pc : Nat} {here : Located}
    (hhere : flow.program.listing[pc]? = some here) :
    ∃ op, body.code.toArray[pc]? = some op ∧
      Controls body.code.toArray pc op here.instruction := by
  obtain ⟨hstart, hlocate⟩ := Program.startsAt_of_listing h.program hhere
  have hop := Array.getElem?_eq_getElem hstart.lt_size
  exact ⟨_, hop, controls_decode? hop _ (Program.locate?_eq_some hlocate).1⟩

theorem next_of_precedes {pc next : Nat} {here : Located}
    (hhere : flow.program.listing[pc]? = some here) (hnext : Precedes body.code.toArray pc next) :
    here.next = next := by
  obtain ⟨-, hlocate⟩ := Program.startsAt_of_listing h.program hhere
  obtain ⟨-, length, hlength, hnext'⟩ := Program.locate?_eq_some hlocate
  obtain ⟨-, length', hlength', rfl⟩ := hnext
  rw [hlength] at hlength'
  cases hlength'
  exact hnext'

theorem precedes_of_listing {pc : Nat} {here : Located}
    (hhere : flow.program.listing[pc]? = some here) (hnext : here.next < body.code.toArray.size) :
    Precedes body.code.toArray pc here.next :=
  Program.precedes_of_locate? (Program.startsAt_of_listing h.program hhere).2 hnext

theorem handler_of_range {range : CatchRange} (hrange : range ∈ flow.ranges) :
    ∃ handler ∈ body.handlers, range.start = handler.start.toNat ∧
      range.stop = handler.stop.toNat ∧ range.handler = handler.handler.toNat ∧
      StartsAt body.code.toArray range.handler := by
  obtain ⟨handler, hhandler, hcatch⟩ := exists_source_of_mapM h.ranges range hrange
  obtain ⟨hstart, name, -, rfl⟩ := catchRange_eq_ok hcatch
  exact ⟨handler, hhandler, rfl, rfl, rfl, (Program.isStart_iff h.program).1 hstart⟩

theorem range_of_handler {handler : ExceptionHandler} (hhandler : handler ∈ body.handlers) :
    ∃ range ∈ flow.ranges, range.handler = handler.handler.toNat := by
  obtain ⟨range, hrange, hcatch⟩ := exists_of_mapM h.ranges handler hhandler
  obtain ⟨-, name, -, rfl⟩ := catchRange_eq_ok hcatch
  exact ⟨_, hrange, rfl⟩

theorem leads_of_sends {pc target : Nat} {here : Located} {before after f : Frame}
    (hhere : flow.program.listing[pc]? = some here)
    (hsends : flow.Sends pc here before after target f) :
    body.Leads pc target ∧ StartsAt body.code.toArray target := by
  have hstart := (Program.startsAt_of_listing h.program hhere).1
  obtain ⟨op, hop, hcontrols⟩ := controls_of_listing h hhere
  cases hsends with
  | caught hrange hcovers _ =>
    obtain ⟨handler, hhandler, hfrom, hto, heq, htarget⟩ := handler_of_range h hrange
    simp only [CatchRange.covers, Bool.and_eq_true, decide_eq_true_eq] at hcovers
    refine ⟨heq ▸ .caught hhandler (by omega) (by omega), htarget⟩
  | branch hoffset htarget hlisted =>
    exact ⟨.branch ((hcontrols.offsets _).1 hoffset) htarget,
      (Program.isStart_iff h.program).1 hlisted⟩
  | next hfalls hlt =>
    rw [Program.code_of_decode h.program] at hlt
    have hnext := precedes_of_listing h hhere hlt
    have hgoes : ¬ EndsFlow op := by
      intro hends
      rw [hcontrols.fallsThrough.2 hends] at hfalls
      cases hfalls
    exact ⟨.next hop hgoes hnext, hstart.next hnext⟩

end Prepared

/-! ### Addresses with a frame -/

theorem listing_zero_of_runs {flow : Flow} {initial : Frame} {n : Nat} {last : FlowState}
    (h : flow.Runs n (flow.start initial) last) (hempty : last.queue = []) :
    ∃ here, flow.program.listing[0]? = some here := by
  cases h with
  | refl => simp [start] at hempty
  | visit hqueue hstep _ =>
    simp only [start, List.cons.injEq] at hqueue
    obtain ⟨rfl, rfl⟩ := hqueue
    rcases step_cases hstep with ⟨hnone, -⟩ | ⟨_, here, _, -, hhere, -⟩
    · simp [start] at hnone
    · exact ⟨here, hhere⟩

/-- Only instructions have frames, and only such as control reaches. -/
theorem reached_of_runs {load : Loader} {pool : Pool} {className : String} {m : MethodShape}
    {body : Code} {flow : Flow} {initial : Frame}
    (hprepared : Prepared load pool className m body flow initial) {n : Nat} {last : FlowState}
    (h : flow.Runs n (flow.start initial) last) (hfirst : StartsAt body.code.toArray 0) :
    ∀ (pc : Nat) (f : Frame), last.frames[pc]? = some f →
      StartsAt body.code.toArray pc ∧ ReflTransGen body.Leads 0 pc := by
  refine h.addresses ?_ ?_
  · intro pc here before after target f hpc hhere hsends
    obtain ⟨hleads, htarget⟩ := leads_of_sends hprepared hhere hsends
    exact ⟨htarget, hpc.2.tail hleads⟩
  · intro pc f hf
    simp only [start, getElem?_insert_frame] at hf
    split at hf
    · next heq => exact heq ▸ ⟨hfirst, .refl⟩
    · simp at hf

/-! ### Leaders -/

theorem pcs_of_listStates {flow : Flow} {last : FlowState} {states : List FrameState}
    (h : flow.listStates last = .ok states) (hframes : ∀ pc ∈ last.leaders,
      pc < 65536 ∧ ∃ f, last.frames[pc]? = some f) :
    states.map (·.pc.toNat) = last.leaders.toList := by
  unfold listStates at h
  split at h
  · cases h
  · cases h
    have hsub : ∀ pc ∈ last.leaders.toList, pc ∈ last.leaders :=
      fun pc hpc => Std.TreeSet.mem_toList.1 hpc
    generalize last.leaders.toList = pcs at hsub
    induction pcs with
    | nil => rfl
    | cons pc pcs ih =>
      obtain ⟨hpc, hpcs⟩ := List.forall_mem_cons.1 hsub
      obtain ⟨hlt, f, hf⟩ := hframes pc hpc
      have hword : (f.state pc).pc.toNat = pc := by
        rw [Frame.state, Nat.toUInt16_eq, UInt16.toNat_ofNat']
        omega
      simp [hf, hword, ih hpcs]

section Listed

variable {load : Loader} {pool : Pool} {className : String} {m : MethodShape} {body : Code}
  {flow : Flow} {initial : Frame} (h : Prepared load pool className m body flow initial)
  {n : Nat} {last : FlowState}
include h

theorem needsFrame_of_marks {pc target : Nat} {here : Located}
    (hhere : flow.program.listing[pc]? = some here) (hmarks : flow.Marks pc here target) :
    StartsAt body.code.toArray target ∧ body.NeedsFrame target := by
  have hsource := (Program.startsAt_of_listing h.program hhere).1
  obtain ⟨op, hop, hcontrols⟩ := controls_of_listing h hhere
  cases hmarks with
  | branch hoffset htarget hstart =>
    exact ⟨(Program.isStart_iff h.program).1 hstart,
      .target hsource ((hcontrols.offsets _).1 hoffset) htarget⟩
  | behind hfalls hlt =>
    rw [Program.code_of_decode h.program] at hlt
    have hnext := precedes_of_listing h hhere hlt
    exact ⟨hsource.next hnext, .behind hsource hop (hcontrols.fallsThrough.1 hfalls) hnext⟩

/-- At every point of a run only instructions are marked that need a frame. -/
theorem Runs.needsFrame (hruns : flow.Runs n (flow.start initial) last) : ∀ pc ∈ last.leaders,
    StartsAt body.code.toArray pc ∧ body.NeedsFrame pc := by
  refine hruns.leaders ?_ fun pc here target hhere hmarks => needsFrame_of_marks h hhere hmarks
  intro range hrange
  obtain ⟨handler, hhandler, -, -, heq, hstart⟩ := handler_of_range h hrange
  exact ⟨hstart, heq ▸ .handler hhandler⟩

/-- At the end of a run that has reached every instruction all are marked that need a frame. -/
theorem Runs.leader_of_needsFrame (hruns : flow.Runs n (flow.start initial) last)
    (hempty : last.queue = []) {states : List FrameState}
    (hstates : flow.listStates last = .ok states) {pc : Nat} (hneeds : body.NeedsFrame pc) :
    pc ∈ last.leaders := by
  have hmarked : ∀ source, StartsAt body.code.toArray source → ∃ here,
      flow.program.listing[source]? = some here ∧ flow.Marked last.leaders source here := by
    intro source hsource
    obtain ⟨here, hhere⟩ := Program.exists_listing h.program hsource
    obtain ⟨before, hbefore⟩ := contains_of_listStates hstates hhere
    exact ⟨here, hhere,
      (hruns.consistent.carried source before here hbefore hhere (by simp [hempty])).1⟩
  cases hneeds with
  | handler hhandler =>
    obtain ⟨range, hrange, heq⟩ := range_of_handler h hhandler
    refine hruns.led (consistent_start flow initial) ?_
    rw [← heq, start, Std.TreeSet.mem_ofList, List.contains_iff_mem]
    exact List.mem_map.2 ⟨range, hrange, rfl⟩
  | @target source _ offset hsource hbranch htarget =>
    obtain ⟨here, hhere, hmarks⟩ := hmarked source hsource
    obtain ⟨op, -, hcontrols⟩ := controls_of_listing h hhere
    obtain ⟨target, htarget', hled⟩ :=
      hmarks.branches offset ((hcontrols.offsets offset).2 hbranch)
    obtain rfl : target = pc := by omega
    exact hled
  | @behind source _ op hsource hop hends hnext =>
    obtain ⟨here, hhere, hmarks⟩ := hmarked source hsource
    obtain ⟨op', hop', hcontrols⟩ := controls_of_listing h hhere
    rw [hop] at hop'
    cases hop'
    have heq := next_of_precedes h hhere hnext
    rw [← heq]
    refine hmarks.behind (hcontrols.fallsThrough.2 hends) ?_
    rw [heq, Program.code_of_decode h.program]
    exact (hsource.next hnext).lt_size

theorem Runs.pcs (hsize : body.code.length ≤ 65535)
    (hruns : flow.Runs n (flow.start initial) last) (hempty : last.queue = [])
    {states : List FrameState} (hstates : flow.listStates last = .ok states) :
    states.map (·.pc.toNat) = last.leaders.toList ∧
      ∀ pc, pc ∈ last.leaders ↔ body.NeedsFrame pc := by
  have hsound := hruns.needsFrame h
  constructor
  · refine pcs_of_listStates hstates fun pc hpc => ?_
    obtain ⟨hstart, -⟩ := hsound pc hpc
    obtain ⟨here, hhere⟩ := Program.exists_listing h.program hstart
    have hlt := hstart.lt_size
    rw [List.size_toArray] at hlt
    exact ⟨by omega, contains_of_listStates hstates hhere⟩
  · exact fun pc => ⟨fun hpc => (hsound pc hpc).2, hruns.leader_of_needsFrame h hempty hstates⟩

end Listed

/-- Frames are listed in the order of their addresses, at exactly those that need one: they are what
the worklist has marked when it is worked off. The analysis has then reached every instruction. -/
theorem listed_addresses {load : Loader} {pool : Pool} {className : String} {m : MethodShape}
    {body : Code} {result : ComputedFrames} (hsize : body.code.length ≤ 65535)
    (h : compute load pool className m body = .ok result) :
    (result.states.map (·.pc.toNat)).Pairwise (· < ·) ∧
    (∀ pc, pc ∈ result.states.map (·.pc.toNat) ↔ body.NeedsFrame pc) ∧
    ∃ flow initial n last, prepare load pool className m body = .ok (flow, initial) ∧
      flow.Runs n (flow.start initial) last ∧ last.queue = [] ∧
      flow.listStates last = .ok result.states ∧
      (∀ pc, pc ∈ last.leaders ↔ body.NeedsFrame pc) ∧
      ∀ pc, StartsAt body.code.toArray pc →
        (∃ f, last.frames[pc]? = some f) ∧ ReflTransGen body.Leads 0 pc := by
  obtain ⟨flow, initial, n, last, hprepare, hruns, hempty, hstates, -⟩ := runs_of_compute h
  have hprepared := prepare_eq_ok hprepare
  obtain ⟨hpcs, hleaders⟩ := hruns.pcs hprepared hsize hempty hstates
  rw [hpcs]
  refine ⟨?_, ?_, flow, initial, n, last, hprepare, hruns, hempty, hstates, hleaders, ?_⟩
  · refine Std.TreeSet.ordered_toList.imp ?_
    intro a b hab
    exact Nat.compare_eq_lt.1 hab
  · intro pc
    rw [Std.TreeSet.mem_toList, hleaders]
  · intro pc hpc
    obtain ⟨first, hlisted⟩ := listing_zero_of_runs hruns hempty
    have hreached := reached_of_runs hprepared hruns
      (Program.startsAt_of_listing hprepared.program hlisted).1
    obtain ⟨here, hhere⟩ := Program.exists_listing hprepared.program hpc
    obtain ⟨f, hf⟩ := contains_of_listStates hstates hhere
    exact ⟨⟨f, hf⟩, (hreached pc f hf).2⟩

/-- A switch of two cases and a handler around it. -/
def switchCaught : Code where
  maxStack := 1
  maxLocals := 0
  code := [3, 0xaa, 0, 0, 0, 0, 0, 26, 0, 0, 0, 0, 0, 0, 0, 1, 0, 0, 0, 23, 0, 0, 0, 26,
    0xa7, 0, 3, 0xb1, 0xbf]
  handlers := [⟨0, 24, 28, 0⟩]

theorem listed_addresses_switch : ∃ result,
    compute siblings castPool "M" ⟨"m", "()V", true⟩ switchCaught = .ok result ∧
    result.states.map (·.pc.toNat) = [24, 27, 28] ∧
    (result.states.map (·.pc.toNat)).Pairwise (· < ·) ∧
    (∀ pc, pc ∈ [24, 27, 28] ↔ switchCaught.NeedsFrame pc) ∧
    ∀ pc, StartsAt switchCaught.code.toArray pc → ReflTransGen switchCaught.Leads 0 pc := by
  have hrun : (compute siblings castPool "M" ⟨"m", "()V", true⟩ switchCaught).toOption.any
      (fun result => result.states.map (·.pc.toNat) = [24, 27, 28]) = true := by
    decide +kernel
  obtain ⟨result, hresult, hpcs⟩ := exists_ok_of_any hrun
  rw [decide_eq_true_eq] at hpcs
  obtain ⟨hordered, hneeds, _, _, _, _, -, -, -, -, -, hreached⟩ :=
    listed_addresses (by decide) hresult
  rw [hpcs] at hneeds
  exact ⟨result, hresult, hpcs, hordered, hneeds, fun pc hpc => (hreached pc hpc).2⟩

end Flow

end ClassArchive
