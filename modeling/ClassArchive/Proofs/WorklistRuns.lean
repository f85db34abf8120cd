import ClassArchive.Frame.Flow
import ClassArchive.Proofs.Outcome
import Mathlib.Logic.Relation

/-!
What a visit can do, said once: it joins frames into addresses and marks addresses, and each of them
comes from the instruction that is visited. What every join keeps is kept by every visit, and so by
every run of the worklist. A run takes as many visits as it needs; the bound on the visits only cuts
some runs off.
-/
set_option autoImplicit false

namespace ClassArchive

namespace Flow

variable {flow : Flow}

/-! ### Joins -/

theorem getElem?_insert_frame (frames : Std.TreeMap Nat Frame) (pc pc' : Nat) (f : Frame) :
    (frames.insert pc f)[pc']? = if pc = pc' then some f else frames[pc']? := by
  simp [Std.TreeMap.getElem?_insert]

theorem mem_leaders_lead {s : FlowState} {target pc : Nat} :
    pc ∈ (s.lead target).leaders ↔ target = pc ∨ pc ∈ s.leaders := by
  simp [FlowState.lead, Std.TreeSet.mem_insert]

theorem mergeInto_cases {s t : FlowState} {target : Nat} {f : Frame}
    (h : flow.mergeInto s target f = .ok t) :
    (s.frames[target]? = none ∧
      t = { s with frames := s.frames.insert target f, queue := s.queue ++ [target] }) ∨
    ∃ existing merged, s.frames[target]? = some existing ∧
      flow.load.mergeFrames target existing f = .ok merged ∧
      ((merged = existing ∧ t = s) ∨ (merged ≠ existing ∧
        t = { s with
          frames := s.frames.insert target merged
          queue := if target ∈ s.queue then s.queue else s.queue ++ [target] })) := by
  unfold mergeInto at h
  split at h
  · next hnone =>
    cases h
    exact .inl ⟨hnone, rfl⟩
  · next existing hexisting =>
    obtain ⟨merged, hmerged, h⟩ := bind_eq_ok.1 h
    refine .inr ⟨existing, merged, hexisting, hmerged, ?_⟩
    split at h
    · next heq =>
      cases h
      exact .inl ⟨heq, rfl⟩
    · next hne =>
      cases h
      exact .inr ⟨hne, rfl⟩

theorem frame_of_mergeInto {s t : FlowState} {target pc : Nat} {f g : Frame}
    (h : flow.mergeInto s target f = .ok t) (hg : t.frames[pc]? = some g) :
    target = pc ∨ s.frames[pc]? = some g := by
  rcases mergeInto_cases h with ⟨-, rfl⟩ | ⟨_, _, _, -, ⟨-, rfl⟩ | ⟨-, rfl⟩⟩
  · rw [getElem?_insert_frame] at hg
    split at hg
    · next heq => exact .inl heq
    · exact .inr hg
  · exact .inr hg
  · rw [getElem?_insert_frame] at hg
    split at hg
    · next heq => exact .inl heq
    · exact .inr hg

theorem leaders_of_mergeInto {s t : FlowState} {target : Nat} {f : Frame}
    (h : flow.mergeInto s target f = .ok t) : t.leaders = s.leaders := by
  rcases mergeInto_cases h with ⟨-, rfl⟩ | ⟨_, _, _, -, ⟨-, rfl⟩ | ⟨-, rfl⟩⟩ <;> rfl

/-- The frames that a visit sends on, with their addresses: to the handlers around the instruction,
to its branch targets, and to the instruction after it. -/
inductive Sends (flow : Flow) (pc : Nat) (here : Located) (before after : Frame) :
    Nat → Frame → Prop where
  | caught {range : CatchRange} {f : Frame} : range ∈ flow.ranges → range.covers pc = true →
      f = before ∨ f = after →
      Sends flow pc here before after range.handler ⟨f.locals, [range.catchType]⟩
  | branch {offset : Int} {target : Nat} : offset ∈ here.instruction.offsets →
      (target : Int) = pc + offset → flow.program.isStart target = true →
      Sends flow pc here before after target after
  | next : here.instruction.fallsThrough = true → here.next < flow.program.code.size →
      Sends flow pc here before after here.next after

/-- The addresses that a visit marks: the branch targets of the instruction, and what stands behind
one that does not fall through. -/
inductive Marks (flow : Flow) (pc : Nat) (here : Located) : Nat → Prop where
  | branch {offset : Int} {target : Nat} : offset ∈ here.instruction.offsets →
      (target : Int) = pc + offset → flow.program.isStart target = true →
      Marks flow pc here target
  | behind : here.instruction.fallsThrough = false → here.next < flow.program.code.size →
      Marks flow pc here here.next

inductive Join (flow : Flow) (pc : Nat) (here : Located) (before after : Frame) (s : FlowState) :
    FlowState → Prop where
  | merge {target : Nat} {f : Frame} {t : FlowState} : flow.Sends pc here before after target f →
      flow.mergeInto s target f = .ok t → Join flow pc here before after s t
  | lead {target : Nat} : flow.Marks pc here target →
      Join flow pc here before after s (s.lead target)

abbrev Joins (flow : Flow) (pc : Nat) (here : Located) (before after : Frame) :
    FlowState → FlowState → Prop :=
  Relation.ReflTransGen (flow.Join pc here before after)

/-- What comes of the joins of a visit: all succeed, or one of the frames that are sent clashes with
the frame at its address, or control goes astray, each time after some other joins. -/
inductive Joined (flow : Flow) (pc : Nat) (here : Located) (before after : Frame) (s : FlowState) :
    Except FrameError FlowState → Prop where
  | done {t : FlowState} : flow.Joins pc here before after s t →
      Joined flow pc here before after s (.ok t)
  | clash {t : FlowState} {target : Nat} {f : Frame} {e : FrameError} :
      flow.Joins pc here before after s t → flow.Sends pc here before after target f →
      flow.mergeInto t target f = .error e → Joined flow pc here before after s (.error e)
  | astray {t : FlowState} {target : Int} : flow.Joins pc here before after s t →
      Joined flow pc here before after s (.error (.invalidBranchTarget pc target))

namespace Joined

variable {pc : Nat} {here : Located} {before after : Frame} {s t : FlowState}

theorem mergeInto {target : Nat} {f : Frame} (h : flow.Sends pc here before after target f) :
    flow.Joined pc here before after s (flow.mergeInto s target f) := by
  cases hmerge : flow.mergeInto s target f with
  | error e => exact .clash .refl h hmerge
  | ok t => exact .done (.single (.merge h hmerge))

theorem after_joins {out : Except FrameError FlowState}
    (hjoins : flow.Joins pc here before after s t) (h : flow.Joined pc here before after t out) :
    flow.Joined pc here before after s out := by
  cases h with
  | done hmore => exact .done (hjoins.trans hmore)
  | clash hmore hsent hmerge => exact .clash (hjoins.trans hmore) hsent hmerge
  | astray hmore => exact .astray (hjoins.trans hmore)

theorem bind {x : Except FrameError FlowState} {next : FlowState → Except FrameError FlowState}
    (hx : flow.Joined pc here before after s x)
    (hnext : ∀ t, flow.Joined pc here before after t (next t)) :
    flow.Joined pc here before after s (x >>= next) := by
  cases hx with
  | done hjoins => exact .after_joins hjoins (hnext _)
  | clash hjoins hsent hmerge => exact .clash hjoins hsent hmerge
  | astray hjoins => exact .astray hjoins

theorem foldlM {α : Type} {next : FlowState → α → Except FrameError FlowState} {xs : List α}
    (hnext : ∀ a ∈ xs, ∀ s, flow.Joined pc here before after s (next s a)) (s : FlowState) :
    flow.Joined pc here before after s (xs.foldlM next s) := by
  induction xs generalizing s with
  | nil => exact .done .refl
  | cons a xs ih =>
    rw [List.foldlM_cons]
    exact (hnext a (by simp) s).bind (ih fun b hb => hnext b (by simp [hb]))

end Joined

theorem target_eq_ok {p : Program} {pc target : Nat} {offset : Int}
    (h : p.target pc offset = .ok target) : (target : Int) = pc + offset := by
  unfold Program.target at h
  dsimp only at h
  split at h
  · cases h
  · cases h
    omega

theorem target_eq_error {p : Program} {pc : Nat} {offset : Int} {e : FrameError}
    (h : p.target pc offset = .error e) : ∃ target, e = .invalidBranchTarget pc target := by
  unfold Program.target at h
  dsimp only at h
  split at h
  · cases h
    exact ⟨_, rfl⟩
  · cases h

theorem visit_cases (flow : Flow) (s : FlowState) (pc : Nat) (before : Frame) (here : Located) :
    (∃ e, flow.scope.transfer pc before here.instruction = .error e ∧
      flow.visit s pc before here = .error e) ∨
    ∃ after, flow.scope.transfer pc before here.instruction = .ok after ∧
      flow.Joined pc here before after s (flow.visit s pc before here) := by
  unfold visit
  cases hafter : flow.scope.transfer pc before here.instruction with
  | error e => exact .inl ⟨e, rfl, rfl⟩
  | ok after =>
    refine .inr ⟨after, rfl, ?_⟩
    cases htargets : here.instruction.offsets.mapM (flow.program.target pc) with
    | error e =>
      obtain ⟨offset, -, htarget⟩ := exists_of_mapM_eq_error htargets
      obtain ⟨target, rfl⟩ := target_eq_error htarget
      exact .astray .refl
    | ok targets =>
      refine .bind (.foldlM ?_ s) fun s => .bind (.foldlM ?_ s) fun s => ?_
      · intro range hrange s
        obtain ⟨hmem, hcovers⟩ := List.mem_filter.1 hrange
        exact .bind (.mergeInto (.caught hmem hcovers (.inl rfl))) fun s =>
          .mergeInto (.caught hmem hcovers (.inr rfl))
      · intro target htarget s
        obtain ⟨offset, hoffset, htarget⟩ := exists_source_of_mapM htargets target htarget
        unfold mergeTarget
        split
        · next hstart =>
          have hplace := target_eq_ok htarget
          exact .after_joins (.single (.lead (.branch hoffset hplace hstart)))
            (.mergeInto (.branch hoffset hplace hstart))
        · exact .astray .refl
      · split
        · next hfalls =>
          split
          · exact .astray .refl
          · next hlt => exact .mergeInto (.next hfalls (Nat.lt_of_not_le hlt))
        · next hfalls =>
          split
          · next hlt => exact .done (.single (.lead (.behind (by simpa using hfalls) hlt)))
          · exact .done .refl

theorem joins_of_visit {s t : FlowState} {pc : Nat} {before : Frame} {here : Located}
    (h : flow.visit s pc before here = .ok t) :
    ∃ after, flow.scope.transfer pc before here.instruction = .ok after ∧
      flow.Joins pc here before after s t := by
  rcases flow.visit_cases s pc before here with ⟨e, -, herror⟩ | ⟨after, hafter, hjoined⟩
  · rw [h] at herror
    cases herror
  · rw [h] at hjoined
    cases hjoined with
    | done hjoins => exact ⟨after, hafter, hjoins⟩

theorem step_cases {s t : FlowState} {pc : Nat} {rest : List Nat}
    (h : flow.step s pc rest = .ok t) :
    (s.frames[pc]? = none ∧ t = { s with queue := rest }) ∨
    ∃ before here after, s.frames[pc]? = some before ∧ flow.program.listing[pc]? = some here ∧
      flow.scope.transfer pc before here.instruction = .ok after ∧
      flow.Joins pc here before after { s with queue := rest } t := by
  unfold step at h
  dsimp only at h
  split at h
  · next before here hbefore hhere =>
    obtain ⟨after, hafter, hjoins⟩ := joins_of_visit h
    exact .inr ⟨before, here, after, hbefore, hhere, hafter, hjoins⟩
  · cases h
  · next hnone =>
    cases h
    exact .inl ⟨hnone, rfl⟩

/-- A visit fails where no instruction is listed, at its instruction, or in its joins. -/
theorem step_eq_error {s : FlowState} {pc : Nat} {rest : List Nat} {e : FrameError}
    (h : flow.step s pc rest = .error e) :
    ∃ before, s.frames[pc]? = some before ∧
      ((flow.program.listing[pc]? = none ∧ e = .format (.breakdown (.noInstruction pc))) ∨
        ∃ here, flow.program.listing[pc]? = some here ∧
          (flow.scope.transfer pc before here.instruction = .error e ∨
            ∃ after, flow.scope.transfer pc before here.instruction = .ok after ∧
              flow.Joined pc here before after { s with queue := rest } (.error e))) := by
  unfold step at h
  dsimp only at h
  split at h
  · next before here hbefore hhere =>
    refine ⟨before, hbefore, .inr ⟨here, hhere, ?_⟩⟩
    rcases flow.visit_cases { s with queue := rest } pc before here with
      ⟨e', htransfer, herror⟩ | ⟨after, hafter, hjoined⟩
    · rw [h] at herror
      cases herror
      exact .inl htransfer
    · rw [h] at hjoined
      exact .inr ⟨after, hafter, hjoined⟩
  · next before hbefore hnone =>
    cases h
    exact ⟨before, hbefore, .inl ⟨hnone, rfl⟩⟩
  · cases h

/-! ### Runs -/

/-- The worklist goes from one state to another by the given number of visits. -/
inductive Runs (flow : Flow) : Nat → FlowState → FlowState → Prop where
  | refl (s : FlowState) : Runs flow 0 s s
  | visit {n pc : Nat} {rest : List Nat} {s t u : FlowState} : s.queue = pc :: rest →
      flow.step s pc rest = .ok t → Runs flow n t u → Runs flow (n + 1) s u

theorem Runs.keeps {I : FlowState → Prop} {n : Nat} {s u : FlowState} (h : flow.Runs n s u)
    (hstep : ∀ s t pc rest, I s → s.queue = pc :: rest → flow.step s pc rest = .ok t → I t)
    (hs : I s) : I u := by
  induction h with
  | refl s => exact hs
  | visit hqueue hvisit _ ih => exact ih (hstep _ _ _ _ hs hqueue hvisit)

theorem settle_succ (flow : Flow) (budget : Nat) {s : FlowState} {pc : Nat} {rest : List Nat}
    (h : s.queue = pc :: rest) : flow.settle (budget + 1) s =
      flow.step s pc rest >>= fun next => flow.settle budget next := by
  rw [settle, h]

/-- The queue is worked off, or a visit fails, or there are too few visits. -/
theorem settle_cases (flow : Flow) (budget : Nat) (s : FlowState) :
    (∃ n t, n ≤ budget ∧ flow.Runs n s t ∧ t.queue = [] ∧ flow.settle budget s = .ok t) ∨
    (∃ n t pc rest e, n < budget ∧ flow.Runs n s t ∧ t.queue = pc :: rest ∧
      flow.step t pc rest = .error e ∧ flow.settle budget s = .error e) ∨
    ∃ t, flow.Runs budget s t ∧ t.queue ≠ [] ∧ flow.settle budget s = .error .unsettled := by
  induction budget generalizing s with
  | zero =>
    cases hqueue : s.queue with
    | nil => exact .inl ⟨0, s, Nat.le_refl 0, .refl s, hqueue, by simp only [settle, hqueue]⟩
    | cons pc rest =>
      exact .inr (.inr ⟨s, .refl s, by simp [hqueue], by simp only [settle, hqueue]⟩)
  | succ budget ih =>
    cases hqueue : s.queue with
    | nil => exact .inl ⟨0, s, Nat.zero_le _, .refl s, hqueue, by simp only [settle, hqueue]⟩
    | cons pc rest =>
      have hsettle := flow.settle_succ budget hqueue
      cases hstep : flow.step s pc rest with
      | error e =>
        rw [hstep] at hsettle
        exact .inr (.inl ⟨0, s, pc, rest, e, Nat.zero_lt_succ _, .refl s, hqueue, hstep, hsettle⟩)
      | ok next =>
        rw [hstep] at hsettle
        rcases ih next with ⟨n, t, hle, hruns, h⟩ | ⟨n, t, pc', rest', e, hlt, hruns, h⟩ |
          ⟨t, hruns, h⟩
        · exact .inl ⟨n + 1, t, Nat.succ_le_succ hle, .visit hqueue hstep hruns, h.1,
            hsettle.trans h.2⟩
        · exact .inr (.inl ⟨n + 1, t, pc', rest', e, Nat.succ_lt_succ hlt,
            .visit hqueue hstep hruns, h.1, h.2.1, hsettle.trans h.2.2⟩)
        · exact .inr (.inr ⟨t, .visit hqueue hstep hruns, h.1, hsettle.trans h.2⟩)

theorem Runs.settle {n : Nat} {s t : FlowState} (h : flow.Runs n s t) (budget : Nat) :
    flow.settle (n + budget) s = flow.settle budget t := by
  induction h with
  | refl s => rw [Nat.zero_add]
  | @visit n pc rest s t u hqueue hstep _ ih =>
    rw [Nat.add_right_comm, flow.settle_succ _ hqueue, hstep]
    exact ih

theorem Runs.settle_eq_ok {n budget : Nat} {s t : FlowState} (h : flow.Runs n s t)
    (hempty : t.queue = []) (hle : n ≤ budget) : flow.settle budget s = .ok t := by
  obtain ⟨more, rfl⟩ := Nat.exists_eq_add_of_le hle
  rw [h.settle]
  unfold Flow.settle
  rw [hempty]

theorem Runs.settle_eq_error {n budget pc : Nat} {rest : List Nat} {s t : FlowState}
    {e : FrameError} (h : flow.Runs n s t) (hqueue : t.queue = pc :: rest)
    (hstep : flow.step t pc rest = .error e) (hlt : n < budget) :
    flow.settle budget s = .error e := by
  obtain ⟨more, rfl⟩ := Nat.exists_eq_add_of_lt hlt
  rw [Nat.add_assoc, h.settle, flow.settle_succ _ hqueue, hstep]
  rfl

/-- The states through which a worklist comes: those between its visits, and those between the joins
of a visit, whether or not all of these succeed. -/
inductive Passes (flow : Flow) (s : FlowState) : FlowState → Prop where
  | between {n : Nat} {t : FlowState} : flow.Runs n s t → Passes flow s t
  | within {n pc : Nat} {rest : List Nat} {here : Located} {before after : Frame}
      {t u : FlowState} : flow.Runs n s t → t.queue = pc :: rest →
      t.frames[pc]? = some before → flow.program.listing[pc]? = some here →
      flow.scope.transfer pc before here.instruction = .ok after →
      flow.Joins pc here before after { t with queue := rest } u → Passes flow s u

theorem runs_of_settle {budget : Nat} {s t : FlowState} (h : flow.settle budget s = .ok t) :
    ∃ n, n ≤ budget ∧ flow.Runs n s t ∧ t.queue = [] := by
  rcases flow.settle_cases budget s with ⟨n, last, hle, hruns, hempty, hsettle⟩ |
    ⟨_, _, _, _, _, -, -, -, -, hsettle⟩ | ⟨_, -, -, hsettle⟩
  · cases h.symm.trans hsettle
    exact ⟨n, hle, hruns, hempty⟩
  · cases h.symm.trans hsettle
  · cases h.symm.trans hsettle

section Computing

variable {load : Loader} {pool : Pool} {className : String} {m : MethodShape} {body : Code}

theorem compute_eq_settle {initial : Frame}
    (h : prepare load pool className m body = .ok (flow, initial)) :
    compute load pool className m body =
      flow.settle (flow.budget body.maxLocals.toNat m.descriptor) (flow.start initial) >>=
        fun last => (flow.listStates last).map fun states => ⟨initial.compactLocals, states⟩ := by
  unfold compute
  rw [h]
  change (flow.settle _ _ >>= fun last => flow.listStates last >>= _) = _
  refine bind_congr fun last => ?_
  cases flow.listStates last <;> rfl

theorem runs_of_compute {result : ComputedFrames}
    (h : compute load pool className m body = .ok result) :
    ∃ flow initial n last, prepare load pool className m body = .ok (flow, initial) ∧
      flow.Runs n (flow.start initial) last ∧ last.queue = [] ∧
      flow.listStates last = .ok result.states ∧ result.initial = initial.compactLocals := by
  obtain ⟨⟨flow, initial⟩, hprepare, h⟩ := bind_eq_ok.1 h
  obtain ⟨last, hsettle, h⟩ := bind_eq_ok.1 h
  obtain ⟨states, hstates, h⟩ := bind_eq_ok.1 h
  cases h
  obtain ⟨n, -, hruns, hempty⟩ := runs_of_settle hsettle
  exact ⟨flow, initial, n, last, hprepare, hruns, hempty, hstates, rfl⟩

end Computing

/-! ### What visits keep -/

/-- Whether a property of states is kept when an address is taken off the queue, and by each join
and each mark of a visit that starts where the property holds. -/
structure Preserves (flow : Flow) (I : FlowState → Prop) : Prop where
  taken : ∀ s pc rest, I s → s.queue = pc :: rest → I { s with queue := rest }
  joined : ∀ (s : FlowState) (pc : Nat) (here : Located) (before after : Frame), I s →
    s.frames[pc]? = some before → flow.program.listing[pc]? = some here →
    flow.scope.transfer pc before here.instruction = .ok after →
    ∀ target f, flow.Sends pc here before after target f →
      ∀ t u, I t → flow.mergeInto t target f = .ok u → I u
  led : ∀ (s : FlowState) (pc : Nat) (here : Located) (before : Frame), I s →
    s.frames[pc]? = some before → flow.program.listing[pc]? = some here →
    ∀ target, flow.Marks pc here target → ∀ t, I t → I (t.lead target)

namespace Preserves

variable {I : FlowState → Prop} (hI : flow.Preserves I) {s t u : FlowState} (hs : I s)
include hI hs

theorem joins {pc : Nat} {here : Located} {before after : Frame}
    (hbefore : s.frames[pc]? = some before) (hhere : flow.program.listing[pc]? = some here)
    (hafter : flow.scope.transfer pc before here.instruction = .ok after) (ht : I t)
    (h : flow.Joins pc here before after t u) : I u := by
  induction h with
  | refl => exact ht
  | tail _ hjoin ih =>
    cases hjoin with
    | merge hsent hmerge =>
      exact hI.joined s pc here before after hs hbefore hhere hafter _ _ hsent _ _ ih hmerge
    | lead hmarks => exact hI.led s pc here before hs hbefore hhere _ hmarks _ ih

theorem runs {n : Nat} (h : flow.Runs n s t) : I t := by
  refine h.keeps (fun s t pc rest hs hqueue hstep => ?_) hs
  have htaken := hI.taken s pc rest hs hqueue
  rcases step_cases hstep with ⟨-, rfl⟩ | ⟨before, here, after, hbefore, hhere, hafter, hjoins⟩
  · exact htaken
  · exact hI.joins hs hbefore hhere hafter htaken hjoins

theorem passes (h : flow.Passes s t) : I t := by
  cases h with
  | between hruns => exact hI.runs hs hruns
  | within hruns hqueue hbefore hhere hafter hjoins =>
    have hbetween := hI.runs hs hruns
    exact hI.joins hbetween hbefore hhere hafter (hI.taken _ _ _ hbetween hqueue) hjoins

end Preserves

/-- What holds of an address and of all to which it sends frames holds of all that have one. -/
theorem preserves_addresses {P : Nat → Prop}
    (hsends : ∀ pc here before after target f, P pc → flow.program.listing[pc]? = some here →
      flow.Sends pc here before after target f → P target) :
    flow.Preserves fun s => ∀ (pc : Nat) (f : Frame), s.frames[pc]? = some f → P pc where
  taken _ _ _ hs _ := hs
  joined s pc here before after hs hbefore hhere _ target f hsent t u ht hmerge := by
    intro pc' f' hf'
    rcases frame_of_mergeInto hmerge hf' with rfl | hold
    · exact hsends pc here before after _ f (hs pc before hbefore) hhere hsent
    · exact ht pc' f' hold
  led _ _ _ _ _ _ _ _ _ _ ht := ht

theorem Runs.addresses {P : Nat → Prop} {n : Nat} {s t : FlowState} (h : flow.Runs n s t)
    (hsends : ∀ pc here before after target f, P pc → flow.program.listing[pc]? = some here →
      flow.Sends pc here before after target f → P target)
    (hs : ∀ (pc : Nat) (f : Frame), s.frames[pc]? = some f → P pc) :
    ∀ (pc : Nat) (f : Frame), t.frames[pc]? = some f → P pc :=
  (preserves_addresses hsends).runs hs h

/-- What holds of all addresses that a visit marks holds of all that are marked. -/
theorem preserves_leaders {P : Nat → Prop}
    (hmarks : ∀ pc here target, flow.program.listing[pc]? = some here →
      flow.Marks pc here target → P target) :
    flow.Preserves fun s => ∀ pc ∈ s.leaders, P pc where
  taken _ _ _ hs _ := hs
  joined _ _ _ _ _ _ _ _ _ _ _ _ t u ht hmerge := by
    rw [leaders_of_mergeInto hmerge]
    exact ht
  led _ pc here _ _ _ hhere target hmarked t ht := by
    intro pc' hpc'
    rcases mem_leaders_lead.1 hpc' with rfl | hpc'
    · exact hmarks pc here target hhere hmarked
    · exact ht pc' hpc'

theorem Runs.leaders {P : Nat → Prop} {initial : Frame} {n : Nat} {t : FlowState}
    (h : flow.Runs n (flow.start initial) t) (hhandlers : ∀ range ∈ flow.ranges, P range.handler)
    (hmarks : ∀ pc here target, flow.program.listing[pc]? = some here →
      flow.Marks pc here target → P target) : ∀ pc ∈ t.leaders, P pc := by
  refine (preserves_leaders hmarks).runs ?_ h
  intro pc hpc
  simp only [start, Std.TreeSet.mem_ofList, List.contains_iff_mem, List.mem_map] at hpc
  obtain ⟨range, hrange, rfl⟩ := hpc
  exact hhandlers range hrange

theorem exists_frame_insert {frames : Std.TreeMap Nat Frame} {target pc : Nat} (f : Frame)
    (h : pc = target ∨ ∃ g, frames[pc]? = some g) :
    ∃ g, (frames.insert target f)[pc]? = some g := by
  rw [getElem?_insert_frame]
  split
  · exact ⟨f, rfl⟩
  · next hne => exact h.resolve_left (Ne.symm hne)

theorem preserves_queued (flow : Flow) :
    flow.Preserves fun s => ∀ pc ∈ s.queue, ∃ f, s.frames[pc]? = some f where
  taken s pc rest hs hqueue pc' hpc' := hs pc' (by simp [hqueue, hpc'])
  joined _ _ _ _ _ _ _ _ _ target f _ t u ht hmerge := by
    intro pc hpc
    rcases mergeInto_cases hmerge with ⟨-, rfl⟩ | ⟨_, merged, _, -, ⟨-, rfl⟩ | ⟨-, rfl⟩⟩
    · refine exists_frame_insert f ?_
      rcases List.mem_append.1 hpc with hpc | hpc
      · exact .inr (ht pc hpc)
      · exact .inl (List.mem_singleton.1 hpc)
    · exact ht pc hpc
    · refine exists_frame_insert merged ?_
      dsimp only at hpc
      split at hpc
      · exact .inr (ht pc hpc)
      · rcases List.mem_append.1 hpc with hpc | hpc
        · exact .inr (ht pc hpc)
        · exact .inl (List.mem_singleton.1 hpc)
  led _ _ _ _ _ _ _ _ _ _ ht := ht

/-! ### What all frames have -/

def AllFrames (P : Frame → Prop) (s : FlowState) : Prop :=
  ∀ (pc : Nat) (f : Frame), s.frames[pc]? = some f → P f

theorem allFrames_insert {P : Frame → Prop} {s : FlowState} {target : Nat} {f : Frame}
    {queue : List Nat} (hs : AllFrames P s) (hf : P f) :
    AllFrames P { s with frames := s.frames.insert target f, queue } := by
  intro pc g hg
  simp only [getElem?_insert_frame] at hg
  split at hg
  · cases hg
    exact hf
  · exact hs pc g hg

theorem allFrames_start (flow : Flow) {P : Frame → Prop} {initial : Frame} (h : P initial) :
    AllFrames P (flow.start initial) := by
  intro pc f hf
  simp only [start, getElem?_insert_frame] at hf
  split at hf
  · cases hf
    exact h
  · simp at hf

/-- Whether a property of frames is kept by instructions, on the way into handlers, and by
joins. -/
structure Keeps (flow : Flow) (P : Frame → Prop) : Prop where
  transfer : ∀ (pc : Nat) (here : Located) (f g : Frame), flow.program.listing[pc]? = some here →
    P f → flow.scope.transfer pc f here.instruction = .ok g → P g
  caught : ∀ range ∈ flow.ranges, ∀ f : Frame, P f → P ⟨f.locals, [range.catchType]⟩
  merged : ∀ (pc : Nat) (f g h : Frame), P f → P g → flow.load.mergeFrames pc f g = .ok h → P h

namespace Keeps

variable {P Q : Frame → Prop}

theorem and (hP : flow.Keeps P) (hQ : flow.Keeps Q) : flow.Keeps fun f => P f ∧ Q f where
  transfer pc here f g hhere hf h :=
    ⟨hP.transfer pc here f g hhere hf.1 h, hQ.transfer pc here f g hhere hf.2 h⟩
  caught range hrange f hf := ⟨hP.caught range hrange f hf.1, hQ.caught range hrange f hf.2⟩
  merged pc f g h hf hg hmerged :=
    ⟨hP.merged pc f g h hf.1 hg.1 hmerged, hQ.merged pc f g h hf.2 hg.2 hmerged⟩

theorem mergeInto (hP : flow.Keeps P) {s t : FlowState} {target : Nat} {f : Frame}
    (hs : AllFrames P s) (hf : P f) (h : flow.mergeInto s target f = .ok t) : AllFrames P t := by
  rcases mergeInto_cases h with ⟨-, rfl⟩ | ⟨existing, merged, hexisting, hmerged, hcases⟩
  · exact allFrames_insert hs hf
  · have hold := hs target existing hexisting
    rcases hcases with ⟨-, rfl⟩ | ⟨-, rfl⟩
    · exact hs
    · exact allFrames_insert hs (hP.merged target existing f merged hold hf hmerged)

theorem sends (hP : flow.Keeps P) {pc target : Nat} {here : Located} {before after f : Frame}
    (hbefore : P before) (hafter : P after)
    (h : flow.Sends pc here before after target f) : P f := by
  cases h with
  | caught hrange _ hf =>
    rcases hf with rfl | rfl
    · exact hP.caught _ hrange _ hbefore
    · exact hP.caught _ hrange _ hafter
  | branch _ _ _ => exact hafter
  | next _ _ => exact hafter

theorem preserves (hP : flow.Keeps P) : flow.Preserves (AllFrames P) where
  taken _ _ _ hs _ := hs
  joined s pc here before after hs hbefore hhere hafter target f hsent t u ht hmerge := by
    have hbefore := hs pc before hbefore
    have hafter := hP.transfer pc here before after hhere hbefore hafter
    exact hP.mergeInto ht (hP.sends hbefore hafter hsent) hmerge
  led _ _ _ _ _ _ _ _ _ _ ht := ht

theorem step (hP : flow.Keeps P) {s t : FlowState} {pc : Nat} {rest : List Nat}
    (hs : AllFrames P s) (h : flow.step s pc rest = .ok t) : AllFrames P t := by
  rcases step_cases h with ⟨-, rfl⟩ | ⟨before, here, after, hbefore, hhere, hafter, hjoins⟩
  · exact hs
  · have htaken : AllFrames P { s with queue := rest } := hs
    exact hP.preserves.joins hs hbefore hhere hafter htaken hjoins

theorem runs (hP : flow.Keeps P) {n : Nat} {s t : FlowState} (h : flow.Runs n s t)
    (hs : AllFrames P s) : AllFrames P t :=
  hP.preserves.runs hs h

end Keeps

end Flow

end ClassArchive
