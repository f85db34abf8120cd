import ClassArchive.Proofs.TypeOrder
import ClassArchive.Proofs.WorklistRuns

/-!
The frames of a settled worklist. Every address that is not queued has carried its frame on: along
its branches, to the next instruction and into the handlers around it; and it has marked the
addresses that need a frame because of it. A visit keeps that true of all other addresses, since a
frame only rises and an address is queued whenever its frame changes.
-/
set_option autoImplicit false

namespace ClassArchive

/-! ### What an instruction does to the local slots -/

namespace Frame

theorem locals_of_drop {count pc : Nat} {f g : Frame} (h : f.drop count pc = .ok g) :
    g.locals = f.locals := by
  unfold drop at h
  split at h
  · cases h
  · cases h
    rfl

theorem locals_of_pop {pc : Nat} {f g : Frame} {type : VerificationType}
    (h : f.pop pc = .ok (type, g)) : g.locals = f.locals := by
  unfold pop at h
  split at h
  · cases h
  · cases h
    rfl

@[simp] theorem length_clearIf (condition : Bool) (slot : Nat) (locals : List VerificationType) :
    (clearIf condition slot locals).length = locals.length := by
  unfold clearIf
  split <;> simp

/-- Local slots stay as they are, take a value, or hold an object whose constructor has run. -/
inductive LocalsStep (locals : List VerificationType) : List VerificationType → Prop where
  | kept : LocalsStep locals locals
  | stored {slot : Nat} {type : VerificationType} : slot + slotCount type ≤ locals.length →
      LocalsStep locals (storeLocal slot type locals)
  | constructed {before : VerificationType} {name : String} :
      before = .uninitializedThis ∨ (∃ pc, before = .uninitialized pc) →
      LocalsStep locals (locals.map fun type => if type = before then .object name else type)

theorem LocalsStep.length_eq {locals after : List VerificationType} (h : LocalsStep locals after) :
    after.length = locals.length := by
  cases h with
  | kept => rfl
  | stored _ => simp [storeLocal]
  | constructed _ => simp

end Frame

namespace MethodScope

open ClassArchive.Frame (LocalsStep)

theorem constructed?_eq_some {scope : MethodScope} {before after : VerificationType}
    (h : scope.constructed? before = .ok (some after)) :
    (before = .uninitializedThis ∨ ∃ pc, before = .uninitialized pc) ∧
      ∃ name, after = .object name := by
  unfold constructed? at h
  split at h
  · cases h
    exact ⟨.inl rfl, _, rfl⟩
  · next pc =>
    split at h
    · obtain ⟨name, _, h⟩ := bind_eq_ok.1 h
      cases h
      exact ⟨.inr ⟨pc, rfl⟩, name, rfl⟩
    · cases h
  · cases h

theorem localsStep_takeReceiver {scope : MethodScope} {kind : InvokeKind} {method : String}
    {pc : Nat} {f g : Frame} (h : scope.takeReceiver kind method pc f = .ok g) :
    LocalsStep f.locals g.locals := by
  unfold takeReceiver at h
  split at h
  · cases h
    exact .kept
  · obtain ⟨⟨receiver, popped⟩, hpop, h⟩ := bind_eq_ok.1 h
    rw [← Frame.locals_of_pop hpop]
    dsimp only at h
    split at h
    · obtain ⟨type, htype, h⟩ := bind_eq_ok.1 h
      split at h
      · cases h
        obtain ⟨hbefore, name, rfl⟩ := constructed?_eq_some htype
        exact .constructed hbefore
      · cases h
        exact .kept
    · cases h
      exact .kept

theorem pushResult_eq_ok {d : MethodDescriptor} {f g : Frame} (h : pushResult d f = .ok g) :
    g = f ∨ ∃ type, typeOf d.result = .ok type ∧ g = f.push type := by
  unfold pushResult at h
  split at h
  · obtain ⟨type, htype, h⟩ := bind_eq_ok.1 h
    cases h
    exact .inr ⟨type, htype, rfl⟩
  · cases h
    exact .inl rfl

theorem locals_of_pushResult {d : MethodDescriptor} {f g : Frame} (h : pushResult d f = .ok g) :
    g.locals = f.locals := by
  rcases pushResult_eq_ok h with rfl | ⟨type, -, rfl⟩ <;> rfl

theorem localsStep_transfer {scope : MethodScope} {pc : Nat} {f g : Frame} {i : Instruction}
    (h : scope.transfer pc f i = .ok g) : LocalsStep f.locals g.locals := by
  cases i with
  | nop | push type | jump offset | new index =>
    cases h
    exact .kept
  | loadConstant index | load kind slot | increment slot =>
    obtain ⟨_, _, h⟩ := bind_eq_ok.1 h
    cases h
    exact .kept
  | getStatic index =>
    obtain ⟨_, _, h⟩ := bind_eq_ok.1 h
    obtain ⟨_, _, h⟩ := bind_eq_ok.1 h
    cases h
    exact .kept
  | store kind slot =>
    obtain ⟨⟨value, popped⟩, hpop, h⟩ := bind_eq_ok.1 h
    rw [← Frame.locals_of_pop hpop]
    simp only [Frame.setLocal] at h
    split at h
    · cases h
    · cases h
      exact .stored (by omega)
  | operate arity result | newArray type =>
    obtain ⟨dropped, hdrop, h⟩ := bind_eq_ok.1 h
    cases h
    rw [← Frame.locals_of_drop hdrop]
    exact .kept
  | loadElement =>
    obtain ⟨dropped, hdrop, h⟩ := bind_eq_ok.1 h
    obtain ⟨⟨array, popped⟩, hpop, h⟩ := bind_eq_ok.1 h
    obtain ⟨_, _, h⟩ := bind_eq_ok.1 h
    cases h
    rw [← Frame.locals_of_drop hdrop, ← Frame.locals_of_pop hpop]
    exact .kept
  | discard count | branch arity offset | switch offsets | exit arity =>
    rw [Frame.locals_of_drop h]
    exact .kept
  | shuffle s =>
    simp only [transfer] at h
    split at h
    · cases h
      exact .kept
    · cases h
  | getField index =>
    obtain ⟨_, _, h⟩ := bind_eq_ok.1 h
    obtain ⟨dropped, hdrop, h⟩ := bind_eq_ok.1 h
    obtain ⟨_, _, h⟩ := bind_eq_ok.1 h
    cases h
    rw [← Frame.locals_of_drop hdrop]
    exact .kept
  | newObjectArray index | newMultiArray index dimensions | cast index =>
    obtain ⟨_, _, h⟩ := bind_eq_ok.1 h
    obtain ⟨dropped, hdrop, h⟩ := bind_eq_ok.1 h
    cases h
    rw [← Frame.locals_of_drop hdrop]
    exact .kept
  | invoke kind index =>
    obtain ⟨method, _, h⟩ := bind_eq_ok.1 h
    obtain ⟨descriptor, _, h⟩ := bind_eq_ok.1 h
    obtain ⟨dropped, hdrop, h⟩ := bind_eq_ok.1 h
    obtain ⟨taken, htaken, h⟩ := bind_eq_ok.1 h
    rw [locals_of_pushResult h, ← Frame.locals_of_drop hdrop]
    exact localsStep_takeReceiver htaken
  | invokeDynamic index =>
    obtain ⟨text, _, h⟩ := bind_eq_ok.1 h
    obtain ⟨descriptor, _, h⟩ := bind_eq_ok.1 h
    obtain ⟨dropped, hdrop, h⟩ := bind_eq_ok.1 h
    rw [locals_of_pushResult h, ← Frame.locals_of_drop hdrop]
    exact .kept
  | unsupported opcode => cases h

theorem length_locals_of_transfer {scope : MethodScope} {pc : Nat} {f g : Frame} {i : Instruction}
    (h : scope.transfer pc f i = .ok g) : g.locals.length = f.locals.length :=
  (localsStep_transfer h).length_eq

end MethodScope

namespace Flow

variable {flow : Flow}

/-! ### What a merge does to the frames -/

def Reaches (load : Loader) (frames : Std.TreeMap Nat Frame) (target : Nat) (f : Frame) : Prop :=
  ∃ g, frames[target]? = some g ∧ load.FrameBelow f g

/-- What happens to a worklist: frames rise, an address whose frame changes is queued, and marks
stay. -/
structure Advances (load : Loader) (s t : FlowState) : Prop where
  rises : ∀ pc f, s.frames[pc]? = some f → Reaches load t.frames pc f
  queued : ∀ pc, pc ∈ s.queue → pc ∈ t.queue
  changed : ∀ pc, t.frames[pc]? ≠ s.frames[pc]? → pc ∈ t.queue
  led : ∀ pc, pc ∈ s.leaders → pc ∈ t.leaders

theorem Advances.refl (load : Loader) (s : FlowState) : Advances load s s where
  rises := fun _ f hf => ⟨f, hf, .refl f⟩
  queued := fun _ hpc => hpc
  changed := fun _ hne => absurd rfl hne
  led := fun _ hpc => hpc

theorem advances_lead (load : Loader) (s : FlowState) (target : Nat) :
    Advances load s (s.lead target) where
  rises := fun _ f hf => ⟨f, hf, .refl f⟩
  queued := fun _ hpc => hpc
  changed := fun _ hne => absurd rfl hne
  led := fun _ hpc => mem_leaders_lead.2 (.inr hpc)

theorem Reaches.mono {load : Loader} {s t : FlowState} {target : Nat} {f : Frame}
    (h : Reaches load s.frames target f) (hst : Advances load s t) :
    Reaches load t.frames target f := by
  obtain ⟨g, hg, hfg⟩ := h
  obtain ⟨g', hg', hgg'⟩ := hst.rises target g hg
  exact ⟨g', hg', hfg.trans hgg'⟩

theorem Advances.trans {load : Loader} {s t u : FlowState} (hst : Advances load s t)
    (htu : Advances load t u) : Advances load s u where
  rises := fun pc f hf => (hst.rises pc f hf).mono htu
  queued := fun pc hpc => htu.queued pc (hst.queued pc hpc)
  changed := by
    intro pc hne
    by_cases hmid : t.frames[pc]? = s.frames[pc]?
    · exact htu.changed pc (hmid ▸ hne)
    · exact htu.queued pc (hst.changed pc hmid)
  led := fun pc hpc => htu.led pc (hst.led pc hpc)

def HasLocals (count : Nat) (s : FlowState) : Prop :=
  ∀ (pc : Nat) (f : Frame), s.frames[pc]? = some f → f.locals.length = count

theorem advances_insert {load : Loader} {s : FlowState} {target : Nat} {f : Frame}
    {queue : List Nat} (hlow : ∀ g, s.frames[target]? = some g → load.FrameBelow g f)
    (hqueue : ∀ pc ∈ s.queue, pc ∈ queue) (htarget : target ∈ queue) :
    Advances load s { s with frames := s.frames.insert target f, queue } where
  rises := by
    intro pc g hg
    simp only [Reaches, getElem?_insert_frame]
    by_cases heq : target = pc
    · subst heq
      exact ⟨f, by simp, hlow g hg⟩
    · exact ⟨g, by simp [heq, hg], .refl g⟩
  queued := hqueue
  changed := by
    intro pc hne
    simp only [getElem?_insert_frame] at hne
    by_cases heq : target = pc
    · exact heq ▸ htarget
    · simp [heq] at hne
  led := fun _ hpc => hpc

theorem hasLocals_insert {count target : Nat} {s : FlowState} {f : Frame} {queue : List Nat}
    (hs : HasLocals count s) (hf : f.locals.length = count) :
    HasLocals count { s with frames := s.frames.insert target f, queue } := by
  intro pc g hg
  simp only [getElem?_insert_frame] at hg
  split at hg
  · cases hg
    exact hf
  · exact hs pc g hg

theorem mergeInto_eq_ok {count target : Nat} {s t : FlowState} {f : Frame}
    (hs : HasLocals count s) (h : flow.mergeInto s target f = .ok t)
    (hf : f.locals.length = count) :
    Advances flow.load s t ∧ HasLocals count t ∧ Reaches flow.load t.frames target f := by
  unfold mergeInto at h
  split at h
  · next hnone =>
    cases h
    refine ⟨advances_insert ?_ ?_ ?_, hasLocals_insert hs hf, f, ?_, .refl f⟩
    · simp [hnone]
    · intro pc hpc
      simp [hpc]
    · simp
    · simp
  · next existing hexisting =>
    obtain ⟨merged, hmerged, h⟩ := bind_eq_ok.1 h
    have hlength : existing.locals.length = f.locals.length := by rw [hs _ _ hexisting, hf]
    obtain ⟨hold, hnew⟩ := Loader.frameBelow_mergeFrames hlength hmerged
    split at h
    · next heq =>
      cases h
      exact ⟨.refl _ _, hs, existing, hexisting, heq ▸ hnew⟩
    · cases h
      have hcount : merged.locals.length = count := by
        rw [← hnew.locals.length_eq, hf]
      refine ⟨advances_insert ?_ ?_ ?_, hasLocals_insert hs hcount, merged, ?_, hnew⟩
      · intro g hg
        rw [hexisting] at hg
        cases hg
        exact hold
      · intro pc hpc
        split <;> simp [hpc]
      · split
        · assumption
        · simp
      · simp

variable (flow) in
/-- A sequence of steps, each of which advances the worklist and brings about a fact that an
advance preserves. -/
theorem foldlM_eq_ok {α : Type} {count : Nat} {f : FlowState → α → Except FrameError FlowState}
    {P : FlowState → α → Prop}
    (hmono : ∀ s t a, Advances flow.load s t → P s a → P t a) (xs : List α)
    (hstep : ∀ a ∈ xs, ∀ s t, HasLocals count s → f s a = .ok t →
      Advances flow.load s t ∧ HasLocals count t ∧ P t a)
    {s t : FlowState} (hs : HasLocals count s) (h : xs.foldlM f s = .ok t) :
    Advances flow.load s t ∧ HasLocals count t ∧ ∀ a ∈ xs, P t a := by
  induction xs generalizing s with
  | nil =>
    cases h
    exact ⟨.refl _ _, hs, by simp⟩
  | cons a xs ih =>
    rw [List.foldlM_cons] at h
    obtain ⟨mid, hmid, h⟩ := bind_eq_ok.1 h
    obtain ⟨hadv, hlocals, ha⟩ := hstep a (by simp) s mid hs hmid
    obtain ⟨hadv', hlocals', hxs⟩ := ih (fun b hb => hstep b (by simp [hb])) hlocals h
    refine ⟨hadv.trans hadv', hlocals', ?_⟩
    intro b hb
    rcases List.mem_cons.1 hb with rfl | hb
    · exact hmono mid t b hadv' ha
    · exact hxs b hb

/-- The locals before and after an instruction have reached a handler. What it catches is alone on
its stack. -/
def Caught (load : Loader) (frames : Std.TreeMap Nat Frame) (before after : Frame)
    (range : CatchRange) : Prop :=
  ∃ g type, frames[range.handler]? = some g ∧ List.Forall₂ load.Below before.locals g.locals ∧
    List.Forall₂ load.Below after.locals g.locals ∧ g.stack = [type] ∧
    load.Below range.catchType type

theorem eq_singleton_of_below {load : Loader} {type : VerificationType}
    {stack : List VerificationType} (h : List.Forall₂ load.Below [type] stack) :
    ∃ above, stack = [above] ∧ load.Below type above := by
  obtain ⟨above, rest, habove, hrest, rfl⟩ := List.forall₂_cons_left_iff.1 h
  cases hrest
  exact ⟨above, rfl, habove⟩

theorem caught_of_reaches {load : Loader} {frames : Std.TreeMap Nat Frame} {before after : Frame}
    {range : CatchRange}
    (hbefore : Reaches load frames range.handler ⟨before.locals, [range.catchType]⟩)
    (hafter : Reaches load frames range.handler ⟨after.locals, [range.catchType]⟩) :
    Caught load frames before after range := by
  obtain ⟨g, hg, hlocals, hstack⟩ := hbefore
  obtain ⟨g', hg', hlocals', -⟩ := hafter
  rw [hg] at hg'
  cases hg'
  obtain ⟨type, htype, hcatch⟩ := eq_singleton_of_below hstack
  exact ⟨g, type, hg, hlocals, hlocals', htype, hcatch⟩

theorem Caught.mono {load : Loader} {s t : FlowState} {before after : Frame} {range : CatchRange}
    (h : Caught load s.frames before after range) (hst : Advances load s t) :
    Caught load t.frames before after range := by
  obtain ⟨g, type, hg, hbefore, hafter, hstack, hcatch⟩ := h
  obtain ⟨g', hg', hlocals', hstack'⟩ := hst.rises range.handler g hg
  rw [hstack] at hstack'
  obtain ⟨type', htype', hcatch'⟩ := eq_singleton_of_below hstack'
  exact ⟨g', type', hg', Loader.forall₂_below_trans hbefore hlocals',
    Loader.forall₂_below_trans hafter hlocals', htype', hcatch.trans hcatch'⟩

theorem mergeHandlers_eq_ok {count pc : Nat} {s t : FlowState} {before after : Frame}
    (hs : HasLocals count s) (hbefore : before.locals.length = count)
    (hafter : after.locals.length = count) (h : flow.mergeHandlers s pc before after = .ok t) :
    Advances flow.load s t ∧ HasLocals count t ∧
      ∀ range ∈ flow.ranges, range.covers pc = true →
        Caught flow.load t.frames before after range := by
  obtain ⟨hadv, hlocals, hcaught⟩ := foldlM_eq_ok flow
    (P := fun s range => Caught flow.load s.frames before after range)
    (fun _ _ _ hadv hc => hc.mono hadv) _ (by
      intro range _ s t hs h
      obtain ⟨mid, hmid, h⟩ := bind_eq_ok.1 h
      obtain ⟨hadv, hlocals, hreach⟩ := mergeInto_eq_ok hs hmid hbefore
      obtain ⟨hadv', hlocals', hreach'⟩ := mergeInto_eq_ok hlocals h hafter
      exact ⟨hadv.trans hadv', hlocals', caught_of_reaches (hreach.mono hadv') hreach'⟩) hs h
  refine ⟨hadv, hlocals, fun range hrange hcovers => ?_⟩
  exact hcaught range (List.mem_filter.2 ⟨hrange, hcovers⟩)

theorem mergeTargets_eq_ok {count pc : Nat} {s t : FlowState} {after : Frame} {targets : List Nat}
    (hs : HasLocals count s) (hafter : after.locals.length = count)
    (h : targets.foldlM (flow.mergeTarget pc after) s = .ok t) :
    Advances flow.load s t ∧ HasLocals count t ∧
      ∀ target ∈ targets, Reaches flow.load t.frames target after ∧ target ∈ t.leaders := by
  refine foldlM_eq_ok flow
    (P := fun s target => Reaches flow.load s.frames target after ∧ target ∈ s.leaders)
    (fun _ _ _ hadv hr => ⟨hr.1.mono hadv, hadv.led _ hr.2⟩) targets ?_ hs h
  intro target _ s t hs h
  unfold mergeTarget at h
  split at h
  · have hlead := advances_lead flow.load s target
    obtain ⟨hadv, hlocals, hreach⟩ := mergeInto_eq_ok (s := s.lead target) hs h hafter
    exact ⟨hlead.trans hadv, hlocals, hreach, hadv.led _ (mem_leaders_lead.2 (.inl rfl))⟩
  · cases h

/-! ### Visits -/

structure Carried (flow : Flow) (frames : Std.TreeMap Nat Frame) (pc : Nat) (here : Located)
    (before after : Frame) : Prop where
  transfer : flow.scope.transfer pc before here.instruction = .ok after
  branches : ∀ offset ∈ here.instruction.offsets, ∃ target : Nat,
    (target : Int) = pc + offset ∧ Reaches flow.load frames target after
  next : here.instruction.fallsThrough = true → Reaches flow.load frames here.next after
  handlers : ∀ range ∈ flow.ranges, range.covers pc = true →
    Caught flow.load frames before after range

theorem Carried.mono {s t : FlowState} {pc : Nat} {here : Located} {before after : Frame}
    (h : flow.Carried s.frames pc here before after) (hst : Advances flow.load s t) :
    flow.Carried t.frames pc here before after where
  transfer := h.transfer
  branches := by
    intro offset hoffset
    obtain ⟨target, htarget, hreach⟩ := h.branches offset hoffset
    exact ⟨target, htarget, hreach.mono hst⟩
  next := fun hfalls => (h.next hfalls).mono hst
  handlers := fun range hrange hcovers => (h.handlers range hrange hcovers).mono hst

structure Marked (flow : Flow) (leaders : Std.TreeSet Nat) (pc : Nat) (here : Located) :
    Prop where
  branches : ∀ offset ∈ here.instruction.offsets, ∃ target : Nat,
    (target : Int) = pc + offset ∧ target ∈ leaders
  behind : here.instruction.fallsThrough = false → here.next < flow.program.code.size →
    here.next ∈ leaders

theorem Marked.mono {s t : FlowState} {pc : Nat} {here : Located}
    (h : flow.Marked s.leaders pc here) (hst : Advances flow.load s t) :
    flow.Marked t.leaders pc here where
  branches := by
    intro offset hoffset
    obtain ⟨target, htarget, hled⟩ := h.branches offset hoffset
    exact ⟨target, htarget, hst.led target hled⟩
  behind := fun hfalls hlt => hst.led _ (h.behind hfalls hlt)

theorem visit_eq_ok {count pc : Nat} {s t : FlowState} {before : Frame} {here : Located}
    (hs : HasLocals count s) (hbefore : before.locals.length = count)
    (h : flow.visit s pc before here = .ok t) :
    Advances flow.load s t ∧ HasLocals count t ∧ flow.Marked t.leaders pc here ∧
      ∃ after, flow.Carried t.frames pc here before after := by
  obtain ⟨after, htransfer, h⟩ := bind_eq_ok.1 h
  obtain ⟨targets, htargets, h⟩ := bind_eq_ok.1 h
  obtain ⟨s₁, hhandlers, h⟩ := bind_eq_ok.1 h
  obtain ⟨s₂, hbranches, h⟩ := bind_eq_ok.1 h
  have hafter : after.locals.length = count := by
    rw [MethodScope.length_locals_of_transfer htransfer, hbefore]
  obtain ⟨hadv₁, hlocals₁, hcaught⟩ := mergeHandlers_eq_ok hs hbefore hafter hhandlers
  obtain ⟨hadv₂, hlocals₂, hreach⟩ := mergeTargets_eq_ok hlocals₁ hafter hbranches
  have hlast : Advances flow.load s₂ t ∧ HasLocals count t ∧
      (here.instruction.fallsThrough = true → Reaches flow.load t.frames here.next after) ∧
      (here.instruction.fallsThrough = false → here.next < flow.program.code.size →
        here.next ∈ t.leaders) := by
    split at h
    · next hfalls =>
      split at h
      · cases h
      · obtain ⟨hadv, hlocals, hnext⟩ := mergeInto_eq_ok hlocals₂ h hafter
        exact ⟨hadv, hlocals, fun _ => hnext, fun hf => by simp [hfalls] at hf⟩
    · next hfalls =>
      split at h
      · cases h
        exact ⟨advances_lead _ _ _, hlocals₂, fun hf => absurd hf hfalls,
          fun _ _ => mem_leaders_lead.2 (.inl rfl)⟩
      · next hlast =>
        cases h
        exact ⟨.refl _ _, hlocals₂, fun hf => absurd hf hfalls, fun _ hlt => absurd hlt hlast⟩
  obtain ⟨hadv₃, hlocals₃, hnext, hbehind⟩ := hlast
  have hbranch : ∀ offset ∈ here.instruction.offsets, ∃ target : Nat,
      (target : Int) = pc + offset ∧ Reaches flow.load t.frames target after ∧
        target ∈ t.leaders := by
    intro offset hoffset
    obtain ⟨target, hmem, htarget⟩ := exists_of_mapM htargets offset hoffset
    obtain ⟨hreached, hled⟩ := hreach target hmem
    exact ⟨target, target_eq_ok htarget, hreached.mono hadv₃, hadv₃.led _ hled⟩
  refine ⟨hadv₁.trans (hadv₂.trans hadv₃), hlocals₃, ⟨?_, hbehind⟩, after, htransfer, ?_, hnext, ?_⟩
  · intro offset hoffset
    obtain ⟨target, htarget, -, hled⟩ := hbranch offset hoffset
    exact ⟨target, htarget, hled⟩
  · intro offset hoffset
    obtain ⟨target, htarget, hreached, -⟩ := hbranch offset hoffset
    exact ⟨target, htarget, hreached⟩
  · intro range hrange hcovers
    exact (hcaught range hrange hcovers).mono (hadv₂.trans hadv₃)

/-- The invariant of the worklist: what is not queued has been carried on and has left its marks. -/
structure Consistent (flow : Flow) (count : Nat) (s : FlowState) : Prop where
  locals : HasLocals count s
  carried : ∀ pc before here, s.frames[pc]? = some before →
    flow.program.listing[pc]? = some here → pc ∉ s.queue →
    flow.Marked s.leaders pc here ∧ ∃ after, flow.Carried s.frames pc here before after

theorem step_eq_ok {count pc : Nat} {rest : List Nat} {s t : FlowState}
    (hs : flow.Consistent count s) (hqueue : s.queue = pc :: rest)
    (h : flow.step s pc rest = .ok t) :
    flow.Consistent count t ∧ Advances flow.load { s with queue := rest } t := by
  unfold step at h
  dsimp only at h
  split at h
  · next before here hbefore hhere =>
    obtain ⟨hadv, hlocals, hmarked, after, hcarried⟩ :=
      visit_eq_ok (s := { s with queue := rest }) hs.locals (hs.locals pc before hbefore) h
    refine ⟨⟨hlocals, ?_⟩, hadv⟩
    intro pc' before' here' hbefore' hhere' hnot
    -- an address outside the queue still has the frame that it had before the visit
    have hsame : t.frames[pc']? = s.frames[pc']? := by
      by_contra hne
      exact hnot (hadv.changed pc' hne)
    rw [hbefore'] at hsame
    by_cases heq : pc' = pc
    · subst heq
      rw [hbefore] at hsame
      rw [hhere] at hhere'
      cases hsame
      cases hhere'
      exact ⟨hmarked, after, hcarried⟩
    · have hold : pc' ∉ s.queue := by
        rw [hqueue, List.mem_cons, not_or]
        exact ⟨heq, fun hmem => hnot (hadv.queued pc' hmem)⟩
      obtain ⟨hmarked', after', hcarried'⟩ := hs.carried pc' before' here' hsame.symm hhere' hold
      exact ⟨hmarked'.mono (s := { s with queue := rest }) hadv,
        after', hcarried'.mono (s := { s with queue := rest }) hadv⟩
  · cases h
  · next hnone =>
    cases h
    refine ⟨⟨hs.locals, ?_⟩, .refl _ _⟩
    intro pc' before' here' hbefore' hhere' hnot
    refine hs.carried pc' before' here' hbefore' hhere' ?_
    rw [hqueue, List.mem_cons, not_or]
    refine ⟨?_, hnot⟩
    rintro rfl
    rw [hnone] at hbefore'
    cases hbefore'

theorem consistent_start (flow : Flow) (initial : Frame) :
    flow.Consistent initial.locals.length (flow.start initial) where
  locals := by
    intro pc f hf
    simp only [start, getElem?_insert_frame] at hf
    split at hf
    · cases hf
      rfl
    · simp at hf
  carried := by
    intro pc before here hbefore _ hnot
    simp only [start, getElem?_insert_frame, List.mem_singleton] at hbefore hnot
    rw [if_neg fun heq => hnot heq.symm] at hbefore
    simp at hbefore

theorem Runs.consistent {initial : Frame} {n : Nat} {t : FlowState}
    (h : flow.Runs n (flow.start initial) t) : flow.Consistent initial.locals.length t :=
  h.keeps (fun _ _ _ _ hs hqueue hstep => (step_eq_ok hs hqueue hstep).1)
    (consistent_start flow initial)

theorem Runs.rises {count n : Nat} {s t : FlowState} (h : flow.Runs n s t)
    (hs : flow.Consistent count s) {pc : Nat} {f : Frame} (hf : s.frames[pc]? = some f) :
    Reaches flow.load t.frames pc f := by
  induction h generalizing f with
  | refl s => exact ⟨f, hf, .refl f⟩
  | visit hqueue hstep _ ih =>
    obtain ⟨hconsistent, hadv⟩ := step_eq_ok hs hqueue hstep
    obtain ⟨g, hg, hfg⟩ := hadv.rises pc f hf
    obtain ⟨g', hg', hgg'⟩ := ih hconsistent hg
    exact ⟨g', hg', hfg.trans hgg'⟩

theorem Runs.led {count n : Nat} {s t : FlowState} (h : flow.Runs n s t)
    (hs : flow.Consistent count s) {pc : Nat} (hpc : pc ∈ s.leaders) : pc ∈ t.leaders := by
  induction h with
  | refl s => exact hpc
  | visit hqueue hstep _ ih =>
    obtain ⟨hconsistent, hadv⟩ := step_eq_ok hs hqueue hstep
    exact ih hconsistent (hadv.led pc hpc)

/-! ### The frames of a method -/

/-- Frames that no instruction can push any further up. -/
structure PostFixpoint (flow : Flow) (initial : Frame) (frames : Std.TreeMap Nat Frame) : Prop where
  entry : Reaches flow.load frames 0 initial
  carried : ∀ pc here, flow.program.listing[pc]? = some here →
    ∃ before after, frames[pc]? = some before ∧ flow.Carried frames pc here before after

theorem contains_of_listStates {last : FlowState} {states : List FrameState}
    (h : flow.listStates last = .ok states) {pc : Nat} {here : Located}
    (hhere : flow.program.listing[pc]? = some here) : ∃ before, last.frames[pc]? = some before := by
  unfold listStates at h
  split at h
  · cases h
  · next hnone =>
    have hpc : pc ∈ flow.program.addresses := by
      rw [Program.addresses, Std.TreeMap.mem_keys]
      exact Std.TreeMap.mem_iff_isSome_getElem?.2 (by simp [hhere])
    have hcontains := List.find?_eq_none.1 hnone pc hpc
    simp only [Bool.not_eq_true, Bool.not_eq_false'] at hcontains
    exact Option.isSome_iff_exists.1 (by simpa using hcontains)

theorem Runs.postFixpoint {initial : Frame} {n : Nat} {last : FlowState} {states : List FrameState}
    (h : flow.Runs n (flow.start initial) last) (hempty : last.queue = [])
    (hstates : flow.listStates last = .ok states) : flow.PostFixpoint initial last.frames where
  entry := h.rises (consistent_start flow initial) (by simp [start])
  carried := by
    intro pc here hhere
    obtain ⟨before, hbefore⟩ := contains_of_listStates hstates hhere
    obtain ⟨-, after, hcarried⟩ :=
      h.consistent.carried pc before here hbefore hhere (by simp [hempty])
    exact ⟨before, after, hbefore, hcarried⟩

theorem catchRange_eq_ok {scope : MethodScope} {program : Program} {h : ExceptionHandler}
    {range : CatchRange} (hrange : catchRange scope program h = .ok range) :
    program.isStart h.handler.toNat = true ∧ ∃ name,
      (name = throwableClass ∨ scope.className? h.catchType = .ok name) ∧
      range = ⟨h.start.toNat, h.stop.toNat, h.handler.toNat, .object name⟩ := by
  unfold catchRange at hrange
  dsimp only at hrange
  split at hrange
  · next hstart =>
    refine ⟨hstart, ?_⟩
    split at hrange
    · cases hrange
      exact ⟨throwableClass, .inl rfl, rfl⟩
    · obtain ⟨name, hname, hrange⟩ := bind_eq_ok.1 hrange
      cases hrange
      exact ⟨name, .inr hname, rfl⟩
  · cases hrange

structure Prepared (load : Loader) (pool : Pool) (className : String) (m : MethodShape)
    (body : Code) (flow : Flow) (initial : Frame) : Prop where
  initial : m.initialFrame className body.maxLocals.toNat = .ok initial
  program : Program.decode body.code.toArray = .ok flow.program
  load : flow.load = load
  scope : flow.scope = { pool, className, code := flow.program.code }
  ranges : body.handlers.mapM (catchRange flow.scope flow.program) = .ok flow.ranges

theorem prepare_eq_ok {load : Loader} {pool : Pool} {className : String} {m : MethodShape}
    {body : Code} {initial : Frame} (h : prepare load pool className m body = .ok (flow, initial)) :
    Prepared load pool className m body flow initial := by
  obtain ⟨first, hfirst, h⟩ := bind_eq_ok.1 h
  obtain ⟨program, hprogram, h⟩ := bind_eq_ok.1 h
  obtain ⟨ranges, hranges, h⟩ := bind_eq_ok.1 h
  cases h
  exact ⟨hfirst, hprogram, rfl, rfl, hranges⟩

theorem load_of_prepare {load : Loader} {pool : Pool} {className : String} {m : MethodShape}
    {body : Code} {initial : Frame} (h : prepare load pool className m body = .ok (flow, initial)) :
    flow.load = load :=
  (prepare_eq_ok h).load

/-- The frames from which the listed states are taken satisfy all flows of the method. -/
theorem postFixpoint_of_compute {load : Loader} {pool : Pool} {className : String}
    {m : MethodShape} {body : Code} {result : ComputedFrames}
    (h : compute load pool className m body = .ok result) :
    ∃ flow initial n last, prepare load pool className m body = .ok (flow, initial) ∧
      flow.load = load ∧ flow.Runs n (flow.start initial) last ∧ last.queue = [] ∧
      flow.listStates last = .ok result.states ∧ flow.PostFixpoint initial last.frames := by
  obtain ⟨flow, initial, n, last, hprepare, hruns, hempty, hstates, -⟩ := runs_of_compute h
  exact ⟨flow, initial, n, last, hprepare, load_of_prepare hprepare, hruns, hempty, hstates,
    hruns.postFixpoint hempty hstates⟩

def siblings : Loader
  | "A" => some { name := "A", superName := "C" }
  | "B" => some { name := "B", superName := "C" }
  | "C" => some { name := "C", superName := none }
  | _ => none

/-- Null as one of two classes, stored in a local slot, with a handler around it. -/
def castEither : Code where
  maxStack := 1
  maxLocals := 1
  code := [3, 153, 0, 10, 1, 192, 0, 2, 167, 0, 7, 1, 192, 0, 4, 75, 177, 87, 177]
  handlers := [⟨0, 16, 17, 0⟩]

def castPool : Pool := Pool.ofSlots #[.utf8 "A", .classInfo 1, .utf8 "B", .classInfo 3]

theorem postFixpoint_of_compute_siblings : ∃ result flow initial n last,
    compute siblings castPool "M" ⟨"m", "()V", true⟩ castEither = .ok result ∧
    (∃ state ∈ result.states, state.pc = 15 ∧ state.stack = [.object "C"]) ∧
    prepare siblings castPool "M" ⟨"m", "()V", true⟩ castEither = .ok (flow, initial) ∧
    flow.Runs n (flow.start initial) last ∧ flow.PostFixpoint initial last.frames := by
  have hrun : (compute siblings castPool "M" ⟨"m", "()V", true⟩ castEither).toOption.any
      (fun result => result.states.any fun state =>
        state.pc = 15 && state.stack = [.object "C"]) = true := by
    decide +kernel
  obtain ⟨result, hresult, hstates⟩ := exists_ok_of_any hrun
  obtain ⟨flow, initial, n, last, hprepare, -, hruns, -, -, hpost⟩ :=
    postFixpoint_of_compute hresult
  exact ⟨result, flow, initial, n, last, hresult, by simpa using hstates, hprepare, hruns, hpost⟩

end Flow

end ClassArchive
