import ClassArchive.Proofs.FrameShapes

/-!
How computations of frames fail. Joins and all that stands before and after the worklist report
what is wrong with the method, and so do most instructions. But an instruction that makes a type of
a descriptor which nobody has checked breaks down if the last character of a class descriptor has
more than one byte.
-/
set_option autoImplicit false

namespace ClassArchive

/-- The errors that report something, other than that the code does not hold an instruction. -/
def FrameError.Ordinary : FrameError → Prop
  | .unsettled | .truncated _ => False
  | .format cause => cause.breakdown? = none
  | _ => True

theorem FrameError.Ordinary.breakdown?_eq_none {e : FrameError} (h : e.Ordinary) :
    e.breakdown? = none := by
  cases e with
  | unsettled => cases h
  | format cause => exact h
  | _ => rfl

def FailsOnly {ε α : Type} (P : ε → Prop) (x : Except ε α) : Prop := ∀ e, x = .error e → P e

abbrev Reports {α : Type} (x : Except FormatError α) : Prop := FailsOnly (·.breakdown? = none) x

namespace FailsOnly

variable {ε α β : Type} {P : ε → Prop}

theorem ok (a : α) : FailsOnly P (.ok a) := by
  rintro e ⟨⟩

theorem error {e : ε} (h : P e) : FailsOnly P (.error e : Except ε α) := by
  rintro _ ⟨⟩
  exact h

theorem bind_ok {x : Except ε α} {f : α → Except ε β} (hx : FailsOnly P x)
    (hf : ∀ a, x = .ok a → FailsOnly P (f a)) : FailsOnly P (x >>= f) := by
  cases x with
  | error e => exact error (hx e rfl)
  | ok a => exact hf a rfl

theorem bind {x : Except ε α} {f : α → Except ε β} (hx : FailsOnly P x)
    (hf : ∀ a, FailsOnly P (f a)) : FailsOnly P (x >>= f) :=
  hx.bind_ok fun a _ => hf a

theorem map {x : Except ε α} (f : α → β) (hx : FailsOnly P x) :
    FailsOnly P (x.map f) := by
  cases x with
  | error e => exact error (hx e rfl)
  | ok a => exact ok (f a)

theorem ite {c : Prop} [Decidable c] {x y : Except ε α} (hx : FailsOnly P x)
    (hy : FailsOnly P y) : FailsOnly P (if c then x else y) := by
  split
  · exact hx
  · exact hy

theorem mapM {f : α → Except ε β} (hf : ∀ a, FailsOnly P (f a)) (xs : List α) :
    FailsOnly P (xs.mapM f) := by
  induction xs with
  | nil => exact ok _
  | cons x xs ih =>
    rw [List.mapM_cons]
    exact (hf x).bind fun _ => ih.bind fun _ => ok _

end FailsOnly

/-! ### Descriptors -/

namespace Pool

variable (pool : Pool) (index : UInt16)

theorem reports_entry : Reports (pool.entry index) := by
  unfold entry
  split
  · exact .error rfl
  · exact .error rfl
  · exact .ok _

theorem reports_text : Reports (pool.text index) := by
  refine .bind (pool.reports_entry index) fun c => ?_
  split
  · exact .ok _
  · exact .error rfl

theorem reports_className : Reports (pool.className index) := by
  refine .bind (pool.reports_entry index) fun c => ?_
  split
  · exact pool.reports_text _
  · exact .error rfl

theorem reports_nameAndType : Reports (pool.nameAndType index) := by
  refine .bind (pool.reports_entry index) fun c => ?_
  split
  · exact .bind (pool.reports_text _) fun _ => .bind (pool.reports_text _) fun _ => .ok _
  · exact .error rfl

theorem reports_member : Reports (pool.member index) := by
  have hmember : ∀ owner pair, Reports (pool.memberOf owner pair) := fun owner pair =>
    .bind (pool.reports_className owner) fun _ => .bind (pool.reports_nameAndType pair) fun _ =>
      .ok _
  refine .bind (pool.reports_entry index) fun c => ?_
  split
  · exact hmember _ _
  · exact hmember _ _
  · exact hmember _ _
  · exact .error rfl

end Pool

theorem MethodDescriptor.reports_parse (descriptor : String) : Reports (parse descriptor) := by
  unfold parse
  split
  · exact .ok _
  · exact .error rfl

namespace VerificationType

/-- Whether the text reads as a class descriptor whose last character has more than one byte.
Cutting its last byte off leaves no text. -/
def CutShort (descriptor : String) : Prop :=
  ∃ name last, descriptor.toList = 'L' :: (name ++ [last]) ∧ 1 < last.utf8Size

theorem endsInside_iff {text : List Char} :
    endsInside text = true ↔ ∃ front last, text = front ++ [last] ∧ 1 < last.utf8Size := by
  rw [endsInside, Option.any_eq_true]
  constructor
  · rintro ⟨last, hlast, hsize⟩
    obtain ⟨front, rfl⟩ := List.getLast?_eq_some_iff.1 hlast
    exact ⟨front, last, rfl, of_decide_eq_true hsize⟩
  · rintro ⟨front, last, rfl, hsize⟩
    exact ⟨last, by simp, decide_eq_true hsize⟩

theorem two_lt_utf8ByteSize {descriptor : String} {front : List Char} {last : Char}
    (h : descriptor.toList = 'L' :: (front ++ [last])) (hlast : 1 < last.utf8Size) :
    2 < descriptor.utf8ByteSize := by
  have htext : descriptor = "L" ++ String.ofList front ++ String.singleton last := by
    simp [← String.toList_inj, h]
  have hletter : "L".utf8ByteSize = 1 := by decide
  have hsize : (String.singleton last).utf8ByteSize = last.utf8Size := by simp
  rw [htext, String.utf8ByteSize_append, String.utf8ByteSize_append]
  omega

theorem ofDescriptor_eq_error {descriptor : String} {e : FormatError} :
    ofDescriptor descriptor = .error e ↔
      CutShort descriptor ∧ e = .breakdown (.cutText descriptor) := by
  constructor
  · intro h
    unfold ofDescriptor at h
    split at h
    case h_10 name hname =>
      split at h
      · cases h
      · split at h
        · next hends =>
          obtain ⟨front, last, rfl, hlast⟩ := endsInside_iff.1 hends
          cases h
          exact ⟨⟨front, last, hname, hlast⟩, rfl⟩
        · cases h
    all_goals cases h
  · rintro ⟨⟨front, last, hname, hlast⟩, rfl⟩
    have hsize := two_lt_utf8ByteSize hname hlast
    have hends : endsInside (front ++ [last]) = true := endsInside_iff.2 ⟨front, last, rfl, hlast⟩
    unfold ofDescriptor
    rw [hname]
    simp [Nat.not_le.2 hsize, hends]

end VerificationType

/-! ### Instructions -/

section Ordinary

variable {P : FrameError → Prop} (hP : ∀ e : FrameError, e.Ordinary → P e)

include hP in
theorem FailsOnly.lift {α : Type} {x : Except FormatError α} (hx : Reports x) :
    FailsOnly P (FrameError.lift x) := by
  cases x with
  | error e => exact .error (hP _ (hx e rfl))
  | ok a => exact .ok a

namespace Frame

theorem stack_of_pop {f g : Frame} {pc : Nat} {type : VerificationType}
    (h : f.pop pc = .ok (type, g)) : f.stack = type :: g.stack := by
  unfold pop at h
  split at h
  · cases h
  · next hstack =>
    cases h
    exact hstack

theorem stack_of_drop_one {f g : Frame} {pc : Nat} (h : f.drop 1 pc = .ok g) :
    ∃ type, f.stack = type :: g.stack := by
  unfold drop at h
  split at h
  · cases h
  · next hlength =>
    cases h
    obtain ⟨type, rest, hstack⟩ := List.exists_cons_of_length_pos (l := f.stack) (by omega)
    exact ⟨type, by simp [hstack]⟩

variable (f : Frame) (pc : Nat)
include hP

theorem failsOnly_drop (count : Nat) : FailsOnly P (f.drop count pc) :=
  .ite (.error (hP _ trivial)) (.ok _)

theorem failsOnly_pop : FailsOnly P (f.pop pc) := by
  unfold pop
  split
  · exact .error (hP _ trivial)
  · exact .ok _

theorem failsOnly_local? (slot : Nat) : FailsOnly P (f.local? slot pc) := by
  unfold local?
  split
  · exact .ok _
  · exact .error (hP _ trivial)

theorem failsOnly_setLocal (slot : Nat) (type : VerificationType) :
    FailsOnly P (f.setLocal slot type pc) :=
  .ite (.error (hP _ trivial)) (.ok _)

end Frame

namespace MethodScope

open VerificationType

/-- Whether the instruction makes a type of the text, unchecked as it stands in the pool or in the
frame. -/
inductive Takes (scope : MethodScope) (f : Frame) : Instruction → String → Prop where
  | constant {index bootstrap pair : UInt16} {name descriptor : String}
      (hentry : scope.pool.entry index = .ok (.dynamic bootstrap pair))
      (hpair : scope.pool.nameAndType pair = .ok (name, descriptor)) :
      Takes scope f (.loadConstant index) descriptor
  | static {index : UInt16} {member : Pool.MemberName}
      (hmember : scope.member? index = .ok member) :
      Takes scope f (.getStatic index) member.descriptor
  | field {index : UInt16} {member : Pool.MemberName} {type : VerificationType}
      {rest : List VerificationType} (hmember : scope.member? index = .ok member)
      (hstack : f.stack = type :: rest) : Takes scope f (.getField index) member.descriptor
  | element {index : VerificationType} {descriptor : String} {rest : List VerificationType}
      (hstack : f.stack = index :: .object ("[" ++ descriptor) :: rest) :
      Takes scope f .loadElement descriptor

theorem typeOf_of_cutShort {descriptor : String} (h : CutShort descriptor) :
    typeOf descriptor = .error (.format (.breakdown (.cutText descriptor))) := by
  rw [typeOf, ofDescriptor_eq_error.2 ⟨h, rfl⟩]
  rfl

theorem elementOf_array (descriptor : String) :
    elementOf (.object ("[" ++ descriptor)) = ofDescriptor descriptor := by
  have hlist : ("[" ++ descriptor).toList = '[' :: descriptor.toList := by simp
  simp only [elementOf, hlist, String.ofList_toList]

variable {scope : MethodScope} {f : Frame}

theorem Takes.transfer_eq_error {i : Instruction} {descriptor : String}
    (h : scope.Takes f i descriptor) (hcut : CutShort descriptor) (pc : Nat) :
    scope.transfer pc f i = .error (.format (.breakdown (.cutText descriptor))) := by
  have htype := typeOf_of_cutShort hcut
  cases h with
  | constant hentry hpair =>
    simp [transfer, constantType, hentry, hpair, ofDescriptor_eq_error.2 ⟨hcut, rfl⟩,
      FrameError.lift, bind, Except.bind]
  | static hmember => simp [transfer, hmember, htype, bind, Except.bind]
  | field hmember hstack =>
    simp [transfer, hmember, htype, Frame.drop, hstack, bind, Except.bind]
  | element hstack =>
    simp [transfer, Frame.drop, Frame.pop, hstack, elementOf_array,
      ofDescriptor_eq_error.2 ⟨hcut, rfl⟩, FrameError.lift, bind, Except.bind]

theorem failsOnly_typeOf {descriptor : String}
    (hcut : CutShort descriptor → P (.format (.breakdown (.cutText descriptor)))) :
    FailsOnly P (typeOf descriptor) := by
  intro e h
  unfold typeOf at h
  cases htype : ofDescriptor descriptor with
  | ok type =>
    rw [htype] at h
    cases h
  | error cause =>
    obtain ⟨hshort, rfl⟩ := ofDescriptor_eq_error.1 htype
    rw [htype] at h
    cases h
    exact hcut hshort

/-- A method descriptor has been checked, so that its result is a type. -/
theorem failsOnly_pushResult {text : String} {d : MethodDescriptor} (h : descriptor? text = .ok d)
    (f : Frame) : FailsOnly P (pushResult d f) := by
  obtain ⟨t, ht, -, rfl⟩ := MethodShape.descriptor?_eq_ok.1 h
  obtain ⟨parameters, result⟩ := t
  cases result with
  | none => exact .ok _
  | some result =>
    have htype : typeOf (String.ofList result.chars) = .ok result.verificationType :=
      FieldType.typeOf_text (ht.2 result rfl)
    refine .ite ?_ (.ok _)
    refine .bind_ok (fun e he => ?_) fun _ _ => .ok _
    rw [MethodType.split, MethodType.resultChars, Option.elim_some, htype] at he
    cases he

include hP

theorem failsOnly_className? (index : UInt16) : FailsOnly P (scope.className? index) :=
  .lift hP (scope.pool.reports_className index)

theorem failsOnly_member? (index : UInt16) : FailsOnly P (scope.member? index) :=
  .lift hP (scope.pool.reports_member index)

theorem failsOnly_callSite? (index : UInt16) : FailsOnly P (scope.callSite? index) := by
  refine .lift hP (.bind (scope.pool.reports_entry index) fun c => ?_)
  split
  · exact .bind (scope.pool.reports_nameAndType _) fun _ => .ok _
  · exact .error rfl

theorem failsOnly_descriptor? (text : String) : FailsOnly P (descriptor? text) :=
  .lift hP (MethodDescriptor.reports_parse text)

theorem failsOnly_constantType {index : UInt16}
    (hcut : ∀ descriptor, scope.Takes f (.loadConstant index) descriptor → CutShort descriptor →
      P (.format (.breakdown (.cutText descriptor)))) :
    FailsOnly P (scope.constantType index) := by
  cases hentry : scope.pool.entry index with
  | error e =>
    simp only [constantType, hentry]
    exact .error (hP _ (scope.pool.reports_entry index e hentry))
  | ok c =>
    simp only [constantType, hentry, bind, Except.bind]
    split
    case h_9 bootstrap pair =>
      cases hpair : scope.pool.nameAndType pair with
      | error e => exact .error (hP _ (scope.pool.reports_nameAndType pair e hpair))
      | ok names => exact failsOnly_typeOf (hcut names.2 (.constant hentry hpair))
    case h_10 => exact .error (hP _ rfl)
    all_goals exact .ok _

theorem failsOnly_loadElement {pc : Nat}
    (hcut : ∀ descriptor, scope.Takes f .loadElement descriptor → CutShort descriptor →
      P (.format (.breakdown (.cutText descriptor)))) :
    FailsOnly P (scope.transfer pc f .loadElement) := by
  refine .bind_ok (f.failsOnly_drop hP pc _) fun dropped hdrop => ?_
  refine .bind_ok (dropped.failsOnly_pop hP pc) fun (array, popped) hpop => ?_
  refine .bind ?_ fun _ => .ok _
  obtain ⟨index, hindex⟩ := Frame.stack_of_drop_one hdrop
  have harray := Frame.stack_of_pop hpop
  rw [harray] at hindex
  cases array with
  | object name =>
    simp only [elementOf]
    split
    · next element hname =>
      obtain rfl : name = "[" ++ String.ofList element := by simp [← String.toList_inj, hname]
      exact failsOnly_typeOf (hcut _ (.element hindex))
    · exact .ok _
  | _ => exact .ok _

theorem failsOnly_constructed? {type : VerificationType}
    (hnew : ∀ q, type = .uninitialized q → scope.code.u16? (q.toNat + 1) = none →
      P (.truncated q.toNat)) : FailsOnly P (scope.constructed? type) := by
  unfold constructed?
  split
  · exact .ok _
  · next q =>
    split
    · exact .bind (failsOnly_className? hP _) fun _ => .ok _
    · next hnone => exact .error (hnew q rfl hnone)
  · exact .ok _

theorem failsOnly_takeReceiver
    (hf : f.All fun type => ∀ q, type = .uninitialized q →
      scope.code.u16? (q.toNat + 1) = none → P (.truncated q.toNat))
    (kind : InvokeKind) (method : String) (pc : Nat) :
    FailsOnly P (scope.takeReceiver kind method pc f) := by
  refine .ite (.ok _) (.bind_ok (f.failsOnly_pop hP pc) fun (receiver, rest) hpop => ?_)
  refine .ite (.bind (failsOnly_constructed? hP (hf.pop hpop).1) fun type => ?_) (.ok _)
  cases type with
  | none => exact .ok _
  | some type => exact .ok _

/-- An instruction fails for a reason of its own, because the operand of the `new` of some object
is not there, or because a descriptor is cut short. -/
theorem failsOnly_transfer
    (hf : f.All fun type => ∀ q, type = .uninitialized q →
      scope.code.u16? (q.toNat + 1) = none → P (.truncated q.toNat))
    {i : Instruction} (hcut : ∀ descriptor, scope.Takes f i descriptor → CutShort descriptor →
      P (.format (.breakdown (.cutText descriptor)))) (pc : Nat) :
    FailsOnly P (scope.transfer pc f i) := by
  cases i with
  | nop | push _ | jump _ | new _ => exact .ok _
  | loadConstant _ => exact .bind (failsOnly_constantType hP hcut) fun _ => .ok _
  | load _ _ => exact .bind (f.failsOnly_local? hP pc _) fun _ => .ok _
  | store _ _ => exact .bind (f.failsOnly_pop hP pc) fun _ => Frame.failsOnly_setLocal hP _ pc _ _
  | increment _ => exact .bind (f.failsOnly_local? hP pc _) fun _ => .ok _
  | operate _ _ | newArray _ => exact .bind (f.failsOnly_drop hP pc _) fun _ => .ok _
  | loadElement => exact failsOnly_loadElement hP hcut
  | discard _ | branch _ _ | switch _ | exit _ => exact f.failsOnly_drop hP pc _
  | shuffle s =>
    simp only [transfer]
    split
    · exact .ok _
    · exact .error (hP _ trivial)
  | getStatic _ =>
    refine .bind_ok (failsOnly_member? hP _) fun member hmember => ?_
    exact .bind (failsOnly_typeOf (hcut _ (.static hmember))) fun _ => .ok _
  | getField _ =>
    refine .bind_ok (failsOnly_member? hP _) fun member hmember => ?_
    refine .bind_ok (f.failsOnly_drop hP pc _) fun dropped hdrop => ?_
    obtain ⟨type, hstack⟩ := Frame.stack_of_drop_one hdrop
    exact .bind (failsOnly_typeOf (hcut _ (.field hmember hstack))) fun _ => .ok _
  | newObjectArray _ | newMultiArray _ _ | cast _ =>
    exact .bind (failsOnly_className? hP _) fun _ => .bind (f.failsOnly_drop hP pc _) fun _ => .ok _
  | invoke kind _ =>
    refine .bind (failsOnly_member? hP _) fun method => ?_
    refine .bind_ok (failsOnly_descriptor? hP _) fun d hd => ?_
    refine .bind_ok (f.failsOnly_drop hP pc _) fun dropped hdrop => ?_
    refine .bind (failsOnly_takeReceiver hP (hf.drop hdrop) kind method.name pc) fun taken => ?_
    exact failsOnly_pushResult hd taken
  | invokeDynamic _ =>
    refine .bind (failsOnly_callSite? hP _) fun text => ?_
    refine .bind_ok (failsOnly_descriptor? hP _) fun d hd => ?_
    exact .bind (f.failsOnly_drop hP pc _) fun dropped => failsOnly_pushResult hd dropped
  | unsupported _ => exact .error (hP _ trivial)

end MethodScope

section Joins

include hP

/-! ### Joins -/

namespace Loader

variable (load : Loader)

theorem failsOnly_chainOnto (depth : Nat) (below : List String) (name : String) :
    FailsOnly P (load.chainOnto depth below name) := by
  fun_induction chainOnto load depth below name with
  | case1 => exact .ok _
  | case2 | case3 | case4 => exact .error (hP _ trivial)
  | case5 _ _ _ _ _ _ _ ih => exact ih

theorem failsOnly_node (name : String) : FailsOnly P (load.node name) := by
  unfold node
  split
  · exact .ok _
  · exact .error (hP _ trivial)

theorem failsOnly_commonSuperClass (a b : String) : FailsOnly P (load.commonSuperClass a b) := by
  refine .ite (.ok _) (.ite (.ok _) ?_)
  refine .bind (load.failsOnly_node hP a) fun _ => .bind (load.failsOnly_node hP b) fun _ => ?_
  refine .ite (.ite (.ok _) (.ite (.ok _) (.ok _))) ?_
  exact .bind (load.failsOnly_chainOnto hP _ _ _) fun _ =>
    .bind (load.failsOnly_chainOnto hP _ _ _) fun _ => .ok _

theorem failsOnly_mergeNames (a b : List Char) : FailsOnly P (load.mergeNames a b) := by
  fun_induction mergeNames load a b with
  | case2 _ _ _ _ _ ih => exact ih.map arrayOf
  | case6 => exact load.failsOnly_commonSuperClass hP _ _
  | case1 | case3 | case4 | case5 => exact .ok _

theorem failsOnly_mergeType (a b : VerificationType) : FailsOnly P (load.mergeType a b) := by
  unfold mergeType
  split
  · exact .ok _
  · split
    · exact .ok _
    · exact .ok _
    · exact (load.failsOnly_mergeNames hP _ _).map _
    · exact .ok _

theorem failsOnly_mergeTypes (as bs : List VerificationType) :
    FailsOnly P (load.mergeTypes as bs) := by
  fun_induction mergeTypes load as bs with
  | case1 a as b bs ih =>
    exact .bind (load.failsOnly_mergeType hP a b) fun _ => ih.bind fun _ => .ok _
  | case2 => exact .ok _

theorem failsOnly_mergeFrames (pc : Nat) (f g : Frame) : FailsOnly P (load.mergeFrames pc f g) :=
  .ite (.error (hP _ trivial)) <| .bind (load.failsOnly_mergeTypes hP _ _) fun _ =>
    .bind (load.failsOnly_mergeTypes hP _ _) fun _ => .ok _

end Loader

end Joins

/-! ### Before and after the worklist -/

section Outside

include hP

theorem MethodShape.failsOnly_initialFrame (m : MethodShape) (className : String)
    (maxLocals : Nat) : FailsOnly P (m.initialFrame className maxLocals) := by
  refine .bind_ok (MethodScope.failsOnly_descriptor? hP _) fun d hd => ?_
  obtain ⟨t, ht, -, rfl⟩ := descriptor?_eq_ok.1 hd
  refine .bind (fun e he => ?_) fun _ => .ite (.error (hP _ trivial)) (.ok _)
  rw [mapM_typeOf ht] at he
  cases he

namespace Flow

variable (flow : Flow)

theorem failsOnly_mergeInto (s : FlowState) (target : Nat) (f : Frame) :
    FailsOnly P (flow.mergeInto s target f) := by
  unfold mergeInto
  split
  · exact .ok _
  · exact .bind (flow.load.failsOnly_mergeFrames hP _ _ _) fun _ => .ite (.ok _) (.ok _)

theorem failsOnly_catchRange (scope : MethodScope) (program : Program) (h : ExceptionHandler) :
    FailsOnly P (catchRange scope program h) :=
  .ite (.ite (.ok _) (.bind (MethodScope.failsOnly_className? hP _) fun _ => .ok _))
    (.error (hP _ trivial))

theorem failsOnly_prepare {load : Loader} {pool : Pool} {className : String} {m : MethodShape}
    {body : Code} (hdecode : FailsOnly P (Program.decode body.code.toArray)) :
    FailsOnly P (prepare load pool className m body) := by
  refine .bind (m.failsOnly_initialFrame hP _ _) fun initial => .bind hdecode fun program => ?_
  exact .bind (.mapM (failsOnly_catchRange hP _ program) _) fun _ => .ok _

theorem failsOnly_listStates (last : FlowState) : FailsOnly P (flow.listStates last) := by
  unfold listStates
  split
  · exact .error (hP _ trivial)
  · exact .ok _

end Flow

end Outside

end Ordinary

/-! ### Visits -/

theorem Program.failsOnly_decode (code : CodeArray) :
    FailsOnly (fun e => ∃ pc, e = .truncated pc) (decode code) := by
  refine .bind ?_ fun _ => .ok _
  generalize code.size = bound, 0 = pc, (∅ : Std.TreeMap Nat Located) = found
  fun_induction sweep code bound pc found with
  | case1 | case2 => exact .ok _
  | case3 _ _ _ _ _ _ ih => exact ih
  | case4 => exact .error ⟨_, rfl⟩

namespace Flow

/-- Whether the next visit is to an instruction that takes a descriptor which is cut short. -/
def MeetsCut (flow : Flow) (s : FlowState) (descriptor : String) : Prop :=
  ∃ pc rest before here, s.queue = pc :: rest ∧ s.frames[pc]? = some before ∧
    flow.program.listing[pc]? = some here ∧
    flow.scope.Takes before here.instruction descriptor ∧ VerificationType.CutShort descriptor

theorem MeetsCut.step_eq_error {flow : Flow} {s : FlowState} {descriptor : String}
    (h : flow.MeetsCut s descriptor) : ∃ pc rest, s.queue = pc :: rest ∧
      flow.step s pc rest = .error (.format (.breakdown (.cutText descriptor))) := by
  obtain ⟨pc, rest, before, here, hqueue, hbefore, hhere, htakes, hcut⟩ := h
  refine ⟨pc, rest, hqueue, ?_⟩
  simp only [step, hbefore, hhere, visit, htakes.transfer_eq_error hcut pc]
  rfl

/-- A visit breaks down only where no instruction is listed, or where a descriptor is cut short. -/
theorem breakdown_of_step {flow : Flow} {s : FlowState} {pc : Nat} {rest : List Nat}
    (hqueue : s.queue = pc :: rest) {e : FrameError} (h : flow.step s pc rest = .error e) :
    e.breakdown? = none ∨
    (flow.program.listing[pc]? = none ∧ (∃ before, s.frames[pc]? = some before) ∧
      e = .format (.breakdown (.noInstruction pc))) ∨
    ∃ descriptor, flow.MeetsCut s descriptor ∧
      e = .format (.breakdown (.cutText descriptor)) := by
  obtain ⟨before, hbefore, ⟨hnone, rfl⟩ | ⟨here, hhere, htransfer | ⟨after, -, hjoined⟩⟩⟩ :=
    Flow.step_eq_error h
  · exact .inr (.inl ⟨hnone, ⟨before, hbefore⟩, rfl⟩)
  · have hfails := MethodScope.failsOnly_transfer
      (P := fun e => e.breakdown? = none ∨ ∃ descriptor, flow.MeetsCut s descriptor ∧
        e = .format (.breakdown (.cutText descriptor)))
      (fun e he => .inl he.breakdown?_eq_none)
      ⟨fun _ _ _ _ _ => .inl rfl, fun _ _ _ _ _ => .inl rfl⟩
      (fun descriptor htakes hcut =>
        .inr ⟨descriptor, ⟨pc, rest, before, here, hqueue, hbefore, hhere, htakes, hcut⟩, rfl⟩) pc
    rcases hfails e htransfer with hnone | hcut
    · exact .inl hnone
    · exact .inr (.inr hcut)
  · cases hjoined with
    | clash _ _ hmerge =>
      exact .inl (flow.failsOnly_mergeInto (fun e he => he.breakdown?_eq_none) _ _ _ e hmerge)
    | astray _ => exact .inl rfl

end Flow

end ClassArchive
