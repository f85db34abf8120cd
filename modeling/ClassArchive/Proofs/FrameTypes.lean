import ClassArchive.Proofs.ControlFlow
import ClassArchive.Proofs.StackWords
import ClassArchive.Proofs.SettledFrames

/-!
The types in the frames of a method. They come from the constants to which its instructions refer,
from each other by joins, and from `new`. Only values that are not constructed yet have a type that
names an address, that of the instruction which made them. A property of types that holds of all
others, and of what the `new` instructions of the method make, holds everywhere in its frames.
-/
set_option autoImplicit false

namespace ClassArchive

namespace VerificationType

def isPlain : VerificationType → Bool
  | .uninitialized _ => false
  | _ => true

def isSimple : VerificationType → Bool
  | .object _ | .uninitialized _ => false
  | _ => true

theorem isPlain_of_isSimple {type : VerificationType} (h : type.isSimple = true) :
    type.isPlain = true := by
  cases type <;> first | rfl | cases h

theorem isPlain_ofDescriptor {descriptor : String} {type : VerificationType}
    (h : ofDescriptor descriptor = .ok type) : type.isPlain = true := by
  unfold ofDescriptor at h
  split at h
  case h_10 =>
    split at h
    · cases h
      rfl
    · split at h <;> cases h
      rfl
  all_goals
    cases h
    rfl

theorem isPlain_elementOf {array type : VerificationType} (h : elementOf array = .ok type) :
    type.isPlain = true := by
  unfold elementOf at h
  split at h
  · split at h
    · exact isPlain_ofDescriptor h
    · cases h
      rfl
  · cases h
    rfl

end VerificationType

/-! ### Instructions -/

namespace Instruction

/-- What an instruction makes without being told the type by the frame: a type that stands in the
table of instructions, or a value of the class that its operand names. -/
def Made (code : CodeArray) (pc : Nat) : Instruction → Prop
  | .push type | .operate _ type => type.isSimple = true
  | .newArray type => ∃ element, arrayType? element = some type
  | .new index => code.u16? (pc + 1) = some index
  | _ => True

theorem isSimple_numericType (i : Nat) : (numericType i).isSimple = true := by
  unfold numericType
  split <;> rfl

theorem isSimple_conversionTypes {i : Nat} {type : VerificationType}
    (h : conversionTypes[i]? = some type) : type.isSimple = true := by
  have hall : ∀ type ∈ conversionTypes, type.isSimple = true := by decide
  exact hall type (List.mem_of_getElem? h)

theorem isPlain_arrayType? {element : UInt8} {type : VerificationType}
    (h : arrayType? element = some type) : type.isPlain = true := by
  unfold arrayType? at h
  split at h <;> cases h <;> rfl

theorem made_decodeWide? (code : CodeArray) (pc : Nat) :
    ∀ i ∈ decodeWide? code pc, Made code pc i := by
  unfold decodeWide?
  refine forall_mem_bind fun opcode _ => forall_mem_bind fun slot _ => ?_
  repeat' refine forall_mem_ite (fun _ => ?_) (fun _ => ?_)
  all_goals exact forall_mem_pure trivial

set_option maxRecDepth 2000 in
theorem made_decode? (code : CodeArray) (pc : Nat) : ∀ i ∈ decode? code pc, Made code pc i := by
  unfold decode?
  refine forall_mem_bind fun opcode _ => ?_
  dsimp only
  repeat' refine forall_mem_ite (fun _ => ?_) (fun _ => ?_)
  -- most instructions make nothing, or a type that stands in the table itself
  all_goals try exact forall_mem_pure trivial
  all_goals try exact forall_mem_pure rfl
  all_goals try exact forall_mem_pure (isSimple_numericType _)
  all_goals try exact forall_mem_bind fun _ _ => forall_mem_pure trivial
  · exact forall_mem_bind fun _ h => forall_mem_pure (isSimple_conversionTypes h)
  · exact forall_mem_bind fun _ h => forall_mem_pure h
  · refine forall_mem_bind fun element _ => ?_
    split
    · next h => exact forall_mem_pure ⟨element, h⟩
    · exact forall_mem_pure trivial
  · exact made_decodeWide? code pc
  · exact forall_mem_bind fun _ _ => forall_mem_bind fun _ _ => forall_mem_pure trivial

end Instruction

/-! ### Frames -/

namespace Frame

structure All (P : VerificationType → Prop) (f : Frame) : Prop where
  locals : ∀ type ∈ f.locals, P type
  stack : ∀ type ∈ f.stack, P type

section All

variable {P : VerificationType → Prop} {f g : Frame}

theorem All.imp {Q : VerificationType → Prop} (hf : f.All P) (h : ∀ type, P type → Q type) :
    f.All Q :=
  ⟨fun type htype => h type (hf.locals type htype), fun type htype => h type (hf.stack type htype)⟩

theorem All.and {Q : VerificationType → Prop} (hf : f.All P) (hf' : f.All Q) :
    f.All fun type => P type ∧ Q type :=
  ⟨fun type htype => ⟨hf.locals type htype, hf'.locals type htype⟩,
    fun type htype => ⟨hf.stack type htype, hf'.stack type htype⟩⟩

theorem All.push {type : VerificationType} (hf : f.All P) (htype : P type) : (f.push type).All P :=
  ⟨hf.locals, List.forall_mem_cons.2 ⟨htype, hf.stack⟩⟩

theorem All.drop {count pc : Nat} (hf : f.All P) (h : f.drop count pc = .ok g) : g.All P := by
  unfold Frame.drop at h
  split at h
  · cases h
  · cases h
    exact ⟨hf.locals, fun type htype => hf.stack type (List.mem_of_mem_drop htype)⟩

theorem All.pop {pc : Nat} {type : VerificationType} (hf : f.All P)
    (h : f.pop pc = .ok (type, g)) : P type ∧ g.All P := by
  unfold Frame.pop at h
  split at h
  · cases h
  · next hstack =>
    cases h
    have hall := hf.stack
    rw [hstack] at hall
    obtain ⟨htop, hrest⟩ := List.forall_mem_cons.1 hall
    exact ⟨htop, hf.locals, hrest⟩

theorem All.local? {slot pc : Nat} {type : VerificationType} (hf : f.All P)
    (h : f.local? slot pc = .ok type) : P type := by
  unfold Frame.local? at h
  split at h
  · next hslot =>
    cases h
    exact hf.locals _ (List.mem_of_getElem? hslot)
  · cases h

theorem All.typeOf {type : VerificationType} (hsimple : ∀ type, type.isSimple = true → P type)
    (h : P type) (kind : LocalKind) : P (kind.typeOf type) := by
  cases kind with
  | reference => exact h
  | _ => exact hsimple _ rfl

theorem forall_mem_clearIf (hsimple : ∀ type, type.isSimple = true → P type) (condition : Bool)
    (slot : Nat) {locals : List VerificationType} (h : ∀ type ∈ locals, P type) :
    ∀ type ∈ clearIf condition slot locals, P type := by
  unfold clearIf
  split
  · intro type htype
    rcases List.mem_or_eq_of_mem_set htype with htype | rfl
    · exact h type htype
    · exact hsimple _ rfl
  · exact h

theorem All.setLocal (hsimple : ∀ type, type.isSimple = true → P type) {slot pc : Nat}
    {type : VerificationType} (hf : f.All P) (htype : P type)
    (h : f.setLocal slot type pc = .ok g) : g.All P := by
  unfold Frame.setLocal at h
  split at h
  · cases h
  · cases h
    refine ⟨?_, hf.stack⟩
    unfold storeLocal
    refine forall_mem_clearIf hsimple _ _ fun type' htype' => ?_
    rcases List.mem_or_eq_of_mem_set htype' with htype' | rfl
    · exact forall_mem_clearIf hsimple _ _ (forall_mem_clearIf hsimple _ _ hf.locals) type' htype'
    · exact htype

theorem All.construct {before after : VerificationType} (hf : f.All P) (hafter : P after) :
    (f.construct before after).All P := by
  have hupdate : ∀ types : List VerificationType, (∀ type ∈ types, P type) →
      ∀ type ∈ types.map (fun type => if type = before then after else type), P type := by
    intro types htypes type htype
    obtain ⟨old, hold, rfl⟩ := List.mem_map.1 htype
    split
    · exact hafter
    · exact htypes old hold
  exact ⟨hupdate _ hf.locals, hupdate _ hf.stack⟩

end All

end Frame

namespace MethodScope

/-- Whether all types that instructions bring into a frame have the property. Elements are taken
out of arrays that have it. -/
structure Provides (scope : MethodScope) (P : VerificationType → Prop) : Prop where
  simple : ∀ type, type.isSimple = true → P type
  array : ∀ element type, Instruction.arrayType? element = some type → P type
  element : ∀ array type, P array → elementOf array = .ok type → P type
  constant : ∀ index type, scope.constantType index = .ok type → P type
  className : ∀ index name, scope.className? index = .ok name → P (.object name)
  arrayOf : ∀ index name, scope.className? index = .ok name → P (.object (arrayOf name))
  thisClass : P (.object scope.className)
  field : ∀ index member type, scope.member? index = .ok member →
    typeOf member.descriptor = .ok type → P type
  result : ∀ index member d type, scope.member? index = .ok member →
    descriptor? member.descriptor = .ok d → typeOf d.result = .ok type → P type
  callSite : ∀ index text d type, scope.callSite? index = .ok text → descriptor? text = .ok d →
    typeOf d.result = .ok type → P type

theorem ok_of_lift {α : Type} {x : Except FormatError α} {a : α}
    (h : FrameError.lift x = .ok a) : x = .ok a := by
  cases x with
  | error e => cases h
  | ok b =>
    cases h
    rfl

variable {P : VerificationType → Prop} {scope : MethodScope} (hscope : scope.Provides P)
include hscope

theorem of_constructed? {before after : VerificationType}
    (h : scope.constructed? before = .ok (some after)) : P after := by
  unfold constructed? at h
  split at h
  · cases h
    exact hscope.thisClass
  · split at h
    · obtain ⟨name, hname, h⟩ := bind_eq_ok.1 h
      cases h
      exact hscope.className _ _ hname
    · cases h
  · cases h

theorem all_takeReceiver {kind : InvokeKind} {method : String} {pc : Nat} {f g : Frame}
    (hf : f.All P) (h : scope.takeReceiver kind method pc f = .ok g) : g.All P := by
  unfold takeReceiver at h
  split at h
  · cases h
    exact hf
  · obtain ⟨⟨receiver, popped⟩, hpop, h⟩ := bind_eq_ok.1 h
    have hpopped := (hf.pop hpop).2
    dsimp only at h
    split at h
    · obtain ⟨type, htype, h⟩ := bind_eq_ok.1 h
      split at h
      · next type =>
        cases h
        exact hpopped.construct (of_constructed? hscope htype)
      · cases h
        exact hpopped
    · cases h
      exact hpopped

omit hscope in
theorem all_pushResult {f g : Frame} (hf : f.All P) {d : MethodDescriptor}
    (hd : ∀ type, typeOf d.result = .ok type → P type) (h : pushResult d f = .ok g) : g.All P := by
  rcases pushResult_eq_ok h with rfl | ⟨type, htype, rfl⟩
  · exact hf
  · exact hf.push (hd type htype)

/-- An instruction leaves types that it found, types that it brings, and the type of a new
value. -/
theorem all_transfer {code : CodeArray} {pc : Nat} {f g : Frame} {i : Instruction}
    (hmade : i.Made code pc) (hnew : ∀ index, i = .new index → P (.uninitialized pc.toUInt16))
    (hf : f.All P) (h : scope.transfer pc f i = .ok g) : g.All P := by
  cases i with
  | nop | jump offset =>
    cases h
    exact hf
  | push type =>
    cases h
    exact hf.push (hscope.simple _ hmade)
  | new index =>
    cases h
    exact hf.push (hnew index rfl)
  | loadConstant index =>
    obtain ⟨type, htype, h⟩ := bind_eq_ok.1 h
    cases h
    exact hf.push (hscope.constant _ _ htype)
  | load kind slot =>
    obtain ⟨type, htype, h⟩ := bind_eq_ok.1 h
    cases h
    exact hf.push (Frame.All.typeOf hscope.simple (hf.local? htype) kind)
  | increment slot =>
    obtain ⟨_, _, h⟩ := bind_eq_ok.1 h
    cases h
    exact hf
  | getStatic index =>
    obtain ⟨member, hmember, h⟩ := bind_eq_ok.1 h
    obtain ⟨type, htype, h⟩ := bind_eq_ok.1 h
    cases h
    exact hf.push (hscope.field _ _ _ hmember htype)
  | store kind slot =>
    obtain ⟨⟨value, popped⟩, hpop, h⟩ := bind_eq_ok.1 h
    obtain ⟨hvalue, hpopped⟩ := hf.pop hpop
    exact hpopped.setLocal hscope.simple (Frame.All.typeOf hscope.simple hvalue kind) h
  | operate arity result =>
    obtain ⟨dropped, hdrop, h⟩ := bind_eq_ok.1 h
    cases h
    exact (hf.drop hdrop).push (hscope.simple _ hmade)
  | newArray type =>
    obtain ⟨element, helement⟩ := hmade
    obtain ⟨dropped, hdrop, h⟩ := bind_eq_ok.1 h
    cases h
    exact (hf.drop hdrop).push (hscope.array _ _ helement)
  | loadElement =>
    obtain ⟨dropped, hdrop, h⟩ := bind_eq_ok.1 h
    obtain ⟨⟨array, popped⟩, hpop, h⟩ := bind_eq_ok.1 h
    obtain ⟨type, htype, h⟩ := bind_eq_ok.1 h
    cases h
    obtain ⟨harray, hpopped⟩ := (hf.drop hdrop).pop hpop
    exact hpopped.push (hscope.element _ _ harray (ok_of_lift htype))
  | discard count | branch arity offset | switch offsets | exit arity => exact hf.drop h
  | shuffle s =>
    simp only [transfer] at h
    split at h
    · next hshuffle =>
      cases h
      have hsubset := StackShuffle.subset_of_shuffle? hshuffle
      exact ⟨hf.locals, fun type htype => hf.stack type (hsubset htype)⟩
    · cases h
  | getField index =>
    obtain ⟨member, hmember, h⟩ := bind_eq_ok.1 h
    obtain ⟨dropped, hdrop, h⟩ := bind_eq_ok.1 h
    obtain ⟨type, htype, h⟩ := bind_eq_ok.1 h
    cases h
    exact (hf.drop hdrop).push (hscope.field _ _ _ hmember htype)
  | newObjectArray index =>
    obtain ⟨name, hname, h⟩ := bind_eq_ok.1 h
    obtain ⟨dropped, hdrop, h⟩ := bind_eq_ok.1 h
    cases h
    exact (hf.drop hdrop).push (hscope.arrayOf _ _ hname)
  | newMultiArray index dimensions | cast index =>
    obtain ⟨name, hname, h⟩ := bind_eq_ok.1 h
    obtain ⟨dropped, hdrop, h⟩ := bind_eq_ok.1 h
    cases h
    exact (hf.drop hdrop).push (hscope.className _ _ hname)
  | invoke kind index =>
    obtain ⟨method, hmethod, h⟩ := bind_eq_ok.1 h
    obtain ⟨descriptor, hdescriptor, h⟩ := bind_eq_ok.1 h
    obtain ⟨dropped, hdrop, h⟩ := bind_eq_ok.1 h
    obtain ⟨taken, htaken, h⟩ := bind_eq_ok.1 h
    exact all_pushResult (all_takeReceiver hscope (hf.drop hdrop) htaken)
      (fun type => hscope.result _ _ _ type hmethod hdescriptor) h
  | invokeDynamic index =>
    obtain ⟨text, htext, h⟩ := bind_eq_ok.1 h
    obtain ⟨descriptor, hdescriptor, h⟩ := bind_eq_ok.1 h
    obtain ⟨dropped, hdrop, h⟩ := bind_eq_ok.1 h
    exact all_pushResult (hf.drop hdrop)
      (fun type => hscope.callSite _ _ _ type htext hdescriptor) h
  | unsupported opcode => cases h

end MethodScope

section Plain

variable {P : VerificationType → Prop} (hplain : ∀ type, type.isPlain = true → P type)

namespace MethodScope

theorem isPlain_constantType {scope : MethodScope} {index : UInt16} {type : VerificationType}
    (h : scope.constantType index = .ok type) : type.isPlain = true := by
  obtain ⟨c, _, h⟩ := bind_eq_ok.1 (ok_of_lift h)
  cases c with
  | dynamic bootstrap pair =>
    obtain ⟨_, _, h⟩ := bind_eq_ok.1 h
    exact VerificationType.isPlain_ofDescriptor h
  | _ =>
    cases h
    try rfl

theorem isPlain_typeOf {descriptor : String} {type : VerificationType}
    (h : typeOf descriptor = .ok type) : type.isPlain = true :=
  VerificationType.isPlain_ofDescriptor (ok_of_lift h)

include hplain in
theorem provides_of_plain (scope : MethodScope) : scope.Provides P where
  simple _ h := hplain _ (VerificationType.isPlain_of_isSimple h)
  array _ _ h := hplain _ (Instruction.isPlain_arrayType? h)
  element _ _ _ h := hplain _ (VerificationType.isPlain_elementOf h)
  constant _ _ h := hplain _ (isPlain_constantType h)
  className _ _ _ := hplain _ rfl
  arrayOf _ _ _ := hplain _ rfl
  thisClass := hplain _ rfl
  field _ _ _ _ h := hplain _ (isPlain_typeOf h)
  result _ _ _ _ _ _ h := hplain _ (isPlain_typeOf h)
  callSite _ _ _ _ _ _ h := hplain _ (isPlain_typeOf h)

end MethodScope

/-! ### Joins -/

namespace Loader

include hplain in
theorem of_mergeType {load : Loader} {a b type : VerificationType} (ha : P a) (hb : P b)
    (h : load.mergeType a b = .ok type) : P type := by
  unfold mergeType at h
  split at h
  · cases h
    exact ha
  · split at h
    · cases h
      exact hb
    · cases h
      exact ha
    · obtain ⟨name, _, rfl⟩ := map_eq_ok.1 h
      exact hplain _ rfl
    · cases h
      exact hplain _ rfl

end Loader

end Plain

namespace Loader

variable {load : Loader} {P : VerificationType → Prop}
  (hmerged : ∀ a b type, P a → P b → load.mergeType a b = .ok type → P type)
include hmerged

theorem forall_mem_mergeTypes {as bs types : List VerificationType}
    (has : ∀ type ∈ as, P type) (hbs : ∀ type ∈ bs, P type)
    (h : load.mergeTypes as bs = .ok types) : ∀ type ∈ types, P type := by
  induction as generalizing bs types with
  | nil =>
    cases h
    exact has
  | cons a as ih =>
    cases bs with
    | nil =>
      cases h
      exact has
    | cons b bs =>
      obtain ⟨ha, has⟩ := List.forall_mem_cons.1 has
      obtain ⟨hb, hbs⟩ := List.forall_mem_cons.1 hbs
      obtain ⟨type, htype, h⟩ := bind_eq_ok.1 h
      obtain ⟨rest, hrest, h⟩ := bind_eq_ok.1 h
      cases h
      exact List.forall_mem_cons.2 ⟨hmerged a b type ha hb htype, ih has hbs hrest⟩

theorem all_mergeFrames {pc : Nat} {a b f : Frame} (ha : a.All P) (hb : b.All P)
    (h : load.mergeFrames pc a b = .ok f) : f.All P := by
  obtain ⟨-, hlocals, hstack⟩ := mergeFrames_eq_ok h
  refine ⟨forall_mem_mergeTypes hmerged ha.locals hb.locals hlocals, ?_⟩
  have hall := forall_mem_mergeTypes hmerged
    (fun type htype => ha.stack type (by simpa using htype))
    (fun type htype => hb.stack type (by simpa using htype)) hstack
  exact fun type htype => hall type (by simpa using htype)

end Loader

/-! ### The first frame -/

namespace MethodShape

def expand (count : Nat) (values : List VerificationType) : List VerificationType :=
  values.flatMap slotsOf ++ List.replicate (count - (values.flatMap slotsOf).length) .top

theorem initialFrame_eq_ok {m : MethodShape} {className : String} {maxLocals : Nat}
    {initial : Frame} : m.initialFrame className maxLocals = .ok initial ↔
      ∃ d parameters, MethodScope.descriptor? m.descriptor = .ok d ∧
        d.parameters.mapM MethodScope.typeOf = .ok parameters ∧
        ((m.receiver className ++ parameters).flatMap slotsOf).length ≤ maxLocals ∧
        initial = ⟨expand maxLocals (m.receiver className ++ parameters), []⟩ := by
  constructor
  · intro h
    obtain ⟨d, hd, h⟩ := bind_eq_ok.1 h
    obtain ⟨parameters, hparameters, h⟩ := bind_eq_ok.1 h
    dsimp only at h
    split at h
    · cases h
    · cases h
      exact ⟨d, parameters, hd, hparameters, by omega, rfl⟩
  · rintro ⟨d, parameters, hd, hparameters, hfits, rfl⟩
    refine bind_eq_ok.2 ⟨d, hd, bind_eq_ok.2 ⟨parameters, hparameters, ?_⟩⟩
    exact if_neg (by omega)

theorem mem_receiver {m : MethodShape} {className : String} {type : VerificationType}
    (h : type ∈ m.receiver className) : type = .uninitializedThis ∨ type = .object className := by
  unfold receiver at h
  split at h
  · cases h
  · split at h
    · exact .inl (List.mem_singleton.1 h)
    · exact .inr (List.mem_singleton.1 h)

end MethodShape

/-! ### The worklist -/

namespace Flow

def HasTypes (P : VerificationType → Prop) (s : FlowState) : Prop :=
  ∀ (pc : Nat) (f : Frame), s.frames[pc]? = some f → f.All P

theorem all_of_initialFrame {P : VerificationType → Prop} (htop : P .top) {m : MethodShape}
    {className : String} {maxLocals : Nat} {initial : Frame}
    (h : m.initialFrame className maxLocals = .ok initial)
    (hreceiver : ∀ type ∈ m.receiver className, P type)
    (hparameters : ∀ d, MethodScope.descriptor? m.descriptor = .ok d →
      ∀ parameter ∈ d.parameters, ∀ type, MethodScope.typeOf parameter = .ok type → P type) :
    initial.All P := by
  obtain ⟨d, parameters, hd, hparameters', -, rfl⟩ := MethodShape.initialFrame_eq_ok.1 h
  refine ⟨?_, by simp⟩
  intro type htype
  rcases List.mem_append.1 htype with htype | htype
  · obtain ⟨value, hvalue, htype⟩ := List.mem_flatMap.1 htype
    have hvalue : P value := by
      rcases List.mem_append.1 hvalue with hvalue | hvalue
      · exact hreceiver value hvalue
      · obtain ⟨parameter, hparameter, htype⟩ := exists_source_of_mapM hparameters' value hvalue
        exact hparameters d hd parameter hparameter value htype
    unfold MethodShape.slotsOf at htype
    split at htype
    · rcases List.mem_pair.1 htype with rfl | rfl
      · exact hvalue
      · exact htop
    · cases List.mem_singleton.1 htype
      exact hvalue
  · exact List.eq_of_mem_replicate htype ▸ htop

theorem all_initialFrame {P : VerificationType → Prop}
    (hplain : ∀ type, type.isPlain = true → P type) {m : MethodShape} {className : String}
    {maxLocals : Nat} {initial : Frame} (h : m.initialFrame className maxLocals = .ok initial) :
    initial.All P := by
  refine all_of_initialFrame (hplain _ rfl) h ?_ ?_
  · intro type htype
    rcases MethodShape.mem_receiver htype with rfl | rfl <;> exact hplain _ rfl
  · intro d _ parameter _ type htype
    exact hplain _ (MethodScope.isPlain_typeOf htype)

theorem isPlain_catchType {scope : MethodScope} {program : Program}
    {handlers : List ExceptionHandler} {ranges : List CatchRange}
    (h : handlers.mapM (catchRange scope program) = .ok ranges) :
    ∀ range ∈ ranges, range.catchType.isPlain = true := by
  intro range hrange
  obtain ⟨handler, _, hhandler⟩ := exists_source_of_mapM h range hrange
  obtain ⟨-, name, -, rfl⟩ := catchRange_eq_ok hhandler
  rfl

structure Supplies (flow : Flow) (P : VerificationType → Prop) : Prop where
  plain : ∀ type, type.isPlain = true → P type
  caught : ∀ range ∈ flow.ranges, range.catchType.isPlain = true
  made : ∀ (pc : Nat) (here : Located), flow.program.listing[pc]? = some here →
    ∃ code, here.instruction.Made code pc
  new : ∀ (pc : Nat) (here : Located) (index : UInt16), flow.program.listing[pc]? = some here →
    here.instruction = .new index → P (.uninitialized pc.toUInt16)

theorem Supplies.keeps {flow : Flow} {P : VerificationType → Prop} (hflow : flow.Supplies P) :
    flow.Keeps (Frame.All P) where
  transfer pc here f g hhere hf h := by
    obtain ⟨code, hmade⟩ := hflow.made pc here hhere
    exact MethodScope.all_transfer (MethodScope.provides_of_plain hflow.plain _) hmade
      (fun index => hflow.new pc here index hhere) hf h
  caught range hrange f hf := by
    refine ⟨hf.locals, ?_⟩
    simpa using hflow.plain _ (hflow.caught range hrange)
  merged pc f g h hf hg hmerged :=
    Loader.all_mergeFrames (fun _ _ _ => Loader.of_mergeType hflow.plain) hf hg hmerged

/-- A prepared method brings plain types and what its `new` instructions make. -/
theorem supplies_of_prepare {P : VerificationType → Prop}
    (hplain : ∀ type, type.isPlain = true → P type) {load : Loader} {pool : Pool}
    {className : String} {m : MethodShape} {body : Code} {flow : Flow} {initial : Frame}
    (h : prepare load pool className m body = .ok (flow, initial))
    (hnew : ∀ (pc : Nat) (here : Located) (index : UInt16),
      flow.program.listing[pc]? = some here → here.instruction = .new index →
        P (.uninitialized pc.toUInt16)) : flow.Supplies P where
  plain := hplain
  caught := isPlain_catchType (prepare_eq_ok h).ranges
  made pc here hhere :=
    ⟨_, Instruction.made_decode? _ _ _
      (Program.decode?_of_decode (prepare_eq_ok h).program pc here hhere).2⟩
  new := hnew

theorem hasTypes_step {flow : Flow} {P : VerificationType → Prop} (hflow : flow.Supplies P)
    {s t : FlowState} {pc : Nat} {rest : List Nat} (hs : HasTypes P s)
    (h : flow.step s pc rest = .ok t) : HasTypes P t :=
  hflow.keeps.step hs h

end Flow

end ClassArchive
