import ClassArchive.Proofs.Codec
import ClassArchive.Proofs.WritingEdits
import ClassArchive.StackMap

/-!
Tables of frames. A class type is written as an index into a pool that grows while the table is
written, so a table is read back in the pool that is left and in every pool that extends it. A frame
means something only after the frames before it; replayed from the initial locals, the frames of a
method are the states that they were made from.
-/
set_option autoImplicit false

namespace ClassArchive

open Reader

open Pool.Edit

/-! ### Types and frames -/

namespace VerificationType

theorem restores_readObject {pool : Pool} {i : UInt16} {name : String}
    (h : pool.className i = .ok name) : (readObject pool).Restores (be16 i) (.object name) := by
  rw [← List.append_nil (be16 i)]
  refine (restores_u16 i).bind ?_
  rw [h]
  exact restores_pure _

theorem ensures_encode (type : VerificationType) :
    type.encode.Ensures fun r data => (read r).Restores data type := by
  cases type with
  | object name =>
    refine (ensures_addClass name).map fun r i hi => ?_
    exact (restores_u8 7).bind (restores_readObject hi)
  | uninitialized pc =>
    exact ensures_pure fun r => (restores_u8 8).bind ((restores_u16 pc).map _)
  | _ => exact ensures_pure fun r => (restores_u8 _).bind (restores_pure _)

theorem ensures_encodeAll (types : List VerificationType) :
    (encodeAll types).Ensures fun r data =>
      ∃ datas, data = datas.flatten ∧ List.Forall₂ (read r).Restores datas types :=
  (ensures_mapM types fun type _ => type.ensures_encode).map fun _ datas h => ⟨datas, rfl, h⟩

end VerificationType

namespace StackMapFrame

def Fits : StackMapFrame → Prop
  | .same _ | .sameLocals1 _ _ => True
  | .chop count _ => 1 ≤ count ∧ count ≤ 3
  | .append _ locals => 1 ≤ locals.length ∧ locals.length ≤ 3
  | .full _ locals stack => locals.length < 65536 ∧ stack.length < 65536

theorem toNat_toUInt8_of_short {delta : UInt16} (h : delta ≤ 63) :
    delta.toUInt8.toNat = delta.toNat ∧ delta.toNat ≤ 63 := by
  have hle : delta.toNat ≤ 63 := UInt16.le_iff_toNat_le.1 h
  refine ⟨?_, hle⟩
  rw [UInt16.toNat_toUInt8]
  omega

theorem toUInt16_toUInt8_of_short {delta : UInt16} (h : delta ≤ 63) :
    delta.toUInt8.toUInt16 = delta := by
  apply UInt16.toNat_inj.1
  rw [UInt8.toNat_toUInt16, (toNat_toUInt8_of_short h).1]

theorem restores_same (pool : Pool) (delta : UInt16) :
    (read pool).Restores (encodeTag 0 251 delta) (.same delta) := by
  unfold encodeTag
  split
  · next hshort =>
    obtain ⟨hbyte, hle⟩ := toNat_toUInt8_of_short hshort
    have htag : delta.toUInt8 ≤ 63 := UInt8.le_iff_toNat_le.2 (hbyte ▸ hle)
    rw [UInt8.zero_add]
    refine (restores_u8 _).bind_pure ?_
    rw [if_pos htag, toUInt16_toUInt8_of_short hshort]
  · refine (restores_u8 251).bind ((restores_u16 delta).bind_pure ?_)
    rfl

theorem restores_sameLocals1 {pool : Pool} (delta : UInt16) {item : VerificationType}
    {data : Bytes} (h : (VerificationType.read pool).Restores data item) :
    (read pool).Restores (encodeTag 64 247 delta ++ data) (.sameLocals1 delta item) := by
  unfold encodeTag
  split
  · next hshort =>
    obtain ⟨hbyte, hle⟩ := toNat_toUInt8_of_short hshort
    have hsum : (64 + delta.toUInt8).toNat = 64 + delta.toNat := by
      simp only [UInt8.toNat_add, hbyte, UInt8.reduceToNat]
      omega
    -- the tag of a short delta lies in the second range, and gives the delta back
    have hlong : ¬ 64 + delta.toUInt8 ≤ 63 := by
      simp only [UInt8.le_iff_toNat_le, hsum, UInt8.reduceToNat]
      omega
    have htag : 64 + delta.toUInt8 ≤ 127 := by
      simp only [UInt8.le_iff_toNat_le, hsum, UInt8.reduceToNat]
      omega
    have hback : 64 + delta.toUInt8 - 64 = delta.toUInt8 := by grind
    refine (restores_u8 _).bind ?_
    rw [if_neg hlong, if_pos htag, hback, toUInt16_toUInt8_of_short hshort]
    exact h.bind_pure rfl
  · refine (restores_u8 247).bind ((restores_u16 delta).bind ?_)
    exact h.bind_pure rfl

theorem restores_chop (pool : Pool) {count : UInt8} (delta : UInt16)
    (hcount : 1 ≤ count ∧ count ≤ 3) :
    (read pool).Restores ((251 - count) :: be16 delta) (.chop count delta) := by
  -- with the tag a literal, the reader's tests evaluate
  have hcases : count = 1 ∨ count = 2 ∨ count = 3 := by grind
  rcases hcases with rfl | rfl | rfl
  all_goals exact (restores_u8 _).bind ((restores_u16 delta).bind_pure rfl)

theorem restores_append {pool : Pool} (delta : UInt16) {locals : List VerificationType}
    {datas : List Bytes} (hlength : 1 ≤ locals.length ∧ locals.length ≤ 3)
    (h : List.Forall₂ (VerificationType.read pool).Restores datas locals) :
    (read pool).Restores ((251 + locals.length.toUInt8) :: be16 delta ++ datas.flatten)
      (.append delta locals) := by
  have hmany := restores_many h
  have hcases : locals.length = 1 ∨ locals.length = 2 ∨ locals.length = 3 := by omega
  rcases hcases with hl | hl | hl
  all_goals
    rw [hl] at hmany ⊢
    exact (restores_u8 _).bind ((restores_u16 delta).bind (hmany.bind_pure rfl))

theorem restores_full {pool : Pool} (delta : UInt16) {locals stack : List VerificationType}
    {localDatas stackDatas : List Bytes} (hlocals : locals.length < 65536)
    (hstack : stack.length < 65536)
    (h : List.Forall₂ (VerificationType.read pool).Restores localDatas locals)
    (h' : List.Forall₂ (VerificationType.read pool).Restores stackDatas stack) :
    (read pool).Restores (255 :: be16 delta ++ count16 locals.length ++ localDatas.flatten ++
      count16 stack.length ++ stackDatas.flatten) (.full delta locals stack) := by
  have hread : (read pool).Restores _ (.full delta locals stack) :=
    (restores_u8 255).bind <| (restores_u16 delta).bind <| (restores_list16 h hlocals).bind <|
      (restores_list16 h' hstack).bind_pure rfl
  simpa only [List.cons_append, List.nil_append, List.append_assoc] using hread

theorem ensures_encode (frame : StackMapFrame) :
    frame.encode.Ensures fun r data => frame.Fits → (read r).Restores data frame := by
  cases frame with
  | same delta => exact ensures_pure fun r _ => restores_same r delta
  | sameLocals1 delta item =>
    exact item.ensures_encode.map fun r data hdata _ => restores_sameLocals1 delta hdata
  | chop count delta => exact ensures_pure fun r h => restores_chop r delta h
  | append delta locals =>
    refine (VerificationType.ensures_encodeAll locals).map ?_
    rintro r _ ⟨datas, rfl, hdatas⟩ h
    exact restores_append delta h hdatas
  | full delta locals stack =>
    refine (VerificationType.ensures_encodeAll locals).bind fun localBytes =>
      (VerificationType.ensures_encodeAll stack).map ?_
    rintro r _ ⟨stackDatas, rfl, hstack⟩ ⟨localDatas, rfl, hlocals⟩ h
    exact restores_full delta h.1 h.2 hlocals hstack

/-- The ways in which a frame leads from the previous locals to a state. -/
inductive Leads (previous : List VerificationType) (state : FrameState) (delta : UInt16) :
    StackMapFrame → Prop where
  | same (hlocals : state.locals = previous) (hstack : state.stack = []) :
      Leads previous state delta (.same delta)
  | sameLocals1 {item : VerificationType} (hlocals : state.locals = previous)
      (hstack : state.stack = [item]) : Leads previous state delta (.sameLocals1 delta item)
  | chop {dropped : List VerificationType} (hprevious : previous = state.locals ++ dropped)
      (hlength : 1 ≤ dropped.length ∧ dropped.length ≤ 3) (hstack : state.stack = []) :
      Leads previous state delta (.chop dropped.length.toUInt8 delta)
  | append {added : List VerificationType} (hlocals : state.locals = previous ++ added)
      (hlength : 1 ≤ added.length ∧ added.length ≤ 3) (hstack : state.stack = []) :
      Leads previous state delta (.append delta added)
  | full : Leads previous state delta (.full delta state.locals state.stack)

theorem leads_between (previous : List VerificationType) (state : FrameState) (delta : UInt16) :
    Leads previous state delta (between previous state delta) := by
  simp only [between]
  split
  · next hlocals =>
    split
    · next hstack => exact .same hlocals hstack
    · next hstack => exact .sameLocals1 hlocals hstack
    · exact .full
  next hne =>
  split
  next hstack =>
    split
    · next hprefix =>
      obtain ⟨dropped, rfl⟩ := List.isPrefixOf_iff_prefix.1 hprefix
      have hlength : (state.locals ++ dropped).length - state.locals.length = dropped.length := by
        simp
      -- equal locals were dealt with above, so something is dropped
      have hsome : dropped ≠ [] := fun hnil => hne (by simp [hnil])
      rw [hlength]
      split
      · next hshort => exact .chop rfl ⟨List.length_pos_of_ne_nil hsome, hshort⟩ hstack
      · exact .full
    · split
      · next hprefix =>
        obtain ⟨added, hadded⟩ := List.isPrefixOf_iff_prefix.1 hprefix
        have hsome : added ≠ [] := fun hnil => hne (by simp [← hadded, hnil])
        rw [← hadded, List.drop_left]
        split
        · next hshort =>
          exact .append hadded.symm ⟨List.length_pos_of_ne_nil hsome, hshort⟩ hstack
        · rw [hadded]
          exact .full
      · exact .full
  · exact .full

theorem toNat_toUInt8_of_le {n : Nat} (h : n ≤ 3) : n.toUInt8.toNat = n := by
  rw [Nat.toUInt8_eq, UInt8.toNat_ofNat']
  omega

section Leads

variable {previous : List VerificationType} {state : FrameState} {delta : UInt16}
  {frame : StackMapFrame}

theorem Leads.fits (h : Leads previous state delta frame) (hlocals : state.locals.length ≤ 65535)
    (hstack : state.stack.length ≤ 65535) : frame.Fits := by
  cases h with
  | same | sameLocals1 => trivial
  | chop _ hlength =>
    simp only [Fits, UInt8.le_iff_toNat_le, toNat_toUInt8_of_le hlength.2]
    exact hlength
  | append _ hlength => exact hlength
  | full => exact ⟨Nat.lt_succ_of_le hlocals, Nat.lt_succ_of_le hstack⟩

theorem Leads.delta_eq (h : Leads previous state delta frame) : frame.delta = delta := by
  cases h <;> rfl

def resolve (previous : List VerificationType) :
    StackMapFrame → List VerificationType × List VerificationType
  | .same _ => (previous, [])
  | .sameLocals1 _ item => (previous, [item])
  | .chop count _ => (previous.take (previous.length - count.toNat), [])
  | .append _ locals => (previous ++ locals, [])
  | .full _ locals stack => (locals, stack)

theorem Leads.resolve_eq (h : Leads previous state delta frame) :
    frame.resolve previous = (state.locals, state.stack) := by
  cases h with
  | same hlocals hstack | sameLocals1 hlocals hstack => simp [resolve, hlocals, hstack]
  | chop hprevious hlength hstack =>
    simp [resolve, hprevious, hstack, toNat_toUInt8_of_le hlength.2]
  | append hlocals _ hstack => simp [resolve, hlocals, hstack]
  | full => rfl

end Leads

end StackMapFrame

/-! ### Tables -/

theorem forall₂_of_right {α β : Type} {P : β → Prop} {R : α → β → Prop} {as : List α} {bs : List β}
    (h : List.Forall₂ (fun a b => P b → R a b) as bs) (hbs : ∀ b ∈ bs, P b) :
    List.Forall₂ R as bs := by
  induction h with
  | nil => exact .nil
  | cons hab _ ih =>
    obtain ⟨hb, hbs⟩ := List.forall_mem_cons.1 hbs
    exact .cons (hab hb) (ih hbs)

namespace StackMap

theorem ensures_encode (frames : List StackMapFrame) :
    (encode frames).Ensures fun r data => frames.length < 65536 →
      (∀ frame ∈ frames, frame.Fits) → decode r data = .ok frames := by
  refine (ensures_mapM frames fun frame _ => frame.ensures_encode).map ?_
  intro r datas hdatas hlength hfits
  exact (restores_list16 (forall₂_of_right hdatas hfits) hlength).run_finish attributeName

theorem length_compressFrom (states : List FrameState) (previous : Option UInt16)
    (locals : List VerificationType) :
    (compressFrom previous locals states).length = states.length := by
  induction states generalizing previous locals with
  | nil => rfl
  | cons state rest ih => exact congrArg (· + 1) (ih _ _)

theorem fits_of_mem_compressFrom {states : List FrameState}
    (h : ∀ state ∈ states, state.locals.length ≤ 65535 ∧ state.stack.length ≤ 65535)
    {previous : Option UInt16} {locals : List VerificationType} {frame : StackMapFrame}
    (hframe : frame ∈ compressFrom previous locals states) : frame.Fits := by
  induction states generalizing previous locals with
  | nil => cases hframe
  | cons state rest ih =>
    obtain ⟨hstate, hrest⟩ := List.forall_mem_cons.1 h
    rcases List.mem_cons.1 hframe with rfl | hframe
    · exact (StackMapFrame.leads_between locals state _).fits hstate.1 hstate.2
    · exact ih hrest hframe

/-- The frames of a method, once written, are read back in the pool that is left and in all its
extensions. -/
theorem ensures_encode_compress (initial : List VerificationType) (states : List FrameState) :
    (encode (compress initial states)).Ensures fun r data => states.length ≤ 65535 →
      (∀ state ∈ states, state.locals.length ≤ 65535 ∧ state.stack.length ≤ 65535) →
        decode r data = .ok (compress initial states) := by
  intro p q data hp h
  obtain ⟨hgrown, hdecode⟩ := ensures_encode _ hp h
  refine ⟨hgrown, fun r hr hlength hstates => hdecode r hr ?_ ?_⟩
  · rw [compress, length_compressFrom]
    omega
  · exact fun frame hframe => fits_of_mem_compressFrom hstates hframe

/-- Where each frame is in force and what it says there, by the rules of the table: an address is
one more than the sum of the address before it and the delta, and never wraps. -/
def replayFrom (previous : Option Nat) (locals : List VerificationType) :
    List StackMapFrame → List (Nat × List VerificationType × List VerificationType)
  | [] => []
  | frame :: rest =>
      let pc := match previous with
        | none => frame.delta.toNat
        | some last => last + frame.delta.toNat + 1
      let resolved := frame.resolve locals
      (pc, resolved) :: replayFrom (some pc) resolved.1 rest

def replay (initial : List VerificationType) (frames : List StackMapFrame) :
    List (Nat × List VerificationType × List VerificationType) :=
  replayFrom none initial frames

theorem toNat_deltaTo {last pc : UInt16} (h : last < pc) :
    last.toNat + (deltaTo (some last) pc).toNat + 1 = pc.toNat := by
  have hlt := UInt16.lt_iff_toNat_lt.1 h
  -- the addresses rise, so neither subtraction wraps
  have hone : (1 : UInt16) ≤ pc - last := by grind
  rw [deltaTo, UInt16.toNat_sub_of_le _ _ hone, UInt16.toNat_sub_of_le _ _ (UInt16.le_of_lt h)]
  show last.toNat + (pc.toNat - last.toNat - 1) + 1 = _
  omega

theorem replayFrom_compressFrom (states : List FrameState) (previous : Option UInt16)
    (locals : List VerificationType)
    (hprevious : ∀ last ∈ previous, ∀ state ∈ states, last < state.pc)
    (hsorted : states.Pairwise (·.pc < ·.pc)) :
    replayFrom (previous.map UInt16.toNat) locals (compressFrom previous locals states) =
      states.map fun state => (state.pc.toNat, state.locals, state.stack) := by
  induction states generalizing previous locals with
  | nil => rfl
  | cons state rest ih =>
    obtain ⟨hfirst, hsorted⟩ := List.pairwise_cons.1 hsorted
    have hleads := StackMapFrame.leads_between locals state (deltaTo previous state.pc)
    have hrest := ih (some state.pc) state.locals (by simpa using hfirst) hsorted
    -- the address comes out as it was, and with it the start of the next frame
    have hpc : (match previous.map UInt16.toNat with
        | none => (deltaTo previous state.pc).toNat
        | some last => last + (deltaTo previous state.pc).toNat + 1) = state.pc.toNat := by
      cases previous with
      | none => rfl
      | some last => exact toNat_deltaTo (hprevious last rfl state (by simp))
    simp only [compressFrom, replayFrom, hleads.delta_eq, hleads.resolve_eq, hpc, List.map_cons]
    exact congrArg _ hrest

/-- Frames at rising addresses survive being written: the table is read back as it was, and replayed
from the initial locals it gives the states again. -/
theorem decode_encode_compress {start : Pool}
    (hstart : start = {} ∨ ∃ data c, ClassFile.decode data = .ok c ∧ start = c.pool)
    (additions : List Pool.Addition) (initial : List VerificationType) {states : List FrameState}
    (hlength : states.length ≤ 65535) (hsorted : states.Pairwise (·.pc < ·.pc))
    (hfits : ∀ state ∈ states, state.locals.length ≤ 65535 ∧ state.stack.length ≤ 65535)
    {data : Bytes} {q : Pool}
    (h : encode (compress initial states) (Pool.after (additions.map .add) start) = .ok data q) :
    decode q data = .ok (compress initial states) ∧
      replay initial (compress initial states) =
        states.map fun state => (state.pc.toNat, state.locals, state.stack) := by
  constructor
  · have hrecalls := Pool.recalls_of_additions hstart additions
    exact (ensures_encode_compress initial states hrecalls h).2 q (.refl q) hlength hfits
  · exact replayFrom_compressFrom states none initial (by simp) hsorted

/-- One frame of each kind, the second far enough from the first for an extended tag. -/
def mixedStates : List FrameState :=
  [⟨0, [.integer], []⟩, ⟨90, [.integer], [.object "a"]⟩, ⟨91, [.integer, .object "b"], []⟩,
    ⟨95, [], []⟩, ⟨200, [.null], [.integer, .float]⟩]

theorem decode_encode_compress_mixed : ∃ data q,
    encode (compress [.integer] mixedStates)
      (Pool.after [.add (.content (.classInfo "a"))] {}) = .ok data q ∧
    decode q data = .ok (compress [.integer] mixedStates) ∧
    replay [.integer] (compress [.integer] mixedStates) =
      mixedStates.map fun state => (state.pc.toNat, state.locals, state.stack) := by
  obtain ⟨data, q, h⟩ : ∃ data q, encode (compress [.integer] mixedStates)
      (Pool.after [.add (.content (.classInfo "a"))] {}) = .ok data q := ⟨_, _, rfl⟩
  exact ⟨data, q, h, decode_encode_compress (.inl rfl) [.content (.classInfo "a")] [.integer]
    (by decide) (by decide) (by decide) h⟩

end StackMap

end ClassArchive
