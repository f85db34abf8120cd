import ClassArchive.Proofs.FrameShapes
import ClassArchive.Proofs.PoolEdits
import ClassArchive.Proofs.TypeHeights
import Mathlib.Data.List.Flatten

/-!
The depth of arrays in the frames of a method. Arrays are written out in the texts of the pool and
in the descriptor, or made by adding one dimension to such a text, so that their depth is bounded by
the length of the longest text. Joins and element loads keep within the bound.
-/
set_option autoImplicit false

namespace ClassArchive

theorem length_le_utf8ByteSize (text : String) : text.length ≤ text.utf8ByteSize := by
  have hchars : ∀ cs : List Char, cs.length ≤ (String.ofList cs).utf8ByteSize := by
    intro cs
    induction cs with
    | nil => simp
    | cons c cs ih =>
      have hcons : String.ofList (c :: cs) = String.singleton c ++ String.ofList cs := by simp
      have hsize : (String.singleton c).utf8ByteSize = c.utf8Size := by simp
      have hpos := Char.utf8Size_pos c
      rw [hcons, String.utf8ByteSize_append, List.length_cons]
      omega
  have htext := hchars text.toList
  rwa [String.length_toList, String.ofList_toList] at htext

namespace VerificationType

variable {depth : Nat}

theorem nested_of_isSimple {type : VerificationType} (h : type.isSimple = true) :
    type.Nested depth := by
  cases type <;> trivial

theorem nested_ofDescriptor {text : String} {type : VerificationType} (h : text.length ≤ depth)
    (htype : ofDescriptor text = .ok type) : type.Nested depth := by
  unfold ofDescriptor at htype
  split at htype
  case h_9 =>
    cases htype
    exact .text h
  case h_10 name hname =>
    split at htype
    · cases htype
      trivial
    · split at htype <;> cases htype
      refine .text ?_
      rw [← String.length_toList, hname, List.length_cons] at h
      rw [String.length_ofList, List.length_dropLast]
      omega
  all_goals
    cases htype
    trivial

theorem nested_typeOf {text : String} {type : VerificationType} (h : text.length ≤ depth)
    (htype : MethodScope.typeOf text = .ok type) : type.Nested depth :=
  nested_ofDescriptor h (MethodScope.ok_of_lift htype)

theorem elementOf_arrayOf (name : String) :
    elementOf (.object (arrayOf name)) = .ok (.object name) ∨
      elementOf (.object (arrayOf name)) = .ok .top := by
  unfold arrayOf
  split
  · next hhead =>
    obtain ⟨cs, hcs⟩ := List.head?_eq_some_iff.1 hhead
    have hlist : ("[" ++ name).toList = '[' :: '[' :: cs := by simp [hcs]
    have hname : String.ofList ('[' :: cs) = name := by rw [← hcs, String.ofList_toList]
    simp only [elementOf, hlist, hname]
    unfold ofDescriptor
    rw [hcs]
    exact .inl rfl
  · have hlist : ("[L" ++ name ++ ";").toList = '[' :: 'L' :: (name.toList ++ [';']) := by simp
    simp only [elementOf, hlist]
    unfold ofDescriptor
    rw [String.toList_ofList]
    simp only [List.dropLast_concat, String.ofList_toList, endsInside_semicolon]
    split
    · exact .inr rfl
    · exact .inl rfl

theorem nested_elementOf {array type : VerificationType} (h : array.Nested depth)
    (htype : elementOf array = .ok type) : type.Nested depth := by
  cases array with
  | object name =>
    cases h with
    | plain hclass =>
      simp only [elementOf] at htype
      split at htype
      · next hcs => simp [isArrayName, hcs] at hclass
      · cases htype
        trivial
    | text hlength =>
      simp only [elementOf] at htype
      split at htype
      · next element helement =>
        rw [← String.length_toList, helement, List.length_cons] at hlength
        exact nested_ofDescriptor (by rw [String.length_ofList]; omega) htype
      · cases htype
        trivial
    | @layer rest inner hinner =>
      rcases elementOf_arrayOf inner with heq | heq
      · cases heq.symm.trans htype
        exact hinner.mono (by omega)
      · cases heq.symm.trans htype
        trivial
  | _ =>
    cases htype
    trivial

end VerificationType

/-! ### Texts of a method -/

theorem length_le_of_descriptor? {text : String} {d : MethodDescriptor}
    (h : MethodScope.descriptor? text = .ok d) :
    2 ≤ text.length ∧ d.result.length ≤ text.length ∧
      ∀ parameter ∈ d.parameters, parameter.length ≤ text.length := by
  obtain ⟨t, -, rfl, rfl⟩ := MethodShape.descriptor?_eq_ok.1 h
  have hlength : t.text.length =
      (t.parameters.flatMap FieldType.chars).length + t.resultChars.length + 2 := by
    simp only [MethodType.text, MethodType.chars, String.length_ofList, List.length_cons,
      List.length_append]
    omega
  refine ⟨by omega, ?_, ?_⟩
  · simp only [MethodType.split, String.length_ofList]
    omega
  · intro parameter hparameter
    obtain ⟨p, hp, rfl⟩ := List.mem_map.1 hparameter
    have hle := ((List.singleton_sublist.2 hp).flatMap FieldType.chars).length_le
    rw [List.flatMap_singleton] at hle
    rw [FieldType.text, String.length_ofList]
    omega

namespace Flow

variable {flow : Flow} {descriptor : String}

theorem length_lt_arrayDepth {index : UInt16} {text : String}
    (h : flow.scope.pool.slot? index = some (.utf8 text)) :
    text.length < flow.arrayDepth descriptor := by
  have hmem := List.mem_of_getElem? (Pool.slot?_eq_some.1 h).2
  obtain ⟨before, after, hsplit⟩ := List.append_of_mem hmem
  have hle := length_le_utf8ByteSize text
  unfold arrayDepth
  rw [← Array.foldl_toList, hsplit, List.foldl_append, List.foldl_cons]
  refine Nat.lt_succ_of_le (Nat.le_trans (Nat.le_trans hle (Nat.le_max_right _ _))
    (le_foldl_of_le ?_ after _))
  intro depth c
  split
  · exact Nat.le_max_left _ _
  · exact Nat.le_refl _

theorem lengths_lt_arrayDepth (flow : Flow) (descriptor : String) :
    descriptor.length < flow.arrayDepth descriptor ∧
      flow.scope.className.length < flow.arrayDepth descriptor := by
  have hle := length_le_utf8ByteSize descriptor
  have hle' := length_le_utf8ByteSize flow.scope.className
  have hfirst : max descriptor.utf8ByteSize flow.scope.className.utf8ByteSize <
      flow.arrayDepth descriptor := by
    unfold arrayDepth
    rw [← Array.foldl_toList]
    refine Nat.lt_succ_of_le (le_foldl_of_le ?_ _ _)
    intro depth c
    split
    · exact Nat.le_max_left _ _
    · exact Nat.le_refl _
  omega

theorem length_lt_of_className? {index : UInt16} {name : String}
    (h : flow.scope.className? index = .ok name) : name.length < flow.arrayDepth descriptor := by
  obtain ⟨_, -, htext⟩ := Pool.className_eq_ok.1 (MethodScope.ok_of_lift h)
  exact length_lt_arrayDepth htext

theorem length_lt_of_nameAndType {index : UInt16} {name text : String}
    (h : flow.scope.pool.nameAndType index = .ok (name, text)) :
    text.length < flow.arrayDepth descriptor := by
  obtain ⟨_, _, -, -, htext⟩ := Pool.nameAndType_eq_ok.1 h
  exact length_lt_arrayDepth htext

theorem length_lt_of_member? {index : UInt16} {member : Pool.MemberName}
    (h : flow.scope.member? index = .ok member) :
    member.descriptor.length < flow.arrayDepth descriptor := by
  obtain ⟨_, _, _, -, -, -, hpair⟩ := Pool.member_eq_ok.1 (MethodScope.ok_of_lift h)
  exact length_lt_of_nameAndType hpair

theorem length_lt_of_callSite? {index : UInt16} {text : String}
    (h : flow.scope.callSite? index = .ok text) : text.length < flow.arrayDepth descriptor := by
  obtain ⟨c, -, h⟩ := bind_eq_ok.1 (MethodScope.ok_of_lift h)
  cases c with
  | invokeDynamic bootstrap pair =>
    obtain ⟨⟨name, text⟩, hpair, h⟩ := bind_eq_ok.1 h
    cases h
    exact length_lt_of_nameAndType hpair
  | _ => cases h

/-- Instructions bring no deeper arrays than the texts of the method allow. -/
theorem provides_nested (hdeep : 2 ≤ flow.arrayDepth descriptor) :
    flow.scope.Provides (VerificationType.Nested (flow.arrayDepth descriptor)) where
  simple _ h := VerificationType.nested_of_isSimple h
  array element type h := by
    unfold Instruction.arrayType? at h
    split at h
    all_goals
      cases h
      try exact .text (Nat.le_trans (by decide) hdeep)
  element _ _ h htype := VerificationType.nested_elementOf h htype
  constant index type h := by
    obtain ⟨c, -, h⟩ := bind_eq_ok.1 (MethodScope.ok_of_lift h)
    cases c with
    | dynamic bootstrap pair =>
      obtain ⟨⟨name, text⟩, hpair, h⟩ := bind_eq_ok.1 h
      exact VerificationType.nested_ofDescriptor (Nat.le_of_lt (length_lt_of_nameAndType hpair)) h
    | string _ | classInfo _ | methodType _ | methodHandle _ _ =>
      cases h
      exact .plain (by decide)
    | _ =>
      cases h
      try trivial
  className _ _ h := .text (Nat.le_of_lt (length_lt_of_className? h))
  arrayOf index name h := by
    have hlt : name.length < flow.arrayDepth descriptor := length_lt_of_className? h
    have hdepth : flow.arrayDepth descriptor = flow.arrayDepth descriptor - 1 + 1 := by omega
    rw [hdepth]
    exact .layer (.text (by omega))
  thisClass := .text (Nat.le_of_lt (lengths_lt_arrayDepth flow descriptor).2)
  field _ _ _ h htype :=
    VerificationType.nested_typeOf (Nat.le_of_lt (length_lt_of_member? h)) htype
  result _ member d _ h hd htype := by
    have hlt : member.descriptor.length < flow.arrayDepth descriptor := length_lt_of_member? h
    have hle := (length_le_of_descriptor? hd).2.1
    exact VerificationType.nested_typeOf (by omega) htype
  callSite _ text d _ h hd htype := by
    have hlt : text.length < flow.arrayDepth descriptor := length_lt_of_callSite? h
    have hle := (length_le_of_descriptor? hd).2.1
    exact VerificationType.nested_typeOf (by omega) htype

/-! ### Frames of a method -/

section Prepared

variable {load : Loader} {pool : Pool} {className : String} {m : MethodShape} {body : Code}
  {flow : Flow} {initial : Frame} (h : Prepared load pool className m body flow initial)
include h

theorem two_le_arrayDepth : 2 ≤ flow.arrayDepth m.descriptor := by
  obtain ⟨d, _, hd, -, -, -⟩ := MethodShape.initialFrame_eq_ok.1 h.initial
  have hle := (length_le_of_descriptor? hd).1
  have hlt := (lengths_lt_arrayDepth flow m.descriptor).1
  omega

theorem nested_initial : initial.All (VerificationType.Nested (flow.arrayDepth m.descriptor)) := by
  obtain ⟨hdescriptor, hclass⟩ := lengths_lt_arrayDepth flow m.descriptor
  refine all_of_initialFrame trivial h.initial ?_ ?_
  · intro type htype
    rcases MethodShape.mem_receiver htype with rfl | rfl
    · trivial
    · rw [h.scope] at hclass
      exact .text (Nat.le_of_lt hclass)
  · intro d hd parameter hparameter type htype
    have hle := (length_le_of_descriptor? hd).2.2 parameter hparameter
    exact VerificationType.nested_typeOf (by omega) htype

theorem keeps_nested (hload : load.Orderly) :
    flow.Keeps (Frame.All (VerificationType.Nested (flow.arrayDepth m.descriptor))) where
  transfer pc here f g hhere hf htransfer := by
    have hdecode := (Program.decode?_of_decode h.program pc here hhere).2
    exact MethodScope.all_transfer (provides_nested (two_le_arrayDepth h))
      (Instruction.made_decode? _ _ _ hdecode) (fun _ _ => trivial) hf htransfer
  caught range hrange f hf := by
    refine ⟨hf.locals, ?_⟩
    obtain ⟨handler, -, hcatch⟩ := exists_source_of_mapM h.ranges range hrange
    obtain ⟨-, name, hname, rfl⟩ := catchRange_eq_ok hcatch
    rw [List.forall_mem_singleton]
    rcases hname with rfl | hname
    · exact .plain (by decide)
    · exact .text (Nat.le_of_lt (length_lt_of_className? hname))
  merged pc f g merged hf hg hmerge := by
    refine Loader.all_mergeFrames ?_ hf hg hmerge
    intro a b c ha hb hc
    rw [h.load] at hc
    exact Loader.nested_mergeType hload ha hb hc

end Prepared

end Flow

end ClassArchive
