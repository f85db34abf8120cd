import ClassArchive.Proofs.DecodedClass
import ClassArchive.StackMap

/-!
Edits that are made again. An edit that only asks for texts and classes finds them all in the pool
that it has left, and in every longer one: there it gives the same answer and adds nothing.
-/
set_option autoImplicit false

namespace ClassArchive

namespace Pool.Edit

/-- Whether a run that succeeds adds shared constants only, and could be made again with the same
answer, and without adding anything, in every pool that has grown from the one it leaves. -/
def Repeats {α : Type} (e : Edit α) : Prop :=
  ∀ ⦃p q : Pool⦄ ⦃a : α⦄, e p = .ok a q → Stocked p q ∧ ∀ r, Grown q r → e r = .ok a r

theorem repeats_pure {α : Type} (a : α) : (pure a : Edit α).Repeats := by
  intro p q b h
  cases h
  exact ⟨.refl, fun _ _ => rfl⟩

theorem Repeats.bind {α β : Type} {x : Edit α} {f : α → Edit β} (hx : x.Repeats)
    (hf : ∀ a, (f a).Repeats) : (x >>= f).Repeats := by
  intro p q b h
  obtain ⟨a, mid, ha, hb⟩ := edit_bind_eq_ok.1 h
  obtain ⟨hmid, hagain⟩ := hx ha
  obtain ⟨hq, hagain'⟩ := hf a hb
  refine ⟨hmid.trans hq, fun r hr => ?_⟩
  exact edit_bind_eq_ok.2 ⟨a, r, hagain r (hq.grown.trans hr), hagain' r hr⟩

theorem repeats_mapM {α β : Type} {f : α → Edit β} (hf : ∀ x, (f x).Repeats) (xs : List α) :
    (xs.mapM f).Repeats := by
  induction xs with
  | nil => exact repeats_pure []
  | cons x xs ih =>
    rw [List.mapM_cons]
    exact (hf x).bind fun _ => ih.bind fun _ => repeats_pure _

/-! ### Names -/

theorem addText_of_recorded {s : String} {p : Pool} {i : UInt16}
    (h : p.recorded? (.utf8 s) = some i) : addText s p = .ok i p := by
  change reuse p.texts[s]? (.utf8 s) p = _
  rw [show p.texts[s]? = some i from h]
  rfl

theorem addClass_of_recorded {s : String} {p : Pool} {n i : UInt16}
    (hname : p.recorded? (.utf8 s) = some n) (h : p.recorded? (.classInfo n) = some i) :
    addClass s p = .ok i p := by
  refine edit_bind_eq_ok.2 ⟨n, p, addText_of_recorded hname, ?_⟩
  change reuse p.classes[n.toNat]? (.classInfo n) p = _
  rw [show p.classes[n.toNat]? = some i from h]
  rfl

theorem repeats_addText (s : String) : (addText s).Repeats := by
  intro p q i h
  have hcases := addText_eq_ok h
  have hrecorded := (Content.recorded?_of_reuse rfl hcases).2
  exact ⟨stocked_addText h, fun r hr => addText_of_recorded (recorded?_grown hr hrecorded)⟩

theorem repeats_addClass (s : String) : (addClass s).Repeats := by
  intro p q i h
  obtain ⟨n, mid, htext, hcases⟩ := addClass_eq_ok h
  have htexts := addText_eq_ok htext
  have hname := (Content.recorded?_of_reuse rfl htexts).2
  obtain ⟨hgrown, hclass⟩ := Content.recorded?_of_reuse rfl hcases
  refine ⟨stocked_addClass h, fun r hr => ?_⟩
  exact addClass_of_recorded (recorded?_grown (hgrown.trans hr) hname) (recorded?_grown hr hclass)

end Pool.Edit

/-! ### Tables of frames -/

open Pool.Edit

namespace VerificationType

theorem repeats_encode (type : VerificationType) : type.encode.Repeats := by
  cases type with
  | object name => exact (repeats_addClass name).bind fun _ => repeats_pure _
  | _ => exact repeats_pure _

theorem repeats_encodeAll (types : List VerificationType) : (encodeAll types).Repeats :=
  (repeats_mapM repeats_encode types).bind fun _ => repeats_pure _

end VerificationType

theorem StackMapFrame.repeats_encode (frame : StackMapFrame) : frame.encode.Repeats := by
  cases frame with
  | same delta | chop count delta => exact repeats_pure _
  | sameLocals1 delta item => exact item.repeats_encode.bind fun _ => repeats_pure _
  | append delta locals =>
    exact (VerificationType.repeats_encodeAll locals).bind fun _ => repeats_pure _
  | full delta locals stack =>
    exact (VerificationType.repeats_encodeAll locals).bind fun _ =>
      (VerificationType.repeats_encodeAll stack).bind fun _ => repeats_pure _

theorem StackMap.repeats_encode (frames : List StackMapFrame) : (encode frames).Repeats :=
  (repeats_mapM StackMapFrame.repeats_encode frames).bind fun _ => repeats_pure _

end ClassArchive
