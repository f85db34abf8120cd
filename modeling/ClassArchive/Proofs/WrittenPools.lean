import ClassArchive.Proofs.DecodedClass
import ClassArchive.Proofs.TextBytes

/-!
Pools that are built from nothing and written. What an addition appends keeps the slots in the order
that reading needs, and the count field never wraps; but the length of a text is not checked. So the
pool is read back exactly if every text fits its length field.
-/
set_option autoImplicit false

namespace ClassArchive

open Reader

namespace Pool

/-! ### Properties that additions keep -/

/-- Whether an edit keeps a property of the pool, also where it breaks off. -/
def Edit.Keeps {α : Type} (P : Pool → Prop) (e : Edit α) : Prop := ∀ p, P p → P (e.final p)

section

variable {P : Pool → Prop}

theorem keeps_pure {α : Type} (a : α) : (pure a : Edit α).Keeps P := fun _ h => h

theorem keeps_get : (get : Edit Pool).Keeps P := fun _ h => h

theorem keeps_bind {α β : Type} {x : Edit α} {f : α → Edit β} (hx : x.Keeps P)
    (hf : ∀ a, (f a).Keeps P) : (x >>= f).Keeps P := by
  intro p hp
  change P (Edit.final (EStateM.bind x f) p)
  have hmid := hx p hp
  unfold Edit.final EStateM.bind at *
  cases h : x p with
  | error e q => simpa [h] using hmid
  | ok a q =>
    have hq := hf a q
    simp only [h] at hmid ⊢
    exact hq hmid

-- what every `push` of a constant with bytes of its own keeps, all additions keep
variable (hpush : ∀ {c : Constant} {p q : Pool} {i : UInt16}, c.Own → P p → push c p = .ok i q →
  P q)
include hpush

theorem keeps_push {c : Constant} (hc : c.Own) : (push c).Keeps P := by
  intro p hp
  cases h : push c p with
  | ok i q =>
    rw [Edit.final_of_ok h]
    exact hpush hc hp h
  | error e q =>
    have hq : q = p := by
      unfold push at h
      split at h
      · cases h
        rfl
      · cases h
    simpa only [Edit.final, h, hq] using hp

theorem keeps_reuse (found : Option UInt16) {c : Constant} (hc : c.Own) :
    (reuse found c).Keeps P := by
  cases found with
  | none => exact keeps_push hpush hc
  | some i => exact keeps_pure i

theorem keeps_addText (s : String) : (addText s).Keeps P :=
  keeps_bind keeps_get fun _ => keeps_reuse hpush _ (Constant.own_of_isShared rfl)

theorem keeps_addClass (s : String) : (addClass s).Keeps P :=
  keeps_bind (keeps_addText hpush s) fun _ => keeps_bind keeps_get fun _ =>
    keeps_reuse hpush _ (Constant.own_of_isShared rfl)

theorem keeps_addNameAndType (s t : String) : (addNameAndType s t).Keeps P :=
  keeps_bind (keeps_addText hpush s) fun _ => keeps_bind (keeps_addText hpush t) fun _ =>
    keeps_bind keeps_get fun _ => keeps_reuse hpush _ (Constant.own_of_isShared rfl)

theorem keeps_addition (a : Addition) : a.edit.Keeps P := by
  cases a with
  | content c =>
    cases c with
    | text s => exact keeps_addText hpush s
    | classInfo name => exact keeps_addClass hpush name
    | pair name descriptor => exact keeps_addNameAndType hpush name descriptor
  | member kind owner name descriptor =>
    rw [Addition.edit, kind.add_eq]
    refine keeps_bind (keeps_addClass hpush owner) fun _ =>
      keeps_bind (keeps_addNameAndType hpush name descriptor) fun _ => keeps_push hpush ?_
    cases kind <;> simp [ReferenceKind.constant, Constant.Own]
  | methodType descriptor =>
    exact keeps_bind (keeps_addText hpush _) fun _ => keeps_push hpush (by simp [Constant.Own])
  | callSite bootstrap name descriptor =>
    exact keeps_bind (keeps_addNameAndType hpush _ _) fun _ =>
      keeps_push hpush (by simp [Constant.Own])
  | string s =>
    exact keeps_bind (keeps_addText hpush _) fun _ => keeps_push hpush (by simp [Constant.Own])
  | methodHandle kind reference | integer value | long value =>
    exact keeps_push hpush (by simp [Constant.Own])

theorem keeps_after (additions : List Addition) {p : Pool} (hp : P p) :
    P (after (additions.map .add) p) := by
  induction additions generalizing p with
  | nil => exact hp
  | cons a additions ih => exact ih (keeps_addition hpush a p hp)

end

/-! ### Pools built by additions -/

structure Built (p : Pool) : Prop where
  small : p.slots.size ≤ capacity
  regular : p.Regular
  tabled : p.Tabled

theorem built_empty : Built {} where
  small := by simp
  regular := ⟨by simpa using paired_nil, by simp⟩
  tabled := rfl

theorem length_filling (c : Constant) : (filling c).length = c.width := by
  unfold filling Constant.width
  split <;> rfl

theorem Built.push {c : Constant} {p q : Pool} {i : UInt16} (hc : c.Own) (hp : p.Built)
    (h : push c p = .ok i q) : q.Built where
  small := by
    have hsize := congrArg List.length (slots_push h)
    simp only [Array.length_toList, List.length_append, length_filling] at hsize
    rw [hsize]
    exact (push_eq_ok h).1
  regular := hp.regular.push hc h
  tabled := hp.tabled.push h

theorem built_after (additions : List Addition) : Built (after (additions.map .add) {}) :=
  keeps_after Built.push additions built_empty

theorem Built.toNat_count {p : Pool} (h : p.Built) : p.count.toNat = p.slots.size + 1 := by
  have hsmall := h.small
  simp only [capacity] at hsmall
  exact toNat_index (by omega)

theorem Built.slot?_behind {p : Pool} (h : p.Built) {i : UInt16} {c : Constant}
    (hi : p.slot? i = some c) (hwide : c.isWide = true) : p.slot? (i + 1) = some .unusable := by
  obtain ⟨hpos, hget⟩ := slot?_eq_some.1 hi
  have hbehind := (h.regular.paired i.toNat).2 ⟨hpos, by simpa [hget] using hwide⟩
  have hlt := (List.getElem?_eq_some_iff.1 hbehind).1
  have hsmall := h.small
  have hnext : (i + 1).toNat = i.toNat + 1 := by
    simp only [Array.length_toList, capacity] at hlt hsmall
    rw [UInt16.toNat_add]
    simp
    omega
  exact slot?_eq_some.2 ⟨by omega, by rw [hnext]; exact hbehind⟩

end Pool

/-! ### Texts that are too long -/

namespace Constant

/-- The reader takes as many bytes as the length field announces: the length modulo its width. -/
theorem read_encodeText (index : UInt16) (offset : Nat) (data tail : Bytes) :
    ∃ rest, read index ⟨offset, encodeText data ++ tail⟩ =
      .ok (ofText (data.take (data.length % 65536)), rest) := by
  have hlength : data.length.toUInt16.toNat = (data.take (data.length % 65536)).length := by
    rw [Nat.toUInt16_eq, UInt16.toNat_ofNat', List.length_take]
    have := Nat.mod_le data.length 65536
    omega
  have hsplit : encodeText data ++ tail =
      ([1] ++ (be16 data.length.toUInt16 ++ data.take (data.length % 65536))) ++
        (data.drop (data.length % 65536) ++ tail) := by
    simp only [encodeText, count16, List.append_assoc, List.cons_append, List.nil_append]
    rw [← List.append_assoc (data.take _), List.take_append_drop]
  have hread : (read index).Restores
      ([1] ++ (be16 data.length.toUInt16 ++ data.take (data.length % 65536)))
      (ofText (data.take (data.length % 65536))) := by
    refine (restores_u8 1).bind ((restores_u16 _).bind ?_)
    rw [hlength]
    exact (restores_bytes _).map ofText
  rw [hsplit, hread]
  exact ⟨_, rfl⟩

theorem ne_of_read_long {text : String} {index : UInt16} {offset : Nat} {tail : Bytes}
    {c : Constant} {rest : Cursor} (hlong : ¬ (Constant.utf8 text).Fits)
    (h : read index ⟨offset, (Constant.utf8 text).encode ++ tail⟩ = .ok (c, rest)) :
    c ≠ .utf8 text := by
  obtain ⟨rest', hread⟩ := read_encodeText index offset (ModifiedUtf8.encode text) tail
  rw [encode, hread] at h
  cases h
  intro heq
  unfold ofText at heq
  split at heq
  · next found hfound =>
    cases heq
    refine ModifiedUtf8.decode_ne_of_append (List.take_append_drop _ _).symm ?_ hfound
    simp only [Fits, Nat.not_lt] at hlong
    have := Nat.mod_lt (ModifiedUtf8.encode text).length (show 65536 > 0 by decide)
    rw [ne_eq, List.drop_eq_nil_iff]
    omega
  · cases heq

end Constant

namespace Pool

theorem isPrefix_readSlots (n : Nat) (skip : Bool) (index : Nat) (slots : Array Constant)
    {cursor rest : Cursor} {out : Array Constant}
    (h : readSlots n skip index slots cursor = .ok (out, rest)) : slots.toList <+: out.toList := by
  induction n generalizing skip index slots cursor with
  | zero =>
    cases h
    exact List.prefix_refl _
  | succ n ih =>
    cases skip with
    | true => exact ih false (index + 1) slots h
    | false =>
      obtain ⟨c, mid, _, h⟩ := state_bind_eq_ok.1 h
      have hrest := ih c.isWide (index + 1) _ h
      rw [appendList_eq] at hrest
      exact (List.prefix_append _ _).trans hrest

theorem readSlots_cons_eq_ok {c : Constant} {constants : List Constant} {index : Nat}
    {slots : Array Constant} {cursor rest : Cursor}
    (h : readSlots ((c :: constants).flatMap filling).length false index slots cursor =
      .ok ((slots.toList ++ (c :: constants).flatMap filling).toArray, rest)) :
    ∃ next mid, Constant.read index.toUInt16 cursor = .ok (c, mid) ∧
      readSlots (constants.flatMap filling).length false next (slots.appendList (filling c)) mid =
        .ok (((slots.appendList (filling c)).toList ++ constants.flatMap filling).toArray,
          rest) := by
  have hlength : ((c :: constants).flatMap filling).length =
      (constants.flatMap filling).length + (if c.isWide then 1 else 0) + 1 := by
    rw [List.flatMap_cons, List.length_append, length_filling, Constant.width]
    split <;> omega
  rw [hlength, readSlots] at h
  obtain ⟨d, mid, hread, h⟩ := state_bind_eq_ok.1 h
  -- what has been read stays in front
  obtain ⟨more, hmore⟩ := isPrefix_readSlots _ _ _ _ h
  obtain rfl : d = c := by
    rw [appendList_eq, List.flatMap_cons, List.append_assoc] at hmore
    have hfront := List.append_cancel_left hmore
    unfold filling at hfront
    split at hfront <;> split at hfront <;> simp_all
  have hout : slots.toList ++ (d :: constants).flatMap filling =
      (slots.appendList (filling d)).toList ++ constants.flatMap filling := by
    rw [appendList_eq, List.flatMap_cons, List.append_assoc]
  rw [hout] at h
  cases hwide : d.isWide with
  | false =>
    rw [hwide] at h
    exact ⟨index + 1, mid, hread, h⟩
  | true =>
    rw [hwide, if_pos rfl, readSlots] at h
    exact ⟨index + 1 + 1, mid, hread, h⟩

/-- Where the slots come back, every constant fitted its bytes: one that does not is read as another
one. -/
theorem fits_of_readSlots {constants : List Constant} (hown : ∀ c ∈ constants, c.Own)
    {offset index : Nat} {slots : Array Constant} {tail : Bytes} {rest : Cursor}
    (h : readSlots (constants.flatMap filling).length false index slots
      ⟨offset, constants.flatMap Constant.encode ++ tail⟩ =
        .ok ((slots.toList ++ constants.flatMap filling).toArray, rest)) :
    ∀ c ∈ constants, c.Fits := by
  induction constants generalizing offset index slots with
  | nil => simp
  | cons c constants ih =>
    obtain ⟨hc, hrest⟩ := List.forall_mem_cons.1 hown
    obtain ⟨next, mid, hread, h⟩ := readSlots_cons_eq_ok h
    rw [List.flatMap_cons, List.append_assoc] at hread
    have hfits : c.Fits := by
      cases c with
      | utf8 text =>
        by_contra hlong
        exact Constant.ne_of_read_long hlong hread rfl
      | rawUtf8 data => exact hc.2 data rfl
      | _ => trivial
    rw [Constant.restores_read index.toUInt16 hfits hc.1] at hread
    cases hread
    exact List.forall_mem_cons.2 ⟨hfits, ih hrest h⟩

theorem own_of_regular {p : Pool} (h : p.Regular) {constants : List Constant}
    (hnot : .unusable ∉ constants) (hslots : p.slots.toList = constants.flatMap filling) :
    ∀ c ∈ constants, c.Own := by
  intro c hc
  refine ⟨fun heq => hnot (heq ▸ hc), ?_⟩
  rintro data rfl
  refine h.raw data ?_
  rw [hslots]
  exact List.mem_flatMap.2 ⟨_, hc, by simp [filling, Constant.isWide]⟩

theorem Built.fits_of_read {p q : Pool} (h : p.Built) {rest : Cursor}
    (hread : read (ofBytes p.encode) = .ok (q, rest)) (hslots : q.slots = p.slots) :
    ∀ c ∈ p.slots.toList, c.Fits := by
  obtain ⟨constants, hnot, hfilled⟩ := exists_constants_of_paired h.regular.paired
  have hown := own_of_regular h.regular hnot hfilled
  obtain ⟨count, mid, hcount, hread⟩ := state_bind_eq_ok.1 hread
  obtain ⟨slots, last, hlast, hread⟩ := state_bind_eq_ok.1 hread
  cases hread
  rw [slots_ofSlots] at hslots
  subst hslots
  -- the count is the one that was written
  have hwritten := restores_u16 p.count 0 (p.slots.toList.flatMap Constant.encode)
  rw [ofBytes, encode, hwritten] at hcount
  cases hcount
  rw [h.toNat_count, Nat.add_sub_cancel, ← Array.length_toList, hfilled, flatMap_encode_filling,
    ← List.append_nil (constants.flatMap Constant.encode)] at hlast
  have hout : p.slots = ((#[] : Array Constant).toList ++ constants.flatMap filling).toArray := by
    simp [← hfilled]
  rw [hout] at hlast
  have hfits := fits_of_readSlots hown hlast
  intro c hc
  rw [hfilled] at hc
  obtain ⟨d, hd, hc⟩ := List.mem_flatMap.1 hc
  rcases mem_filling hc with rfl | rfl
  · exact hfits c hd
  · trivial

/-- From the empty pool, after any additions: the count field is not wrapped, the slots behind the
wide constants, and only they, are unusable, and the bytes are read back to their end as the same
constants in the same slots exactly if no text is longer than its length field can say. -/
theorem read_encode_iff_short (additions : List Addition) :
    let p := after (additions.map .add) {}
    p.count.toNat = p.slots.size + 1 ∧
    (∀ i v, p.slot? i = some (.long v) → p.slot? (i + 1) = some .unusable) ∧
    Paired p.slots.toList ∧
    ((∃ q rest, read (ofBytes p.encode) = .ok (q, rest) ∧ rest.rest = [] ∧ q.slots = p.slots) ↔
      ∀ text, .utf8 text ∈ p.slots.toList → (ModifiedUtf8.encode text).length ≤ 65535) := by
  intro p
  have hbuilt : p.Built := built_after additions
  refine ⟨hbuilt.toNat_count, fun i v hi => hbuilt.slot?_behind hi rfl, hbuilt.regular.paired, ?_⟩
  constructor
  · rintro ⟨q, rest, hread, -, hslots⟩ text htext
    exact Nat.le_of_lt_succ (hbuilt.fits_of_read hread hslots _ htext)
  · intro hshort
    have hwell := hbuilt.regular.wellFormed hbuilt.small
      fun text htext => Nat.lt_succ_of_le (hshort text htext)
    have hread := restores_read hwell 0 []
    rw [List.append_nil] at hread
    exact ⟨_, _, hread, rfl, slots_ofSlots p.slots⟩

theorem length_encode_replicate (n : Nat) :
    (ModifiedUtf8.encode (String.ofList (List.replicate n 'a'))).length = n := by
  induction n with
  | zero => rfl
  | succ n ih =>
    simp only [ModifiedUtf8.encode, String.toList_ofList] at ih ⊢
    rw [List.replicate_succ, List.flatMap_cons, List.flatMap_append, List.length_append, ih,
      Nat.add_comm]
    rfl

/-- A text of 65536 bytes is accepted, but the pool that holds it is not read back. -/
theorem not_read_back_of_long_text : ∃ text i p,
    (Addition.content (.text text)).edit {} = .ok i p ∧ p.slots = #[.utf8 text] ∧
      ¬ ∃ q rest, read (ofBytes p.encode) = .ok (q, rest) ∧ rest.rest = [] ∧ q.slots = p.slots := by
  obtain ⟨text, hlength⟩ : ∃ text, (ModifiedUtf8.encode text).length = 65536 :=
    ⟨_, length_encode_replicate 65536⟩
  obtain ⟨i, p, hadd, hslots⟩ : ∃ i p, (Addition.content (.text text)).edit {} = .ok i p ∧
      p.slots = #[.utf8 text] := ⟨_, _, rfl, rfl⟩
  have hbuilt : p.Built := by
    have hafter := built_after [.content (.text text)]
    rwa [List.map_singleton, after, after, Op.apply, Edit.final_of_ok hadd] at hafter
  refine ⟨text, i, p, hadd, hslots, ?_⟩
  rintro ⟨q, rest, hread, -, hsame⟩
  have hfits := hbuilt.fits_of_read hread hsame (.utf8 text) (by simp [hslots])
  simp only [Constant.Fits, hlength] at hfits
  omega

end Pool

end ClassArchive
