import ClassArchive.Proofs.Outcome
import Mathlib.Data.List.Forall2

/-!
Readers and writers of the same values. Both directions are stated with arbitrary bytes behind the
value, so that they compose along a record and through counted lists.
-/
set_option autoImplicit false

namespace ClassArchive

theorem toNat_toUInt16 {n : Nat} (h : n < 65536) : n.toUInt16.toNat = n := by
  rw [Nat.toUInt16_eq, UInt16.toNat_ofNat']
  omega

theorem toNat_word16 (a b : UInt8) : (word16 a b).toNat = a.toNat * 256 + b.toNat := by
  have ha := a.toNat_lt
  have hb := b.toNat_lt
  simp only [word16, UInt16.toNat_or, UInt16.toNat_shiftLeft, UInt8.toNat_toUInt16,
    UInt16.reduceToNat, Nat.reduceMod]
  rw [Nat.mod_eq_of_lt (by simp only [Nat.shiftLeft_eq]; omega),
    ← Nat.shiftLeft_add_eq_or_of_lt (by omega)]
  simp only [Nat.shiftLeft_eq]

theorem be16_word16 (a b : UInt8) : be16 (word16 a b) = [a, b] := by
  have ha := a.toNat_lt
  have hb := b.toNat_lt
  have hw := toNat_word16 a b
  simp only [be16, List.cons.injEq, and_true]
  constructor
  · apply UInt8.toNat_inj.1
    simp only [UInt16.toNat_toUInt8, UInt16.toNat_shiftRight, UInt16.reduceToNat, Nat.reduceMod,
      Nat.shiftRight_eq_div_pow]
    omega
  · apply UInt8.toNat_inj.1
    simp only [UInt16.toNat_toUInt8]
    omega

theorem toNat_word32 (a b c d : UInt8) : (word32 a b c d).toNat =
    a.toNat * 16777216 + b.toNat * 65536 + c.toNat * 256 + d.toNat := by
  simp only [word32, UInt32.toNat_or, UInt32.toNat_shiftLeft, UInt8.toNat_toUInt32,
    UInt32.reduceToNat, Nat.reduceMod, Nat.reducePow]
  exact or_shifted_bytes a.toNat_lt b.toNat_lt c.toNat_lt d.toNat_lt

theorem be32_word32 (a b c d : UInt8) : be32 (word32 a b c d) = [a, b, c, d] := by
  have ha := a.toNat_lt
  have hb := b.toNat_lt
  have hc := c.toNat_lt
  have hd := d.toNat_lt
  have hw := toNat_word32 a b c d
  simp only [be32, List.cons.injEq, and_true]
  refine ⟨?_, ?_, ?_, ?_⟩
  all_goals
    apply UInt8.toNat_inj.1
    simp only [UInt32.toNat_toUInt8, UInt32.toNat_shiftRight, UInt32.reduceToNat, Nat.reduceMod,
      Nat.shiftRight_eq_div_pow]
    omega

theorem toNat_word64 (high low : UInt32) :
    (word64 high low).toNat = high.toNat * 4294967296 + low.toNat := by
  have hhigh := high.toNat_lt
  have hlow := low.toNat_lt
  simp only [word64, UInt64.toNat_or, UInt64.toNat_shiftLeft, UInt32.toNat_toUInt64,
    UInt64.reduceToNat, Nat.reduceMod]
  rw [Nat.mod_eq_of_lt (by simp only [Nat.shiftLeft_eq]; omega),
    ← Nat.shiftLeft_add_eq_or_of_lt (by omega)]
  simp only [Nat.shiftLeft_eq]

theorem word64_be64 (w : UInt64) : word64 (w >>> 32).toUInt32 w.toUInt32 = w := by
  have hw := w.toNat_lt
  apply UInt64.toNat_inj.1
  simp only [toNat_word64, UInt64.toNat_toUInt32, UInt64.toNat_shiftRight, UInt64.reduceToNat,
    Nat.reduceMod, Nat.shiftRight_eq_div_pow]
  omega

theorem be64_word64 (high low : UInt32) : be64 (word64 high low) = be32 high ++ be32 low := by
  have hhigh := high.toNat_lt
  have hlow := low.toNat_lt
  have hw := toNat_word64 high low
  have hfront : (word64 high low >>> 32).toUInt32 = high := by
    apply UInt32.toNat_inj.1
    simp only [UInt64.toNat_toUInt32, UInt64.toNat_shiftRight, UInt64.reduceToNat, Nat.reduceMod,
      Nat.shiftRight_eq_div_pow]
    omega
  have hback : (word64 high low).toUInt32 = low := by
    apply UInt32.toNat_inj.1
    simp only [UInt64.toNat_toUInt32]
    omega
  rw [be64, hfront, hback]

namespace Reader

/-- What is read was written from a value that fits, and every value that fits is read back,
whatever stands behind it. -/
structure Codes {α : Type} (reader : Reader α) (write : α → Bytes) (fits : α → Prop) : Prop where
  sound : ∀ {cursor rest : Cursor} {a : α}, reader cursor = .ok (a, rest) →
    cursor.rest = write a ++ rest.rest ∧ fits a
  complete : ∀ {a : α} (offset : Nat) (tail : Bytes), fits a →
    reader ⟨offset, write a ++ tail⟩ = .ok (a, ⟨offset + (write a).length, tail⟩)

theorem bind_of_ok {α β : Type} {x : Reader α} {f : α → Reader β} {cursor mid : Cursor} {a : α}
    (h : x cursor = .ok (a, mid)) : (x >>= f) cursor = f a mid := by
  change (x cursor >>= fun p => f p.1 p.2) = _
  rw [h]
  rfl

/-! ### Words and bytes -/

theorem codes_u8 : u8.Codes (fun b => [b]) fun _ => True where
  sound {cursor rest a} h := by
    unfold u8 at h
    split at h
    · next b tail hb =>
      cases h
      exact ⟨hb, trivial⟩
    · contradiction
  complete _ _ _ := rfl

theorem codes_u16 : u16.Codes be16 fun _ => True where
  sound {cursor rest a} h := by
    unfold u16 at h
    split at h
    · next b c tail hb =>
      cases h
      exact ⟨by rw [be16_word16]; exact hb, trivial⟩
    · contradiction
  complete offset tail _ := u16_be16_append _ offset tail

theorem codes_u32 : u32.Codes be32 fun _ => True where
  sound {cursor rest a} h := by
    unfold u32 at h
    split at h
    · next b c d e tail hb =>
      cases h
      exact ⟨by rw [be32_word32]; exact hb, trivial⟩
    · contradiction
  complete offset tail _ := u32_be32_append _ offset tail

theorem codes_u64 : u64.Codes be64 fun _ => True where
  sound {cursor rest a} h := by
    obtain ⟨high, mid, hhigh, h⟩ := state_bind_eq_ok.1 h
    obtain ⟨low, last, hlow, h⟩ := state_bind_eq_ok.1 h
    cases h
    rw [be64_word64, (codes_u32.sound hhigh).1, (codes_u32.sound hlow).1]
    simp
  complete {w} offset tail _ := by
    unfold u64
    rw [be64, List.append_assoc, bind_of_ok (u32_be32_append _ _ _),
      bind_of_ok (u32_be32_append _ _ _), word64_be64]
    rfl

theorem codes_bytes (n : Nat) : (bytes n).Codes (fun data => data) fun data => data.length = n where
  sound {cursor rest a} h := by
    unfold bytes at h
    simp only at h
    split at h
    · next hl =>
      cases h
      exact ⟨(List.take_append_drop n cursor.rest).symm, hl⟩
    · contradiction
  complete {a} offset tail h := by
    subst h
    exact bytes_append a tail offset

theorem eq_toNat_iff {n : Nat} {w : UInt32} : n = w.toNat ↔ n < 4294967296 ∧ n.toUInt32 = w := by
  have hw := w.toNat_lt
  rw [← UInt32.toNat_inj, Nat.toUInt32_eq, UInt32.toNat_ofNat']
  omega

/-! ### Records -/

theorem codes_pure {α : Type} (a : α) : (pure a : Reader α).Codes (fun _ => []) (· = a) where
  sound h := by
    cases h
    exact ⟨rfl, rfl⟩
  complete _ _ h := by
    subst h
    rfl

theorem Codes.congr {α : Type} {reader : Reader α} {write write' : α → Bytes}
    {fits fits' : α → Prop} (h : reader.Codes write fits) (hfits : ∀ a, fits a ↔ fits' a)
    (hwrite : ∀ a, write a = write' a) : reader.Codes write' fits' := by
  obtain rfl : write = write' := funext hwrite
  obtain rfl : fits = fits' := funext fun a => propext (hfits a)
  exact h

/-- A value of which one part is read first; the reader of the whole knows that part and gives
it back. -/
theorem Codes.bind {α β : Type} {x : Reader α} {f : α → Reader β} {front : α → Bytes}
    {back : β → Bytes} {fits : α → Prop} {fitsBack : α → β → Prop} (part : β → α)
    (hx : x.Codes front fits) (hf : ∀ a, (f a).Codes back (fitsBack a))
    (hpart : ∀ a b, fitsBack a b → part b = a) :
    (x >>= f).Codes (fun b => front (part b) ++ back b)
      fun b => fits (part b) ∧ fitsBack (part b) b where
  sound {cursor rest b} h := by
    obtain ⟨a, mid, ha, hb⟩ := state_bind_eq_ok.1 h
    obtain ⟨hfront, hfit⟩ := hx.sound ha
    obtain ⟨hback, hfitBack⟩ := (hf a).sound hb
    obtain rfl := hpart a b hfitBack
    exact ⟨by rw [hfront, hback, List.append_assoc], hfit, hfitBack⟩
  complete {b} offset tail h := by
    have ha := hx.complete offset (back b ++ tail) h.1
    have hb := (hf (part b)).complete (offset + (front (part b)).length) tail h.2
    rw [List.append_assoc, bind_of_ok ha, hb, List.length_append, Nat.add_assoc]

theorem Codes.sound_map {α β : Type} {x : Reader α} {write : α → Bytes} {fits : α → Prop}
    (hx : x.Codes write fits) {f : α → β} {cursor rest : Cursor} {b : β}
    (h : (f <$> x) cursor = .ok (b, rest)) :
    ∃ a, b = f a ∧ cursor.rest = write a ++ rest.rest := by
  obtain ⟨a, _, ha, h⟩ := state_map_eq_ok.1 h
  cases h
  exact ⟨a, rfl, (hx.sound ha).1⟩

theorem Codes.sound_seq {α β γ : Type} {x : Reader α} {y : Reader β} {front : α → Bytes}
    {back : β → Bytes} {fits : α → Prop} {fits' : β → Prop} (hx : x.Codes front fits)
    (hy : y.Codes back fits') {f : α → β → γ} {cursor rest : Cursor} {c : γ}
    (h : (f <$> x <*> y) cursor = .ok (c, rest)) :
    ∃ a b, c = f a b ∧ cursor.rest = front a ++ back b ++ rest.rest := by
  obtain ⟨g, mid, hg, h⟩ := state_bind_eq_ok.1 h
  obtain ⟨a, rfl, hfront⟩ := hx.sound_map hg
  obtain ⟨b, rfl, hback⟩ := hy.sound_map h
  exact ⟨a, b, rfl, by rw [hfront, hback, List.append_assoc]⟩

/-! ### Lists -/

theorem manyOnto_sound {α : Type} {item : Reader α} {write : α → Bytes} {fits : α → Prop}
    (hi : item.Codes write fits) (n : Nat) (seen : List α) {cursor rest : Cursor} {xs : List α}
    (h : manyOnto item n seen cursor = .ok (xs, rest)) :
    ∃ ys, xs = seen.reverse ++ ys ∧ cursor.rest = ys.flatMap write ++ rest.rest ∧
      ys.length = n ∧ ∀ y ∈ ys, fits y := by
  induction n generalizing seen cursor with
  | zero =>
    cases h
    exact ⟨[], by simp, by simp, rfl, by simp⟩
  | succ n ih =>
    obtain ⟨a, mid, ha, h⟩ := state_bind_eq_ok.1 h
    obtain ⟨hdata, hfit⟩ := hi.sound ha
    obtain ⟨ys, hxs, hmid, hlen, hall⟩ := ih (a :: seen) h
    refine ⟨a :: ys, by simp [hxs], by simp [hdata, hmid], by simp [hlen], ?_⟩
    intro y hy
    rcases List.mem_cons.1 hy with rfl | hy
    · exact hfit
    · exact hall y hy

theorem manyOnto_complete {α : Type} {item : Reader α} {write : α → Bytes} {fits : α → Prop}
    (hi : item.Codes write fits) (ys seen : List α) (hall : ∀ y ∈ ys, fits y) (offset : Nat)
    (tail : Bytes) :
    manyOnto item ys.length seen ⟨offset, ys.flatMap write ++ tail⟩ =
      .ok (seen.reverse ++ ys, ⟨offset + (ys.flatMap write).length, tail⟩) := by
  induction ys generalizing seen offset with
  | nil =>
    rw [List.append_nil]
    rfl
  | cons y ys ih =>
    have hy := hi.complete offset (ys.flatMap write ++ tail) (hall y (by simp))
    have hrest := ih (y :: seen) (fun z hz => hall z (by simp [hz])) (offset + (write y).length)
    simp only [List.flatMap_cons, List.append_assoc, List.length_cons, manyOnto]
    rw [bind_of_ok hy, hrest]
    simp [Nat.add_assoc]

theorem Codes.many {α : Type} {item : Reader α} {write : α → Bytes} {fits : α → Prop}
    (hi : item.Codes write fits) (n : Nat) :
    (many item n).Codes (·.flatMap write) fun xs => xs.length = n ∧ ∀ x ∈ xs, fits x where
  sound {cursor rest xs} h := by
    obtain ⟨ys, hxs, hdata, hlen, hall⟩ := manyOnto_sound hi n [] h
    obtain rfl : xs = ys := by simpa using hxs
    exact ⟨hdata, hlen, hall⟩
  complete {xs} offset tail h := by
    obtain ⟨rfl, hall⟩ := h
    exact manyOnto_complete hi xs [] hall offset tail

theorem Codes.list16 {α : Type} {item : Reader α} {write : α → Bytes} {fits : α → Prop}
    (hi : item.Codes write fits) :
    (list16 item).Codes (encode16 write) fun xs => xs.length < 65536 ∧ ∀ x ∈ xs, fits x where
  sound {cursor rest xs} h := by
    obtain ⟨n, mid, hn, h⟩ := state_bind_eq_ok.1 h
    obtain ⟨hdata, _⟩ := codes_u16.sound hn
    obtain ⟨hmid, hlen, hall⟩ := (hi.many n.toNat).sound h
    have hcount : count16 xs.length = be16 n := by simp [count16, hlen]
    exact ⟨by simp [encode16, hcount, hdata, hmid], by rw [hlen]; exact n.toNat_lt, hall⟩
  complete {xs} offset tail h := by
    obtain ⟨hlen, hall⟩ := h
    have hcount : xs.length.toUInt16.toNat = xs.length := by
      rw [Nat.toUInt16_eq, UInt16.toNat_ofNat']
      omega
    have hn := u16_be16_append xs.length.toUInt16 offset (xs.flatMap write ++ tail)
    have hxs := (hi.many xs.length).complete (offset + 2) tail ⟨rfl, hall⟩
    have hend : offset + 2 + (xs.flatMap write).length =
        offset + (be16 xs.length.toUInt16 ++ xs.flatMap write).length := by
      simp only [be16, List.length_append, List.length_cons, List.length_nil]
      omega
    simp only [encode16, count16, List.append_assoc, Reader.list16]
    rw [bind_of_ok hn, hcount, hxs, hend]

theorem Codes.list8 {α : Type} {item : Reader α} {write : α → Bytes} {fits : α → Prop}
    (hi : item.Codes write fits) :
    (list8 item).Codes (encode8 write) fun xs => xs.length < 256 ∧ ∀ x ∈ xs, fits x where
  sound {cursor rest xs} h := by
    obtain ⟨n, mid, hn, h⟩ := state_bind_eq_ok.1 h
    obtain ⟨hdata, _⟩ := codes_u8.sound hn
    obtain ⟨hmid, hlen, hall⟩ := (hi.many n.toNat).sound h
    have hcount : xs.length.toUInt8 = n := by simp [hlen]
    exact ⟨by simp [encode8, hcount, hdata, hmid], by rw [hlen]; exact n.toNat_lt, hall⟩
  complete {xs} offset tail h := by
    obtain ⟨hlen, hall⟩ := h
    have hcount : xs.length.toUInt8.toNat = xs.length := by
      rw [Nat.toUInt8_eq, UInt8.toNat_ofNat']
      omega
    have hn := u8_cons xs.length.toUInt8 offset (xs.flatMap write ++ tail)
    have hxs := (hi.many xs.length).complete (offset + 1) tail ⟨rfl, hall⟩
    have hend : offset + 1 + (xs.flatMap write).length =
        offset + (xs.length.toUInt8 :: xs.flatMap write).length := by
      simp only [List.length_cons]
      omega
    simp only [encode8, List.cons_append, Reader.list8]
    rw [bind_of_ok hn, hcount, hxs, hend]

/-! ### Reading back -/

/-- The bytes are read as the value, whatever stands behind them. -/
def Restores {α : Type} (reader : Reader α) (data : Bytes) (a : α) : Prop :=
  ∀ (offset : Nat) (tail : Bytes),
    reader ⟨offset, data ++ tail⟩ = .ok (a, ⟨offset + data.length, tail⟩)

theorem Codes.restores {α : Type} {reader : Reader α} {write : α → Bytes} {fits : α → Prop}
    (h : reader.Codes write fits) {a : α} (ha : fits a) : reader.Restores (write a) a :=
  fun offset tail => h.complete offset tail ha

theorem restores_pure {α : Type} (a : α) : (pure a : Reader α).Restores [] a :=
  fun _ _ => rfl

theorem Restores.bind {α β : Type} {x : Reader α} {f : α → Reader β} {data more : Bytes} {a : α}
    {b : β} (hx : x.Restores data a) (hf : (f a).Restores more b) :
    (x >>= f).Restores (data ++ more) b := by
  intro offset tail
  have hmore := hf (offset + data.length) tail
  rw [List.append_assoc, bind_of_ok (hx offset (more ++ tail)), hmore, List.length_append,
    Nat.add_assoc]

theorem Restores.bind_pure {α β : Type} {x : Reader α} {f : α → Reader β} {data : Bytes} {a : α}
    {b : β} (hx : x.Restores data a) (hf : f a = pure b) : (x >>= f).Restores data b := by
  rw [← List.append_nil data]
  exact hx.bind (hf ▸ restores_pure b)

theorem Restores.map {α β : Type} {x : Reader α} {data : Bytes} {a : α} (hx : x.Restores data a)
    (f : α → β) : (f <$> x).Restores data (f a) := by
  intro offset tail
  exact state_map_eq_ok.2 ⟨a, _, hx offset tail, rfl⟩

theorem Restores.seq {α β : Type} {x : Reader (α → β)} {y : Reader α} {data more : Bytes}
    {f : α → β} {a : α} (hx : x.Restores data f) (hy : y.Restores more a) :
    (x <*> y).Restores (data ++ more) (f a) :=
  hx.bind (hy.map f)

theorem restores_u8 (b : UInt8) : u8.Restores [b] b := codes_u8.restores trivial

theorem restores_u16 (w : UInt16) : u16.Restores (be16 w) w := codes_u16.restores trivial

theorem restores_u32 (w : UInt32) : u32.Restores (be32 w) w := codes_u32.restores trivial

theorem restores_u64 (w : UInt64) : u64.Restores (be64 w) w := codes_u64.restores trivial

theorem restores_bytes (data : Bytes) : (bytes data.length).Restores data data :=
  (codes_bytes data.length).restores rfl

theorem restores_manyOnto {α : Type} {item : Reader α} {datas : List Bytes} {xs : List α}
    (h : List.Forall₂ item.Restores datas xs) (seen : List α) :
    (manyOnto item xs.length seen).Restores datas.flatten (seen.reverse ++ xs) := by
  induction h generalizing seen with
  | nil =>
    rw [List.append_nil]
    exact restores_pure seen.reverse
  | @cons data x datas xs hx _ ih =>
    have hrest := ih (x :: seen)
    rw [List.reverse_cons, List.append_assoc, List.singleton_append] at hrest
    exact hx.bind hrest

theorem restores_many {α : Type} {item : Reader α} {datas : List Bytes} {xs : List α}
    (h : List.Forall₂ item.Restores datas xs) :
    (many item xs.length).Restores datas.flatten xs :=
  restores_manyOnto h []

theorem restores_list16 {α : Type} {item : Reader α} {datas : List Bytes} {xs : List α}
    (h : List.Forall₂ item.Restores datas xs) (hlength : xs.length < 65536) :
    (list16 item).Restores (count16 xs.length ++ datas.flatten) xs := by
  refine (restores_u16 xs.length.toUInt16).bind ?_
  rw [toNat_toUInt16 hlength]
  exact restores_many h

theorem Restores.run_eq_ok {α : Type} {reader : Reader α} {data : Bytes} {a : α}
    (h : reader.Restores data a) : reader.run data = .ok a := by
  have hread := h 0 []
  rw [List.append_nil] at hread
  simp [run, ofBytes, hread]

theorem Restores.run_finish {α : Type} {reader : Reader α} {data : Bytes} {a : α}
    (h : reader.Restores data a) (name : String) :
    run (reader >>= fun a => finish name >>= fun _ => pure a) data = .ok a := by
  have hread := h 0 []
  rw [List.append_nil] at hread
  have hrun : (reader >>= fun a => finish name >>= fun _ => pure a) (ofBytes data) =
      .ok (a, ⟨0 + data.length, []⟩) :=
    state_bind_eq_ok.2 ⟨a, _, hread, state_bind_eq_ok.2 ⟨(), _, rfl, rfl⟩⟩
  rw [run, hrun]

/-! ### Whole payloads -/

theorem Codes.payload_eq_ok {α : Type} {reader : Reader α} {write : α → Bytes} {fits : α → Prop}
    (hr : reader.Codes write fits) (name : String) {data : Bytes} {a : α} :
    payload name reader data = .ok a ↔ data = write a ∧ fits a := by
  constructor
  · intro h
    unfold payload run at h
    simp only at h
    cases hw : (do let a ← reader; finish name; return a : Reader α) (ofBytes data) with
    | error e => simp only [hw, reduceCtorEq] at h
    | ok out =>
      obtain ⟨b, last⟩ := out
      obtain ⟨c, mid, hc, hw'⟩ := state_bind_eq_ok.1 hw
      obtain ⟨u, stop, hstop, hw'⟩ := state_bind_eq_ok.1 hw'
      cases hw'
      obtain rfl : b = a := by simpa only [hw, Except.ok.injEq] using h
      obtain ⟨hdata, hfit⟩ := hr.sound hc
      have hmid : mid.rest = [] := by
        unfold finish at hstop
        split at hstop
        · assumption
        · contradiction
      exact ⟨by simpa [ofBytes, hmid] using hdata, hfit⟩
  · rintro ⟨rfl, hfit⟩
    have ha := hr.complete 0 [] hfit
    rw [List.append_nil] at ha
    have hw : (do let a ← reader; finish name; return a : Reader α) (ofBytes (write a)) =
        .ok (a, ⟨0 + (write a).length, []⟩) := by
      rw [ofBytes, bind_of_ok ha]
      rfl
    unfold payload run
    simp only [hw]

end Reader

end ClassArchive
