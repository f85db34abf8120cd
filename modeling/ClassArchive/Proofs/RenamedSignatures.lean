import ClassArchive.Proofs.SignatureTrees
import ClassArchive.Proofs.TranslatedNames

/-!
Renaming generic signatures. On the text of a tree the scan follows the tree, and each of its
functions is given as many calls as it can need by the length of the text. So what is renamed in the
text is renamed in the tree: every class, at every depth, by the whole name that it has there.
-/
set_option autoImplicit false

namespace ClassArchive

/-! ### Scans that keep the grammar -/

namespace Scan

/-- Whether the scan stops before the rest, and its pieces are renamed to the characters. -/
def Becomes (f : String → Except ArchiveError String) (scan : Scan) (cs rest : List Char) : Prop :=
  scan.rest = some rest ∧ Renames f scan.pieces cs

variable {f : String → Except ArchiveError String} {scan : Scan} {cs ds mid rest : List Char}

theorem becomes_done (rest : List Char) : (done rest).Becomes f [] rest :=
  ⟨rfl, renames_nil.2 rfl⟩

theorem Becomes.emit {piece : Piece} (h : scan.Becomes f cs rest)
    (hpiece : piece.rename f = .ok ds) : (scan.emit piece).Becomes f (ds ++ cs) rest :=
  ⟨h.1, renames_cons.2 ⟨ds, cs, hpiece, h.2, rfl⟩⟩

theorem Becomes.copy (h : scan.Becomes f cs rest) (c : Char) :
    (scan.copy c).Becomes f (c :: cs) rest := by
  have hc : (Piece.text [c]).rename f = .ok [c] := rfl
  exact h.emit hc

theorem Becomes.andThen {next : List Char → Scan} (h : scan.Becomes f cs mid)
    (hnext : (next mid).Becomes f ds rest) : (scan.andThen next).Becomes f (cs ++ ds) rest := by
  simp only [Becomes, Scan.andThen, h.1]
  exact ⟨hnext.1, renames_append.2 ⟨cs, ds, h.2, hnext.2, rfl⟩⟩

end Scan

namespace Signature

theorem identifier?_append {stops name rest : List Char} {c : Char} (hname : ∀ d ∈ name, d ∉ stops)
    (hc : c ∈ stops) : identifier? stops (name ++ c :: rest) = some (name, c :: rest) := by
  have hall : ∀ d ∈ name, decide (d ∉ stops) = true := by simpa using hname
  unfold identifier?
  rw [List.takeWhile_append_of_pos hall, List.dropWhile_append_of_pos hall]
  simp [hc]

end Signature

/-! ### Types -/

theorem IsQualified.not_mem_classStops {name : String} (h : IsQualified name) :
    ∀ c ∈ name.toList, c ∉ Signature.classStops := by
  intro c hc hstop
  refine h.2 c hc ?_
  simp only [Signature.classStops, List.mem_cons, List.not_mem_nil, or_false] at hstop
  rcases hstop with rfl | rfl | rfl <;> decide

theorem IsIdentifier.qualified {name : String} (h : IsIdentifier name) : IsQualified name := by
  refine ⟨h.1, fun c hc hmem => h.2 c hc ?_⟩
  simp only [String.reduceToList, List.mem_cons, List.not_mem_nil, or_false] at hmem ⊢
  tauto

theorem IsIdentifier.ne {name : String} (h : IsIdentifier name) {stop : Char}
    (hstop : stop ∈ ".;[/<>:".toList) : ∀ c ∈ name.toList, c ∉ [stop] := by
  intro c hc hmem
  rw [List.mem_singleton.1 hmem] at hc
  exact h.2 stop hc hstop

namespace GenericType

theorem exists_head {t : GenericType} (h : t.Valid) : ∃ c cs, t.chars = c :: cs ∧
    (c = 'L' ∨ c = 'T' ∨ c = '[' ∨ t.isReference = false ∧ Descriptor.isBase c = true) := by
  cases t with
  | base letter => exact ⟨letter, [], rfl, .inr (.inr (.inr ⟨rfl, h⟩))⟩
  | typeVariable name => exact ⟨'T', _, rfl, .inr (.inl rfl)⟩
  | array element => exact ⟨'[', _, rfl, .inr (.inr (.inl rfl))⟩
  | object name arguments inner => exact ⟨'L', _, by rw [chars]; rfl, .inl rfl⟩

theorem exists_head_of_isReference {t : GenericType} (h : t.Valid) (ht : t.isReference = true) :
    ∃ c cs, t.chars = c :: cs ∧ (c = 'L' ∨ c = 'T' ∨ c = '[') := by
  obtain ⟨c, cs, hchars, hc⟩ := exists_head h
  simp only [ht, Bool.true_eq_false, false_and, or_false] at hc
  exact ⟨c, cs, hchars, hc⟩

end GenericType

theorem identifier?_className {name : String} (h : IsQualified name) (arguments : TypeArguments)
    (inner : InnerTypes) (rest : List Char) :
    Signature.identifier? Signature.classStops (name.toList ++
        (arguments.bracket arguments.chars ++ (inner.chars ++ ';' :: rest))) =
      some (name.toList, arguments.bracket arguments.chars ++ (inner.chars ++ ';' :: rest)) := by
  obtain ⟨c, cs, hchars, hc⟩ : ∃ c cs, arguments.bracket arguments.chars ++
      (inner.chars ++ ';' :: rest) = c :: cs ∧ c ∈ Signature.classStops := by
    cases arguments with
    | none =>
      cases inner with
      | none => exact ⟨';', rest, by simp [TypeArguments.bracket, InnerTypes.chars], by decide⟩
      | more => exact ⟨'.', _, by rw [InnerTypes.chars]; rfl, by decide⟩
    | any | type => exact ⟨'<', _, rfl, by decide⟩
  rw [hchars]
  exact Signature.identifier?_append h.not_mem_classStops hc

section Types

variable {f : String → Except ArchiveError String}

theorem becomes_scanSuffix_bracket {arguments renamed : TypeArguments}
    (h : TypeArguments.RenamedBy f arguments renamed)
    (hscan : ∀ bound rest, arguments.chars.length < bound →
      (Signature.scanArguments bound (arguments.chars ++ '>' :: rest)).Becomes f
        (renamed.chars ++ ['>']) rest)
    {outer : String} {more out rest : List Char} {size bound : Nat}
    (hmore : ∀ bound, size ≤ bound → (Signature.scanSuffix bound outer more).Becomes f out rest)
    (hbound : (arguments.bracket arguments.chars).length + size ≤ bound) :
    (Signature.scanSuffix bound outer (arguments.bracket arguments.chars ++ more)).Becomes f
      (renamed.bracket renamed.chars ++ out) rest := by
  have hbracketed : (∀ cs, arguments.bracket cs = '<' :: cs ++ ['>']) →
      (∀ cs, renamed.bracket cs = '<' :: cs ++ ['>']) →
      (Signature.scanSuffix bound outer (arguments.bracket arguments.chars ++ more)).Becomes f
        (renamed.bracket renamed.chars ++ out) rest := by
    intro hold hnew
    rw [hold] at hbound ⊢
    simp only [List.length_append, List.length_cons, List.length_nil] at hbound
    obtain ⟨below, rfl⟩ : ∃ below, bound = below + 1 := ⟨bound - 1, by omega⟩
    have hmany := hscan below more (by omega)
    have hall := (hmany.copy '<').andThen (hmore below (by omega))
    rw [hnew]
    simpa [Signature.scanSuffix] using hall
  cases h with
  | none => exact hmore bound (by simpa [TypeArguments.bracket] using hbound)
  | any | type => exact hbracketed (fun _ => rfl) (fun _ => rfl)

theorem scanArguments_of_head (bound : Nat) {c : Char} (hc : c = 'L' ∨ c = 'T' ∨ c = '[')
    (cs : List Char) : Signature.scanArguments (bound + 1) (c :: cs) =
      (Signature.scanType bound (c :: cs)).andThen (Signature.scanArguments bound) := by
  rcases hc with rfl | rfl | rfl <;> simp [Signature.scanArguments]

mutual

/-- With as many calls as the text is long, the scan of a type reads it to its end. -/
theorem GenericType.becomes_scanType : ∀ (t : GenericType) {u : GenericType} {bound : Nat},
    t.Valid → t.RenamedBy f u → t.chars.length ≤ bound → ∀ rest,
    (Signature.scanType bound (t.chars ++ rest)).Becomes f u.chars rest
  | _, _, 0, h, _, hbound, _ => by
    obtain ⟨c, cs, hchars, -⟩ := GenericType.exists_head h
    simp [hchars] at hbound
  | .base letter, _, bound + 1, h, hrenamed, _, rest => by
    cases hrenamed
    have hbase : Descriptor.isBase letter = true := h
    obtain ⟨hbracket, hclass, -, -⟩ := FieldType.ne_of_isBase hbase
    have hvariable : letter ≠ 'T' := by
      rintro rfl
      revert hbase
      decide
    rw [GenericType.chars, List.singleton_append, Signature.scanType, if_pos (by simp [hbase])]
    · exact (Scan.becomes_done rest).copy letter
    · exact hclass
    · exact hvariable
    · exact hbracket
  | .typeVariable name, _, bound + 1, h, hrenamed, _, rest => by
    cases hrenamed
    have hname : Signature.identifier? [';'] (name.toList ++ ';' :: rest) =
        some (name.toList, ';' :: rest) := Signature.identifier?_append (h.ne (by decide)) (by simp)
    simp only [GenericType.chars, List.cons_append, List.append_assoc, List.nil_append,
      Signature.scanType, hname]
    have hpiece : (Piece.text ('T' :: (name.toList ++ [';']))).rename f =
        .ok ('T' :: (name.toList ++ [';'])) := rfl
    simpa using (Scan.becomes_done rest).emit hpiece
  | .array element, _, bound + 1, h, hrenamed, hbound, rest => by
    cases hrenamed with
    | array hrenamed =>
      have helement := element.becomes_scanType h hrenamed
        (by simpa [GenericType.chars] using hbound) rest
      simpa [GenericType.chars, Signature.scanType] using helement.copy '['
  | .object name arguments inner, _, bound + 1, h, hrenamed, hbound, rest => by
    obtain ⟨hname, harguments, hinner⟩ := h
    cases hrenamed with
    | @object _ mapped _ renamed _ inner' hmapped hrenamed hinside =>
      simp only [GenericType.chars, List.length_append, List.length_cons, List.length_nil]
        at hbound
      have hsuffix := becomes_scanSuffix_bracket hrenamed
        (fun bound more hlt => arguments.becomes_scanArguments harguments hrenamed hlt more)
        (fun bound hle => inner.becomes_scanSuffix hinner hinside hmapped hle rest)
        (show _ ≤ bound by omega)
      have hpiece : (Piece.className name).rename f = .ok mapped.toList :=
        bind_eq_ok.2 ⟨mapped, hmapped, rfl⟩
      simp only [GenericType.chars, List.cons_append, List.append_assoc, List.nil_append,
        Signature.scanType, identifier?_className hname, String.ofList_toList]
      exact (hsuffix.emit hpiece).copy 'L'

theorem TypeArguments.becomes_scanArguments : ∀ (as : TypeArguments) {bs : TypeArguments}
    {bound : Nat}, as.Valid → as.RenamedBy f bs → as.chars.length < bound → ∀ rest,
    (Signature.scanArguments bound (as.chars ++ '>' :: rest)).Becomes f (bs.chars ++ ['>']) rest
  | _, _, 0, _, _, hbound, _ => absurd hbound (Nat.not_lt_zero _)
  | .none, _, bound + 1, _, hrenamed, _, rest => by
    cases hrenamed
    simpa [TypeArguments.chars, Signature.scanArguments] using (Scan.becomes_done rest).copy '>'
  | .any more, _, bound + 1, h, hrenamed, hbound, rest => by
    cases hrenamed with
    | any hrenamed =>
      have hmore := more.becomes_scanArguments h hrenamed
        (by simpa [TypeArguments.chars] using hbound) rest
      simpa [TypeArguments.chars, Signature.scanArguments] using hmore.copy '*'
  | .type variance type more, _, bound + 1, h, hrenamed, hbound, rest => by
    obtain ⟨htype, hreference, hmore⟩ := h
    cases hrenamed with
    | @type _ _ renamed _ rest' htypes hrest =>
      simp only [TypeArguments.chars, List.length_append] at hbound
      obtain ⟨c, cs, hchars, hc⟩ := GenericType.exists_head_of_isReference htype hreference
      have hpos : 0 < type.chars.length := by simp [hchars]
      have hfirst := type.becomes_scanType htype htypes (show _ ≤ bound by omega)
        (more.chars ++ '>' :: rest)
      have hothers := more.becomes_scanArguments hmore hrest (show _ < bound by omega) rest
      cases variance with
      | exact =>
        have hstart := scanArguments_of_head bound hc (cs ++ (more.chars ++ '>' :: rest))
        rw [← List.cons_append, ← hchars] at hstart
        simpa [TypeArguments.chars, Variance.chars, hstart] using hfirst.andThen hothers
      | upper =>
        simpa [TypeArguments.chars, Variance.chars, Signature.scanArguments] using
          (hfirst.copy '+').andThen hothers
      | lower =>
        simpa [TypeArguments.chars, Variance.chars, Signature.scanArguments] using
          (hfirst.copy '-').andThen hothers

theorem InnerTypes.becomes_scanSuffix : ∀ (is : InnerTypes) {js : InnerTypes}
    {outer mapped : String} {bound : Nat}, is.Valid → is.RenamedBy f outer mapped js →
    f outer = .ok mapped → is.chars.length < bound → ∀ rest,
    (Signature.scanSuffix bound outer (is.chars ++ ';' :: rest)).Becomes f (js.chars ++ [';']) rest
  | _, _, _, _, 0, _, _, _, hbound, _ => absurd hbound (Nat.not_lt_zero _)
  | .none, _, _, _, bound + 1, _, hrenamed, _, _, rest => by
    cases hrenamed
    simpa [InnerTypes.chars, Signature.scanSuffix] using (Scan.becomes_done rest).copy ';'
  | .more name arguments more, _, outer, mapped, bound + 1, h, hrenamed, houter, hbound, rest => by
    obtain ⟨hname, harguments, hmore⟩ := h
    cases hrenamed with
    | @more _ _ _ part _ renamed _ rest' hinside hrenamed hrest =>
      simp only [InnerTypes.chars, List.length_append, List.length_cons] at hbound
      have hsuffix := becomes_scanSuffix_bracket hrenamed
        (fun bound rest hlt => arguments.becomes_scanArguments harguments hrenamed hlt rest)
        (fun bound hle => more.becomes_scanSuffix hmore hrest hinside hle rest)
        (show _ ≤ bound by omega)
      have hpiece : (Piece.innerName outer name).rename f = .ok part.toList := by
        refine bind_eq_ok.2 ⟨_, hinside, bind_eq_ok.2 ⟨mapped, houter, ?_⟩⟩
        rw [dropStart?_append]
        rfl
      simp only [InnerTypes.chars, List.cons_append, List.append_assoc, Signature.scanSuffix,
        identifier?_className hname.qualified, String.ofList_toList]
      exact (hsuffix.emit hpiece).copy '.'

end

/-! ### Lists of types -/

def StartsOther (stop : Char) (cs : List Char) : Prop := ∀ c ∈ cs.head?, c ≠ stop

theorem GenericType.startsOther {t : GenericType} (h : t.Valid) {stop : Char}
    (hstop : stop ∈ ")(<:^>".toList) (rest : List Char) : StartsOther stop (t.chars ++ rest) := by
  obtain ⟨c, cs, hchars, hc⟩ := GenericType.exists_head h
  rw [hchars]
  simp only [StartsOther, List.cons_append, List.head?_cons, Option.mem_some_iff, forall_eq']
  rintro rfl
  simp only [String.reduceToList, List.mem_cons, List.not_mem_nil, or_false] at hstop
  rcases hstop with rfl | rfl | rfl | rfl | rfl | rfl <;> revert hc <;> simp [Descriptor.isBase]

/-- The loops over types are alike: a mark that may be empty stands before each type, and the loop
ends at what follows the last one. -/
theorem becomes_loop {loop : Nat → List Char → Scan} {mark last out final : List Char}
    {ts us : List GenericType} (h : List.Forall₂ (GenericType.RenamedBy f) ts us)
    (hts : ∀ t ∈ ts, t.Valid)
    (hstep : ∀ t ∈ ts, ∀ bound rest renamed,
      ((Signature.scanType bound (t.chars ++ rest)).andThen (loop bound)).Becomes f renamed final →
      (loop (bound + 1) (mark ++ (t.chars ++ rest))).Becomes f (mark ++ renamed) final)
    (hend : ∀ bound, (loop (bound + 1) last).Becomes f out final) {bound : Nat}
    (hbound : (ts.flatMap fun t => mark ++ t.chars).length < bound) :
    (loop bound ((ts.flatMap fun t => mark ++ t.chars) ++ last)).Becomes f
      ((us.flatMap fun u => mark ++ u.chars) ++ out) final := by
  induction h generalizing bound with
  | nil =>
    obtain ⟨below, rfl⟩ : ∃ below, bound = below + 1 := ⟨bound - 1, by omega⟩
    exact hend below
  | @cons t u ts us htu _ ih =>
    obtain ⟨below, rfl⟩ : ∃ below, bound = below + 1 := ⟨bound - 1, by omega⟩
    obtain ⟨ht, hts⟩ := List.forall_mem_cons.1 hts
    obtain ⟨hfirst, hothers⟩ := List.forall_mem_cons.1 hstep
    obtain ⟨c, cs, hchars, -⟩ := GenericType.exists_head ht
    have hpos : 0 < t.chars.length := by simp [hchars]
    simp only [List.flatMap_cons, List.length_append] at hbound
    have htype := t.becomes_scanType ht htu (show _ ≤ below by omega)
      ((ts.flatMap fun t => mark ++ t.chars) ++ last)
    have hall := htype.andThen (ih hts hothers (show _ < below by omega))
    simpa [List.flatMap_cons] using hfirst below _ _ hall

variable {ts us : List GenericType}

theorem becomes_scanTypes (h : List.Forall₂ (GenericType.RenamedBy f) ts us)
    (hts : ∀ t ∈ ts, t.Valid) {bound : Nat}
    (hbound : (ts.flatMap GenericType.chars).length < bound) :
    (Signature.scanTypes bound (ts.flatMap GenericType.chars)).Becomes f
      (us.flatMap GenericType.chars) [] := by
  have hstep : ∀ t ∈ ts, ∀ bound rest renamed,
      ((Signature.scanType bound (t.chars ++ rest)).andThen (Signature.scanTypes bound)).Becomes f
        renamed [] →
      (Signature.scanTypes (bound + 1) ([] ++ (t.chars ++ rest))).Becomes f ([] ++ renamed) [] := by
    intro t ht bound rest renamed hall
    obtain ⟨c, cs, hchars, -⟩ := GenericType.exists_head (hts t ht)
    rw [hchars] at hall ⊢
    exact hall
  have hend : ∀ bound, (Signature.scanTypes (bound + 1) []).Becomes f [] [] :=
    fun bound => Scan.becomes_done []
  simpa using becomes_loop h hts hstep hend hbound

theorem becomes_scanMethodTypes (h : List.Forall₂ (GenericType.RenamedBy f) ts us)
    (hts : ∀ t ∈ ts, t.Valid) {bound : Nat}
    (hbound : (ts.flatMap GenericType.chars).length < bound) (rest : List Char) :
    (Signature.scanMethodTypes bound (ts.flatMap GenericType.chars ++ ')' :: rest)).Becomes f
      (us.flatMap GenericType.chars ++ [')']) rest := by
  have hstep : ∀ t ∈ ts, ∀ bound more renamed,
      ((Signature.scanType bound (t.chars ++ more)).andThen
        (Signature.scanMethodTypes bound)).Becomes f renamed rest →
      (Signature.scanMethodTypes (bound + 1) ([] ++ (t.chars ++ more))).Becomes f
        ([] ++ renamed) rest := by
    intro t ht bound more renamed hall
    have hother := GenericType.startsOther (hts t ht) (by decide : ')' ∈ ")(<:^>".toList) more
    rw [List.nil_append, List.nil_append, Signature.scanMethodTypes]
    · exact hall
    · intro cs hcs
      rw [hcs] at hother
      exact hother ')' rfl rfl
  exact becomes_loop h hts hstep (fun bound => (Scan.becomes_done rest).copy ')') hbound

theorem becomes_scanThrows (h : List.Forall₂ (GenericType.RenamedBy f) ts us)
    (hts : ∀ t ∈ ts, t.Valid) {bound : Nat}
    (hbound : (ts.flatMap fun t => '^' :: t.chars).length < bound) :
    (Signature.scanThrows bound (ts.flatMap fun t => '^' :: t.chars)).Becomes f
      (us.flatMap fun u => '^' :: u.chars) [] := by
  have hstep : ∀ t ∈ ts, ∀ bound rest renamed,
      ((Signature.scanType bound (t.chars ++ rest)).andThen (Signature.scanThrows bound)).Becomes f
        renamed [] →
      (Signature.scanThrows (bound + 1) (['^'] ++ (t.chars ++ rest))).Becomes f
        (['^'] ++ renamed) [] :=
    fun t ht bound rest renamed hall => hall.copy '^'
  have hend : ∀ bound, (Signature.scanThrows (bound + 1) []).Becomes f [] [] :=
    fun bound => Scan.becomes_done []
  simpa using becomes_loop h hts hstep hend hbound

theorem scanBounds_of_head (bound : Nat) {c : Char} (hc : c = 'L' ∨ c = 'T' ∨ c = '[')
    (cs : List Char) : Signature.scanBounds (bound + 1) (':' :: c :: cs) =
      ((Signature.scanType bound (c :: cs)).andThen (Signature.scanBounds bound)).copy ':' := by
  rcases hc with rfl | rfl | rfl <;> rfl

theorem becomes_scanBounds (h : List.Forall₂ (GenericType.RenamedBy f) ts us)
    (hts : ∀ t ∈ ts, t.Valid ∧ t.isReference = true) {rest : List Char}
    (hrest : StartsOther ':' rest) {bound : Nat}
    (hbound : (ts.flatMap fun t => ':' :: t.chars).length < bound) :
    (Signature.scanBounds bound ((ts.flatMap fun t => ':' :: t.chars) ++ rest)).Becomes f
      (us.flatMap fun u => ':' :: u.chars) rest := by
  have hstep : ∀ t ∈ ts, ∀ bound more renamed,
      ((Signature.scanType bound (t.chars ++ more)).andThen (Signature.scanBounds bound)).Becomes f
        renamed rest →
      (Signature.scanBounds (bound + 1) ([':'] ++ (t.chars ++ more))).Becomes f
        ([':'] ++ renamed) rest := by
    intro t ht bound more renamed hall
    obtain ⟨c, cs, hchars, hc⟩ := GenericType.exists_head_of_isReference (hts t ht).1 (hts t ht).2
    rw [hchars] at hall ⊢
    simp only [List.cons_append, List.nil_append, scanBounds_of_head bound hc]
    exact hall.copy ':'
  have hend : ∀ bound, (Signature.scanBounds (bound + 1) rest).Becomes f [] rest := by
    intro bound
    rw [Signature.scanBounds]
    · exact Scan.becomes_done rest
    · intro cs hcs
      rw [hcs] at hrest
      exact hrest ':' rfl rfl
  simpa using becomes_loop h (fun t ht => (hts t ht).1) hstep hend hbound

/-! ### Type parameters -/

theorem TypeParameter.boundChars_of_some {p : TypeParameter} {t : GenericType}
    (h : p.classBound = some t) :
    p.boundChars = (t :: p.interfaceBounds).flatMap fun bound => ':' :: bound.chars := by
  simp [boundChars, h]

theorem TypeParameter.boundChars_of_none {p : TypeParameter} (h : p.classBound = none) :
    p.boundChars = ':' :: p.interfaceBounds.flatMap fun bound => ':' :: bound.chars := by
  simp [boundChars, h]

theorem becomes_boundChars {p q : TypeParameter} (h : p.RenamedBy f q) (hp : p.Valid)
    {rest : List Char} (hrest : StartsOther ':' rest) {bound : Nat}
    (hbound : p.boundChars.length < bound) :
    (Signature.scanBounds bound (p.boundChars ++ rest)).Becomes f q.boundChars rest := by
  obtain ⟨name, classBound, interfaceBounds⟩ := p
  obtain ⟨name', classBound', interfaceBounds'⟩ := q
  obtain ⟨-, hsome, hbounds⟩ := hp
  obtain ⟨-, hclass, hinterfaces⟩ := h
  cases hclass with
  | some htu =>
    rw [TypeParameter.boundChars_of_some rfl] at hbound ⊢
    rw [TypeParameter.boundChars_of_some rfl]
    exact becomes_scanBounds (.cons htu hinterfaces) hbounds hrest hbound
  | none =>
    -- the colon of the missing bound is followed by that of the first interface
    rw [TypeParameter.boundChars_of_none rfl] at hbound ⊢
    rw [TypeParameter.boundChars_of_none rfl]
    obtain ⟨below, rfl⟩ : ∃ below, bound = below + 1 := ⟨bound - 1, by omega⟩
    have hmore := becomes_scanBounds hinterfaces hbounds hrest
      (show _ < below by simpa using hbound)
    cases interfaceBounds with
    | nil => exact absurd rfl hsome
    | cons t ts => exact hmore.copy ':'

theorem IsIdentifier.startsOther {name : String} (h : IsIdentifier name) {stop : Char}
    (hstop : stop ∈ ".;[/<>:".toList) (rest : List Char) :
    StartsOther stop (name.toList ++ rest) := by
  intro c hc heq
  have hne : name.toList ≠ [] := by simpa using h.1
  rw [List.head?_append_of_ne_nil _ hne] at hc
  exact h.2 c (List.mem_of_mem_head? hc) (heq ▸ hstop)

theorem scanParameters_of_name {name : String} (h : IsIdentifier name) (bound : Nat)
    (cs : List Char) : Signature.scanParameters (bound + 1) (name.toList ++ ':' :: cs) =
      ((Signature.scanBounds bound (':' :: cs)).andThen (Signature.scanParameters bound)).emit
        (.text name.toList) := by
  have hname : Signature.identifier? [':'] (name.toList ++ ':' :: cs) =
      some (name.toList, ':' :: cs) := Signature.identifier?_append (h.ne (by decide)) (by simp)
  have hother := h.startsOther (by decide : '>' ∈ ".;[/<>:".toList) (':' :: cs)
  rw [Signature.scanParameters, hname]
  · simp
  · intro ds hds
    rw [hds] at hother
    exact hother '>' rfl rfl

theorem TypeParameter.startsOther_flatMap {ps : List TypeParameter} (hps : ∀ p ∈ ps, p.Valid)
    (rest : List Char) : StartsOther ':' (ps.flatMap TypeParameter.chars ++ '>' :: rest) := by
  cases ps with
  | nil => simp [StartsOther]
  | cons p ps =>
    rw [List.flatMap_cons, TypeParameter.chars, List.append_assoc, List.append_assoc]
    exact (hps p (by simp)).1.startsOther (by decide) _

theorem becomes_scanParameters {ps qs : List TypeParameter}
    (h : List.Forall₂ (TypeParameter.RenamedBy f) ps qs) (hps : ∀ p ∈ ps, p.Valid) {bound : Nat}
    (hbound : (ps.flatMap TypeParameter.chars).length < bound) (rest : List Char) :
    (Signature.scanParameters bound (ps.flatMap TypeParameter.chars ++ '>' :: rest)).Becomes f
      (qs.flatMap TypeParameter.chars ++ ['>']) rest := by
  induction h generalizing bound with
  | nil =>
    obtain ⟨below, rfl⟩ : ∃ below, bound = below + 1 := ⟨bound - 1, by omega⟩
    exact (Scan.becomes_done rest).copy '>'
  | @cons p q ps qs hpq _ ih =>
    obtain ⟨below, rfl⟩ : ∃ below, bound = below + 1 := ⟨bound - 1, by omega⟩
    obtain ⟨hp, hps⟩ := List.forall_mem_cons.1 hps
    have hne : 0 < p.name.toList.length := List.length_pos_iff.2 (by simpa using hp.1.1)
    simp only [List.flatMap_cons, TypeParameter.chars, List.length_append, List.append_assoc]
      at hbound ⊢
    have hbounds := becomes_boundChars hpq hp (TypeParameter.startsOther_flatMap hps rest)
      (show _ < below by omega)
    have hpiece : (Piece.text p.name.toList).rename f = .ok q.name.toList := by
      rw [hpq.name]
      rfl
    have hall := (hbounds.andThen (ih hps (show _ < below by omega))).emit hpiece
    rw [TypeParameter.boundChars, List.cons_append, List.cons_append] at hall ⊢
    rw [scanParameters_of_name hp.1]
    simpa using hall

/-! ### Whole signatures -/

theorem becomes_scanHead {ps qs : List TypeParameter}
    (h : List.Forall₂ (TypeParameter.RenamedBy f) ps qs) (hps : ∀ p ∈ ps, p.Valid)
    {rest : List Char} (hrest : StartsOther '<' rest) {bound : Nat}
    (hbound : (GenericSignature.parameterChars ps).length < bound) :
    (Signature.scanHead bound (GenericSignature.parameterChars ps ++ rest)).Becomes f
      (GenericSignature.parameterChars qs) rest := by
  cases h with
  | nil =>
    unfold Signature.scanHead
    split
    · next heq =>
      change rest = _ at heq
      rw [heq] at hrest
      exact absurd rfl (hrest '<' rfl)
    · exact Scan.becomes_done rest
  | @cons p q ps qs hpq hpsqs =>
    simp only [GenericSignature.parameterChars, List.length_append, List.length_cons] at hbound
    have hall := becomes_scanParameters (.cons hpq hpsqs) hps (show _ < bound by omega) rest
    simpa [GenericSignature.parameterChars, Signature.scanHead] using hall.copy '<'

theorem becomes_scanMethod_of_other {cs : List Char} (h : StartsOther '(' cs) (bound : Nat) :
    (Signature.scanMethod bound cs).Becomes f [] cs := by
  unfold Signature.scanMethod
  split
  · exact absurd rfl (h '(' rfl)
  · exact Scan.becomes_done _

theorem becomes_result {result last : Option GenericType}
    (h : Option.Rel (GenericType.RenamedBy f) result last) (hresult : ∀ t ∈ result, t.Valid)
    {bound : Nat} (hbound : (result.elim ['V'] GenericType.chars).length ≤ bound)
    (rest : List Char) :
    (Signature.scanType bound (result.elim ['V'] GenericType.chars ++ rest)).Becomes f
      (last.elim ['V'] GenericType.chars) rest := by
  cases h with
  | some htu => exact GenericType.becomes_scanType _ (hresult _ rfl) htu hbound rest
  | none =>
    obtain ⟨below, rfl⟩ : ∃ below, bound = below + 1 := ⟨bound - 1, by simp at hbound; omega⟩
    simpa [Signature.scanType] using (Scan.becomes_done rest).copy 'V'

theorem becomes_scanMethod {types types' throws throws' : List GenericType}
    {result result' : Option GenericType}
    (htypes : List.Forall₂ (GenericType.RenamedBy f) types types')
    (hresult : Option.Rel (GenericType.RenamedBy f) result result')
    (hthrows : List.Forall₂ (GenericType.RenamedBy f) throws throws')
    (hvalid : (∀ t ∈ types, t.Valid) ∧ (∀ t ∈ result, t.Valid) ∧ ∀ t ∈ throws, t.Valid)
    {bound : Nat}
    (hbound : (GenericSignature.methodChars types result throws).length < bound) :
    (Signature.scanMethod bound (GenericSignature.methodChars types result throws)).Becomes f
      (GenericSignature.methodChars types' result' throws') [] := by
  simp only [GenericSignature.methodChars, List.length_append, List.length_cons] at hbound
  have hparameters := becomes_scanMethodTypes htypes hvalid.1 (show _ < bound by omega)
    (result.elim ['V'] GenericType.chars ++ throws.flatMap fun t => '^' :: t.chars)
  have hlast := becomes_result hresult hvalid.2.1 (show _ ≤ bound by omega)
    (throws.flatMap fun t => '^' :: t.chars)
  have hend := becomes_scanThrows hthrows hvalid.2.2 (show _ < bound by omega)
  simpa [GenericSignature.methodChars, Signature.scanMethod] using
    ((hparameters.copy '(').andThen hlast).andThen hend

theorem becomes_scan_types {ps qs : List TypeParameter}
    (hparameters : List.Forall₂ (TypeParameter.RenamedBy f) ps qs) (hps : ∀ p ∈ ps, p.Valid)
    {t u : GenericType} (htypes : List.Forall₂ (GenericType.RenamedBy f) (t :: ts) (u :: us))
    (hts : ∀ s ∈ t :: ts, s.Valid) {text : String}
    (htext : text.toList = GenericSignature.parameterChars ps ++
      (t :: ts).flatMap GenericType.chars) :
    (Signature.scan text).Becomes f
      (GenericSignature.parameterChars qs ++ (u :: us).flatMap GenericType.chars) [] := by
  have hother : ∀ stop ∈ ")(<:^>".toList, StartsOther stop ((t :: ts).flatMap GenericType.chars) :=
    fun stop hstop => GenericType.startsOther (hts t (by simp)) hstop _
  simp only [Signature.scan, Signature.callBound, htext, List.length_append]
  generalize hbound : 2 * (_ + _) + 2 = bound
  have hhead := becomes_scanHead hparameters hps (hother '<' (by decide)) (show _ < bound by omega)
  have htail := becomes_scanTypes htypes hts (show _ < bound by omega)
  have hmiddle := becomes_scanMethod_of_other (f := f) (hother '(' (by decide)) bound
  simpa using (hhead.andThen hmiddle).andThen htail

theorem becomes_scan {s s' : GenericSignature} (h : s.RenamedBy f s') (hs : s.Valid) :
    (Signature.scan s.text).Becomes f s'.chars [] := by
  cases h with
  | @ofField type renamed htype =>
    have hvalid : ∀ t ∈ [type], t.Valid := by simpa using hs.1
    simpa [GenericSignature.chars, GenericSignature.parameterChars] using
      becomes_scan_types .nil (by simp) (.cons htype .nil) hvalid
        (show (GenericSignature.ofField type).text.toList = _ by
          simp [GenericSignature.text, GenericSignature.chars, GenericSignature.parameterChars])
  | @ofClass ps qs t u ts us hparameters hclass hinterfaces =>
    exact becomes_scan_types hparameters hs.1 (.cons hclass hinterfaces)
      (fun t ht => (hs.2 t ht).1) (by simp [GenericSignature.text, GenericSignature.chars])
  | @ofMethod ps qs types types' result result' throws throws' hparameters htypes hresult hthrows =>
    obtain ⟨hps, hvalid, hlast, hthrown⟩ := hs
    have hother : StartsOther '<' (GenericSignature.methodChars types result throws) := by
      simp [StartsOther, GenericSignature.methodChars]
    simp only [Signature.scan, Signature.callBound, GenericSignature.text, String.toList_ofList,
      GenericSignature.chars, List.length_append]
    generalize hbound : 2 * (_ + _) + 2 = bound
    have hhead := becomes_scanHead hparameters hps hother (show _ < bound by omega)
    have hmethod := becomes_scanMethod htypes hresult hthrows
      ⟨hvalid, hlast, fun t ht => (hthrown t ht).1⟩ (show _ < bound by omega)
    have hend : (Signature.scanTypes bound []).Becomes f [] [] := by
      rw [← hbound]
      exact Scan.becomes_done []
    simpa using (hhead.andThen hmethod).andThen hend

end Types

namespace Renamer

/-- A signature is renamed along its tree: every class that the tree names at any depth gets the new
name of the class that it is, and nothing else changes. -/
theorem signature_of_tree (names : Renamer) {s : GenericSignature} (hs : s.Valid)
    (huses : ∀ c ∈ s.classUses, c.Renamable names.className) :
    ∃ s', s.RenamedBy names.className s' ∧ names.signature s.text = .ok s'.text ∧
      List.Forall₂ (fun c d => names.className c.binaryName = .ok d.binaryName)
        s.classUses s'.classUses := by
  obtain ⟨s', hrenamed⟩ := GenericSignature.exists_renamedBy huses
  have hscan := becomes_scan hrenamed hs
  have htext : names.signature s.text = .ok s'.text := by
    refine Scan.rename_eq_ok.2 ⟨by simp [hscan.1], ?_⟩
    simpa [GenericSignature.text] using hscan.2
  exact ⟨s', hrenamed, htext, hrenamed.classUses⟩

def nestedNames : Renamer :=
  between (.ofDrafts [{ names := [("left", "a"), ("right", "b/Map")] },
    { names := [("left", "a$e"), ("right", "b/Map$Entry")] },
    { names := [("left", "T"), ("right", "b/Item")] }]) "left" "right"

/-- A class that has the name of a type variable, and a parameter without a bound by a class. -/
def nestedSignature : GenericSignature :=
  .ofMethod [⟨"T", none, [.object "T" (.type .exact (.typeVariable "T") .none) .none]⟩]
    [.array (.object "a" (.type .upper (.object "T" .none .none) (.any .none))
      (.more "e" .none .none)), .base 'I'] (some (.typeVariable "T")) [.object "c" .none .none]

theorem signature_of_tree_nested : ∃ s', nestedSignature.RenamedBy nestedNames.className s' ∧
    nestedNames.signature "<T::LT<TT;>;>([La<+LT;*>.e;I)TT;^Lc;" = .ok s'.text ∧
    s'.text = "<T::Lb/Item<TT;>;>([Lb/Map<+Lb/Item;*>.Entry;I)TT;^Lc;" := by
  have hvalid : nestedSignature.Valid := by decide +kernel
  have hmap : nestedNames.className "a" = .ok "b/Map" := toOption_eq_some.1 (by decide +kernel)
  have hentry : nestedNames.className ("a" ++ "$" ++ "e") = .ok ("b/Map" ++ "$" ++ "Entry") :=
    toOption_eq_some.1 (by decide +kernel)
  have hitem : nestedNames.className "T" = .ok "b/Item" := toOption_eq_some.1 (by decide +kernel)
  have hother : nestedNames.className "c" = .ok "c" := toOption_eq_some.1 (by decide +kernel)
  have huses : nestedSignature.classUses =
      [.outermost "T", .outermost "a", .outermost "T", .inside "a" "e", .outermost "c"] := by
    decide +kernel
  have hnew : nestedNames.signature nestedSignature.text =
      .ok "<T::Lb/Item<TT;>;>([Lb/Map<+Lb/Item;*>.Entry;I)TT;^Lc;" :=
    toOption_eq_some.1 (by decide +kernel)
  obtain ⟨s', hrenamed, htext, -⟩ := signature_of_tree nestedNames hvalid (by
    simp only [huses, List.forall_mem_cons, ClassUse.Renamable]
    exact ⟨⟨_, hitem⟩, ⟨_, hmap⟩, ⟨_, hitem⟩, ⟨_, _, hmap, hentry⟩, ⟨_, hother⟩, by simp⟩)
  have hold : nestedSignature.text = "<T::LT<TT;>;>([La<+LT;*>.e;I)TT;^Lc;" := by decide +kernel
  exact ⟨s', hrenamed, hold ▸ htext, Except.ok.inj (htext.symm.trans hnew)⟩

end Renamer

end ClassArchive
