import ClassArchive.Proofs.MappingNames

/-!
When a mapping can be built, and what it then answers. Of the names given to an element only the
last one in each namespace counts. The build fails for a descriptor that is none and for two
elements of one kind and place that share an identifier, and for nothing else.
-/
set_option autoImplicit false

namespace ClassArchive

/-! ### The last name given -/

def lastGiven {α : Type} (given : List (String × α)) (ns : String) : Option α :=
  given.reverse.lookup ns

theorem lastGiven_cons {α : Type} (first : String × α) (given : List (String × α)) (ns : String) :
    lastGiven (first :: given) ns =
      (lastGiven given ns).or (if first.1 = ns then some first.2 else none) := by
  obtain ⟨key, a⟩ := first
  rw [lastGiven, List.reverse_cons, List.lookup_append, lastGiven]
  by_cases h : key = ns
  · simp [h]
  · have hne : (ns == key) = false := beq_eq_false_iff_ne.2 (Ne.symm h)
    simp [List.lookup_cons, h, hne]

theorem mem_of_lastGiven {α : Type} {given : List (String × α)} {ns : String} {a : α}
    (h : lastGiven given ns = some a) : (ns, a) ∈ given := by
  induction given with
  | nil => simp [lastGiven] at h
  | cons first given ih =>
    rw [lastGiven_cons] at h
    cases hlast : lastGiven given ns with
    | none =>
      rw [hlast, Option.none_or] at h
      split at h
      · next hns =>
        cases h
        simp [← hns]
      · cases h
    | some b =>
      rw [hlast, Option.some_or] at h
      cases h
      exact List.mem_cons_of_mem _ (ih hlast)

theorem getElem?_insertMany {α : Type} (given : List (String × α)) (names : ByNamespace α)
    (ns : String) : (names.insertMany given)[ns]? = (lastGiven given ns).or names[ns]? := by
  induction given generalizing names with
  | nil => simp [lastGiven]
  | cons first given ih =>
    rw [Std.TreeMap.insertMany_cons, ih, lastGiven_cons, Std.TreeMap.getElem?_insert,
      Option.or_assoc]
    congr 1
    by_cases h : first.1 = ns <;> simp [h]

section Giving

variable {δ ν ε : Type} {read? : δ → Option ν}
  {add : ByNamespace ν → String × δ → Except ε (ByNamespace ν)}

theorem exists_foldlM_insert (hadd : ∀ names given names', add names given = .ok names' ↔
      ∃ name, read? given.2 = some name ∧ names' = names.insert given.1 name)
    {given : List (String × δ)} {names : ByNamespace ν} :
    (∃ names', given.foldlM add names = .ok names') ↔
      ∀ g ∈ given, ∃ name, read? g.2 = some name := by
  induction given generalizing names with
  | nil => simp [pure, Except.pure]
  | cons first given ih =>
    simp only [List.foldlM_cons, bind_eq_ok, List.forall_mem_cons]
    constructor
    · rintro ⟨names', mid, hmid, h⟩
      obtain ⟨name, hname, rfl⟩ := (hadd _ _ _).1 hmid
      exact ⟨⟨name, hname⟩, ih.1 ⟨names', h⟩⟩
    · rintro ⟨⟨name, hname⟩, hrest⟩
      obtain ⟨names', h⟩ := ih.2 hrest
      exact ⟨names', _, (hadd _ _ _).2 ⟨name, hname, rfl⟩, h⟩

theorem getElem?_foldlM_insert (hadd : ∀ names given names', add names given = .ok names' ↔
      ∃ name, read? given.2 = some name ∧ names' = names.insert given.1 name)
    {given : List (String × δ)} {names names' : ByNamespace ν}
    (h : given.foldlM add names = .ok names') (ns : String) :
    names'[ns]? = ((lastGiven given ns).bind read?).or names[ns]? := by
  induction given generalizing names with
  | nil =>
    cases h
    simp [lastGiven]
  | cons first given ih =>
    rw [List.foldlM_cons] at h
    obtain ⟨mid, hmid, h⟩ := bind_eq_ok.1 h
    obtain ⟨name, hname, rfl⟩ := (hadd _ _ _).1 hmid
    have hread := (exists_foldlM_insert hadd).1 ⟨names', h⟩
    rw [ih h, lastGiven_cons, Std.TreeMap.getElem?_insert]
    cases hlast : lastGiven given ns with
    | none => by_cases hns : first.1 = ns <;> simp [hns, hname]
    | some g =>
      -- a value given later was read as well
      obtain ⟨later, hlater⟩ := hread _ (mem_of_lastGiven hlast)
      simp [hlater]

end Giving

/-! ### Members -/

theorem exists_bind_pure {ε α β : Type} {x : Except ε α} {f : α → β} :
    (∃ b, (x >>= fun a => pure (f a)) = .ok b) ↔ ∃ a, x = .ok a := by
  cases x <;> simp [bind, Except.bind, pure, Except.pure]

theorem exists_map_toOption {ε α β : Type} {x : Except ε α} {f : α → β} :
    (∃ b, x.toOption.map f = some b) ↔ ∃ a, x = .ok a := by
  cases x <;> simp [Except.toOption]

theorem blameMember_insert_eq_ok {α ν : Type} {owner name ns : String} {x : Except FormatError α}
    {f : α → ν} {names names' : ByNamespace ν} :
    (blameMember owner name x >>= fun a => pure (names.insert ns (f a))) = .ok names' ↔
      ∃ v, x.toOption.map f = some v ∧ names' = names.insert ns v := by
  cases x with
  | error e => simp [blameMember, Except.toOption, bind, Except.bind]
  | ok a => simp [blameMember, Except.toOption, bind, Except.bind, pure, Except.pure, eq_comm]

namespace MethodMapping

def id? (m : MethodMapping) (ns : String) : Option MethodId := m.names[ns]?.map (·.id)

theorem lists_identifiers (m : MethodMapping) : Registry.Lists id? m.identifiers m :=
  Registry.lists_names MethodName.id fun _ => rfl

end MethodMapping

namespace FieldMapping

def name? (f : FieldMapping) (ns : String) : Option String := f.names[ns]?.map (·.name)

theorem lists_identifiers (f : FieldMapping) : Registry.Lists name? f.identifiers f :=
  Registry.lists_names FieldName.name fun _ => rfl

end FieldMapping

namespace MethodDraft

def id? (draft : MethodDraft) (ns : String) : Option MethodId :=
  (lastGiven draft.names ns).bind fun (name, descriptor) =>
    (MethodId.ofDescriptor name descriptor).toOption

def Valid (draft : MethodDraft) : Prop :=
  ∀ given ∈ draft.names, ∃ d, MethodDescriptor.parse given.2.2 = .ok d

def read? (given : String × String) : Option MethodName :=
  (MethodDescriptor.parse given.2).toOption.map fun d =>
    { id := { name := given.1, parameters := d.parameters }, result := d.result }

theorem addName_eq_ok (owner : String) (names : ByNamespace MethodName)
    (given : String × String × String) (names' : ByNamespace MethodName) :
    addName owner names given = .ok names' ↔
      ∃ name, read? given.2 = some name ∧ names' = names.insert given.1 name :=
  blameMember_insert_eq_ok

theorem map_id_read? (given : String × String) :
    (read? given).map (·.id) = (MethodId.ofDescriptor given.1 given.2).toOption := by
  unfold read? MethodId.ofDescriptor
  cases MethodDescriptor.parse given.2 <;> rfl

theorem exists_build (owner : String) (draft : MethodDraft) :
    (∃ m, draft.build owner = .ok m) ↔ draft.Valid := by
  rw [build, exists_bind_pure, exists_foldlM_insert (addName_eq_ok owner)]
  simp only [Valid, read?, exists_map_toOption]

theorem id?_of_build {owner : String} {draft : MethodDraft} {m : MethodMapping}
    (h : draft.build owner = .ok m) : m.id? = draft.id? := by
  funext ns
  obtain ⟨names, hnames, h⟩ := bind_eq_ok.1 h
  cases h
  have hlast : names[ns]? = (lastGiven draft.names ns).bind read? := by
    simpa using getElem?_foldlM_insert (addName_eq_ok owner) hnames ns
  simp only [MethodMapping.id?, hlast, id?, Option.map_bind]
  congr 1
  funext given
  exact map_id_read? given

end MethodDraft

namespace FieldDraft

def name? (draft : FieldDraft) (ns : String) : Option String :=
  (lastGiven draft.names ns).map (·.1)

def Valid (draft : FieldDraft) : Prop :=
  ∀ given ∈ draft.names, Descriptor.checkField given.2.2 = .ok ()

def read? (given : String × String) : Option FieldName :=
  (Descriptor.checkField given.2).toOption.map fun _ => { name := given.1, type := given.2 }

theorem addName_eq_ok (owner : String) (names : ByNamespace FieldName)
    (given : String × String × String) (names' : ByNamespace FieldName) :
    addName owner names given = .ok names' ↔
      ∃ name, read? given.2 = some name ∧ names' = names.insert given.1 name :=
  blameMember_insert_eq_ok

theorem exists_build (owner : String) (draft : FieldDraft) :
    (∃ f, draft.build owner = .ok f) ↔ draft.Valid := by
  rw [build, exists_bind_pure, exists_foldlM_insert (addName_eq_ok owner)]
  simp only [Valid, read?, exists_map_toOption, Unique.exists_iff, PUnit.default_eq_unit]

theorem name?_of_build {owner : String} {draft : FieldDraft} {f : FieldMapping}
    (h : draft.build owner = .ok f) : f.name? = draft.name? := by
  have hvalid := (exists_build owner draft).1 ⟨f, h⟩
  funext ns
  obtain ⟨names, hnames, h⟩ := bind_eq_ok.1 h
  cases h
  have hlast : names[ns]? = (lastGiven draft.names ns).bind read? := by
    simpa using getElem?_foldlM_insert (addName_eq_ok owner) hnames ns
  simp only [FieldMapping.name?, hlast, name?]
  cases hgiven : lastGiven draft.names ns with
  | none => rfl
  | some given =>
    have hcheck := hvalid _ (mem_of_lastGiven hgiven)
    simp [read?, hcheck, Except.toOption]

end FieldDraft

/-! ### Classes -/

section Adding

variable {σ δ α κ ε : Type} {id? : α → String → Option κ} {draftId? : δ → String → Option κ}
  {build : δ → Except ε α} {entries : σ → List α} {I : σ → Prop} {add : σ → δ → Except ε σ}

theorem exists_forall₂ {R : δ → α → Prop} {drafts : List δ} :
    (∃ xs, List.Forall₂ R drafts xs) ↔ ∀ draft ∈ drafts, ∃ x, R draft x := by
  induction drafts with
  | nil => simp
  | cons draft drafts ih =>
    rw [List.forall_mem_cons, ← ih]
    constructor
    · rintro ⟨_, hbuilt⟩
      cases hbuilt with
      | cons hx hrest => exact ⟨⟨_, hx⟩, ⟨_, hrest⟩⟩
    · rintro ⟨⟨x, hx⟩, ⟨xs, hrest⟩⟩
      exact ⟨x :: xs, .cons hx hrest⟩

/-- What was built shares no identifiers exactly if the drafts share none. -/
theorem pairwise_apart_iff (hid : ∀ {draft x}, build draft = .ok x → id? x = draftId? draft)
    {drafts : List δ} {xs : List α}
    (h : List.Forall₂ (fun draft x => build draft = .ok x) drafts xs) :
    xs.Pairwise (ApartBy id?) ↔ drafts.Pairwise (ApartBy draftId?) := by
  -- being apart depends on the identifiers only, and these are the same one by one
  have hsame : xs.map id? = drafts.map draftId? := by
    induction h with
    | nil => rfl
    | cons hx _ ih => rw [List.map_cons, List.map_cons, hid hx, ih]
  calc xs.Pairwise (ApartBy id?)
      ↔ (xs.map id?).Pairwise (ApartBy fun known => known) := by rw [List.pairwise_map]; rfl
    _ ↔ (drafts.map draftId?).Pairwise (ApartBy fun known => known) := by rw [hsame]
    _ ↔ drafts.Pairwise (ApartBy draftId?) := by rw [List.pairwise_map]; rfl

theorem AddsApart.exists_foldlM (hadd : AddsApart id? build entries I add)
    (hid : ∀ {draft x}, build draft = .ok x → id? x = draftId? draft) {s : σ} (hs : I s)
    (hempty : entries s = []) (drafts : List δ) : (∃ s', drafts.foldlM add s = .ok s') ↔
      (∀ draft ∈ drafts, ∃ x, build draft = .ok x) ∧ drafts.Pairwise (ApartBy draftId?) := by
  rw [hadd.exists_foldlM_iff hs, ← exists_forall₂]
  constructor
  · rintro ⟨xs, hbuilt, hpairs, -⟩
    exact ⟨⟨xs, hbuilt⟩, (pairwise_apart_iff hid hbuilt).1 hpairs⟩
  · rintro ⟨⟨xs, hbuilt⟩, hpairs⟩
    exact ⟨xs, hbuilt, (pairwise_apart_iff hid hbuilt).2 hpairs, by simp [hempty]⟩

end Adding

structure ClassMapping.Coherent (c : ClassMapping) : Prop where
  methods : c.methods.Coherent MethodMapping.id?
  fields : c.fields.Coherent FieldMapping.name?

namespace ClassDraft

def name? (draft : ClassDraft) (ns : String) : Option String := lastGiven draft.names ns

/-- The descriptors of all members are valid, and no two members of one kind share an
identifier. -/
structure Valid (draft : ClassDraft) : Prop where
  methods : ∀ m ∈ draft.methods, m.Valid
  fields : ∀ f ∈ draft.fields, f.Valid
  methodsApart : draft.methods.Pairwise (ApartBy MethodDraft.id?)
  fieldsApart : draft.fields.Pairwise (ApartBy FieldDraft.name?)

/-- The class of a draft: the same members in the same order, each known by what was given last. -/
structure Becomes (draft : ClassDraft) (c : ClassMapping) : Prop where
  name : c.name? = draft.name?
  methods : List.Forall₂ (fun d m => MethodMapping.id? m = MethodDraft.id? d) draft.methods
    c.methods.entries
  fields : List.Forall₂ (fun d f => FieldMapping.name? f = FieldDraft.name? d) draft.fields
    c.fields.entries

theorem addsApart_methods (owner : String) :
    AddsApart MethodMapping.id? (MethodDraft.build owner) Registry.entries
      (Registry.Coherent MethodMapping.id?) (addMethod owner) :=
  addsApart_registry MethodMapping.lists_identifiers

theorem addsApart_fields (owner : String) :
    AddsApart FieldMapping.name? (FieldDraft.build owner) Registry.entries
      (Registry.Coherent FieldMapping.name?) (addField owner) :=
  addsApart_registry FieldMapping.lists_identifiers

theorem exists_build (draft : ClassDraft) : (∃ c, draft.build = .ok c) ↔ draft.Valid := by
  have hmethods := (addsApart_methods draft.owner).exists_foldlM MethodDraft.id?_of_build
    Registry.coherent_empty rfl draft.methods
  have hfields := (addsApart_fields draft.owner).exists_foldlM FieldDraft.name?_of_build
    Registry.coherent_empty rfl draft.fields
  simp only [MethodDraft.exists_build] at hmethods
  simp only [FieldDraft.exists_build] at hfields
  simp only [build, bind_eq_ok]
  constructor
  · rintro ⟨c, methods, hm, fields, hf, -⟩
    obtain ⟨hvalid, hapart⟩ := hmethods.1 ⟨methods, hm⟩
    obtain ⟨hvalid', hapart'⟩ := hfields.1 ⟨fields, hf⟩
    exact ⟨hvalid, hvalid', hapart, hapart'⟩
  · intro h
    obtain ⟨methods, hm⟩ := hmethods.2 ⟨h.methods, h.methodsApart⟩
    obtain ⟨fields, hf⟩ := hfields.2 ⟨h.fields, h.fieldsApart⟩
    exact ⟨_, methods, hm, fields, hf, rfl⟩

theorem build_eq_ok {draft : ClassDraft} {c : ClassMapping} (h : draft.build = .ok c) :
    draft.Becomes c ∧ c.Coherent := by
  obtain ⟨methods, hm, h⟩ := bind_eq_ok.1 h
  obtain ⟨fields, hf, h⟩ := bind_eq_ok.1 h
  cases h
  obtain ⟨hmethods, newMethods, hmentries, hmbuilt⟩ :=
    (addsApart_methods _).foldlM Registry.coherent_empty hm
  obtain ⟨hfields, newFields, hfentries, hfbuilt⟩ :=
    (addsApart_fields _).foldlM Registry.coherent_empty hf
  refine ⟨⟨?_, ?_, ?_⟩, hmethods, hfields⟩
  · funext ns
    have hnames := getElem?_insertMany draft.names ∅ ns
    simpa [ClassMapping.name?, name?, Std.TreeMap.ofList_eq_insertMany_empty] using hnames
  · rw [hmentries]
    exact hmbuilt.imp fun _ _ => MethodDraft.id?_of_build
  · rw [hfentries]
    exact hfbuilt.imp fun _ _ => FieldDraft.name?_of_build

end ClassDraft

namespace Mapping

theorem name?_of_build {draft : ClassDraft} {c : ClassMapping} (h : draft.build = .ok c) :
    c.name? = draft.name? :=
  (ClassDraft.build_eq_ok h).1.name

theorem Coherent.className?_symm {m : Mapping} (hm : m.Coherent)
    {source target name mapped : String} (h : m.className? source target name = some mapped) :
    m.className? target source mapped = some name := by
  obtain ⟨c, hc, hname⟩ := Option.bind_eq_some_iff.1 h
  exact hm.className?_of_class? hc hname

/-- A mapping can be built exactly if all descriptors are valid and no two classes, and no two
methods or fields of one class, share an identifier, where the last name in a namespace counts. It
then holds the elements that were given, its class names are a partial bijection between any two
namespaces, and the indices of the classes, and of the methods and fields of each, lead from every
identifier of an element to that element, and from nothing else. -/
theorem build_eq_ok_coherent (drafts : List ClassDraft) :
    ((∃ m, build drafts = .ok m) ↔
      (∀ draft ∈ drafts, draft.Valid) ∧ drafts.Pairwise (ApartBy ClassDraft.name?)) ∧
    ∀ m, build drafts = .ok m →
      List.Forall₂ ClassDraft.Becomes drafts m.classes.entries ∧
      (∀ source target name mapped, m.className? source target name = some mapped ↔
        m.className? target source mapped = some name) ∧
      m.Coherent ∧ ∀ c ∈ m.classes.entries, c.Coherent := by
  constructor
  · have hclasses := addsApart.exists_foldlM name?_of_build coherent_empty rfl drafts
    simp only [ClassDraft.exists_build] at hclasses
    exact hclasses
  · intro m h
    obtain ⟨hcoherent, new, hentries, hbuilt⟩ := addsApart.foldlM coherent_empty h
    have hentries : m.classes.entries = new := hentries
    rw [hentries]
    refine ⟨hbuilt.imp fun _ _ hc => (ClassDraft.build_eq_ok hc).1,
      fun _ _ _ _ => ⟨hcoherent.className?_symm, hcoherent.className?_symm⟩, hcoherent,
      fun c hc => ?_⟩
    obtain ⟨draft, hdraft⟩ := exists_forall₂.1 ⟨drafts, hbuilt.flip⟩ c hc
    exact (ClassDraft.build_eq_ok hdraft).2

/-- The first class, its first method and its first field get a name twice, which leaves the first
of the two to another. -/
def overwrittenNames : List ClassDraft :=
  [{ names := [("left", "a"), ("right", "x"), ("left", "b")],
     methods := [{ names := [("left", "m", "(La;)V"), ("left", "n", "()V")] },
       { names := [("left", "m", "(La;)I"), ("right", "n", "(Ly;)I")] }],
     fields := [{ names := [("left", "f", "I"), ("left", "g", "[J")] },
       { names := [("left", "f", "La;")] }] },
   { names := [("left", "a"), ("right", "y")] }]

theorem build_eq_ok_coherent_overwritten : ∃ m c, build overwrittenNames = .ok m ∧
    (∀ draft ∈ overwrittenNames, draft.Valid) ∧
    overwrittenNames.Pairwise (ApartBy ClassDraft.name?) ∧
    m.className? "left" "right" "a" = some "y" ∧ m.className? "right" "left" "y" = some "a" ∧
    m.class? "left" "b" = some c ∧ m.class? "right" "x" = some c ∧
    ∃ method, c.method? "left" ⟨"m", ["La;"]⟩ = some method ∧
      c.method? "right" ⟨"n", ["Ly;"]⟩ = some method := by
  have hrun : (build overwrittenNames).toOption.any
      (fun m => m.className? "left" "right" "a" = some "y" &&
        (m.class? "left" "b").any fun c => c.names["right"]? = some "x" &&
          (c.method? "left" ⟨"m", ["La;"]⟩).any fun method =>
            (method.names["right"]?).any fun name => name.id = ⟨"n", ["Ly;"]⟩) = true := by
    decide +kernel
  obtain ⟨m, hm, hrun⟩ := exists_ok_of_any hrun
  simp only [Bool.and_eq_true, decide_eq_true_eq, Option.any_eq_true] at hrun
  obtain ⟨hforth, c, hc, hx, method, hmethod, name, hname, hid⟩ := hrun
  obtain ⟨hiff, hcoherent⟩ := build_eq_ok_coherent overwrittenNames
  obtain ⟨hvalid, hapart⟩ := hiff.1 ⟨m, hm⟩
  obtain ⟨-, hback, hclasses, hmembers⟩ := hcoherent m hm
  -- the class and its method are among the entries, so their other identifiers lead to them too
  have hmem := (hclasses.class?_eq_some.1 hc).1
  have hmethods := (hmembers c hmem).methods.find?_eq_some
  refine ⟨m, c, hm, hvalid, hapart, hforth, (hback _ _ _ _).1 hforth, hc,
    hclasses.class?_eq_some.2 ⟨hmem, hx⟩, method, hmethod, ?_⟩
  refine (hmethods "right" ⟨"n", ["Ly;"]⟩ method).2 ⟨((hmethods _ _ _).1 hmethod).1, ?_⟩
  rw [MethodMapping.id?, hname, Option.map_some, hid]

end Mapping

end ClassArchive
