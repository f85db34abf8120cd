import ClassArchive.Proofs.MappingNames
import ClassArchive.Proofs.RenamedPool

/-!
A renamed class. Its indices stay valid: each slot of the pool denotes the renamed form of what it
denoted before, and the bodies of the methods keep their instructions and handlers.
-/
set_option autoImplicit false

namespace ClassArchive

/-! ### Lambda call sites -/

/-- A call site of a lambda factory and the interface method that it implements: the result type of
the call site is the interface, and the first argument of the factory gives the descriptor. -/
inductive LambdaSite (pool : Pool) (bootstraps : List BootstrapMethod) (bootstrap : UInt16)
    (descriptor : String) : LambdaMethod → Prop where
  | intro {method : BootstrapMethod} {kind : UInt8} {reference argument sam : UInt16}
      {rest : List UInt16} {factory : Pool.MemberName} {d : MethodDescriptor}
      {interface samDescriptor : String} :
      bootstraps[bootstrap.toNat]? = some method →
      pool.slot? method.method = some (.methodHandle kind reference) →
      pool.member reference = .ok factory → factory.owner = lambdaFactoryClass →
      (factory.name = "metafactory" ∨ factory.name = "altMetafactory") →
      method.arguments = argument :: rest → pool.slot? argument = some (.methodType sam) →
      pool.text sam = .ok samDescriptor → MethodDescriptor.parse descriptor = .ok d →
      Descriptor.className? d.result = some interface →
      LambdaSite pool bootstraps bootstrap descriptor ⟨interface, samDescriptor⟩

theorem lambdaSite_of_lambdaAt? {r : ClassRenamer} {bootstrap : UInt16} {descriptor : String}
    {m : LambdaMethod} (h : r.lambdaAt? bootstrap descriptor = .ok (some m)) :
    LambdaSite r.snapshot r.bootstraps bootstrap descriptor m := by
  unfold ClassRenamer.lambdaAt? at h
  split at h
  · next method hmethod =>
    obtain ⟨c, hentry, h⟩ := bind_eq_ok.1 h
    split at h
    · next kind reference =>
      obtain ⟨factory, hfactory, h⟩ := bind_eq_ok.1 h
      split at h
      · cases h
      · next hlambda =>
        simp only [ne_eq, not_or, not_and, Decidable.not_not] at hlambda
        split at h
        · next argument rest hargs =>
          obtain ⟨c, hargument, h⟩ := bind_eq_ok.1 h
          split at h
          · next sam =>
            obtain ⟨d, hd, h⟩ := bind_eq_ok.1 h
            split at h
            · next interface hinterface =>
              obtain ⟨samDescriptor, hsam, h⟩ := bind_eq_ok.1 h
              cases h
              refine .intro hmethod (Pool.entry_eq_ok.1 hentry).1 hfactory hlambda.1 ?_ hargs
                (Pool.entry_eq_ok.1 hargument).1 hsam hd hinterface
              by_cases hname : factory.name = "metafactory"
              · exact .inl hname
              · exact .inr (hlambda.2 hname)
            · cases h
          · cases h
        · cases h
    · cases h
  · cases h

theorem lambdaAt?_of_lambdaSite {r : ClassRenamer} {bootstrap : UInt16} {descriptor : String}
    {m : LambdaMethod} (h : LambdaSite r.snapshot r.bootstraps bootstrap descriptor m) :
    r.lambdaAt? bootstrap descriptor = .ok (some m) := by
  obtain @⟨method, kind, reference, argument, sam, rest, factory, d, interface, samDescriptor,
    hmethod, hhandle, hfactory, howner, hname, hargs, hargument, hsam, hd, hinterface⟩ := h
  have hentry := Pool.entry_eq_ok.2 ⟨hhandle, by simp⟩
  have hargument := Pool.entry_eq_ok.2 ⟨hargument, by simp⟩
  have hlambda : ¬ (factory.owner ≠ lambdaFactoryClass ∨
      (factory.name ≠ "metafactory" ∧ factory.name ≠ "altMetafactory")) := by
    rintro (hne | ⟨hne, hne'⟩)
    · exact hne howner
    · exact hname.elim hne hne'
  simp only [ClassRenamer.lambdaAt?, hmethod, lambdaMethod?]
  simp only [bind, Except.bind, hentry, hfactory, if_neg hlambda, hargs, hargument, hd, hinterface,
    hsam]
  rfl

/-! ### The renamed class -/

def RenamedMember (names : Renamer) (name : Pool.MemberName → Except ArchiveError String)
    (descriptor : String → Except ArchiveError String) (old new : Pool) (i : UInt16) : Prop :=
  ∃ m m', old.member i = .ok m ∧ new.member i = .ok m' ∧ names.typeName m.owner = .ok m'.owner ∧
    name m = .ok m'.name ∧ descriptor m.descriptor = .ok m'.descriptor

/-- What the slot of a constant holds after a renaming, in terms of what it denoted before. -/
def RenamedAt (names : Renamer) (bootstraps : List BootstrapMethod) (old new : Pool) (i : UInt16) :
    Constant → Prop
  | .classInfo _ => ∃ s t, old.className i = .ok s ∧ names.typeName s = .ok t ∧
      new.className i = .ok t
  | .fieldRef owner _ => (∃ pair, new.slot? i = some (.fieldRef owner pair)) ∧
      RenamedMember names (fun m => names.fieldName m.owner m.name) names.descriptor old new i
  | .methodRef owner _ => (∃ pair, new.slot? i = some (.methodRef owner pair)) ∧
      RenamedMember names (fun m => names.methodName m.owner m.name m.descriptor)
        names.methodDescriptor old new i
  | .interfaceMethodRef owner _ => (∃ pair, new.slot? i = some (.interfaceMethodRef owner pair)) ∧
      RenamedMember names (fun m => names.methodName m.owner m.name m.descriptor)
        names.methodDescriptor old new i
  | .methodType d => ∃ d' s t, new.slot? i = some (.methodType d') ∧ old.text d = .ok s ∧
      names.methodDescriptor s = .ok t ∧ new.text d' = .ok t
  | .dynamic bootstrap pair => ∃ pair' s d t, new.slot? i = some (.dynamic bootstrap pair') ∧
      old.nameAndType pair = .ok (s, d) ∧ names.descriptor d = .ok t ∧
      new.nameAndType pair' = .ok (s, t)
  | .invokeDynamic bootstrap pair => ∃ pair' s s' d t,
      new.slot? i = some (.invokeDynamic bootstrap pair') ∧
      old.nameAndType pair = .ok (s, d) ∧ names.methodDescriptor d = .ok t ∧
      new.nameAndType pair' = .ok (s', t) ∧
      ((∃ m, LambdaSite old bootstraps bootstrap d m ∧
          names.methodName m.interface s m.descriptor = .ok s') ∨
        ((∀ m, ¬ LambdaSite old bootstraps bootstrap d m) ∧ s' = s))
  | c => new.slot? i = some c

section Denotation

variable {r : ClassRenamer} {q : Pool}
  (hall : ∀ i c, r.snapshot.slot? i = some c → ∃ c', q.slot? i = some c' ∧ r.Rewrites q i c c')
include hall

theorem className_of_rewrites {i : UInt16} {s : String} (h : r.snapshot.className i = .ok s) :
    ∃ t, r.names.typeName s = .ok t ∧ q.className i = .ok t := by
  obtain ⟨k, hi, hk⟩ := Pool.className_eq_ok.1 h
  obtain ⟨c', hc', n', s', t, rfl, hs', ht, htext⟩ := hall i _ hi
  rw [Pool.text_eq_ok.2 hk] at hs'
  cases hs'
  exact ⟨t, ht, Pool.className_eq_ok.2 ⟨n', hc', Pool.text_eq_ok.1 htext⟩⟩

theorem renamedMember_of_rewrites {name : Pool.MemberName → Except ArchiveError String}
    {descriptor : String → Except ArchiveError String} {i : UInt16} {c c' : Constant}
    {owner pair pair' : UInt16} {m : Pool.MemberName} {s t : String}
    (hc : r.snapshot.slot? i = some c) (href : Pool.reference? c = some (owner, pair))
    (hc' : q.slot? i = some c') (href' : Pool.reference? c' = some (owner, pair'))
    (hm : r.snapshot.member i = .ok m) (hname : name m = .ok s)
    (hdescriptor : descriptor m.descriptor = .ok t) (hpair : q.nameAndType pair' = .ok (s, t)) :
    RenamedMember r.names name descriptor r.snapshot q i := by
  obtain ⟨d, o, p, hd, hrefd, howner, -⟩ := Pool.member_eq_ok.1 hm
  rw [hc] at hd
  cases hd
  rw [href] at hrefd
  cases hrefd
  obtain ⟨o', ho', hclass⟩ := className_of_rewrites hall howner
  exact ⟨m, ⟨o', s, t⟩, hm, Pool.member_eq_ok.2 ⟨c', owner, pair', hc', href', hclass, hpair⟩, ho',
    hname, hdescriptor⟩

theorem renamedAt_of_rewrites {i : UInt16} {c : Constant} (hc : r.snapshot.slot? i = some c) :
    RenamedAt r.names r.bootstraps r.snapshot q i c := by
  obtain ⟨c', hc', h⟩ := hall i c hc
  cases c with
  | classInfo n =>
    obtain ⟨n', s, t, rfl, hs, ht, htext⟩ := h
    exact ⟨s, t, Pool.className_eq_ok.2 ⟨n, hc, Pool.text_eq_ok.1 hs⟩, ht,
      Pool.className_eq_ok.2 ⟨n', hc', Pool.text_eq_ok.1 htext⟩⟩
  | fieldRef o p | methodRef o p | interfaceMethodRef o p =>
    obtain ⟨pair, m, s, t, rfl, hm, hs, ht, hpair⟩ := h
    exact ⟨⟨pair, hc'⟩, renamedMember_of_rewrites hall hc rfl hc' rfl hm hs ht hpair⟩
  | methodType d =>
    obtain ⟨d', s, t, rfl, hs, ht, htext⟩ := h
    exact ⟨d', s, t, hc', hs, ht, htext⟩
  | dynamic b p =>
    obtain ⟨pair, s, d, t, rfl, hp, ht, hpair⟩ := h
    exact ⟨pair, s, d, t, hc', hp, ht, hpair⟩
  | invokeDynamic b p =>
    obtain ⟨pair, s, d, lambda, s', t, rfl, hp, hlambda, hs', ht, hpair⟩ := h
    refine ⟨pair, s, s', d, t, hc', hp, ht, hpair, ?_⟩
    cases lambda with
    | some m => exact .inl ⟨m, lambdaSite_of_lambdaAt? hlambda, hs'⟩
    | none =>
      cases hs'
      refine .inr ⟨fun m hm => ?_, rfl⟩
      rw [lambdaAt?_of_lambdaSite hm] at hlambda
      cases hlambda
  | _ =>
    cases h
    exact hc'

end Denotation

theorem renameAll_eq_ok {r : ClassRenamer} {c c' : ClassFile} {p q : Pool}
    (h : r.renameAll c p = .ok (c', q)) :
    (∃ u mid, r.renameConstants p = .ok (u, mid) ∧ Pool.Stocked mid q) ∧
      List.Forall₂ (fun m m' => List.Forall₂ (ClassRenamer.SameBody r.snapshot) m.attributes
        m'.attributes) c.methods c'.methods := by
  obtain ⟨u, p₁, hconstants, h⟩ := state_bind_eq_ok.1 h
  obtain ⟨fields, p₂, hfields, h⟩ := state_bind_eq_ok.1 h
  obtain ⟨methods, p₃, hmethods, h⟩ := state_bind_eq_ok.1 h
  obtain ⟨attributes, p₄, hattributes, h⟩ := state_bind_eq_ok.1 h
  cases h
  have hg₂ := (Renaming.yields_mapM _ (fun m _ => r.yields_renameFieldMember m) _ _ _ hfields).1
  obtain ⟨hg₃, hbodies⟩ :=
    Renaming.yields_mapM _ (fun m _ => r.yields_renameMethodMember m) _ _ _ hmethods
  have hg₄ := (Renaming.yields_mapM _ (fun a _ => r.yields_renameAttribute a) _ _ _ hattributes).1
  exact ⟨⟨u, p₁, hconstants, hg₂.trans (hg₃.trans hg₄)⟩, hbodies⟩

theorem size_le_of_slots {p q : Pool} (hsmall : p.slots.size ≤ 65535)
    (h : ∀ i c, p.slot? i = some c → ∃ c', q.slot? i = some c') :
    p.slots.size ≤ q.slots.size := by
  cases hsize : p.slots.size with
  | zero => exact Nat.zero_le _
  | succ n =>
    have hlast : (UInt16.ofNat (n + 1)).toNat = n + 1 := by
      rw [UInt16.toNat_ofNat']
      omega
    have hn : n < p.slots.toList.length := by simp [hsize]
    obtain ⟨c', hc'⟩ := h (UInt16.ofNat (n + 1)) (p.slots.toList[n])
      (Pool.slot?_eq_some.2 ⟨by omega, by rw [hlast]; exact List.getElem?_eq_getElem hn⟩)
    have hlt := (List.getElem?_eq_some_iff.1 (Pool.slot?_eq_some.1 hc').2).1
    rw [hlast, Array.length_toList] at hlt
    omega

/-- A renamed class keeps its indices: each slot of its pool denotes the renamed thing, slots are
only added behind them, and the bodies of the methods are the same but for their attributes. -/
theorem Renamer.renamedAt_classFile (names : Renamer) {data : Bytes} {c c' : ClassFile}
    (h : ClassFile.decode data = .ok c) (h' : names.classFile c = .ok c') :
    (∃ bootstraps, bootstrapMethods c.pool c.attributes = .ok bootstraps ∧
      ∀ i constant, c.pool.slot? i = some constant →
        RenamedAt names bootstraps c.pool c'.pool i constant) ∧
    c.pool.slots.size ≤ c'.pool.slots.size ∧
    List.Forall₂ (fun m m' => List.Forall₂ (ClassRenamer.SameBody c.pool) m.attributes
      m'.attributes) c.methods c'.methods := by
  obtain ⟨className, _, h'⟩ := bind_eq_ok.1 h'
  obtain ⟨bootstraps, hbootstraps, h'⟩ := bind_eq_ok.1 h'
  obtain ⟨⟨renamed, pool⟩, hrename, h'⟩ := bind_eq_ok.1 h'
  cases h'
  obtain ⟨⟨u, mid, hconstants, hgrown⟩, hbodies⟩ := renameAll_eq_ok hrename
  have hindexed := indexed_decode h
  let r : ClassRenamer := { names, snapshot := c.pool, bootstraps, className }
  have hall : ∀ i k, c.pool.slot? i = some k →
      ∃ k', pool.slot? i = some k' ∧ r.Rewrites pool i k k' := by
    intro i k hk
    obtain ⟨k', hk', hrewrites⟩ := ClassRenamer.rewrites_renameConstants hindexed hconstants hk
    exact ⟨k', hgrown.extends i k' hk', hrewrites.mono hgrown.extends.keepsNames⟩
  refine ⟨⟨bootstraps, lift_eq_ok.1 hbootstraps, ?_⟩, ?_, hbodies⟩
  · intro i k hk
    exact renamedAt_of_rewrites (r := r) hall hk
  · refine size_le_of_slots hindexed.small fun i k hk => ?_
    obtain ⟨k', hk', _⟩ := hall i k hk
    exact ⟨k', hk'⟩

/-- A class whose name is a string literal too, with a method that has a body. -/
def literalClass : ClassFile where
  pool := Pool.ofSlots #[.utf8 "A", .classInfo 1, .string 1, .utf8 "<init>", .utf8 "(LA;)V",
    .nameAndType 4 5, .methodRef 2 6, .utf8 "<clinit>", .utf8 "()V", .utf8 "Code"]
  thisClass := 2
  methods := [⟨8, 8, 9, [⟨10, { maxStack := 0, maxLocals := 0, code := [177] : Code }.encode⟩]⟩]

def renamerAB : Renamer where
  mapping := .ofDrafts [{ names := [("left", "A"), ("right", "B")] }]
  source := "left"
  target := "right"
  tree := {}
  headers := fun _ => none

/-- The class gets its new name, and the literal that shared a text with it stays. -/
theorem Renamer.renamedAt_classFile_literal : ∃ c c',
    ClassFile.decode literalClass.encode = .ok c ∧ renamerAB.classFile c = .ok c' ∧
    c'.pool.className 2 = .ok "B" ∧ c'.pool.slot? 3 = some (.string 1) ∧
    ∃ pair, c'.pool.slot? 7 = some (.methodRef 2 pair) := by
  have hrun : (ClassFile.decode literalClass.encode).toOption.any (fun c =>
      (c.pool.slot? 1 = some (.utf8 "A") && c.pool.slot? 2 = some (.classInfo 1) &&
        c.pool.slot? 3 = some (.string 1) && c.pool.slot? 7 = some (.methodRef 2 6)) &&
      (renamerAB.classFile c).toOption.any fun _ => true) = true := by
    decide +kernel
  obtain ⟨c, hc, hrun⟩ := exists_ok_of_any hrun
  simp only [Bool.and_eq_true, decide_eq_true_eq] at hrun
  obtain ⟨⟨⟨⟨hname, hclass⟩, hstring⟩, hmethod⟩, hrun⟩ := hrun
  obtain ⟨c', hc', -⟩ := exists_ok_of_any hrun
  obtain ⟨⟨_, _, hall⟩, _, _⟩ := renamerAB.renamedAt_classFile hc hc'
  obtain ⟨s, t, hs, ht, hB⟩ := hall 2 _ hclass
  rw [Pool.className_eq_ok.2 ⟨1, hclass, hname⟩] at hs
  cases hs
  have hAB : renamerAB.typeName "A" = .ok "B" := by decide +kernel
  rw [hAB] at ht
  cases ht
  exact ⟨c, c', hc, hc', hB, hall 3 _ hstring, (hall 7 _ hmethod).1⟩

end ClassArchive
