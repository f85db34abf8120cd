import ClassArchive.Proofs.RenamedAttributes
import ClassArchive.Proofs.RenamedClass

/-!
The declarations of a renamed class. Its fields and methods come after the constants: the pool is
live by then, so each of them finds the names that it had, and the names that one of them is given
stay where the next one appends its own.
-/
set_option autoImplicit false

namespace ClassArchive

structure RenamedDeclaration (names : Renamer) (className : String) (old new : Pool)
    (name : String → String → Except ArchiveError String)
    (descriptor : String → Except ArchiveError String) (m m' : Member) : Prop where
  access : m'.access = m.access
  renamed : RenamedNames old new name descriptor (m.name, m.descriptor) (m'.name, m'.descriptor)
  attributes : List.Forall₂ (RenamedAttribute names className old new) m.attributes m'.attributes

namespace ClassRenamer

open Renaming

variable (r : ClassRenamer)

abbrev FieldImage (new : Pool) : Member → Member → Prop :=
  RenamedDeclaration r.names r.className r.snapshot new
    (fun name _ => r.names.fieldName r.className name) r.names.descriptor

abbrev MethodImage (new : Pool) : Member → Member → Prop :=
  RenamedDeclaration r.names r.className r.snapshot new (r.names.methodName r.className)
    r.names.methodDescriptor

theorem ensures_renameFieldMember (m : Member) :
    r.Ensures (r.renameFieldMember m) fun new => r.FieldImage new m := by
  refine (r.ensures_renameField m.name m.descriptor).bind fun pair => ?_
  refine (ensures_mapM m.attributes fun a _ => r.ensures_renameAttribute a).bind fun as => ?_
  exact ensures_pure fun _ hattributes hnames => ⟨rfl, hnames, hattributes⟩

theorem ensures_renameMethodMember (m : Member) :
    r.Ensures (r.renameMethodMember m) fun new => r.MethodImage new m := by
  refine (yields_read _).ensures fun s hs => (yields_read _).ensures fun d hd => ?_
  refine (yields_rename _).ensures fun s' hs' => ?_
  refine (r.ensures_replaceText m.name s').bind fun i => ?_
  refine (r.ensures_renameText r.names.methodDescriptor m.descriptor).bind fun j => ?_
  refine (ensures_mapM m.attributes fun a _ => r.ensures_renameAttribute a).bind fun as => ?_
  refine ensures_pure fun new hattributes => ?_
  rintro ⟨_, d', hd', hrenamed, hj⟩ hi
  cases hd.symm.trans hd'
  exact ⟨rfl, ⟨s, d, s', d', hs, hd, hs', hrenamed, hi, hj⟩, hattributes⟩

theorem live_renameConstants (hr : r.snapshot.Indexed) {q : Pool} {u : Unit}
    (h : r.renameConstants r.snapshot = .ok (u, q)) : r.Live q := by
  have hslots : ∀ e ∈ r.snapshot.entries, r.snapshot.slot? e.1 = some e.2 :=
    fun e he => ((Pool.mem_entries hr.small).1 he).1
  exact (rewrites_forM _ (Pool.nodup_entries hr.small) (live_snapshot hr) hslots h).1

theorem renamed_renameAll (hr : r.snapshot.Indexed) {c c' : ClassFile} {q : Pool}
    (h : r.renameAll c r.snapshot = .ok (c', q)) :
    r.snapshot.KeepsNames q ∧
      c' = { c with fields := c'.fields, methods := c'.methods, attributes := c'.attributes } ∧
      List.Forall₂ (r.FieldImage q) c.fields c'.fields ∧
      List.Forall₂ (r.MethodImage q) c.methods c'.methods ∧
      List.Forall₂ (r.Image q) c.attributes c'.attributes := by
  obtain ⟨u, mid, hconstants, h⟩ := state_bind_eq_ok.1 h
  -- constants are replaced in place, which the steps after them never do
  have hmid := r.live_renameConstants hr hconstants
  have hmembers : r.Ensures (do
      let fields ← c.fields.mapM r.renameFieldMember
      let methods ← c.methods.mapM r.renameMethodMember
      let attributes ← c.attributes.mapM r.renameAttribute
      return { c with fields, methods, attributes }) fun new c' =>
      c' = { c with fields := c'.fields, methods := c'.methods, attributes := c'.attributes } ∧
      List.Forall₂ (r.FieldImage new) c.fields c'.fields ∧
      List.Forall₂ (r.MethodImage new) c.methods c'.methods ∧
      List.Forall₂ (r.Image new) c.attributes c'.attributes := by
    refine (ensures_mapM _ fun m _ => r.ensures_renameFieldMember m).bind fun fields => ?_
    refine (ensures_mapM _ fun m _ => r.ensures_renameMethodMember m).bind fun methods => ?_
    refine (ensures_mapM _ fun a _ => r.ensures_renameAttribute a).bind fun attributes => ?_
    exact ensures_pure fun _ hattributes hmethods hfields =>
      ⟨rfl, hfields, hmethods, hattributes⟩
  obtain ⟨hgrown, hall⟩ := hmembers hmid h
  exact ⟨(hmid.grown hgrown).keeps, hall q (.refl q)⟩

end ClassRenamer

/-- Everything that a class declares is renamed: fields, methods and attributes at every depth, each
compared in the old and the new pool. Indices that a renaming leaves alone denote the text that they
did, or the new name of the class. -/
theorem Renamer.renamed_classFile (names : Renamer) {data : Bytes} {c c' : ClassFile}
    (h : ClassFile.decode data = .ok c) (h' : names.classFile c = .ok c') :
    (∀ i s, c.pool.text i = .ok s → c'.pool.text i = .ok s) ∧
    (∀ i s, c.pool.className i = .ok s →
      ∃ t, names.typeName s = .ok t ∧ c'.pool.className i = .ok t) ∧
    c' = { c with pool := c'.pool, fields := c'.fields, methods := c'.methods,
                  attributes := c'.attributes } ∧
    ∃ className, c.name = .ok className ∧
      List.Forall₂ (RenamedDeclaration names className c.pool c'.pool
        (fun name _ => names.fieldName className name) names.descriptor) c.fields c'.fields ∧
      List.Forall₂ (RenamedDeclaration names className c.pool c'.pool
        (names.methodName className) names.methodDescriptor) c.methods c'.methods ∧
      List.Forall₂ (RenamedAttribute names className c.pool c'.pool) c.attributes
        c'.attributes := by
  obtain ⟨className, hname, h'⟩ := bind_eq_ok.1 h'
  obtain ⟨bootstraps, hbootstraps, h'⟩ := bind_eq_ok.1 h'
  obtain ⟨⟨renamed, pool⟩, hrename, h'⟩ := bind_eq_ok.1 h'
  cases h'
  have hindexed := indexed_decode h
  let r : ClassRenamer := { names, snapshot := c.pool, bootstraps, className }
  obtain ⟨hnames, heq, hfields, hmethods, hattributes⟩ := r.renamed_renameAll hindexed hrename
  obtain ⟨⟨u, mid, hconstants, hgrown⟩, -⟩ := renameAll_eq_ok hrename
  refine ⟨fun i s hs => hnames.text hs, fun i s hs => ?_, ?_, className, lift_eq_ok.1 hname,
    hfields, hmethods, hattributes⟩
  · obtain ⟨t, ht, hclass⟩ := className_of_rewrites (r := r)
      (fun _ _ hk => ClassRenamer.rewrites_renameConstants hindexed hconstants hk) hs
    exact ⟨t, ht, hgrown.extends.className hclass⟩
  · rw [heq]

/-- A class with a descriptor in its signature, in a table inside a body, and twice in a list. -/
def describedClass : ClassFile where
  pool := Pool.ofSlots #[.utf8 "A", .classInfo 1, .utf8 "<init>", .utf8 "(LA;)V", .utf8 "LA;",
    .utf8 "Code", .utf8 "LocalVariableTable", .utf8 "AnnotationDefault", .utf8 "Signature"]
  thisClass := 2
  methods := [⟨0, 3, 4, [
    ⟨6, { maxStack := 0, maxLocals := 2, code := [177],
          attributes := [⟨7, LocalVariable.encodeTable [⟨0, 1, 1, 5, 1⟩]⟩] : Code }.encode⟩,
    ⟨8, (ElementValue.array [.classLiteral 5, .nested 5 []]).encode⟩]⟩]
  attributes := [⟨9, be16 5⟩]

theorem Renamer.renamed_classFile_described : ∃ c c' m a,
    ClassFile.decode describedClass.encode = .ok c ∧ renamerAB.classFile c = .ok c' ∧
    c'.methods = [m] ∧ c'.attributes = [a] ∧
    c'.pool.text m.name = .ok "<init>" ∧ c'.pool.text m.descriptor = .ok "(LB;)V" ∧
    List.Forall₂ (RenamedAttribute renamerAB "A" c.pool c'.pool)
      (describedClass.methods.flatMap Member.attributes) m.attributes ∧
    RenamedAttribute renamerAB "A" c.pool c'.pool ⟨9, be16 5⟩ a := by
  have hrun : (ClassFile.decode describedClass.encode).toOption.any (fun c =>
      (c.methods = describedClass.methods && c.attributes = describedClass.attributes &&
        c.pool.slot? 3 = some (.utf8 "<init>") && c.pool.slot? 4 = some (.utf8 "(LA;)V") &&
        c.name.toOption = some "A") &&
      (renamerAB.classFile c).toOption.any fun _ => true) = true := by
    decide +kernel
  obtain ⟨c, hc, hrun⟩ := exists_ok_of_any hrun
  simp only [Bool.and_eq_true, decide_eq_true_eq, toOption_eq_some] at hrun
  obtain ⟨⟨⟨⟨⟨hmethods, hattributes⟩, hname⟩, hdescriptor⟩, hclass⟩, hrun⟩ := hrun
  obtain ⟨c', hc', -⟩ := exists_ok_of_any hrun
  obtain ⟨-, -, -, className, hA, -, hall, hall'⟩ := renamerAB.renamed_classFile hc hc'
  cases hclass.symm.trans hA
  rw [hmethods] at hall
  rw [hattributes] at hall'
  obtain ⟨m, ms, hm, hms, heq⟩ := List.forall₂_cons_left_iff.1 hall
  obtain ⟨a, as, ha, has, heq'⟩ := List.forall₂_cons_left_iff.1 hall'
  cases hms
  cases has
  obtain ⟨s, d, s', d', hs, hd, hs', hd', hnew, hnew'⟩ := hm.renamed
  rw [Pool.text_eq_ok.2 hname] at hs
  rw [Pool.text_eq_ok.2 hdescriptor] at hd
  cases hs
  cases hd
  have hinit : renamerAB.methodName "A" "<init>" "(LA;)V" = .ok "<init>" := rfl
  have hAB : renamerAB.methodDescriptor "(LA;)V" = .ok "(LB;)V" :=
    toOption_eq_some.1 (by decide +kernel)
  cases hinit.symm.trans hs'
  cases hAB.symm.trans hd'
  exact ⟨c, c', m, a, hc, hc', heq, heq', hnew, hnew', hm.attributes, ha⟩

end ClassArchive
