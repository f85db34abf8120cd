import ClassArchive.Proofs.PoolRecall

/-!
Pools under any sequence of edits. A request for a content is answered with the first slot that ever
held it. The answer is right exactly as long as that slot still denotes the content; a slot that was
given another constant in between is answered all the same.
-/
set_option autoImplicit false

namespace ClassArchive.Pool

/-! ### The log of a pool -/

/-- Whether the tables record, for each shared constant, its first index in a log of writes. -/
def Logs (p : Pool) (log : List (UInt16 × Constant)) : Prop :=
  ∀ c, c.isShared = true → p.recorded? c = firstIndex log c

theorem recorded?_push {p q : Pool} {c : Constant} {i : UInt16} (h : push c p = .ok i q)
    (d : Constant) :
    q.recorded? d = (p.recorded? d).or (if c = d ∧ d.isShared = true then some i else none) := by
  obtain ⟨_, _, rfl⟩ := push_eq_ok h
  rw [recorded?_note, recorded?_with_slots]

theorem recorded?_grown {p q : Pool} (h : Grown p q) {c : Constant} {i : UInt16}
    (hc : p.recorded? c = some i) : q.recorded? c = some i := by
  induction h with
  | refl => exact hc
  | push _ hpush ih => rw [recorded?_push hpush, ih, Option.some_or]

theorem index_push {p q : Pool} {c : Constant} {i : UInt16} (h : push c p = .ok i q) :
    (p.slots.size + 1).toUInt16 = i := by
  obtain ⟨hcapacity, hi, _⟩ := push_eq_ok h
  rw [← hi]
  simp

theorem firstIndex_filling (n : Nat) (c : Constant) {d : Constant} (hd : d.isShared = true) :
    firstIndex (numberedFrom n (filling c)) d = if c = d then some n.toUInt16 else none := by
  have hunusable : Constant.unusable ≠ d := by
    rintro rfl
    simp [Constant.isShared] at hd
  unfold filling
  split
  · simp only [numberedFrom, firstIndex_cons, firstIndex_nil, hunusable, if_false]
  · simp only [numberedFrom, firstIndex_cons, firstIndex_nil]

theorem Logs.push {p q : Pool} {log : List (UInt16 × Constant)} {c : Constant} {i : UInt16}
    (hp : p.Logs log) (h : push c p = .ok i q) :
    q.Logs (log ++ numberedFrom (p.slots.size + 1) (filling c)) := by
  intro d hd
  rw [recorded?_push h, firstIndex_append, firstIndex_filling _ _ hd, hp d hd, index_push h]
  simp [hd]

theorem numberedFrom_append (n : Nat) (l m : List Constant) :
    numberedFrom n (l ++ m) = numberedFrom n l ++ numberedFrom (n + l.length) m := by
  induction l generalizing n with
  | nil => simp [numberedFrom]
  | cons c l ih =>
    have hn : n + 1 + l.length = n + (c :: l).length := by
      simp only [List.length_cons]
      omega
    simp only [List.cons_append, numberedFrom, ih, hn]

theorem Grown.size_le {p q : Pool} (h : Grown p q) : p.slots.size ≤ q.slots.size := by
  induction h with
  | refl => exact Nat.le_refl _
  | push _ hpush ih =>
    have hlength := congrArg List.length (slots_push hpush)
    simp only [Array.length_toList, List.length_append] at hlength
    omega

def appended (p q : Pool) : List (UInt16 × Constant) :=
  numberedFrom (p.slots.size + 1) (q.slots.toList.drop p.slots.size)

theorem Logs.grown {p q : Pool} {log : List (UInt16 × Constant)} (hp : p.Logs log)
    (h : Grown p q) : q.Logs (log ++ appended p q) := by
  induction h with
  | refl =>
    have hnone : appended p p = [] := by
      rw [appended, List.drop_eq_nil_of_le (by simp), numberedFrom]
    rwa [hnone, List.append_nil]
  | @push q r c i hgrown hpush ih =>
    have hle := hgrown.size_le
    have happended :
        appended p r = appended p q ++ numberedFrom (q.slots.size + 1) (filling c) := by
      unfold appended
      rw [slots_push hpush, List.drop_append_of_le_length (by simpa using hle),
        numberedFrom_append, List.length_drop, Array.length_toList]
      have hn : p.slots.size + 1 + (q.slots.size - p.slots.size) = q.slots.size + 1 := by omega
      rw [hn]
    rw [happended, ← List.append_assoc]
    exact ih.push hpush

theorem Logs.replace {p q : Pool} {log : List (UInt16 × Constant)} {i : UInt16} {c : Constant}
    {u : Unit} (hp : p.Logs log) (h : replace i c p = .ok u q) : q.Logs (log ++ [(i, c)]) := by
  intro d hd
  obtain ⟨_, _, _, _, rfl⟩ := replace_eq_ok h
  rw [recorded?_note, recorded?_with_slots, firstIndex_append, hp d hd, firstIndex_cons]
  simp [hd, firstIndex_nil]

/-! ### Contents -/

inductive Content where
  | text (s : String)
  | classInfo (name : String)
  | pair (name descriptor : String)
  deriving DecidableEq, Repr

namespace Content

def add : Content → Edit UInt16
  | .text s => addText s
  | .classInfo name => addClass name
  | .pair name descriptor => addNameAndType name descriptor

def find (look : Constant → Option UInt16) : Content → Option UInt16
  | .text s => look (.utf8 s)
  | .classInfo name => (look (.utf8 name)).bind fun n => look (.classInfo n)
  | .pair name descriptor => (look (.utf8 name)).bind fun n =>
      (look (.utf8 descriptor)).bind fun d => look (.nameAndType n d)

def Denotes (pool : Pool) (i : UInt16) : Content → Prop
  | .text s => pool.text i = .ok s
  | .classInfo name => pool.className i = .ok name
  | .pair name descriptor => pool.nameAndType i = .ok (name, descriptor)

theorem find_eq_of_logs {p : Pool} {log : List (UInt16 × Constant)} (hp : p.Logs log)
    (content : Content) : content.find p.recorded? = content.find (firstIndex log) := by
  have htext : ∀ s, p.recorded? (.utf8 s) = firstIndex log (.utf8 s) := fun s => hp _ rfl
  have hclass : ∀ n, p.recorded? (.classInfo n) = firstIndex log (.classInfo n) := fun n => hp _ rfl
  have hpair : ∀ n d, p.recorded? (.nameAndType n d) = firstIndex log (.nameAndType n d) :=
    fun n d => hp _ rfl
  cases content with
  | text s => exact htext s
  | classInfo name => simp only [find, htext, hclass]
  | pair name descriptor => simp only [find, htext, hpair]

theorem find_grown {p q : Pool} (h : Grown p q) {content : Content} {i : UInt16}
    (hp : content.find p.recorded? = some i) : content.find q.recorded? = some i := by
  cases content with
  | text s => exact recorded?_grown (c := .utf8 s) h hp
  | classInfo name =>
    obtain ⟨n, hn, hi⟩ := Option.bind_eq_some_iff.1 hp
    simp only [find, recorded?_grown h hn, Option.bind_some, recorded?_grown h hi]
  | pair name descriptor =>
    obtain ⟨n, hn, hp⟩ := Option.bind_eq_some_iff.1 hp
    obtain ⟨d, hd, hi⟩ := Option.bind_eq_some_iff.1 hp
    simp only [find, recorded?_grown h hn, recorded?_grown h hd, Option.bind_some,
      recorded?_grown h hi]

theorem recorded?_of_reuse {p q : Pool} {c : Constant} {i : UInt16} (hc : c.isShared = true)
    (h : (p.recorded? c = some i ∧ q = p) ∨ (p.recorded? c = none ∧ push c p = .ok i q)) :
    Grown p q ∧ q.recorded? c = some i := by
  obtain ⟨hrec, rfl⟩ | ⟨hnone, hpush⟩ := h
  · exact ⟨.refl, hrec⟩
  · refine ⟨.push .refl hpush, ?_⟩
    rw [recorded?_push hpush, hnone]
    simp [hc]

theorem find_add (content : Content) {p q : Pool} {i : UInt16} (h : content.add p = .ok i q) :
    Grown p q ∧ content.find q.recorded? = some i := by
  cases content with
  | text s => exact recorded?_of_reuse rfl (addText_eq_ok h)
  | classInfo name =>
    obtain ⟨n, r, htext, h⟩ := addClass_eq_ok h
    obtain ⟨hgr, hn⟩ := recorded?_of_reuse rfl (addText_eq_ok htext)
    obtain ⟨hgq, hi⟩ := recorded?_of_reuse rfl h
    refine ⟨hgr.trans hgq, ?_⟩
    simp only [find, recorded?_grown hgq hn, Option.bind_some, hi]
  | pair name descriptor =>
    obtain ⟨n, r, d, o, hname, hdescriptor, h⟩ := addNameAndType_eq_ok h
    obtain ⟨hgr, hn⟩ := recorded?_of_reuse rfl (addText_eq_ok hname)
    obtain ⟨hgo, hd⟩ := recorded?_of_reuse rfl (addText_eq_ok hdescriptor)
    obtain ⟨hgq, hi⟩ := recorded?_of_reuse rfl h
    refine ⟨hgr.trans (hgo.trans hgq), ?_⟩
    simp only [find, recorded?_grown (hgo.trans hgq) hn, recorded?_grown hgq hd,
      Option.bind_some, hi]

theorem denotes_of_recalls {p : Pool} (hp : p.Recalls Constant.isShared) {content : Content}
    {i : UInt16} (h : content.find p.recorded? = some i) : content.Denotes p i := by
  cases content with
  | text s => exact text_eq_ok.2 (hp _ _ rfl h)
  | classInfo name =>
    obtain ⟨n, hn, hi⟩ := Option.bind_eq_some_iff.1 h
    exact className_eq_ok.2 ⟨n, hp _ _ rfl hi, hp _ _ rfl hn⟩
  | pair name descriptor =>
    obtain ⟨n, hn, h⟩ := Option.bind_eq_some_iff.1 h
    obtain ⟨d, hd, hi⟩ := Option.bind_eq_some_iff.1 h
    exact nameAndType_eq_ok.2 ⟨n, d, hp _ _ rfl hi, hp _ _ rfl hn, hp _ _ rfl hd⟩

end Content

/-! ### Additions -/

inductive ReferenceKind where
  | field
  | method
  | interfaceMethod
  deriving DecidableEq, Repr

namespace ReferenceKind

def constant : ReferenceKind → UInt16 → UInt16 → Constant
  | .field => .fieldRef
  | .method => .methodRef
  | .interfaceMethod => .interfaceMethodRef

def add : ReferenceKind → String → String → String → Edit UInt16
  | .field => addFieldRef
  | .method => addMethodRef
  | .interfaceMethod => addInterfaceMethodRef

theorem add_eq (kind : ReferenceKind) : kind.add = addMember kind.constant := by
  cases kind <;> rfl

theorem reference?_constant (kind : ReferenceKind) (owner pair : UInt16) :
    reference? (kind.constant owner pair) = some (owner, pair) := by
  cases kind <;> rfl

end ReferenceKind

inductive Addition where
  | content (c : Content)
  | member (kind : ReferenceKind) (owner name descriptor : String)
  | methodHandle (kind : UInt8) (reference : UInt16)
  | methodType (descriptor : String)
  | callSite (bootstrap : UInt16) (name descriptor : String)
  | string (s : String)
  | integer (value : Int32)
  | long (value : Int64)
  deriving DecidableEq, Repr

namespace Addition

def edit : Addition → Edit UInt16
  | .content c => c.add
  | .member kind owner name descriptor => kind.add owner name descriptor
  | .methodHandle kind reference => addMethodHandle kind reference
  | .methodType descriptor => addMethodType descriptor
  | .callSite bootstrap name descriptor => addInvokeDynamic bootstrap name descriptor
  | .string s => addString s
  | .integer value => addInteger value
  | .long value => addLong value

/-- The contents that an addition looks up, or appends where they are missing. -/
def contents : Addition → List Content
  | .content c => [c]
  | .member _ owner name descriptor => [.classInfo owner, .pair name descriptor]
  | .methodType descriptor => [.text descriptor]
  | .callSite _ name descriptor => [.pair name descriptor]
  | .string s => [.text s]
  | .methodHandle _ _ | .integer _ | .long _ => []

def Denotes (pool : Pool) (i : UInt16) : Addition → Prop
  | .content c => c.Denotes pool i
  | .member kind owner name descriptor =>
      (∃ o p, pool.slot? i = some (kind.constant o p)) ∧
        pool.member i = .ok { owner, name, descriptor }
  | .methodHandle kind reference => pool.slot? i = some (.methodHandle kind reference)
  | .methodType descriptor => ∃ d, pool.slot? i = some (.methodType d) ∧
      pool.text d = .ok descriptor
  | .callSite bootstrap name descriptor => ∃ p, pool.slot? i = some (.invokeDynamic bootstrap p) ∧
      pool.nameAndType p = .ok (name, descriptor)
  | .string s => ∃ t, pool.slot? i = some (.string t) ∧ pool.text t = .ok s
  | .integer value => pool.slot? i = some (.integer value)
  | .long value => pool.slot? i = some (.long value)

theorem grows_edit (a : Addition) : a.edit.Grows := by
  cases a with
  | content c =>
    cases c with
    | text s => exact grows_addText s
    | classInfo name => exact grows_addClass name
    | pair name descriptor => exact grows_addNameAndType name descriptor
  | member kind owner name descriptor =>
    rw [edit, kind.add_eq]
    exact grows_addMember _ _ _ _
  | methodType descriptor => exact grows_bind (grows_addText _) fun _ => grows_push _
  | callSite bootstrap name descriptor =>
    exact grows_bind (grows_addNameAndType _ _) fun _ => grows_push _
  | string s => exact grows_bind (grows_addText _) fun _ => grows_push _
  | methodHandle kind reference => exact grows_push _
  | integer value => exact grows_push _
  | long value => exact grows_push _

theorem find_of_push (content : Content) (f : UInt16 → Constant) {p q : Pool} {i : UInt16}
    (h : (do push (f (← content.add)) : Edit UInt16) p = .ok i q) :
    ∃ j, q.slot? i = some (f j) ∧ content.find q.recorded? = some j := by
  obtain ⟨j, r, hj, hpush⟩ := edit_bind_eq_ok.1 h
  have hfind := (content.find_add hj).2
  exact ⟨j, slot?_push hpush, Content.find_grown (.push .refl hpush) hfind⟩

/-- The contents of an addition are recorded, and it denotes what was asked for exactly if the
recorded slots do. -/
theorem denotes_iff_recorded {a : Addition} {p q : Pool} {i : UInt16} (h : a.edit p = .ok i q) :
    (∀ content ∈ a.contents, ∃ j, content.find q.recorded? = some j) ∧
      (a.Denotes q i ↔
        ∀ content ∈ a.contents, ∃ j, content.find q.recorded? = some j ∧ content.Denotes q j) := by
  cases a with
  | content c =>
    have hfind := (c.find_add h).2
    simp [contents, Denotes, hfind]
  | member kind owner name descriptor =>
    rw [edit, kind.add_eq] at h
    obtain ⟨o, r, ho, h⟩ := edit_bind_eq_ok.1 h
    obtain ⟨pair, r', hpair, hpush⟩ := edit_bind_eq_ok.1 h
    obtain ⟨-, hfindo⟩ := Content.find_add (.classInfo owner) ho
    obtain ⟨hgrown, hfindp⟩ := Content.find_add (.pair name descriptor) hpair
    have hslot := slot?_push hpush
    have hlast : Grown r' q := .push .refl hpush
    have hfindo := Content.find_grown (hgrown.trans hlast) hfindo
    have hfindp := Content.find_grown hlast hfindp
    have hmember : q.member i = .ok ⟨owner, name, descriptor⟩ ↔
        q.className o = .ok owner ∧ q.nameAndType pair = .ok (name, descriptor) := by
      rw [member_eq_ok]
      simp [hslot, kind.reference?_constant, and_assoc]
    have hkind : ∃ o p, q.slot? i = some (kind.constant o p) := ⟨o, pair, hslot⟩
    simp [contents, Denotes, Content.Denotes, hfindo, hfindp, hmember, hkind]
  | methodType descriptor =>
    obtain ⟨j, hslot, hfind⟩ := find_of_push (.text descriptor) .methodType h
    simp [contents, Denotes, Content.Denotes, hfind, hslot]
  | callSite bootstrap name descriptor =>
    obtain ⟨j, hslot, hfind⟩ :=
      find_of_push (.pair name descriptor) (.invokeDynamic bootstrap) h
    simp [contents, Denotes, Content.Denotes, hfind, hslot]
  | string s =>
    obtain ⟨j, hslot, hfind⟩ := find_of_push (.text s) .string h
    simp [contents, Denotes, Content.Denotes, hfind, hslot]
  | methodHandle kind reference | integer value | long value =>
    have hslot := slot?_push h
    simp [contents, Denotes, hslot]

end Addition

/-! ### Sequences of edits -/

inductive Op where
  | set (i : UInt16) (c : Constant)
  | add (a : Addition)
  deriving DecidableEq, Repr

namespace Op

/-- The pool after an edit, whether the edit succeeds or fails. -/
def apply : Op → Pool → Pool
  | .set i c, p => (replace i c).final p
  | .add a, p => a.edit.final p

def writes : Op → Pool → List (UInt16 × Constant)
  | .set i c, p =>
      match replace i c p with
      | .ok _ _ => [(i, c)]
      | .error _ _ => []
  | .add a, p => appended p (a.edit.final p)

/-- Whether an edit leaves all texts, classes and pairs as they are. -/
def Spares : Op → Pool → Prop
  | .set i c, p => ∀ old q, replace i c p = .ok () q → p.slot? i = some old →
      old.isShared = true → old = c
  | .add _, _ => True

theorem final_replace_of_error {i : UInt16} {c : Constant} {p q : Pool} {e : FormatError}
    (h : replace i c p = .error e q) : q = p := by
  unfold replace at h
  split at h
  · cases h
    rfl
  · split at h
    · cases h
      rfl
    · cases h

theorem logs_apply {op : Op} {p : Pool} {log : List (UInt16 × Constant)} (hp : p.Logs log) :
    (op.apply p).Logs (log ++ op.writes p) := by
  cases op with
  | set i c =>
    simp only [apply, writes, Edit.final]
    cases h : replace i c p with
    | ok u q => exact hp.replace h
    | error e q =>
      rw [final_replace_of_error h]
      simpa using hp
  | add a => exact hp.grown (a.grows_edit p)

theorem recalls_apply {op : Op} {p : Pool} (hp : p.Recalls Constant.isShared)
    (hspares : op.Spares p) : (op.apply p).Recalls Constant.isShared := by
  cases op with
  | set i c =>
    simp only [apply, Edit.final]
    cases h : replace i c p with
    | ok u q => exact hp.replace h fun old hold hshared => hspares old q h hold hshared
    | error e q =>
      rw [final_replace_of_error h]
      exact hp
  | add a => exact hp.grown (a.grows_edit p)

end Op

def after : List Op → Pool → Pool
  | [], p => p
  | op :: ops, p => after ops (op.apply p)

def history : List Op → Pool → List (UInt16 × Constant)
  | [], _ => []
  | op :: ops, p => op.writes p ++ history ops (op.apply p)

def Sparing : List Op → Pool → Prop
  | [], _ => True
  | op :: ops, p => op.Spares p ∧ Sparing ops (op.apply p)

theorem logs_after (ops : List Op) {p : Pool} {log : List (UInt16 × Constant)} (hp : p.Logs log) :
    (after ops p).Logs (log ++ history ops p) := by
  induction ops generalizing p log with
  | nil => simpa [after, history] using hp
  | cons op ops ih =>
    rw [history, ← List.append_assoc]
    exact ih (Op.logs_apply hp)

theorem recalls_after (ops : List Op) {p : Pool} (hp : p.Recalls Constant.isShared)
    (hspares : Sparing ops p) : (after ops p).Recalls Constant.isShared := by
  induction ops generalizing p with
  | nil => exact hp
  | cons op ops ih => exact ih (Op.recalls_apply hp hspares.1) hspares.2

theorem after_append (ops more : List Op) (p : Pool) :
    after (ops ++ more) p = after more (after ops p) := by
  induction ops generalizing p with
  | nil => rfl
  | cons op ops ih => exact ih (op.apply p)

/-- From an empty or a decoded pool, after any edits: an addition denotes what was asked for exactly
if the first slot that ever held each content it refers to still denotes that content. It always
does as long as no text, class or pair has been replaced. -/
theorem denotes_iff_first_holders {start : Pool}
    (hstart : start = {} ∨ ∃ data c, ClassFile.decode data = .ok c ∧ start = c.pool)
    (ops : List Op) {a : Addition} {i : UInt16} {q : Pool}
    (h : a.edit (after ops start) = .ok i q) :
    (a.Denotes q i ↔ ∀ content ∈ a.contents, ∃ j,
      content.find (firstIndex (start.numbered ++ history (ops ++ [.add a]) start)) = some j ∧
      content.Denotes q j) ∧
    (Sparing ops start → a.Denotes q i) := by
  have hindexed : start.Indexed := by
    obtain rfl | ⟨data, c, hc, rfl⟩ := hstart
    · exact indexed_empty
    · exact indexed_decode hc
  have hlast : after (ops ++ [.add a]) start = q := by
    rw [after_append]
    exact Edit.final_of_ok h
  have hlogs := logs_after (ops ++ [.add a]) hindexed.recorded
  rw [hlast] at hlogs
  obtain ⟨hfound, hdenotes⟩ := Addition.denotes_iff_recorded h
  refine ⟨by simpa only [Content.find_eq_of_logs hlogs] using hdenotes, fun hsparing => ?_⟩
  have hrecalls := (recalls_after ops hindexed.recalls hsparing).grown (a.grows_edit.of_ok h)
  refine hdenotes.2 fun content hcontent => ?_
  obtain ⟨j, hj⟩ := hfound content hcontent
  exact ⟨j, hj, Content.denotes_of_recalls hrecalls hj⟩

theorem denotes_iff_first_holders_member : ∃ i q,
    (Addition.member .method "a" "m" "()V").edit
      (after [.add (.integer 7), .set 1 (.integer 8), .add (.content (.classInfo "a"))] {}) =
        .ok i q ∧
    q.member i = .ok { owner := "a", name := "m", descriptor := "()V" } := by
  obtain ⟨i, q, h⟩ : ∃ i q, (Addition.member .method "a" "m" "()V").edit
      (after [.add (.integer 7), .set 1 (.integer 8), .add (.content (.classInfo "a"))] {}) =
        .ok i q := ⟨_, _, rfl⟩
  refine ⟨i, q, h, ((denotes_iff_first_holders (.inl rfl) _ h).2 ⟨trivial, ?_, trivial, trivial⟩).2⟩
  intro old _ _ hold hshared
  have hslot : ((Op.add (.integer 7)).apply {}).slot? 1 = some (.integer 7) := by rfl
  rw [hslot] at hold
  cases hold
  simp [Constant.isShared] at hshared

/-- A class entry that was given another name is still answered for its old one. -/
theorem not_denotes_of_repointed : ∃ ops i q,
    (Addition.content (.classInfo "a")).edit (after ops {}) = .ok i q ∧
      q.className i = .ok "b" ∧ ¬ (Addition.content (.classInfo "a")).Denotes q i := by
  refine ⟨[.add (.content (.classInfo "a")), .add (.content (.text "b")), .set 2 (.classInfo 3)],
    2, _, rfl, ?_⟩
  have hname : (after [.add (.content (.classInfo "a")), .add (.content (.text "b")),
      .set 2 (.classInfo 3)] {}).className 2 = .ok "b" :=
    className_eq_ok.2 ⟨3, by decide +kernel, by decide +kernel⟩
  refine ⟨hname, fun hdenotes => ?_⟩
  rw [Addition.Denotes, Content.Denotes, hname] at hdenotes
  simp at hdenotes

end ClassArchive.Pool
