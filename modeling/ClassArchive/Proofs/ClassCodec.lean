import ClassArchive.Proofs.AttributeCodec
import ClassArchive.Proofs.PoolCodec

/-!
A class tree is read back from its bytes. Only the tables by which the pool finds its constants
again are made anew.
-/
set_option autoImplicit false

namespace ClassArchive

open Reader

theorem Member.codes : Member.read.Codes Member.encode fun m => Attribute.Fit m.attributes := by
  refine (codes_u16.bind access (fun _ => codes_u16.bind name (fun _ => codes_u16.bind descriptor
    (fun _ => Attribute.codes_list.bind attributes (fun _ => codes_pure _) ?_) ?_) ?_) ?_).congr
      ?_ ?_
  · exact fun _ _ h => congrArg attributes h
  · exact fun _ _ h => congrArg descriptor h.2
  · exact fun _ _ h => congrArg name h.2.2
  · exact fun _ _ h => congrArg access h.2.2.2
  · intro m
    simp
  · intro m
    simp [encode]

namespace ClassFile

/-- A class tree whose bytes determine it: the pool is in good order, and every list has a length
that its count field can hold. -/
structure WellFormed (c : ClassFile) : Prop where
  pool : c.pool.WellFormed
  interfaces : c.interfaces.length < 65536
  fields : c.fields.length < 65536
  methods : c.methods.length < 65536
  members : ∀ m ∈ c.fields ++ c.methods, Attribute.Fit m.attributes
  attributes : Attribute.Fit c.attributes

theorem restores_readMagic : readMagic.Restores (be32 classMagic) () := by
  rw [← List.append_nil (be32 classMagic)]
  exact (restores_u32 classMagic).bind (restores_pure ())

def reread (c : ClassFile) : ClassFile := { c with pool := Pool.ofSlots c.pool.slots }

theorem restores_readHead {c : ClassFile} (hpool : c.pool.WellFormed)
    (hinterfaces : c.interfaces.length < 65536) :
    readHead.Restores (be32 classMagic ++ (be16 c.minor ++ (be16 c.major ++ (c.pool.encode ++
      (be16 c.access ++ (be16 c.thisClass ++ (be16 c.superClass ++
        (encode16 be16 c.interfaces ++ []))))))))
      { c.reread with fields := [], methods := [], attributes := [] } :=
  restores_readMagic.bind <| (restores_u16 c.minor).bind <| (restores_u16 c.major).bind <|
    (Pool.restores_read hpool).bind <| (restores_u16 c.access).bind <|
      (restores_u16 c.thisClass).bind <| (restores_u16 c.superClass).bind <|
        (codes_u16.list16.restores ⟨hinterfaces, fun _ _ => trivial⟩).bind <| restores_pure _

theorem restores_read {c : ClassFile} (h : c.WellFormed) : read.Restores c.encode c.reread := by
  have hfields : (list16 Member.read).Restores (encode16 Member.encode c.fields) c.fields :=
    Member.codes.list16.restores ⟨h.fields, fun m hm => h.members m (by simp [hm])⟩
  have hmethods : (list16 Member.read).Restores (encode16 Member.encode c.methods) c.methods :=
    Member.codes.list16.restores ⟨h.methods, fun m hm => h.members m (by simp [hm])⟩
  have hread : read.Restores _ c.reread :=
    (restores_readHead h.pool h.interfaces).bind <| hfields.bind <| hmethods.bind <|
      (Attribute.codes_list.restores h.attributes).bind <| restores_pure c.reread
  simpa only [encode, List.append_assoc, List.append_nil] using hread

/-- A well-formed class is read back from its bytes with the same constants in the same slots and
all else as it was. -/
theorem decode_encode_eq_ok {c : ClassFile} (h : c.WellFormed) :
    ∃ pool, decode c.encode = .ok { c with pool } ∧ pool.slots = c.pool.slots :=
  ⟨Pool.ofSlots c.pool.slots, (restores_read h).run_eq_ok, Pool.slots_ofSlots _⟩

/-- A class with numbers of two slots, a text outside the first plane and a payload that is no
text. -/
def mixedClass : ClassFile where
  minor := 3
  pool := Pool.ofSlots #[.utf8 "a😀", .classInfo 1, .long (-2), .unusable,
    .rawUtf8 [0xED, 0xA0, 0x80], .double 0x7FF8000000000001, .unusable, .utf8 "m", .utf8 "()V",
    .utf8 "Code", .float 0xFFFFFFFF]
  access := 0x21
  thisClass := 2
  interfaces := [2, 2]
  fields := [⟨1, 8, 1, []⟩]
  methods := [⟨9, 8, 9, [⟨10, [1, 2, 3]⟩, ⟨8, []⟩]⟩]
  attributes := [⟨10, [0]⟩]

theorem decode_encode_eq_ok_mixed : mixedClass.WellFormed ∧
    ∃ pool, decode mixedClass.encode = .ok { mixedClass with pool } ∧
      pool.slots = mixedClass.pool.slots := by
  have hslots : mixedClass.pool.slots.toList = List.flatMap Pool.filling [.utf8 "a😀", .classInfo 1,
      .long (-2), .rawUtf8 [0xED, 0xA0, 0x80], .double 0x7FF8000000000001, .utf8 "m", .utf8 "()V",
      .utf8 "Code", .float 0xFFFFFFFF] := by
    decide +kernel
  have hpool : mixedClass.pool.WellFormed := by
    refine ⟨by decide +kernel, ?_, by decide +kernel⟩
    rw [hslots]
    exact Pool.paired_flatMap_filling (by decide)
  have hclass : mixedClass.WellFormed :=
    ⟨hpool, by decide, by decide, by decide, by decide, by decide⟩
  exact ⟨hclass, decode_encode_eq_ok hclass⟩

end ClassFile

end ClassArchive
