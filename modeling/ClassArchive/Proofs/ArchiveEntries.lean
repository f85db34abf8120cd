import ClassArchive.Archive
import Mathlib.Data.List.Nodup

/-!
The entries of an archive as a list in which each name occurs once.
-/
set_option autoImplicit false

namespace ClassArchive

namespace Archive

theorem mem_entries {a : Archive} {e : Entry} :
    e ∈ a.entries ↔ a.contents[e.name]? = some e.content := by
  simp only [entries, List.mem_map, Prod.exists]
  constructor
  · rintro ⟨name, content, hmem, rfl⟩
    exact Std.TreeMap.mem_toList_iff_getElem?_eq_some.1 hmem
  · intro h
    exact ⟨e.name, e.content, Std.TreeMap.mem_toList_iff_getElem?_eq_some.2 h, rfl⟩

theorem nodup_names (a : Archive) : (a.entries.map (·.name)).Nodup := by
  have hkeys : a.entries.map (·.name) = a.contents.toList.map (·.1) := by
    simp [entries, Function.comp_def]
  rw [hkeys]
  refine List.Pairwise.map _ ?_ Std.TreeMap.distinct_keys_toList
  intro x y hne heq
  rw [heq] at hne
  exact hne Std.ReflCmp.compare_self

theorem eq_of_name_eq {a : Archive} {e e' : Entry} (he : e ∈ a.entries) (he' : e' ∈ a.entries)
    (h : e.name = e'.name) : e = e' := by
  rw [mem_entries] at he he'
  rw [h, he'] at he
  cases e
  cases e'
  simp_all

theorem contains_iff {a : Archive} {name : String} :
    a.contains name = true ↔ ∃ e ∈ a.entries, e.name = name := by
  rw [contains, ← Std.TreeMap.mem_iff_contains, Std.TreeMap.mem_iff_isSome_getElem?,
    Option.isSome_iff_exists]
  constructor
  · rintro ⟨content, h⟩
    exact ⟨⟨name, content⟩, mem_entries.2 h, rfl⟩
  · rintro ⟨e, he, rfl⟩
    exact ⟨e.content, mem_entries.1 he⟩

theorem length_entries (a : Archive) : a.entries.length = a.size := by
  simp [entries, size]

theorem find?_foldl_insert_of_ne {a : Archive} {entries : List Entry} {name : String}
    (h : ∀ e ∈ entries, e.name ≠ name) : (entries.foldl insert a).find? name = a.find? name := by
  induction entries generalizing a with
  | nil => rfl
  | cons e entries ih =>
    rw [List.foldl_cons, ih fun other hother => h other (by simp [hother]),
      find?_insert_of_ne a e (h e (by simp))]

theorem find?_ofEntries (name : String) {entries : List Entry}
    (hnames : entries.Pairwise (·.name ≠ ·.name)) {e : Entry} (he : e ∈ entries) :
    (ofEntries name entries).find? e.name = some e := by
  obtain ⟨earlier, later, rfl⟩ := List.append_of_mem he
  obtain ⟨-, hlater, -⟩ := List.pairwise_append.1 hnames
  rw [ofEntries, List.foldl_append, List.foldl_cons, find?_foldl_insert_of_ne, find?_insert_self]
  exact fun other hother => ((List.pairwise_cons.1 hlater).1 other hother).symm

end Archive

end ClassArchive
