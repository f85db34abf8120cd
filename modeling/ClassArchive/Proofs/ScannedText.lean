import ClassArchive.Proofs.Outcome
import ClassArchive.TypeText

/-!
The pieces of a scanned descriptor or signature make up its text, so a renaming that keeps every
class name in them gives the text back.
-/
set_option autoImplicit false

namespace ClassArchive

namespace Piece

def chars : Piece → List Char
  | .text cs => cs
  | .className name => name.toList
  | .innerName _ inner => inner.toList

def classNames : Piece → List String
  | .text _ => []
  | .className name => [name]
  | .innerName outer inner => [outer ++ "$" ++ inner, outer]

end Piece

/-! ### What a scan covers -/

namespace Scan

/-- If the grammar was kept, the pieces and the unread text are the whole text. -/
def Covers (scan : Scan) (cs : List Char) : Prop :=
  ∀ rest, scan.rest = some rest → cs = scan.pieces.flatMap Piece.chars ++ rest

theorem covers_broken (cs : List Char) : broken.Covers cs := by
  intro rest h
  cases h

theorem covers_done (cs : List Char) : (done cs).Covers cs := by
  intro rest h
  cases h
  rfl

theorem Covers.emit {scan : Scan} {cs : List Char} (h : scan.Covers cs) (piece : Piece) :
    (scan.emit piece).Covers (piece.chars ++ cs) := by
  intro rest hrest
  rw [h rest hrest]
  simp [Scan.emit]

theorem Covers.copy {scan : Scan} {cs : List Char} (h : scan.Covers cs) (c : Char) :
    (scan.copy c).Covers (c :: cs) :=
  h.emit (.text [c])

theorem Covers.andThen {scan : Scan} {cs : List Char} {next : List Char → Scan}
    (h : scan.Covers cs) (hnext : ∀ rest, (next rest).Covers rest) :
    (scan.andThen next).Covers cs := by
  intro last hlast
  unfold Scan.andThen at hlast ⊢
  split at hlast
  · next hbroken =>
    rw [hbroken] at hlast
    cases hlast
  · next rest hrest =>
    rw [h rest hrest, List.flatMap_append, List.append_assoc, ← hnext rest last hlast]

theorem rest_andThen {scan : Scan} {next : List Char → Scan} {last : List Char}
    (h : (scan.andThen next).rest = some last) : ∃ rest, (next rest).rest = some last := by
  unfold Scan.andThen at h
  split at h
  · next hbroken =>
    rw [hbroken] at h
    cases h
  · next rest _ => exact ⟨rest, h⟩

end Scan

namespace Descriptor

/-- The name that is being read belongs in front of the text that follows. -/
theorem covers_scanFrom (name : Option (List Char)) (cs : List Char) :
    (scanFrom name cs).Covers (name.elim [] List.reverse ++ cs) := by
  fun_induction scanFrom name cs with
  | case1 => exact Scan.covers_done []
  | case2 => exact Scan.covers_broken _
  | case3 cs ih => exact ih.copy 'L'
  | case4 c cs _ ih => exact ih.copy c
  | case5 name cs ih =>
    have hname := (ih.copy ';').emit (.className (String.ofList name.reverse))
    simpa [Piece.chars] using hname
  | case6 name c cs _ ih => simpa using ih

theorem rest_scanFrom {name : Option (List Char)} {cs rest : List Char}
    (h : (scanFrom name cs).rest = some rest) : rest = [] := by
  fun_induction scanFrom name cs with
  | case1 =>
    cases h
    rfl
  | case2 => cases h
  | case3 cs ih | case4 c cs _ ih | case5 name cs ih | case6 name c cs _ ih => exact ih h

end Descriptor

namespace Signature

theorem append_of_identifier? {stops cs name rest : List Char}
    (h : identifier? stops cs = some (name, rest)) : cs = name ++ rest := by
  unfold identifier? at h
  split at h
  · cases h
  · cases h
    exact List.takeWhile_append_dropWhile.symm

section Mutual

variable {bound : Nat} (htype : ∀ cs, (scanType bound cs).Covers cs)
  (hsuffix : ∀ outer cs, (scanSuffix bound outer cs).Covers cs)
  (harguments : ∀ cs, (scanArguments bound cs).Covers cs)

include htype hsuffix in
theorem covers_scanType_succ (cs : List Char) : (scanType (bound + 1) cs).Covers cs := by
  unfold scanType
  split
  · contradiction
  · next heq =>
    cases heq
    split
    · exact Scan.covers_broken _
    · next name rest hname =>
      rw [append_of_identifier? hname]
      have hcovers := ((hsuffix (String.ofList name) rest).emit
        (.className (String.ofList name))).copy 'L'
      simpa [Piece.chars] using hcovers
  · split
    · next name rest hname =>
      rw [append_of_identifier? hname]
      have hcovers := (Scan.covers_done rest).emit (.text ('T' :: name ++ [';']))
      simpa [Piece.chars] using hcovers
    · exact Scan.covers_broken _
  · next heq =>
    cases heq
    exact (htype _).copy '['
  · split
    · exact (Scan.covers_done _).copy _
    · exact Scan.covers_broken _
  · exact Scan.covers_broken _

include hsuffix harguments in
theorem covers_scanSuffix_succ (outer : String) (cs : List Char) :
    (scanSuffix (bound + 1) outer cs).Covers cs := by
  unfold scanSuffix
  split
  · contradiction
  · next heq =>
    cases heq
    exact ((harguments _).copy '<').andThen (hsuffix _)
  · next outer _ _ _ _ _ heq =>
    cases heq
    split
    · exact Scan.covers_broken _
    · next name rest hname =>
      rw [append_of_identifier? hname]
      have hcovers := ((hsuffix (outer ++ "$" ++ String.ofList name) rest).emit
        (.innerName outer (String.ofList name))).copy '.'
      simpa [Piece.chars] using hcovers
  · exact (Scan.covers_done _).copy ';'
  · exact Scan.covers_broken _

include htype harguments in
theorem covers_scanArguments_succ (cs : List Char) : (scanArguments (bound + 1) cs).Covers cs := by
  unfold scanArguments
  split
  · contradiction
  · exact (Scan.covers_done _).copy '>'
  · next heq =>
    cases heq
    exact (harguments _).copy '*'
  · next heq =>
    cases heq
    exact ((htype _).copy '+').andThen harguments
  · next heq =>
    cases heq
    exact ((htype _).copy '-').andThen harguments
  · next heq _ _ _ _ =>
    cases heq
    exact (htype _).andThen harguments

end Mutual

/-- On the bound, for the three functions at once: each calls the others with a smaller one. -/
theorem covers_scanType_scanSuffix_scanArguments (bound : Nat) :
    (∀ cs, (scanType bound cs).Covers cs) ∧
    (∀ outer cs, (scanSuffix bound outer cs).Covers cs) ∧
    (∀ cs, (scanArguments bound cs).Covers cs) := by
  induction bound with
  | zero =>
    refine ⟨fun cs => ?_, fun outer cs => ?_, fun cs => ?_⟩
    · simpa only [scanType] using Scan.covers_broken cs
    · simpa only [scanSuffix] using Scan.covers_broken cs
    · simpa only [scanArguments] using Scan.covers_broken cs
  | succ bound ih =>
    obtain ⟨htype, hsuffix, harguments⟩ := ih
    exact ⟨covers_scanType_succ htype hsuffix, covers_scanSuffix_succ hsuffix harguments,
      covers_scanArguments_succ htype harguments⟩

theorem covers_scanType (bound : Nat) (cs : List Char) : (scanType bound cs).Covers cs :=
  (covers_scanType_scanSuffix_scanArguments bound).1 cs

theorem covers_scanBounds (bound : Nat) (cs : List Char) : (scanBounds bound cs).Covers cs := by
  induction bound generalizing cs with
  | zero => simpa only [scanBounds] using Scan.covers_broken cs
  | succ bound ih =>
    unfold scanBounds
    split
    · contradiction
    · next heq =>
      cases heq
      split
      · exact ((covers_scanType bound _).andThen ih).copy ':'
      · exact ((covers_scanType bound _).andThen ih).copy ':'
      · exact ((covers_scanType bound _).andThen ih).copy ':'
      · exact (ih _).copy ':'
    · exact Scan.covers_done _

theorem covers_scanParameters (bound : Nat) (cs : List Char) :
    (scanParameters bound cs).Covers cs := by
  induction bound generalizing cs with
  | zero => simpa only [scanParameters] using Scan.covers_broken cs
  | succ bound ih =>
    unfold scanParameters
    split
    · contradiction
    · exact Scan.covers_broken _
    · exact (Scan.covers_done _).copy '>'
    · next heq _ _ =>
      cases heq
      split
      · exact Scan.covers_broken _
      · next name rest hname =>
        rw [append_of_identifier? hname]
        exact ((covers_scanBounds bound rest).andThen ih).emit (.text name)

theorem covers_scanMethodTypes (bound : Nat) (cs : List Char) :
    (scanMethodTypes bound cs).Covers cs := by
  induction bound generalizing cs with
  | zero => simpa only [scanMethodTypes] using Scan.covers_broken cs
  | succ bound ih =>
    unfold scanMethodTypes
    split
    · contradiction
    · exact (Scan.covers_done _).copy ')'
    · next heq _ =>
      cases heq
      exact (covers_scanType bound _).andThen ih

theorem covers_scanThrows (bound : Nat) (cs : List Char) : (scanThrows bound cs).Covers cs := by
  induction bound generalizing cs with
  | zero => simpa only [scanThrows] using Scan.covers_broken cs
  | succ bound ih =>
    unfold scanThrows
    split
    · contradiction
    · next heq =>
      cases heq
      exact ((covers_scanType bound _).andThen ih).copy '^'
    · exact Scan.covers_done _

theorem covers_scanTypes (bound : Nat) (cs : List Char) : (scanTypes bound cs).Covers cs := by
  induction bound generalizing cs with
  | zero => simpa only [scanTypes] using Scan.covers_broken cs
  | succ bound ih =>
    unfold scanTypes
    split
    · contradiction
    · exact Scan.covers_done []
    · next heq _ =>
      cases heq
      exact (covers_scanType bound _).andThen ih

theorem rest_scanTypes {bound : Nat} {cs rest : List Char}
    (h : (scanTypes bound cs).rest = some rest) : rest = [] := by
  induction bound generalizing cs with
  | zero =>
    rw [scanTypes] at h
    cases h
  | succ bound ih =>
    unfold scanTypes at h
    split at h
    · contradiction
    · cases h
      rfl
    · next heq _ =>
      cases heq
      obtain ⟨_, hlast⟩ := Scan.rest_andThen h
      exact ih hlast

theorem covers_scan (signature : String) : (scan signature).Covers signature.toList := by
  have hhead : ∀ bound cs, (scanHead bound cs).Covers cs := by
    intro bound cs
    unfold scanHead
    split
    · exact (covers_scanParameters bound _).copy '<'
    · exact Scan.covers_done _
  have hmethod : ∀ bound cs, (scanMethod bound cs).Covers cs := by
    intro bound cs
    unfold scanMethod
    split
    · exact (((covers_scanMethodTypes bound _).copy '(').andThen (covers_scanType bound)).andThen
        (covers_scanThrows bound)
    · exact Scan.covers_done _
  exact ((hhead _ _).andThen (hmethod _)).andThen (covers_scanTypes _)

theorem rest_scan {signature : String} {rest : List Char}
    (h : (scan signature).rest = some rest) : rest = [] := by
  obtain ⟨_, hlast⟩ := Scan.rest_andThen h
  exact rest_scanTypes hlast

end Signature

/-! ### Renaming pieces -/

def Renames (f : String → Except ArchiveError String) (pieces : List Piece) (cs : List Char) :
    Prop :=
  ∃ parts, pieces.mapM (Piece.rename f) = .ok parts ∧ parts.flatten = cs

section Renames

variable {f : String → Except ArchiveError String}

theorem renames_nil {cs : List Char} : Renames f [] cs ↔ cs = [] := by
  constructor
  · rintro ⟨parts, h, rfl⟩
    cases h
    rfl
  · rintro rfl
    exact ⟨[], rfl, rfl⟩

theorem renames_cons {piece : Piece} {pieces : List Piece} {cs : List Char} :
    Renames f (piece :: pieces) cs ↔
      ∃ first rest, piece.rename f = .ok first ∧ Renames f pieces rest ∧ cs = first ++ rest := by
  unfold Renames
  rw [List.mapM_cons]
  constructor
  · rintro ⟨parts, h, rfl⟩
    obtain ⟨first, hfirst, h⟩ := bind_eq_ok.1 h
    obtain ⟨rest, hrest, h⟩ := bind_eq_ok.1 h
    cases h
    exact ⟨first, rest.flatten, hfirst, ⟨rest, hrest, rfl⟩, rfl⟩
  · rintro ⟨first, _, hfirst, ⟨rest, hrest, rfl⟩, rfl⟩
    exact ⟨first :: rest, bind_eq_ok.2 ⟨first, hfirst, bind_eq_ok.2 ⟨rest, hrest, rfl⟩⟩, rfl⟩

theorem renames_append {pieces more : List Piece} {cs : List Char} :
    Renames f (pieces ++ more) cs ↔
      ∃ first rest, Renames f pieces first ∧ Renames f more rest ∧ cs = first ++ rest := by
  induction pieces generalizing cs with
  | nil =>
    simp only [List.nil_append, renames_nil]
    constructor
    · intro h
      exact ⟨[], cs, rfl, h, rfl⟩
    · rintro ⟨_, rest, rfl, h, rfl⟩
      exact h
  | cons piece pieces ih =>
    simp only [List.cons_append, renames_cons, ih]
    constructor
    · rintro ⟨first, _, hfirst, ⟨mid, rest, hmid, hrest, rfl⟩, rfl⟩
      exact ⟨first ++ mid, rest, ⟨first, mid, hfirst, hmid, rfl⟩, hrest, by simp⟩
    · rintro ⟨_, rest, ⟨first, mid, hfirst, hmid, rfl⟩, hrest, rfl⟩
      exact ⟨first, mid ++ rest, hfirst, ⟨mid, rest, hmid, hrest, rfl⟩, by simp⟩

theorem Scan.rename_eq_ok {scan : Scan} {text renamed : String} :
    scan.rename f text = .ok renamed ↔
      scan.rest.isSome = true ∧ Renames f scan.pieces renamed.toList := by
  unfold Scan.rename Renames
  rw [bind_eq_ok]
  constructor
  · rintro ⟨parts, hparts, h⟩
    split at h
    · next hrest =>
      cases h
      exact ⟨hrest, parts, hparts, by simp⟩
    · cases h
  · rintro ⟨hrest, parts, hparts, hrenamed⟩
    refine ⟨parts, hparts, ?_⟩
    rw [if_pos hrest, hrenamed, String.ofList_toList]
    rfl

/-- An inner class behind a dot is written by what its name adds to that of the class around it. -/
theorem dropStart?_append (start text : String) : dropStart? start (start ++ text) = some text := by
  simp [dropStart?]

theorem chars_of_rename {piece : Piece} {cs : List Char}
    (hkept : ∀ name ∈ piece.classNames, ∀ mapped, f name = .ok mapped → mapped = name)
    (h : piece.rename f = .ok cs) : cs = piece.chars := by
  cases piece with
  | text chars =>
    cases h
    rfl
  | className name =>
    obtain ⟨mapped, hmapped, h⟩ := bind_eq_ok.1 h
    cases h
    rw [hkept name (by simp [Piece.classNames]) mapped hmapped, Piece.chars]
  | innerName outer inner =>
    obtain ⟨name, hname, h⟩ := bind_eq_ok.1 h
    obtain ⟨around, haround, h⟩ := bind_eq_ok.1 h
    cases h
    rw [hkept _ (by simp [Piece.classNames]) name hname,
      hkept outer (by simp [Piece.classNames]) around haround, dropStart?_append]
    rfl

theorem chars_of_renames {pieces : List Piece} {cs : List Char}
    (hkept : ∀ piece ∈ pieces, ∀ name ∈ piece.classNames, ∀ mapped, f name = .ok mapped →
      mapped = name)
    (h : Renames f pieces cs) : cs = pieces.flatMap Piece.chars := by
  induction pieces generalizing cs with
  | nil => exact renames_nil.1 h
  | cons piece pieces ih =>
    obtain ⟨first, rest, hfirst, hrest, rfl⟩ := renames_cons.1 h
    rw [chars_of_rename (hkept piece (by simp)) hfirst,
      ih (fun other hother => hkept other (by simp [hother])) hrest, List.flatMap_cons]

theorem Scan.Covers.eq_of_rename {scan : Scan} {text renamed : String}
    (hcovers : scan.Covers text.toList) (hend : ∀ rest, scan.rest = some rest → rest = [])
    (hkept : ∀ piece ∈ scan.pieces, ∀ name ∈ piece.classNames, ∀ mapped, f name = .ok mapped →
      mapped = name)
    (h : scan.rename f text = .ok renamed) : renamed = text := by
  obtain ⟨hrest, hpieces⟩ := Scan.rename_eq_ok.1 h
  obtain ⟨rest, hrest⟩ := Option.isSome_iff_exists.1 hrest
  have htext := hcovers rest hrest
  rw [hend rest hrest, List.append_nil, ← chars_of_renames hkept hpieces] at htext
  exact String.toList_inj.1 htext.symm

end Renames

end ClassArchive
