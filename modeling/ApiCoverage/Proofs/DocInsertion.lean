/-
Documenting a declaration takes documentation from no other line.

A block on a line of its own is put before a declaration. It may take the declaration
from the block that had it, and it moves the lines after it out of the windows of
earlier blocks. But its own window begins with the declaration, so it reaches as far
as any window that began there or before (`isSome_get?_annotate`).
-/
import ApiCoverage.Proofs.DocBlocks
import ApiCoverage.Proofs.Words

namespace ApiCoverage.DocMap

/-- A block on one line. -/
def noteLine (note : Text) : Text := String.toList "/** " ++ (note ++ String.toList " */")

/-- The lines of a file with a block on one line put before one of them. -/
def annotate (lines : List Text) (index : Nat) (note : Text) : List Text := lines.insertIdx index (noteLine note)

/-! ## The new line -/

theorem trim_noteLine (note : Text) : Text.trim (noteLine note) = noteLine note := by
  have hslash : isBlank '/' = false := rfl
  have hend : noteLine note = (String.toList "/** " ++ (note ++ [' ', '*'])) ++ ['/'] := by
    simp [noteLine]
  have hstart : Text.trimStart (noteLine note) = noteLine note := Text.trimStart_cons hslash _
  rw [Text.trim, hstart, hend, Text.trimEnd_append_cons hslash]
  rfl

theorem opensBlock_noteLine (note : Text) : opensBlock (noteLine note) = true := rfl

theorem closesBlock_drop_noteLine (note : Text) : closesBlock ((noteLine note).drop 3) = true := by
  refine Text.hasWord_iff.2 ⟨' ' :: note ++ [' '], [], ?_⟩
  simp [noteLine]

theorem hasWord_noteLine {note : Text} (h : Text.hasWord "@module" note = false) :
    Text.hasWord "@module" (noteLine note) = false := by
  have hspace : ' ' ∉ ("@module" : Text) := by decide
  have hne : ("@module" : Text) ≠ [] := by decide
  have hshort : ∀ text : Text, text.length < 7 → ¬ ("@module" : Text) <:+: text := fun text hlt hinfix =>
    absurd hinfix.length_le (Nat.not_le_of_lt hlt)
  by_contra hword
  have hinfix := Text.hasWord_iff.1 (Bool.not_eq_false _ ▸ hword)
  rcases Text.infix_append_cons hne hspace "/**" (note ++ String.toList " */") hinfix with hbefore | hinfix
  · exact hshort _ (by decide) hbefore
  · rcases Text.infix_append_cons hne hspace note "*/" hinfix with hnote | hafter
    · rw [Text.hasWord_iff.2 hnote] at h
      cases h
    · exact hshort _ (by decide) hafter

/-! ## The other lines -/

section

variable {lines : List Text} {index k : Nat} {note : Text}

theorem getD_annotate_of_lt (h : k < index) : (annotate lines index note).getD k [] = lines.getD k [] := by
  rw [List.getD_eq_getElem?_getD, annotate, List.getElem?_insertIdx, if_pos h, List.getD_eq_getElem?_getD]

theorem getD_annotate_self (h : index ≤ lines.length) : (annotate lines index note).getD index [] = noteLine note := by
  simp [List.getD_eq_getElem?_getD, annotate, List.getElem?_insertIdx, h]

theorem getD_annotate_succ (h : index ≤ k) : (annotate lines index note).getD (k + 1) [] = lines.getD k [] := by
  have hlt : ¬ k + 1 < index := by omega
  have hne : ¬ k + 1 = index := by omega
  simp [List.getD_eq_getElem?_getD, annotate, List.getElem?_insertIdx, hlt, hne]

theorem length_annotate (h : index ≤ lines.length) : (annotate lines index note).length = lines.length + 1 := by
  rw [annotate, List.length_insertIdx_of_le_length h]

end

/-! ## Blocks of files that agree on some lines -/

section

variable {lines other : List Text} {first last target start stop shift k : Nat}

/-- Another file has the lines from `start` up to `stop` of the first one further down,
and no block is open before them in either. -/
structure Agrees (lines other : List Text) (start stop shift : Nat) : Prop where
  outside : openAt lines start = none
  outside' : openAt other (start + shift) = none
  same : ∀ k, start ≤ k → k < stop → other.getD (k + shift) [] = lines.getD k []

theorem Agrees.lineAt (h : Agrees lines other start stop shift) (hstart : start ≤ k) (hstop : k < stop) :
    lineAt other (k + shift) = lineAt lines k := by
  rw [DocMap.lineAt, h.same k hstart hstop, DocMap.lineAt]

theorem Agrees.closesAt (h : Agrees lines other start stop shift) (hstart : start ≤ k) (hstop : k < stop)
    (first : Nat) : closesAt other (first + shift) (k + shift) = closesAt lines first k := by
  simp only [DocMap.closesAt, h.lineAt hstart hstop, Nat.add_right_cancel_iff]

/-- The same block is open in both files. -/
theorem Agrees.openAt (h : Agrees lines other start stop shift) (hstart : start ≤ k) (hstop : k ≤ stop) :
    openAt other (k + shift) = (openAt lines k).map (· + shift) := by
  induction k, hstart using Nat.le_induction with
  | base => rw [h.outside, h.outside', Option.map_none]
  | succ k hstart ih =>
    have hlt : k < stop := by omega
    rw [Nat.add_right_comm, DocMap.openAt, DocMap.openAt, ih (by omega), h.lineAt hstart hlt,
      h.closesAt hstart hlt]
    cases DocMap.openAt lines k with
    | none =>
      simp only [Option.map_none]
      split
      · rfl
      · rfl
    | some first =>
      simp only [Option.map_some, h.closesAt hstart hlt]
      split
      · rfl
      · rfl

theorem Agrees.isBlock (h : Agrees lines other start stop shift) (hblock : IsBlock lines first last)
    (hstart : start ≤ first) (hstop : last < stop) : IsBlock other (first + shift) (last + shift) := by
  have hle := hblock.le
  refine ⟨?_, ?_, by omega, ?_, fun k hfirst hlast => ?_⟩
  · rw [h.openAt hstart (by omega), hblock.outside, Option.map_none]
  · rw [h.lineAt hstart (by omega)]
    exact hblock.opens
  · rw [h.closesAt (by omega) hstop]
    exact hblock.closes
  · obtain ⟨k, rfl⟩ := Nat.exists_eq_add_of_le' (show shift ≤ k by omega)
    rw [h.closesAt (by omega) (by omega)]
    exact hblock.earliest k (by omega) (by omega)

theorem Agrees.blockText (h : Agrees lines other start stop shift) (hstart : start ≤ first) (hstop : last < stop) :
    blockText other (first + shift) (last + shift) = blockText lines first last := by
  have hsize : last + shift + 1 - (first + shift) = last + 1 - first := by omega
  rw [DocMap.blockText, hsize, Nat.add_comm first, ← List.map_add_range', List.map_map, DocMap.blockText]
  congr 1
  refine List.map_congr_left fun k hk => ?_
  rw [List.mem_range'_1] at hk
  rw [Function.comp_apply, Nat.add_comm shift, h.lineAt (by omega) (by omega)]

/-- A block that belongs to a line belongs to the same line in the other file. -/
theorem Agrees.binds (h : Agrees lines other start stop shift) (hbinds : Binds lines first last target)
    (hstart : start ≤ first) (hstop : target < stop) : Binds other (first + shift) (last + shift) (target + shift) := by
  have hle := hbinds.block.le
  have hafter := hbinds.next.after
  refine ⟨h.isBlock hbinds.block hstart (by omega), ?_, ⟨by omega, fun k hlast htarget => ?_, ?_⟩, ?_⟩
  · rw [h.blockText hstart (by omega)]
    exact hbinds.ofLine
  · obtain ⟨k, rfl⟩ := Nat.exists_eq_add_of_le' (show shift ≤ k by omega)
    rw [h.same k (by omega) (by omega)]
    exact hbinds.next.skipped k (by omega) (by omega)
  · rw [h.same target (by omega) hstop]
    exact hbinds.next.stops
  · rw [h.lineAt (by omega) hstop]
    exact hbinds.declares

end

/-! ## The file with the new line -/

section

variable {lines : List Text} {index first last target : Nat} {note : Text}

/-- Before the new line the two files agree. -/
theorem agrees_annotate (lines : List Text) (index : Nat) (note : Text) :
    Agrees lines (annotate lines index note) 0 index 0 :=
  ⟨rfl, rfl, fun _ _ hlt => getD_annotate_of_lt hlt⟩

theorem lineAt_annotate_self (h : index ≤ lines.length) : lineAt (annotate lines index note) index = noteLine note := by
  rw [lineAt, getD_annotate_self h, trim_noteLine]

/-- The new line is a block. -/
theorem isBlock_annotate (h : index ≤ lines.length) (houtside : openAt lines index = none) :
    IsBlock (annotate lines index note) index index := by
  refine ⟨?_, ?_, Nat.le_refl _, ?_, fun k hfirst hlast => by omega⟩
  · have hopen := (agrees_annotate lines index note).openAt (Nat.zero_le index) (Nat.le_refl _)
    rwa [houtside] at hopen
  · rw [lineAt_annotate_self h]
    exact opensBlock_noteLine note
  · rw [closesAt_self, lineAt_annotate_self h]
    exact closesBlock_drop_noteLine note

/-- After the new line the two files agree again, one line further down. -/
theorem agrees_annotate_succ (h : index ≤ lines.length) (houtside : openAt lines index = none) (note : Text)
    (stop : Nat) : Agrees lines (annotate lines index note) index stop 1 :=
  ⟨houtside, (isBlock_annotate h houtside).openAt_succ, fun _ hle _ => getD_annotate_succ hle⟩

theorem lt_length_of_isDeclarationLine (h : isDeclarationLine (lineAt lines index) = true) :
    index < lines.length := by
  by_contra hle
  rw [lineAt_of_length_le (by omega)] at h
  cases h

/-- The new block belongs to the declaration. -/
theorem binds_annotate (hdeclares : isDeclarationLine (lineAt lines index) = true)
    (houtside : openAt lines index = none) (hmodule : Text.hasWord "@module" note = false) :
    Binds (annotate lines index note) index index (index + 1) := by
  have hle := Nat.le_of_lt (lt_length_of_isDeclarationLine hdeclares)
  refine ⟨isBlock_annotate hle houtside, ?_, ⟨Nat.lt_succ_self _, fun k hlast htarget => by omega, ?_⟩, ?_⟩
  · rw [blockText_self, lineAt_annotate_self hle]
    exact hasWord_noteLine hmodule
  · rw [getD_annotate_succ (Nat.le_refl _)]
    exact isSkipped_of_isDeclarationLine hdeclares
  · rw [lineAt, getD_annotate_succ (Nat.le_refl _)]
    exact hdeclares

/-- A line after the declaration has a block that opens after the declaration. -/
theorem Binds.lt_first_of_declares (h : Binds lines first last target)
    (hdeclares : isDeclarationLine (lineAt lines index) = true) (houtside : openAt lines index = none)
    (hlt : index < target) : index < first := by
  by_contra hle
  rcases Nat.lt_or_ge last index with hbefore | hinside
  · have hskipped := h.next.skipped index hbefore hlt
    rw [isSkipped_of_isDeclarationLine hdeclares] at hskipped
    cases hskipped
  · rcases Nat.eq_or_lt_of_le (Nat.le_of_not_lt hle) with rfl | hopen
    · have hopens := h.block.opens
      rw [opensBlock_of_isDeclarationLine hdeclares] at hopens
      cases hopens
    · rw [h.block.openAt hopen hinside] at houtside
      cases houtside

/-- **Documenting a declaration** outside all blocks documents it, and leaves every
line documented that was. The block may say anything but `@module`. -/
theorem isSome_get?_annotate (lines : List Text) (index : Nat) (note : Text)
    (hdeclares : isDeclarationLine (lineAt lines index) = true) (houtside : openAt lines index = none)
    (hmodule : Text.hasWord "@module" note = false) :
    ((ofLines (annotate lines index note)).get? (index + 1)).isSome = true ∧
    (∀ k < index, ((ofLines lines).get? k).isSome = true →
      ((ofLines (annotate lines index note)).get? k).isSome = true) ∧
    ∀ k ≥ index, ((ofLines lines).get? k).isSome = true →
      ((ofLines (annotate lines index note)).get? (k + 1)).isSome = true := by
  have hindex := lt_length_of_isDeclarationLine hdeclares
  have hle := Nat.le_of_lt hindex
  have hnew : IsBound (annotate lines index note) (index + 1) :=
    ⟨index, index, binds_annotate hdeclares houtside hmodule⟩
  simp only [isSome_get?_iff, length_annotate hle]
  refine ⟨⟨by omega, index + 1, hnew, by omega, by omega⟩, ?_, ?_⟩
  · rintro k hk ⟨hlength, target, ⟨first, last, hbinds⟩, hwindow⟩
    have hbound := (agrees_annotate lines index note).binds hbinds (Nat.zero_le _) (by omega)
    exact ⟨by omega, target, ⟨first, last, hbound⟩, hwindow⟩
  · rintro k hk ⟨hlength, target, ⟨first, last, hbinds⟩, hwindow⟩
    refine ⟨by omega, ?_⟩
    rcases Nat.lt_or_ge index target with hlater | hearlier
    · -- A window that begins after the declaration moves down with its block.
      have hfirst := hbinds.lt_first_of_declares hdeclares houtside hlater
      have hbound := (agrees_annotate_succ hle houtside note (target + 1)).binds hbinds (by omega) (by omega)
      exact ⟨target + 1, ⟨first + 1, last + 1, hbound⟩, by omega, by omega⟩
    · -- A window that begins no later than the declaration ends no later than the new one.
      exact ⟨index + 1, hnew, by omega, by omega⟩

end

/-- A file whose second declaration is in the window of the first. -/
def sharedWindow : List Text :=
  ["/** A. */", "export const a = 1", "", "// b", "export const b = 2", "b", "b", "/** C. */", "const c = 3"]

/-- The window of the first declaration ends with the line after the second. With a
block before the second, that line moves out of it and is documented all the same. -/
theorem isSome_get?_sharedWindow :
    isDeclarationLine (lineAt sharedWindow 4) = true ∧ openAt sharedWindow 4 = none ∧
    Text.hasWord "@module" "B." = false ∧
    (ofLines sharedWindow).toList.map (·.1) = [1, 2, 3, 4, 5, 6, 8] ∧
    ((ofLines (annotate sharedWindow 4 "B.")).get? 5).isSome = true ∧
    ((ofLines (annotate sharedWindow 4 "B.")).get? 3).isSome = true ∧
    ((ofLines (annotate sharedWindow 4 "B.")).get? (6 + 1)).isSome = true ∧
    ((ofLines (annotate sharedWindow 4 "B.")).get? (8 + 1)).isSome = true := by
  have hdeclares : isDeclarationLine (lineAt sharedWindow 4) = true := by decide +kernel
  have hmodule : Text.hasWord "@module" "B." = false := by decide
  obtain ⟨hself, hbefore, hafter⟩ := isSome_get?_annotate sharedWindow 4 "B." hdeclares (by decide +kernel) hmodule
  refine ⟨hdeclares, by decide +kernel, hmodule, by decide +kernel, hself, ?_, ?_, ?_⟩
  · exact hbefore 3 (by decide) (by decide +kernel)
  · exact hafter 6 (by decide) (by decide +kernel)
  · exact hafter 8 (by decide) (by decide +kernel)

end ApiCoverage.DocMap
