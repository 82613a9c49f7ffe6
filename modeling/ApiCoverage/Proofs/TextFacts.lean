/-
Facts about cutting and joining text. The two are the library's `splitOn` and
`intercalate`, so splitting at a separator undoes joining with it as long as no
piece holds the separator.
-/
import ApiCoverage.Text.Basic
import Mathlib.Data.List.Basic

namespace ApiCoverage.Text

theorem pieces_eq_splitOnP (isSeparator : Char → Bool) (text : Text) :
    text.pieces isSeparator = text.splitOnP isSeparator := by
  induction text with
  | nil => rfl
  | cons c rest ih =>
    rw [pieces, List.splitOnP_cons_eq_if_modifyHead, ih]
    split
    · rfl
    · cases hrest : rest.splitOnP isSeparator with
      | nil => exact absurd hrest (List.splitOnP_ne_nil _ _)
      | cons piece others => rfl

theorem splitOn_eq (separator : Char) (text : Text) :
    splitOn separator text = List.splitOn separator text := by
  rw [splitOn, pieces_eq_splitOnP, List.splitOn_eq_splitOnP]

theorem splitOn_ne_nil (separator : Char) (text : Text) : splitOn separator text ≠ [] := by
  rw [splitOn, pieces_eq_splitOnP]
  exact List.splitOnP_ne_nil _ _

theorem join_eq_intercalate (separator : Text) (pieces : List Text) :
    join separator pieces = separator.intercalate pieces := by
  induction pieces with
  | nil => rfl
  | cons piece others ih =>
    cases others with
    | nil => simp [join]
    | cons next rest => rw [join, ih, List.intercalate_cons_cons]; simp

/-- The pieces between separators hold no separator. -/
theorem not_mem_of_mem_splitOn {separator : Char} {text piece : Text}
    (h : piece ∈ splitOn separator text) : separator ∉ piece := by
  rw [splitOn_eq] at h
  induction text generalizing piece with
  | nil =>
    simp only [List.splitOn_nil, List.mem_singleton] at h
    simp [h]
  | cons c rest ih =>
    rw [List.splitOn_cons_eq_if_modifyHead] at h
    split at h
    · rcases List.mem_cons.1 h with rfl | h
      · simp
      · exact ih h
    · next hc =>
      cases hrest : List.splitOn separator rest with
      | nil => exact absurd hrest (List.splitOn_ne_nil _ _)
      | cons first others =>
        rw [hrest] at h ih
        simp only [List.modifyHead_cons, List.mem_cons] at h
        rcases h with rfl | h
        · simp only [List.mem_cons, not_or]
          exact ⟨fun he => hc (by simp [he]), ih (by simp)⟩
        · exact ih (by simp [h])

theorem splitOn_join {separator : Char} {pieces : List Text} (hne : pieces ≠ [])
    (h : ∀ piece ∈ pieces, separator ∉ piece) :
    splitOn separator (join [separator] pieces) = pieces := by
  rw [splitOn_eq, join_eq_intercalate]
  exact List.splitOn_intercalate separator h hne

/-- Text put after a joined list goes to its last piece. -/
theorem join_concat_append (separator : Text) (pieces : List Text) (last text : Text) :
    join separator (pieces ++ [last]) ++ text = join separator (pieces ++ [last ++ text]) := by
  induction pieces with
  | nil => simp [join]
  | cons piece others ih =>
    cases others with
    | nil => simp [join]
    | cons next rest =>
      simp only [List.cons_append, join, List.append_assoc] at ih ⊢
      rw [ih]

theorem join_concat {separator : Text} {pieces : List Text} (hne : pieces ≠ []) (last : Text) :
    join separator (pieces ++ [last]) = join separator pieces ++ (separator ++ last) := by
  induction pieces with
  | nil => exact absurd rfl hne
  | cons piece others ih =>
    cases others with
    | nil => simp [join]
    | cons next rest =>
      have hrest := ih (by simp)
      simp only [List.cons_append, join, List.append_assoc] at hrest ⊢
      rw [hrest]

end ApiCoverage.Text
