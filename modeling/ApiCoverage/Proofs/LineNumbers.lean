/-
Lines keep their numbers when comments and superfluous commas are taken out.

Both passes only leave characters out, and never a line feed (`Thins`). This holds of any text,
whether or not it is a document: nothing is assumed about where strings and comments end.
So the lines that remain are as many as before, each made of characters of the line with its
number, and every character that remains is found on that line of the text.
-/
import ApiCoverage.Config.Comments
import ApiCoverage.Proofs.Words
import Mathlib.Data.List.Forall2

namespace ApiCoverage

open Text (splitOn)

/-- What is kept of a text when some of its characters are left out, none of them a line feed. -/
inductive Thins : (text kept : Text) → Prop
  | nil : Thins [] []
  | keep (c : Char) {text kept : Text} (h : Thins text kept) : Thins (c :: text) (c :: kept)
  | drop {c : Char} {text kept : Text} (hc : c ≠ '\n') (h : Thins text kept) : Thins (c :: text) kept

namespace Thins

variable {text kept : Text}

theorem trans {fewer : Text} (h : Thins text kept) (h' : Thins kept fewer) : Thins text fewer := by
  induction h generalizing fewer with
  | nil => exact h'
  | keep c h ih =>
    cases h' with
    | keep _ h' => exact .keep c (ih h')
    | drop hc h' => exact .drop hc (ih h')
  | drop hc h ih => exact .drop hc (ih h')

theorem count_eq (h : Thins text kept) : kept.count '\n' = text.count '\n' := by
  induction h with
  | nil => rfl
  | keep c h ih => simp only [List.count_cons, ih]
  | drop hc h ih => rw [List.count_cons_of_ne hc, ih]

/-- Every line that is kept is made of characters of the line with its number. -/
theorem lines (h : Thins text kept) : List.Forall₂ List.Sublist (splitOn '\n' kept) (splitOn '\n' text) := by
  induction h with
  | nil => exact .cons .slnil .nil
  | @keep c text kept h ih =>
    rw [Text.splitOn_cons, Text.splitOn_cons]
    split
    · exact .cons .slnil ih
    · generalize splitOn '\n' kept = rows at ih ⊢
      generalize splitOn '\n' text = others at ih ⊢
      cases ih with
      | nil => exact .nil
      | cons hline hrest => exact .cons (hline.cons_cons c) hrest
  | @drop c text kept hc h ih =>
    rw [Text.splitOn_cons, if_neg (by simpa using hc)]
    generalize splitOn '\n' kept = rows at ih ⊢
    generalize splitOn '\n' text = others at ih ⊢
    cases ih with
    | nil => exact .nil
    | cons hline hrest => exact .cons (hline.cons c) hrest

/-- Every character that is kept stands on the line of the text that has its number. -/
theorem exists_place (h : Thins text kept) {index : Nat} {c : Char} (hindex : kept[index]? = some c) :
    ∃ place, text[place]? = some c ∧ (text.take place).count '\n' = (kept.take index).count '\n' := by
  induction h generalizing index with
  | nil => cases hindex
  | keep d h ih =>
    cases index with
    | zero => exact ⟨0, hindex, rfl⟩
    | succ index =>
      obtain ⟨place, hplace, hcount⟩ := ih hindex
      exact ⟨place + 1, hplace, by simp only [List.take_succ_cons, List.count_cons, hcount]⟩
  | drop hd h ih =>
    obtain ⟨place, hplace, hcount⟩ := ih hindex
    exact ⟨place + 1, hplace, by rw [List.take_succ_cons, List.count_cons_of_ne hd, hcount]⟩

end Thins

namespace Config

/-! ## The two passes -/

theorem thins_stripComments (region : Region) (text : Text) : Thins text (stripComments region text) := by
  fun_induction stripComments region text with
  | case1 region => exact .nil
  -- Strings are copied, and so is the line feed that ends or stands in a comment.
  | case2 c rest ih => exact .keep c ih
  | case3 c rest ih => exact .keep c ih
  | case4 c rest hfeed ih => exact .keep c ih
  | case5 c rest hfeed ih => exact .drop (by simpa using hfeed) ih
  | case6 before c rest hfeed ih => exact .keep c ih
  | case7 before c rest hfeed hends ih => exact .drop (by simpa using hfeed) ih
  | case8 before c rest hfeed hends ih => exact .drop (by simpa using hfeed) ih
  | case9 rest ih => exact .drop (by decide) (.drop (by decide) ih)
  | case10 rest ih => exact .drop (by decide) (.drop (by decide) ih)
  | case11 c rest hline hblock ih => exact .keep c ih

theorem thins_dropCommas (region : Region) (text : Text) : Thins text (dropCommas region text) := by
  fun_induction dropCommas region text with
  | case1 region => exact .nil
  | case2 c rest ih => exact .keep c ih
  | case3 c rest ih => exact .keep c ih
  | case4 region c rest hstring hescape hcomma ih =>
    have hc : c = ',' := beq_iff_eq.1 (Bool.and_eq_true_iff.1 hcomma).1
    exact .drop (by rw [hc]; decide) ih
  | case5 region c rest hstring hescape hcomma ih => exact .keep c ih

theorem thins_plain (text : Text) : Thins text (plain text) :=
  (thins_stripComments .code text).trans (thins_dropCommas .code _)

/-- **Lines keep their numbers.** Of any text, a document or not, the plain form has as many line
feeds, each of its lines is made of characters of the line with the same number, and each of its
characters is found in the text with as many line feeds before it. So whatever is found wrong with
the plain form is on the line of the text that has the same number. -/
theorem lines_plain (text : Text) :
    (plain text).count '\n' = text.count '\n' ∧
    List.Forall₂ List.Sublist (splitOn '\n' (plain text)) (splitOn '\n' text) ∧
    ∀ index : Fin (plain text).length, ∃ place : Fin text.length, text.get place = (plain text).get index ∧
      (text.take place).count '\n' = ((plain text).take index).count '\n' := by
  have hthins := thins_plain text
  refine ⟨hthins.count_eq, hthins.lines, fun index => ?_⟩
  obtain ⟨place, hplace, hcount⟩ := hthins.exists_place (List.getElem?_eq_getElem index.isLt)
  obtain ⟨hlt, hget⟩ := List.getElem?_eq_some_iff.1 hplace
  exact ⟨⟨place, hlt⟩, hget, hcount⟩

/-- An escaped line feed in a string, a comment over two lines and one that does not end. -/
example : plain "\x22a\\\n\x22, /* b\n ,*/ ] // c\n/* d\n" = "\x22a\\\n\x22 \n ] \n\n" := by decide +kernel

end Config

end ApiCoverage
