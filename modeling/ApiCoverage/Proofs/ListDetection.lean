/-
The line that opens an export list, and the statement that is read from it.

A line opens a list if `export`, perhaps `type`, and a brace come next, with white space between
them or without. The statement that is joined from there to a closing brace is read as
a list only if each of the words has white space after it (`OpensSpaced.exists_isListForm`); one
that has not is read as nothing at all (`parse?_append_of_not_opensSpaced`), though its lines are
joined and passed over. Conversely nothing is read as a list whose line does not open one
(`opensList_of_isListForm`). `exists_isListForm_iff` has all of this.
-/
import ApiCoverage.Proofs.ExportLists

namespace ApiCoverage.Export

open Lexeme
open Text (IsBlanks IsGap)

variable {text line stem more : Text} {gaps : List Text} {statement : Export}

/-- A list of names, with or without a module that they come from. -/
def isListForm : Export → Bool
  | list _ _ => true
  | reExport _ _ _ => true
  | declaration _ => false
  | star _ => false

/-- What comes before the brace on a line that opens a list, with what stands after each of
its words: white space, or nothing. -/
inductive Stem : (gaps : List Text) → Text → Prop
  | values {gap : Text} (hgap : IsBlanks gap) : Stem [gap] (String.toList "export" ++ gap)
  | types {gap gap' : Text} (hgap : IsBlanks gap) (hgap' : IsBlanks gap') :
      Stem [gap, gap'] (String.toList "export" ++ (gap ++ (String.toList "type" ++ gap')))

theorem exists_stem_of_opensList (h : opensList text = true) :
    ∃ gaps stem more, Stem gaps stem ∧ text = stem ++ '{' :: more := by
  obtain ⟨head, rfl, hbody⟩ := opensList_iff.1 h
  obtain ⟨gap, hgap, hhead⟩ := Text.exists_trimStart head
  rcases hbody with ⟨tail, hbrace⟩ | ⟨middle, tail, htype, hbrace⟩
  · refine ⟨[gap], _, tail, .values hgap, ?_⟩
    rw [hhead, hbrace, List.append_assoc]
  · obtain ⟨gap', hgap', hmiddle⟩ := Text.exists_trimStart middle
    refine ⟨[gap, gap'], _, tail, .types hgap hgap', ?_⟩
    rw [hhead, htype, hmiddle, hbrace]
    simp only [List.append_assoc]

theorem Stem.not_mem_brace (h : Stem gaps stem) : '}' ∉ stem := by
  have hbrace : isBlank '}' = false := by decide
  have hexport : '}' ∉ String.toList "export" := by decide
  have htype : '}' ∉ String.toList "type" := by decide
  cases h with
  | values hgap =>
    simp only [List.mem_append, not_or]
    exact ⟨hexport, hgap.not_mem hbrace⟩
  | types hgap hgap' =>
    simp only [List.mem_append, not_or]
    exact ⟨hexport, hgap.not_mem hbrace, htype, hgap'.not_mem hbrace⟩

theorem Stem.exists_opening (h : Stem gaps stem) (hgaps : [] ∉ gaps) : ∃ typeOnly, Opening typeOnly stem := by
  have hempty : IsBlanks [] := Text.isBlanks_of_all [] rfl
  cases h with
  | @values gap hgap =>
    have hne : gap ≠ [] := fun he => hgaps (by simp [he])
    exact ⟨false, .values hempty ⟨hne, hgap⟩⟩
  | @types gap gap' hgap hgap' =>
    have hne : gap ≠ [] := fun he => hgaps (by simp [he])
    have hne' : gap' ≠ [] := fun he => hgaps (by simp [he])
    exact ⟨true, .types hempty ⟨hne, hgap⟩ ⟨hne', hgap'⟩⟩

theorem Stem.list?_eq_none (h : Stem gaps stem) (hgaps : [] ∈ gaps) (more : Text) :
    list? (stem ++ '{' :: more) = none := by
  cases h with
  | @values gap hgap =>
    obtain rfl : [] = gap := by simpa using hgaps
    rfl
  | @types gap gap' hgap hgap' =>
    by_cases hnil : gap = []
    · subst hnil
      rfl
    · -- `export` is read, but `type` stands right before the brace.
      obtain rfl : [] = gap' := by
        have hor : [] = gap ∨ [] = gap' := by simpa using hgaps
        exact hor.resolve_left fun he => hnil he.symm
      have hexport : word? "export" (String.toList "export" ++ (gap ++ (String.toList "type" ++ [])) ++ '{' :: more) =
          some (String.toList "type" ++ '{' :: more) := by
        simp only [List.append_assoc]
        exact word?_append_gap ⟨hnil, hgap⟩ (show isBlank 't' = false by decide) "export" _
      have htype : word? "type" (String.toList "type" ++ '{' :: more) = none := rfl
      simp only [list?, hexport, Option.bind_eq_bind, Option.bind_some, optional_of_none htype]
      rfl

/-! ## Reading the statement -/

theorem opensList_append (h : opensList text = true) (more : Text) : opensList (text ++ more) = true := by
  obtain ⟨head, rfl, hbody⟩ := opensList_iff.1 h
  refine opensList_iff.2 ⟨head ++ more, List.append_assoc .., ?_⟩
  rw [Text.trimStart_append hbody.ne_nil]
  exact hbody.append more

theorem star?_of_opensList (h : opensList text = true) : star? text = none := by
  obtain ⟨head, rfl, hbody⟩ := opensList_iff.1 h
  have hword : word? "export" (String.toList "export" ++ head) = blanks? head := rfl
  have hstar : word? "*" (Text.trimStart head) = none := by
    rcases hbody with ⟨tail, hbrace⟩ | ⟨middle, tail, htype, _⟩
    · rw [hbrace]
      rfl
    · rw [htype]
      rfl
  cases hblanks : blanks? head with
  | none => rw [star?, hword, hblanks, Option.bind_eq_bind, Option.bind_none]
  | some rest =>
    rw [(blanks?_eq_some_iff.1 hblanks).2] at hblanks
    simp only [star?, hword, hblanks, hstar, Option.bind_eq_bind, Option.bind_some, Option.bind_none]

theorem parse?_of_opensList (h : opensList text = true) : parse? text = list? text := by
  have hdeclaration : Declaration.parse? text = none := by
    have hnone := declaration_parse?_of_opensList h []
    rwa [List.append_nil] at hnone
  have hstarts : Text.startsWith "export" text = true := by
    obtain ⟨head, htext, _⟩ := opensList_iff.1 h
    rw [Text.startsWith, Text.after?_eq_some_iff.2 htext, Option.isSome_some]
  rw [parse?, if_pos hstarts, star?_of_opensList h, declaration?, hdeclaration, Option.none_or, Option.filter_none,
    Option.map_none, Option.or_none]

theorem isListForm_of_list? (h : list? text = some statement) : statement.isListForm = true := by
  rcases (list?_cases h).2 with ⟨_, _, rfl⟩ | ⟨_, _, _, rfl⟩
  · rfl
  · rfl

/-- **What is read as a list is on a line that opens one.** -/
theorem opensList_of_isListForm (h : parse? text = some statement) (hform : statement.isListForm = true) :
    opensList text = true := by
  rcases parse?_cases h with h | h | h
  · obtain ⟨_, rfl⟩ := star?_cases h
    cases hform
  · exact opensList_of_list? h
  · obtain ⟨_, _, rfl⟩ := Option.map_eq_some_iff.1 h
    cases hform

theorem Stem.exists_parse? (h : Stem gaps stem) (hgaps : [] ∉ gaps) (hclosed : '}' ∈ more) :
    ∃ statement, parse? (stem ++ '{' :: more) = some statement := by
  obtain ⟨typeOnly, hopening⟩ := h.exists_opening hgaps
  have htrim : Text.trimStart stem = stem := by
    cases h with
    | values hgap => rfl
    | types hgap hgap' => rfl
  obtain ⟨inside, tail, rfl, hinside⟩ := List.eq_append_cons_of_mem hclosed
  have hparse := parse?_of_opening hopening hinside tail
  rw [htrim] at hparse
  exact ⟨_, hparse⟩

/-- The line opens a list with white space after each word before the brace. -/
def OpensSpaced (text : Text) : Prop :=
  ∃ gaps stem more, Stem gaps stem ∧ [] ∉ gaps ∧ text = stem ++ '{' :: more

theorem OpensSpaced.exists_isListForm (h : OpensSpaced text) (hopens : opensList text = true)
    (hclosed : '}' ∈ text ++ more) :
    ∃ statement, parse? (text ++ more) = some statement ∧ statement.isListForm = true := by
  have hlist := parse?_of_opensList (opensList_append hopens more)
  obtain ⟨gaps, stem, rest, hstem, hgaps, rfl⟩ := h
  rw [List.append_assoc, List.cons_append] at hclosed hlist ⊢
  have hrest : '}' ∈ rest ++ more := by
    rcases List.mem_append.1 hclosed with hm | hm
    · exact absurd hm hstem.not_mem_brace
    · exact (List.mem_cons.1 hm).resolve_left (by decide)
  obtain ⟨statement, hparse⟩ := hstem.exists_parse? hgaps hrest
  exact ⟨statement, hparse, isListForm_of_list? (hlist ▸ hparse)⟩

theorem parse?_append_of_not_opensSpaced (hopens : opensList text = true) (h : ¬ OpensSpaced text) (more : Text) :
    parse? (text ++ more) = none := by
  have hlist := parse?_of_opensList (opensList_append hopens more)
  obtain ⟨gaps, stem, rest, hstem, rfl⟩ := exists_stem_of_opensList hopens
  have hgaps : [] ∈ gaps := by
    by_contra hgaps
    exact h ⟨gaps, stem, rest, hstem, hgaps, rfl⟩
  rw [hlist, List.append_assoc, List.cons_append, hstem.list?_eq_none hgaps]

theorem joinBracedAt?_of_getElem? {lines : List Text} {index count : Nat} (hline : lines[index]? = some line)
    (hjoin : joinBracedAt? lines index = some (text, count)) : ∃ more, text = Text.trim line ++ more := by
  obtain ⟨hlt, rfl⟩ := List.getElem?_eq_some_iff.1 hline
  rw [joinBracedAt?, List.drop_eq_getElem_cons hlt, Option.some.injEq] at hjoin
  obtain ⟨more, hmore⟩ := joinBraced_fst lines[index] (lines.drop (index + 1))
  rw [hjoin] at hmore
  exact ⟨more, hmore⟩

/-- **A line that opens a list is read as a list exactly if its words stand apart.** The
statement that is joined from a line that opens a list, up to a closing brace, is a list of names
with or without a module if white space stands after `export`, and after `type` if that
is there; otherwise nothing is read from it. And no line is read as a list that does not open
one. -/
theorem exists_isListForm_iff (lines : List Text) (index count : Nat) (line text : Text) :
    (lines[index]? = some line → opensList (Text.trim line) = true →
      joinBracedAt? lines index = some (text, count) → '}' ∈ text →
      ((∃ statement, parse? text = some statement ∧ statement.isListForm = true) ↔ OpensSpaced (Text.trim line)) ∧
        (¬ OpensSpaced (Text.trim line) → parse? text = none)) ∧
    ∀ statement, parse? (Text.trim line) = some statement → statement.isListForm = true →
      opensList (Text.trim line) = true := by
  refine ⟨?_, fun statement => opensList_of_isListForm⟩
  intro hline hopens hjoin hclosed
  obtain ⟨more, rfl⟩ := joinBracedAt?_of_getElem? hline hjoin
  have hglued : ¬ OpensSpaced (Text.trim line) → parse? (Text.trim line ++ more) = none := fun hnot =>
    parse?_append_of_not_opensSpaced hopens hnot more
  refine ⟨⟨?_, fun hspaced => hspaced.exists_isListForm hopens hclosed⟩, hglued⟩
  rintro ⟨statement, hparse, -⟩
  by_contra hnot
  rw [hglued hnot] at hparse
  cases hparse

/-- A list of types over three lines, from a module. -/
theorem exists_isListForm_typeList :
    opensList (Text.trim " export\u3000type \x7b ") = true ∧
    joinBracedAt? ["", " export\u3000type \x7b ", "  K", "\x7d from './k.ts'"] 1 =
      some (String.toList "export\u3000type \x7b K \x7d from './k.ts'", 3) ∧
    OpensSpaced (Text.trim " export\u3000type \x7b ") ∧
    ∃ statement, parse? "export\u3000type \x7b K \x7d from './k.ts'" = some statement ∧
      statement.isListForm = true := by
  have hopens : opensList (Text.trim " export\u3000type \x7b ") = true := by decide +kernel
  have hjoin : joinBracedAt? ["", " export\u3000type \x7b ", "  K", "\x7d from './k.ts'"] 1 =
      some (String.toList "export\u3000type \x7b K \x7d from './k.ts'", 3) := by decide +kernel
  have hspaced : OpensSpaced (Text.trim " export\u3000type \x7b ") :=
    ⟨["\u3000", " "], "export\u3000type ", [], Stem.types (Text.isBlanks_of_all "\u3000" rfl)
      (Text.isBlanks_of_all " " rfl), by decide, by decide +kernel⟩
  have hread := (exists_isListForm_iff _ _ _ _ _).1 rfl hopens hjoin (by decide +kernel)
  exact ⟨hopens, hjoin, hspaced, hread.1.2 hspaced⟩

/-- Without white space between `export` and the brace the two lines of this list are joined,
and nothing is read from them. -/
theorem parse?_gluedList :
    opensList (Text.trim "export\x7b K,") = true ∧
    joinBracedAt? ["export\x7b K,", "  L \x7d"] 0 = some (String.toList "export\x7b K, L \x7d", 2) ∧
    '}' ∈ ("export\x7b K, L \x7d" : Text) ∧ parse? "export\x7b K, L \x7d" = none := by
  decide +kernel

end ApiCoverage.Export
