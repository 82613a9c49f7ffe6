/-
Export statements and declarations, read on their first line and read again with
the following lines joined to it.

The second reading may find more than the first, such as the name of a
`const enum`, but it never fails where the first one succeeded
(`isSome_parse?_append_of_declares`). A list stays a list: no line that opens one
is ever read as a declaration.
-/
import ApiCoverage.Proofs.Lexemes
import ApiCoverage.Statement.Export

namespace ApiCoverage

namespace Declaration

open Lexeme

variable {text rest more : Text}

theorem star?_append (h : star? text = some rest) (hne : rest ≠ []) (more : Text) :
    star? (text ++ more) = some (rest ++ more) := by
  unfold star? at h
  split at h
  next tail ht =>
    rw [Option.some.injEq] at h
    subst h
    have hstar : Text.trimStart (text ++ more) = '*' :: (tail ++ more) := by
      rw [Text.trimStart_append (by rw [ht]; simp), ht, List.cons_append]
    simp only [star?, hstar, Text.trimStart_append hne]
  next hstar =>
    obtain ⟨_, hrest⟩ := blanks?_eq_some_iff.1 h
    have htrim : Text.trimStart (text ++ more) = rest ++ more := by
      rw [Text.trimStart_append (hrest ▸ hne), hrest]
    unfold star?
    split
    next tail ht =>
      cases rest with
      | nil => exact absurd rfl hne
      | cons c rest =>
        rw [htrim, List.cons_append, List.cons.injEq] at ht
        exact absurd (ht.1 ▸ hrest.symm) (hstar rest)
    · exact blanks?_append h hne more

theorem Keyword.after?_append {keyword : Keyword} (h : keyword.after? text = some rest) (hne : rest ≠ [])
    (more : Text) : keyword.after? (text ++ more) = some (rest ++ more) := by
  simp only [Keyword.after?, Option.bind_eq_bind, Option.bind_eq_some_iff] at h ⊢
  obtain ⟨head, hhead, tail, htail, h⟩ := h
  have htail_ne : tail ≠ [] := by
    rintro rfl
    split at h
    · exact absurd h (by simp [star?, Text.trimStart, blanks?])
    · cases h
  have hhead_ne : head ≠ [] := by
    rintro rfl
    obtain ⟨_, rfl⟩ := List.append_eq_nil_iff.1 (Text.after?_eq_some_iff.1 htail).symm
    exact htail_ne rfl
  refine ⟨head ++ more, phrase?_append hhead hhead_ne more, tail ++ more, Text.after?_append htail more, ?_⟩
  split at h
  next hs => rw [if_pos hs, star?_append h hne]
  next hs => rw [if_neg hs, blanks?_append h hne]

/-- A declaration is found where a keyword is followed by the start of a name. -/
theorem isSome_declared?_iff :
    (declared? text).isSome = true ↔
      ∃ keyword ∈ keywords, ∃ rest, keyword.after? text = some rest ∧ (name? rest).isSome = true := by
  simp only [declared?, List.isSome_findSome?, List.any_eq_true]
  refine exists_congr fun keyword => and_congr_right fun _ => ?_
  cases hk : keyword.after? text with
  | none => simp
  | some rest =>
    cases hn : name? rest with
    | none => simp [hn]
    | some named => simp [hn]

theorem isSome_declared?_append (h : (declared? text).isSome = true) (more : Text) :
    (declared? (text ++ more)).isSome = true := by
  obtain ⟨keyword, hm, rest, hrest, hname⟩ := isSome_declared?_iff.1 h
  obtain ⟨c, tail, rfl, hc⟩ := isSome_name?_iff.1 hname
  exact isSome_declared?_iff.2 ⟨keyword, hm, _, Keyword.after?_append hrest (by simp) more,
    isSome_name?_iff.2 ⟨c, tail ++ more, rfl, hc⟩⟩

theorem parse?_eq (text : Text) :
    parse? text = ((explicit? (Text.trimStart text)).filter isSound).or (defaultExport? (Text.trimStart text)) := by
  delta parse?
  dsimp only
  -- The text itself is left alone: unfolding how it is read takes long.
  generalize (explicit? (Text.trimStart text)).filter isSound = found
  cases found with
  | none => rfl
  | some d => rfl

end Declaration

/-! ## Export statements -/

namespace Export

open Lexeme

variable {text : Text} {statement : Export}

/-- A list of names has its opening brace after `export` and perhaps `type`. -/
theorem list?_cases (h : list? text = some statement) :
    (∃ rest tail, word? "export" text = some rest ∧ (Lexeme.optional "type" rest).2 = '{' :: tail) ∧
      ((∃ typeOnly specifiers, statement = .list typeOnly specifiers) ∨
        ∃ typeOnly specifiers source, statement = .reExport typeOnly specifiers source) := by
  simp only [list?, Option.bind_eq_bind, Option.bind_eq_some_iff] at h
  obtain ⟨rest, hrest, ⟨inside, after⟩, hbraced, h⟩ := h
  constructor
  · unfold braced? at hbraced
    split at hbraced
    next tail hbrace => exact ⟨rest, tail, hrest, hbrace⟩
    · cases hbraced
  · split at h
    · exact .inr ⟨_, _, _, (Option.some.inj h).symm⟩
    · exact .inl ⟨_, _, (Option.some.inj h).symm⟩

theorem star?_cases (h : star? text = some statement) : ∃ source, statement = .star source := by
  simp only [star?, Option.bind_eq_bind, Option.bind_eq_some_iff] at h
  obtain ⟨_, _, _, _, source, _, h⟩ := h
  exact ⟨source, (Option.some.inj h).symm⟩

theorem parse?_cases (h : parse? text = some statement) :
    star? text = some statement ∨ list? text = some statement ∨ declaration? text = some statement := by
  unfold parse? at h
  split at h
  · rcases Option.or_eq_some_iff.1 h with h | ⟨_, h⟩
    · exact .inl h
    · rcases Option.or_eq_some_iff.1 h with h | ⟨_, h⟩
      · exact .inr (.inl h)
      · exact .inr (.inr h)
  · cases h

/-- An exported declaration is one read from the text. -/
theorem parse?_of_parse?_declaration {d : Declaration} (h : parse? text = some (.declaration d)) :
    Declaration.parse? text = some d ∧ d.exported = true := by
  rcases parse?_cases h with h | h | h
  · obtain ⟨_, he⟩ := star?_cases h
    cases he
  · rcases (list?_cases h).2 with ⟨_, _, he⟩ | ⟨_, _, _, he⟩
    · cases he
    · cases he
  · obtain ⟨found, hfound, he⟩ := Option.map_eq_some_iff.1 h
    obtain rfl := Export.declaration.inj he
    exact Option.filter_eq_some_iff.1 hfound

theorem declares?_eq_some_iff {d : Declaration} :
    declares? text = some d ↔ parse? text = some (.declaration d) := by
  unfold declares?
  split
  next found hfound => simp [hfound]
  next hnone =>
    refine ⟨fun h => ?_, fun h => absurd h (hnone d)⟩
    cases h

/-- What comes after `export` and its blanks in a list: a brace, or `type` and one. -/
def IsListBody (body : Text) : Prop :=
  (∃ tail, body = '{' :: tail) ∨
    ∃ middle tail, body = String.toList "type" ++ middle ∧ Text.trimStart middle = '{' :: tail

theorem opensList_iff :
    opensList text = true ↔
      ∃ head, text = String.toList "export" ++ head ∧ IsListBody (Text.trimStart head) := by
  have hbrace : ∀ rest : Text, Text.startsWith ['{'] rest = true ↔ ∃ tail, rest = '{' :: tail := by
    intro rest
    simp [Text.startsWith, Option.isSome_iff_exists, Text.after?_eq_some_iff]
  unfold opensList
  cases hexport : Text.after? "export" text with
  | none =>
    refine ⟨fun h => absurd h Bool.false_ne_true, fun ⟨head, he, _⟩ => ?_⟩
    rw [Text.after?_eq_some_iff.2 he] at hexport
    cases hexport
  | some head =>
    have htext := Text.after?_eq_some_iff.1 hexport
    have hhead : ∀ other, text = String.toList "export" ++ other → other = head := fun other he =>
      List.append_cancel_left (he.symm.trans htext)
    simp only
    cases htype : Text.after? "type" (Text.trimStart head) with
    | none =>
      simp only [hbrace]
      refine ⟨fun h => ⟨head, htext, .inl h⟩, fun ⟨other, he, h⟩ => ?_⟩
      rw [hhead other he] at h
      rcases h with h | ⟨middle, _, hmiddle, _⟩
      · exact h
      · rw [Text.after?_eq_some_iff.2 hmiddle] at htype
        cases htype
    | some middle =>
      have hmiddle := Text.after?_eq_some_iff.1 htype
      simp only [hbrace]
      refine ⟨fun ⟨tail, h⟩ => ⟨head, htext, .inr ⟨middle, tail, hmiddle, h⟩⟩, fun ⟨other, he, h⟩ => ?_⟩
      rw [hhead other he, hmiddle] at h
      rcases h with ⟨tail, h⟩ | ⟨other, tail, hother, h⟩
      · cases h
      · rw [← List.append_cancel_left hother] at h
        exact ⟨tail, h⟩

theorem opensList_of_word? {rest tail : Text} (hrest : word? "export" text = some rest)
    (hbrace : (Lexeme.optional "type" rest).2 = '{' :: tail) : opensList text = true := by
  obtain ⟨head, htext, hblanks⟩ := word?_eq_some_iff.1 hrest
  obtain ⟨_, rfl⟩ := blanks?_eq_some_iff.1 hblanks
  refine opensList_iff.2 ⟨head, htext, ?_⟩
  by_cases htype : (Lexeme.optional "type" (Text.trimStart head)).1 = true
  · obtain ⟨rest, hword, hrest⟩ := optional_of_fst htype
    obtain ⟨middle, hmiddle, hafter⟩ := word?_eq_some_iff.1 hword
    obtain ⟨_, rfl⟩ := blanks?_eq_some_iff.1 hafter
    rw [hrest] at hbrace
    exact .inr ⟨middle, tail, hmiddle, hbrace⟩
  · rw [optional_snd_of_not_fst htype] at hbrace
    exact .inl ⟨tail, hbrace⟩

theorem opensList_of_list? (h : list? text = some statement) : opensList text = true := by
  obtain ⟨⟨rest, tail, hrest, hbrace⟩, _⟩ := list?_cases h
  exact opensList_of_word? hrest hbrace

theorem IsListBody.append {body : Text} (h : IsListBody body) (more : Text) : IsListBody (body ++ more) := by
  rcases h with ⟨tail, rfl⟩ | ⟨middle, tail, rfl, hmiddle⟩
  · exact .inl ⟨tail ++ more, rfl⟩
  · refine .inr ⟨middle ++ more, tail ++ more, List.append_assoc .., ?_⟩
    rw [Text.trimStart_append (by rw [hmiddle]; simp), hmiddle, List.cons_append]

theorem IsListBody.ne_nil {body : Text} (h : IsListBody body) : body ≠ [] := by
  rcases h with ⟨tail, rfl⟩ | ⟨middle, tail, rfl, _⟩
  · simp
  · simp

theorem IsListBody.after?_default {body : Text} (h : IsListBody body) : Text.after? "default" body = none := by
  rcases h with ⟨tail, rfl⟩ | ⟨middle, tail, rfl, _⟩
  · rfl
  · rfl

theorem IsListBody.after?_declare {body : Text} (h : IsListBody body) : Text.after? "declare" body = none := by
  rcases h with ⟨tail, rfl⟩ | ⟨middle, tail, rfl, _⟩
  · rfl
  · rfl

theorem IsListBody.declared? {body : Text} (h : IsListBody body) : Declaration.declared? body = none := by
  rcases h with ⟨tail, rfl⟩ | ⟨middle, tail, rfl, hmiddle⟩
  · rfl
  · by_contra hsome
    obtain ⟨keyword, hm, rest, hrest, hname⟩ :=
      Declaration.isSome_declared?_iff.1 (Option.isSome_iff_ne_none.2 hsome)
    simp only [Declaration.keywords, List.mem_cons, List.not_mem_nil, or_false] at hm
    rcases hm with rfl | rfl | rfl | rfl | rfl | rfl | rfl | rfl | rfl | rfl | rfl
    · cases hrest
    · cases hrest
    · cases hrest
    · cases hrest
    · cases hrest
    -- Only the keyword `type` comes next, and what follows it is the brace.
    · have hblanks : blanks? middle = some rest := hrest
      rw [(blanks?_eq_some_iff.1 hblanks).2, hmiddle] at hname
      cases hname
    · cases hrest
    · cases hrest
    · cases hrest
    · cases hrest
    · cases hrest

/-- No list is a declaration, whatever follows on later lines. -/
theorem declaration_parse?_of_opensList (h : opensList text = true) (more : Text) :
    Declaration.parse? (text ++ more) = none := by
  obtain ⟨head, htext, hbody⟩ := opensList_iff.1 h
  have hmore := hbody.append more
  have htrim : Text.trimStart (text ++ more) = text ++ more := by
    rw [htext]
    rfl
  have hword : word? "export" (text ++ more) = blanks? (head ++ more) := by
    rw [htext]
    rfl
  have hnone : Declaration.explicit? (text ++ more) = none ∧ Declaration.defaultValue? (text ++ more) = none := by
    cases hblanks : blanks? (head ++ more) with
    | none =>
      -- Without a blank after it `export` is no word, and the text starts no declaration.
      rw [hblanks] at hword
      refine ⟨?_, by rw [Declaration.defaultValue?, hword]; rfl⟩
      simp only [Declaration.explicit?, optional_of_none hword]
      rw [htext]
      rfl
    | some rest =>
      have hrest : rest = Text.trimStart head ++ more := by
        rw [(blanks?_eq_some_iff.1 hblanks).2, Text.trimStart_append hbody.ne_nil]
      rw [hblanks, hrest] at hword
      have hdefault : word? "default" (Text.trimStart head ++ more) = none := by
        rw [word?, hmore.after?_default, Option.bind_none]
      have hdeclare : word? "declare" (Text.trimStart head ++ more) = none := by
        rw [word?, hmore.after?_declare, Option.bind_none]
      constructor
      · simp only [Declaration.explicit?, optional_of_some hword, optional_of_none hdefault,
          optional_of_none hdeclare, hmore.declared?, Option.map_none]
      · simp only [Declaration.defaultValue?, hword, Option.bind_eq_bind, Option.bind_some,
          hmore.after?_default, Option.bind_none]
  rw [Declaration.parse?_eq, htrim, hnone.1, Option.filter_none, Option.none_or, Declaration.defaultExport?,
    hnone.2]
  rfl

/-- Nor is the export of a whole module. -/
theorem declaration_parse?_of_star? (h : star? text = some statement) : Declaration.parse? text = none := by
  simp only [star?, Option.bind_eq_bind, Option.bind_eq_some_iff] at h
  obtain ⟨rest, hrest, _, hstar, _⟩ := h
  obtain ⟨tail, rfl, _⟩ := word?_eq_some_iff.1 hstar
  have htrim : Text.trimStart text = text := by
    obtain ⟨head, rfl, _⟩ := word?_eq_some_iff.1 hrest
    rfl
  have hexplicit : Declaration.explicit? text = none := by
    simp only [Declaration.explicit?, optional_of_some hrest]
    rfl
  have hvalue : Declaration.defaultValue? text = none := by
    simp only [Declaration.defaultValue?, hrest, Option.bind_eq_bind, Option.bind_some]
    rfl
  rw [Declaration.parse?_eq, htrim, hexplicit, Declaration.defaultExport?, hvalue]
  rfl

end Export

/-! ## Declarations with more text after them -/

namespace Declaration

open Lexeme

variable {text more : Text}

/-- What a statement is that starts a declaration by keyword and name. -/
theorem explicit?_eq_some_iff {d : Declaration} :
    explicit? text = some d ↔
      ∃ kind name, declared? (optional "declare" (optional "default" (optional "export" text).2).2).2 =
          some (kind, name) ∧
        d = ⟨kind, name, if (optional "default" (optional "export" text).2).1 then .default else .named,
          (optional "export" text).1⟩ := by
  simp only [explicit?, Option.map_eq_some_iff, Prod.exists]
  refine exists_congr fun kind => exists_congr fun name => and_congr_right fun _ => eq_comm

/-- An exported declaration has the word `export` before it. -/
theorem exists_word?_of_exported {d : Declaration} (h : parse? text = some d) (hexported : d.exported = true) :
    ∃ rest, word? "export" (Text.trimStart text) = some rest := by
  rw [parse?_eq] at h
  rcases Option.or_eq_some_iff.1 h with h | ⟨_, h⟩
  · obtain ⟨kind, name, _, rfl⟩ := explicit?_eq_some_iff.1 (Option.filter_eq_some_iff.1 h).1
    obtain ⟨rest, hrest, _⟩ := optional_of_fst hexported
    exact ⟨rest, hrest⟩
  · obtain ⟨value, hvalue, _⟩ := Option.map_eq_some_iff.1 h
    obtain ⟨rest, hrest, _⟩ := Option.bind_eq_some_iff.1 hvalue
    exact ⟨rest, hrest⟩

/-- **An exported declaration is read as an export statement too.** -/
theorem export_parse?_of_exported {d : Declaration} (htrim : Text.trimStart text = text) (h : parse? text = some d)
    (hexported : d.exported = true) : Export.parse? text = some (.declaration d) := by
  obtain ⟨rest, hrest⟩ := exists_word?_of_exported h hexported
  rw [htrim] at hrest
  have hstarts : Text.startsWith "export" text = true := by
    obtain ⟨head, htext, _⟩ := word?_eq_some_iff.1 hrest
    rw [Text.startsWith, Text.after?_eq_some_iff.2 htext, Option.isSome_some]
  have hstar : Export.star? text = none := by
    by_contra hsome
    obtain ⟨statement, hstatement⟩ := Option.ne_none_iff_exists'.1 hsome
    rw [Export.declaration_parse?_of_star? hstatement] at h
    cases h
  have hlist : Export.list? text = none := by
    by_contra hsome
    obtain ⟨statement, hstatement⟩ := Option.ne_none_iff_exists'.1 hsome
    have hnone := Export.declaration_parse?_of_opensList (Export.opensList_of_list? hstatement) []
    rw [List.append_nil, h] at hnone
    cases hnone
  rw [Export.parse?, if_pos hstarts, hstar, hlist, Option.none_or, Option.none_or, Export.declaration?, h,
    Option.filter_some, if_pos hexported, Option.map_some]

/-- With more text after it a declaration is still one, with the same words
before the keyword. Its keyword and name may be others: `const enum` goes on. -/
theorem explicit?_append {d : Declaration} (h : explicit? text = some d) (hmore : IsContinuation more) :
    ∃ other, explicit? (text ++ more) = some other ∧ other.exported = d.exported ∧
      other.exportKind = d.exportKind := by
  have hexport : ∀ c ∈ ("export" : Text), isBlank c = false := not_isBlank_of_all rfl
  have hdefault : ∀ c ∈ ("default" : Text), isBlank c = false := not_isBlank_of_all rfl
  have hdeclare : ∀ c ∈ ("declare" : Text), isBlank c = false := not_isBlank_of_all rfl
  obtain ⟨kind, name, hdeclared, rfl⟩ := explicit?_eq_some_iff.1 h
  -- None of the three words can be the whole text, for then no declaration follows.
  have hne₃ : (optional "declare" (optional "default" (optional "export" text).2).2).2 ≠ [] := by
    intro he
    rw [he] at hdeclared
    cases hdeclared
  have hlast : (optional "default" (optional "export" text).2).2 ≠ ("declare" : Text) := by
    intro he
    rw [he] at hdeclared
    cases hdeclared
  have hne₂ : (optional "default" (optional "export" text).2).2 ≠ [] := by
    intro he
    rw [he] at hne₃
    exact hne₃ rfl
  have hmiddle : (optional "export" text).2 ≠ ("default" : Text) := by
    intro he
    rw [he] at hdeclared
    cases hdeclared
  have hne₁ : (optional "export" text).2 ≠ [] := by
    intro he
    rw [he] at hne₂
    exact hne₂ rfl
  have hfirst : text ≠ ("export" : Text) := by
    rintro rfl
    cases hdeclared
  have hsome := isSome_declared?_append (Option.isSome_of_eq_some hdeclared) more
  obtain ⟨⟨kind', name'⟩, hdeclared'⟩ := Option.isSome_iff_exists.1 hsome
  refine ⟨_, explicit?_eq_some_iff.2 ⟨kind', name', ?_, rfl⟩, ?_, ?_⟩
  · rw [optional_append hexport hmore hne₁ hfirst, optional_append hdefault hmore hne₂ hmiddle,
      optional_append hdeclare hmore hne₃ hlast]
    exact hdeclared'
  · rw [optional_append hexport hmore hne₁ hfirst]
  · rw [optional_append hexport hmore hne₁ hfirst, optional_append hdefault hmore hne₂ hmiddle]

theorem isSome_defaultValue?_append (h : (defaultValue? text).isSome = true) (hmore : IsContinuation more) :
    (defaultValue? (text ++ more)).isSome = true := by
  obtain ⟨value, h⟩ := Option.isSome_iff_exists.1 h
  simp only [defaultValue?, Option.bind_eq_bind, Option.bind_eq_some_iff] at h
  obtain ⟨tail, htail, rest, hrest, h⟩ := h
  have hne : tail ≠ [] := by
    rintro rfl
    cases hrest
  rw [defaultValue?, word?_append htail hne]
  simp only [Option.bind_eq_bind, Option.bind_some, Text.after?_append hrest]
  split at h
  next hcond =>
    rw [Bool.and_eq_true, Bool.not_eq_true'] at hcond
    have hend : Text.atWordEnd (rest ++ more) = true := by
      cases rest with
      | cons c rest => exact hcond.1
      | nil =>
        cases more with
        | nil => rfl
        | cons c more => simp [Text.atWordEnd, isWord_of_isBlank (hmore.blank c rfl)]
    have hline : (rest ++ more).contains '\n' = false := by
      have hrest : '\n' ∉ rest := by simpa using hcond.2
      simp [hrest, hmore.oneLine]
    rw [if_pos (by rw [hend, hline]; rfl)]
    rfl
  · cases h

theorem isSome_defaultValue?_of_explicit? {d : Declaration} (h : explicit? text = some d)
    (hexported : d.exported = true) (hdefault : d.exportKind = .default) (hline : '\n' ∉ text) :
    (defaultValue? text).isSome = true := by
  obtain ⟨kind, name, _, rfl⟩ := explicit?_eq_some_iff.1 h
  obtain ⟨rest, hexport, hrest⟩ := optional_of_fst hexported
  have hword : (Lexeme.optional "default" rest).1 = true := by
    rw [hrest] at hdefault
    by_contra hnot
    rw [if_neg hnot] at hdefault
    cases hdefault
  obtain ⟨_, hword, _⟩ := optional_of_fst hword
  obtain ⟨head, htext, hblanks⟩ := word?_eq_some_iff.1 hexport
  obtain ⟨tail, htail, hafter⟩ := word?_eq_some_iff.1 hword
  obtain ⟨⟨c, others, rfl, hc⟩, _⟩ := blanks?_eq_some_iff.1 hafter
  have hvalue : Text.after? "default" rest = some (c :: others) := Text.after?_eq_some_iff.2 htail
  have hsub : List.Sublist rest head := (blanks?_eq_some_iff.1 hblanks).2 ▸ List.dropWhile_sublist _
  have hnone : '\n' ∉ c :: others := fun hm =>
    hline (htext ▸ List.mem_append_right _ (hsub.mem (htail ▸ List.mem_append_right _ hm)))
  have hend : Text.atWordEnd (c :: others) = true := by simp [Text.atWordEnd, isWord_of_isBlank hc]
  have hcontains : (c :: others).contains '\n' = false := by
    rw [List.contains_eq_mem]
    exact decide_eq_false hnone
  rw [defaultValue?, hexport]
  simp only [Option.bind_eq_bind, Option.bind_some, hvalue, hend, hcontains]
  rfl

/-- A declaration by keyword and name is read as some declaration, unless it is a
default without `export`. -/
theorem isSome_parse?_of_explicit? {d : Declaration} (htrim : Text.trimStart text = text)
    (hline : '\n' ∉ text) (h : explicit? text = some d)
    (hexported : d.exportKind = .default → d.exported = true) : (parse? text).isSome = true := by
  by_cases hs : d.isSound = true
  · rw [parse?_eq, htrim, h, Option.filter_some, if_pos hs]
    rfl
  · have hdefault : d.exportKind = .default := by
      cases hk : d.exportKind with
      | default => rfl
      | named => simp [isSound, hk] at hs
    have hvalue := isSome_defaultValue?_of_explicit? h (hexported hdefault) hdefault hline
    rw [parse?_eq, htrim, h, Option.filter_some, if_neg hs, Option.none_or]
    simp only [defaultExport?, Option.isSome_map, hvalue]

theorem isSome_parse?_of_defaultValue? (htrim : Text.trimStart text = text)
    (h : (defaultValue? text).isSome = true) : (parse? text).isSome = true := by
  rw [parse?_eq, htrim, Option.isSome_or]
  simp [defaultExport?, h]

theorem trimStart_append_of_trimStart (htrim : Text.trimStart text = text) (hne : text ≠ [])
    (more : Text) : Text.trimStart (text ++ more) = text ++ more := by
  rw [Text.trimStart_append (by rwa [htrim]), htrim]

/-- **An exported declaration is read again with more text after it.** -/
theorem isSome_parse?_append_of_declares {d : Declaration} (htrim : Text.trimStart text = text)
    (hline : '\n' ∉ text) (hmore : IsContinuation more) (h : Export.declares? text = some d) :
    (parse? (text ++ more)).isSome = true := by
  have hparse := Export.parse?_of_parse?_declaration (Export.declares?_eq_some_iff.1 h)
  have hne : text ≠ [] := by
    rintro rfl
    cases hparse.1
  have htrim' := trimStart_append_of_trimStart htrim hne more
  have hline' : '\n' ∉ text ++ more := by simp [hline, hmore.oneLine]
  rw [parse?_eq, htrim] at hparse
  rcases Option.or_eq_some_iff.1 hparse.1 with hfound | ⟨_, hdefault⟩
  · obtain ⟨other, hother, hexported, _⟩ := explicit?_append (Option.filter_eq_some_iff.1 hfound).1 hmore
    exact isSome_parse?_of_explicit? htrim' hline' hother fun _ => hexported.trans hparse.2
  · have hvalue : (defaultValue? text).isSome = true := by
      obtain ⟨value, hvalue, _⟩ := Option.map_eq_some_iff.1 hdefault
      exact Option.isSome_of_eq_some hvalue
    exact isSome_parse?_of_defaultValue? htrim' (isSome_defaultValue?_append hvalue hmore)

end Declaration

end ApiCoverage
