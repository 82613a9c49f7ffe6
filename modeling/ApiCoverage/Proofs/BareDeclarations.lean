/-
Lines that have the shape of a declaration, exported or not.

The shape is looser than a declaration: any text may be the name, and any of the
words `export`, `default`, `declare`, `async` and `abstract` may come before any
keyword. It is a declaration if its name starts as names do and the words before
the keyword go with it (`isSome_parse?_append_of_bare`).
-/
import ApiCoverage.Proofs.Statements
import ApiCoverage.Source.Locate

namespace ApiCoverage

namespace Locate

open Lexeme

variable {name text rest cut : Text}

/-- The name starts as the names of declarations do. -/
def startsName (name : Text) : Bool := name.head?.any isNameStart

/-- The words before the keyword go with it: `default` stands after `export`,
`async` before `function`, and `abstract` before `class`. -/
def isOrderly (text : Text) : Bool :=
  let (exported, text) := Lexeme.optional "export" text
  let (isDefault, text) := Lexeme.optional "default" text
  let (_, text) := Lexeme.optional "declare" text
  let (isAsync, text) := Lexeme.optional "async" text
  let (isAbstract, text) := Lexeme.optional "abstract" text
  (!isDefault || exported) &&
    (!isAsync || (!isAbstract && Text.startsWith "function" text)) &&
    (!isAbstract || Text.startsWith "class" text)

theorem isBlank_of_isNameStart {c : Char} (h : isNameStart c = true) : isBlank c = false :=
  isBlank_eq_false_of (by decide +kernel) h

/-- Only the longest run of blanks leads to something that is no blank. -/
theorem blanks?_of_mem_blankCuts {c : Char} {tail : Text} (hc : isBlank c = false)
    (h : c :: tail ∈ blankCuts rest) : blanks? rest = some (c :: tail) := by
  induction rest with
  | nil => cases h
  | cons b rest ih =>
    rw [blankCuts] at h
    split at h
    next hb =>
      refine blanks?_eq_some_iff.2 ⟨⟨b, rest, rfl, hb⟩, ?_⟩
      rw [Text.trimStart_cons_blank hb]
      rcases List.mem_append.1 h with h | h
      · exact (blanks?_eq_some_iff.1 (ih h)).2
      · rw [← List.mem_singleton.1 h, Text.trimStart_cons hc]
    · cases h

theorem mem_keywordEnds (h : rest ∈ keywordEnds text) :
    (∃ word ∈ [("class" : Text), "interface", "type", "enum", "const", "let", "var"],
      Text.after? word text = some rest) ∨
    (∃ tail, Text.after? "function" text = some tail ∧ (rest = tail ∨ Text.trimStart tail = '*' :: rest)) ∨
    ∃ tail, word? "const" text = some tail ∧ Text.after? "enum" tail = some rest := by
  simp only [keywordEnds, List.mem_append, Option.mem_toList, Option.bind_eq_some_iff] at h
  rcases h with (h | h) | h
  · obtain ⟨word, hword, h⟩ := List.mem_filterMap.1 h
    exact .inl ⟨word, hword, h⟩
  · refine .inr (.inl ?_)
    split at h
    next tail htail =>
      refine ⟨tail, htail, ?_⟩
      split at h
      next star hstar =>
        rcases List.mem_cons.1 h with rfl | h
        · exact .inl rfl
        · exact .inr (List.mem_singleton.1 h ▸ hstar)
      · exact .inl (List.mem_singleton.1 h)
    · cases h
  · exact .inr (.inr h)

theorem star?_of_function {c : Char} {tail : Text} (hc : isNameStart c = true)
    (hrest : rest = cut ∨ Text.trimStart cut = '*' :: rest) (hblanks : blanks? rest = some (c :: tail)) :
    Declaration.star? cut = some (c :: tail) := by
  rcases hrest with rfl | hstar
  · have htrim := (blanks?_eq_some_iff.1 hblanks).2
    unfold Declaration.star?
    split
    next star hstar =>
      rw [hstar] at htrim
      obtain ⟨rfl, _⟩ := List.cons.inj htrim
      cases hc
    · exact hblanks
  · simp only [Declaration.star?, hstar, (blanks?_eq_some_iff.1 hblanks).2]

section

variable {c : Char} {tail : Text} (hc : isNameStart c = true)

include hc

theorem isSome_declared?_of_keyword {words : List Text} {last head cut : Text} {starred : Bool}
    (index : Nat) (hkeyword : Declaration.keywords[index]? = some ⟨words, last, starred⟩)
    (hwords : phrase? words text = some head) (hlast : Text.after? last head = some cut)
    (hname : (if starred then Declaration.star? cut else blanks? cut) = some (c :: tail)) :
    (Declaration.declared? text).isSome = true := by
  have hafter : Declaration.Keyword.after? ⟨words, last, starred⟩ text = some (c :: tail) := by
    simp only [Declaration.Keyword.after?, Option.bind_eq_bind, hwords, Option.bind_some, hlast, hname]
  exact Declaration.isSome_declared?_iff.2
    ⟨_, List.mem_of_getElem? hkeyword, c :: tail, hafter, isSome_name?_iff.2 ⟨c, tail, rfl, hc⟩⟩

theorem isSome_declared?_of_keywordEnds (hends : rest ∈ keywordEnds text)
    (hblanks : blanks? rest = some (c :: tail)) : (Declaration.declared? text).isSome = true := by
  rcases mem_keywordEnds hends with ⟨word, hword, hafter⟩ | ⟨cut, hafter, hrest⟩ | ⟨cut, hcut, hafter⟩
  · simp only [List.mem_cons, List.not_mem_nil, or_false] at hword
    rcases hword with rfl | rfl | rfl | rfl | rfl | rfl | rfl
    · exact isSome_declared?_of_keyword hc 3 rfl rfl hafter hblanks
    · exact isSome_declared?_of_keyword hc 4 rfl rfl hafter hblanks
    · exact isSome_declared?_of_keyword hc 5 rfl rfl hafter hblanks
    · exact isSome_declared?_of_keyword hc 7 rfl rfl hafter hblanks
    · exact isSome_declared?_of_keyword hc 8 rfl rfl hafter hblanks
    · exact isSome_declared?_of_keyword hc 9 rfl rfl hafter hblanks
    · exact isSome_declared?_of_keyword hc 10 rfl rfl hafter hblanks
  · exact isSome_declared?_of_keyword hc 1 rfl rfl hafter (star?_of_function hc hrest hblanks)
  · have hwords : phrase? ["const"] text = some cut := by rw [phrase?, hcut, Option.bind_some, phrase?]
    exact isSome_declared?_of_keyword hc 6 rfl hwords hafter hblanks

theorem isSome_declared?_of_async {body : Text} (hasync : word? "async" text = some body)
    (hfunction : Text.startsWith "function" body = true) (hends : rest ∈ keywordEnds body)
    (hblanks : blanks? rest = some (c :: tail)) : (Declaration.declared? text).isSome = true := by
  obtain ⟨after, hafter⟩ := Option.isSome_iff_exists.1 hfunction
  have hbody := Text.after?_eq_some_iff.1 hafter
  rcases mem_keywordEnds hends with ⟨word, hword, hother⟩ | ⟨cut, hcut, hrest⟩ | ⟨_, hother, _⟩
  · simp only [List.mem_cons, List.not_mem_nil, or_false] at hword
    rw [hbody] at hother
    rcases hword with rfl | rfl | rfl | rfl | rfl | rfl | rfl <;> cases hother
  · have hwords : phrase? ["async"] text = some body := by rw [phrase?, hasync, Option.bind_some, phrase?]
    exact isSome_declared?_of_keyword hc 0 rfl hwords hcut (star?_of_function hc hrest hblanks)
  · rw [hbody] at hother
    cases hother

theorem isSome_declared?_of_abstract {body : Text} (habstract : word? "abstract" text = some body)
    (hclass : Text.startsWith "class" body = true) (hends : rest ∈ keywordEnds body)
    (hblanks : blanks? rest = some (c :: tail)) : (Declaration.declared? text).isSome = true := by
  obtain ⟨after, hafter⟩ := Option.isSome_iff_exists.1 hclass
  have hbody := Text.after?_eq_some_iff.1 hafter
  have hwords : phrase? ["abstract"] text = some body := by
    rw [phrase?, habstract, Option.bind_some, phrase?]
  have hrest : rest = after := by
    rcases mem_keywordEnds hends with ⟨word, hword, hother⟩ | ⟨_, hother, _⟩ | ⟨_, hother, _⟩
    · simp only [List.mem_cons, List.not_mem_nil, or_false] at hword
      rcases hword with rfl | hword
      · exact Option.some.inj (hother.symm.trans hafter)
      · rw [hbody] at hother
        rcases hword with rfl | rfl | rfl | rfl | rfl | rfl <;> cases hother
    · rw [hbody] at hother
      cases hother
    · rw [hbody] at hother
      cases hother
  exact isSome_declared?_of_keyword hc 2 rfl hwords hafter (hrest ▸ hblanks)

theorem isSome_declared?_of_modifiers
    (hends : rest ∈ keywordEnds (Lexeme.optional "abstract" (Lexeme.optional "async" text).2).2)
    (hblanks : blanks? rest = some (c :: tail))
    (hasync : (Lexeme.optional "async" text).1 = true →
      (Lexeme.optional "abstract" (Lexeme.optional "async" text).2).1 = false ∧
        Text.startsWith "function" (Lexeme.optional "abstract" (Lexeme.optional "async" text).2).2 = true)
    (habstract : (Lexeme.optional "abstract" (Lexeme.optional "async" text).2).1 = true →
      Text.startsWith "class" (Lexeme.optional "abstract" (Lexeme.optional "async" text).2).2 = true) :
    (Declaration.declared? text).isSome = true := by
  by_cases ha : (Lexeme.optional "async" text).1 = true
  · obtain ⟨hplain, hfunction⟩ := hasync ha
    obtain ⟨body, hword, hbody⟩ := optional_of_fst ha
    rw [hbody] at hplain hfunction hends
    rw [optional_snd_of_not_fst (Bool.not_eq_true _ ▸ hplain)] at hfunction hends
    exact isSome_declared?_of_async hc hword hfunction hends hblanks
  · rw [optional_snd_of_not_fst ha] at habstract hends
    by_cases hb : (Lexeme.optional "abstract" text).1 = true
    · have hclass := habstract hb
      obtain ⟨body, hword, hbody⟩ := optional_of_fst hb
      rw [hbody] at hclass hends
      exact isSome_declared?_of_abstract hc hword hclass hends hblanks
    · rw [optional_snd_of_not_fst hb] at hends
      exact isSome_declared?_of_keywordEnds hc hends hblanks

end

/-- A line of the shape of a declaration is one by keyword and name, if its name
starts as names do and the words before the keyword are in order. -/
theorem explicit?_of_declaresBare (hbare : declaresBare name text = true) (hname : startsName name = true)
    (horderly : isOrderly text = true) :
    ∃ d, Declaration.explicit? text = some d ∧ (d.exportKind = .default → d.exported = true) := by
  simp only [declaresBare, skip, List.any_eq_true] at hbare
  obtain ⟨rest, hends, cut, hcut, hafter⟩ := hbare
  simp only [isOrderly, Bool.and_eq_true, Bool.or_eq_true, Bool.not_eq_true'] at horderly
  obtain ⟨⟨hdefault, hasync⟩, habstract⟩ := horderly
  obtain ⟨c, tail, hc, rfl⟩ : ∃ c tail, isNameStart c = true ∧ cut = c :: tail := by
    cases name with
    | nil => cases hname
    | cons c others =>
      split at hafter
      next after hsome =>
        exact ⟨c, others ++ after, by simpa [startsName] using hname, Text.after?_eq_some_iff.1 hsome⟩
      · cases hafter
  have hblanks := blanks?_of_mem_blankCuts (isBlank_of_isNameStart hc) hcut
  have hsome := isSome_declared?_of_modifiers hc hends hblanks
    (fun ha => hasync.resolve_left (by rw [ha]; exact Bool.noConfusion))
    (fun hb => habstract.resolve_left (by rw [hb]; exact Bool.noConfusion))
  obtain ⟨⟨kind, declared⟩, hdeclared⟩ := Option.isSome_iff_exists.1 hsome
  refine ⟨_, Declaration.explicit?_eq_some_iff.2 ⟨kind, declared, hdeclared, rfl⟩, fun hkind => ?_⟩
  refine hdefault.resolve_left fun hnot => ?_
  simp only [hnot] at hkind
  cases hkind

/-- **A line of the shape of a declaration is read as one**, with the following
lines joined to it, under these two conditions. -/
theorem isSome_parse?_append_of_bare {more : Text} (htrim : Text.trimStart text = text)
    (hline : '\n' ∉ text) (hmore : IsContinuation more) (hbare : declaresBare name text = true)
    (hname : startsName name = true) (horderly : isOrderly text = true) :
    (Declaration.parse? (text ++ more)).isSome = true := by
  obtain ⟨d, hd, hexported⟩ := explicit?_of_declaresBare hbare hname horderly
  obtain ⟨other, hother, hexport, hkind⟩ := Declaration.explicit?_append hd hmore
  have hne : text ≠ [] := by
    rintro rfl
    cases hd
  refine Declaration.isSome_parse?_of_explicit? (Declaration.trimStart_append_of_trimStart htrim hne more)
    (by simp [hline, hmore.oneLine]) hother fun hdefault => ?_
  rw [hexport, hexported (hkind.symm.trans hdefault)]

end Locate

end ApiCoverage
