/-
Declarations in all their forms: the words `export`, `default` and `declare`, each of them
or not, then a keyword and a name, with any white space between them.

Whatever is written in one of these forms is read as that declaration
(`parse?_of_form`), and whatever is read by keyword and name is written in one of them
(`exists_form_of_explicit?`). No word of the one kind starts like one of the other, so there is
only one way to read the words before the keyword, and one to read the keyword. The
exception is `const`, which `const enum` starts with. The kind is told once more from the
text that the keyword takes, and is that of its form (`kindOf_of_opens`).
-/
import ApiCoverage.Proofs.Words
import ApiCoverage.Proofs.Statements

namespace ApiCoverage

open Text (IsBlanks IsGap IsWord)

/-! ## Words that differ -/

namespace Text

/-- The two words have different characters at some place, so that no text starts with both. -/
def differs : (word other : Text) → Bool
  | w :: word, o :: other => w != o || differs word other
  | _, _ => false

theorem after?_of_differs {word other : Text} (h : differs word other = true) (more : Text) :
    after? word (other ++ more) = none := by
  induction word generalizing other with
  | nil => cases other <;> cases h
  | cons w word ih =>
    cases other with
    | nil => cases h
    | cons o other =>
      rw [List.cons_append, after?]
      by_cases hw : w = o
      · subst hw
        simp only [differs, bne_self_eq_false, Bool.false_or] at h
        rw [if_pos (beq_self_eq_true w)]
        exact ih h
      · rw [if_neg (by simpa using hw)]

end Text

/-! ## Words that may be left out -/

namespace Lexeme

/-- Words in a given order with white space after each, where the flags say which of them
stand there and which are left out. -/
inductive Led : (words : List Text) → (flags : List Bool) → Text → Prop
  | nil : Led [] [] []
  | absent {word : Text} {words : List Text} {flags : List Bool} {lead : Text} (h : Led words flags lead) :
      Led (word :: words) (false :: flags) lead
  | present {word gap : Text} {words : List Text} {flags : List Bool} {lead : Text} (hgap : IsGap gap)
      (h : Led words flags lead) : Led (word :: words) (true :: flags) (word ++ (gap ++ lead))

/-- Reads each of the words if it comes next; says which ones did, and what follows them. -/
def optionals : List Text → Text → List Bool × Text
  | [], text => ([], text)
  | word :: words, text =>
    ((optional word text).1 :: (optionals words (optional word text).2).1, (optionals words (optional word text).2).2)

/-- Words that can be told apart by how they start. -/
structure AreApart (words : List Text) : Prop where
  solid : ∀ word ∈ words, IsWord word
  differ : words.Pairwise fun word other => Text.differs word other = true

variable {word text rest body lead : Text} {words : List Text} {flags : List Bool}

theorem exists_gap_of_blanks? (h : blanks? text = some rest) : ∃ gap, IsGap gap ∧ text = gap ++ rest := by
  obtain ⟨⟨c, tail, rfl, hc⟩, rfl⟩ := blanks?_eq_some_iff.1 h
  obtain ⟨gap, hgap, htext⟩ := Text.exists_trimStart (c :: tail)
  refine ⟨gap, ⟨?_, hgap⟩, htext⟩
  rintro rfl
  rw [Text.trimStart_cons_blank hc, List.nil_append] at htext
  have hlength := congrArg List.length htext
  have hle := (List.dropWhile_sublist isBlank (l := tail)).length_le
  rw [List.length_cons, Text.trimStart] at hlength
  omega

/-- The words that are read stand before what follows them. -/
theorem exists_led (words : List Text) (text : Text) :
    ∃ lead, Led words (optionals words text).1 lead ∧ text = lead ++ (optionals words text).2 := by
  induction words generalizing text with
  | nil => exact ⟨[], .nil, rfl⟩
  | cons word words ih =>
    obtain ⟨lead, hlead, htext⟩ := ih (optional word text).2
    cases hword : word? word text with
    | none =>
      rw [optionals, optional_of_none hword] at *
      exact ⟨lead, .absent hlead, htext⟩
    | some rest =>
      obtain ⟨tail, rfl, htail⟩ := word?_eq_some_iff.1 hword
      obtain ⟨gap, hgap, rfl⟩ := exists_gap_of_blanks? htail
      rw [optionals, optional_of_some hword] at *
      refine ⟨word ++ (gap ++ lead), .present hgap hlead, ?_⟩
      simp only [List.append_assoc, ← htext]

theorem Led.eq_nil_or_append (h : Led words flags lead) :
    lead = [] ∨ ∃ word ∈ words, ∃ more, lead = word ++ more := by
  induction h with
  | nil => exact .inl rfl
  | absent h ih =>
    rcases ih with hnil | ⟨word, hm, more, hlead⟩
    · exact .inl hnil
    · exact .inr ⟨word, List.mem_cons_of_mem _ hm, more, hlead⟩
  | present hgap h ih => exact .inr ⟨_, List.mem_cons_self, _, rfl⟩

theorem Led.trimStart_append (h : Led words flags lead) (hsolid : ∀ word ∈ words, IsWord word)
    (hbody : Text.trimStart body = body) : Text.trimStart (lead ++ body) = lead ++ body := by
  rcases h.eq_nil_or_append with rfl | ⟨word, hm, more, rfl⟩
  · exact hbody
  · rw [List.append_assoc, (hsolid word hm).trimStart_append]

theorem Led.append {words' : List Text} {flags' : List Bool} {lead' : Text} (h : Led words flags lead)
    (h' : Led words' flags' lead') : Led (words ++ words') (flags ++ flags') (lead ++ lead') := by
  induction h with
  | nil => exact h'
  | absent h ih => exact .absent ih
  | present hgap h ih => simpa using Led.present hgap ih

/-- **The words that stand there are read**, and no others, if what follows starts with none
of them. -/
theorem Led.optionals_append (h : Led words flags lead) (hwords : AreApart words)
    (htrim : Text.trimStart body = body) (hbody : ∀ word ∈ words, Text.after? word body = none) :
    optionals words (lead ++ body) = (flags, body) := by
  induction h with
  | nil => rfl
  | @absent word words flags lead h ih =>
    obtain ⟨hdiffer, hapart⟩ := List.pairwise_cons.1 hwords.differ
    have hnone : word? word (lead ++ body) = none := by
      rw [word?]
      rcases h.eq_nil_or_append with rfl | ⟨other, hm, more, rfl⟩
      · rw [List.nil_append, hbody word List.mem_cons_self, Option.bind_none]
      · rw [List.append_assoc, Text.after?_of_differs (hdiffer other hm), Option.bind_none]
    have hrest := ih ⟨(List.forall_mem_cons.1 hwords.solid).2, hapart⟩ (List.forall_mem_cons.1 hbody).2
    rw [optionals, optional_of_none hnone, hrest]
  | @present word gap words flags lead hgap h ih =>
    obtain ⟨_, hapart⟩ := List.pairwise_cons.1 hwords.differ
    have hsolid := (List.forall_mem_cons.1 hwords.solid).2
    have hsome : word? word (word ++ (gap ++ lead) ++ body) = some (lead ++ body) := by
      refine word?_eq_some_iff.2 ⟨gap ++ (lead ++ body), by simp, ?_⟩
      rw [blanks?_append_gap hgap, h.trimStart_append hsolid htrim]
    have hrest := ih ⟨hsolid, hapart⟩ (List.forall_mem_cons.1 hbody).2
    rw [optionals, optional_of_some hsome, hrest]

/-- Words with white space after each of them. -/
inductive Phrase : (words : List Text) → Text → Prop
  | nil : Phrase [] []
  | cons {word gap : Text} {words : List Text} {lead : Text} (hgap : IsGap gap) (h : Phrase words lead) :
      Phrase (word :: words) (word ++ (gap ++ lead))

theorem Phrase.trimStart_append (h : Phrase words lead) (hsolid : ∀ word ∈ words, IsWord word)
    (hbody : Text.trimStart body = body) : Text.trimStart (lead ++ body) = lead ++ body := by
  cases h with
  | nil => exact hbody
  | cons hgap h => rw [List.append_assoc, (hsolid _ List.mem_cons_self).trimStart_append]

theorem Phrase.phrase?_append (h : Phrase words lead) (hsolid : ∀ word ∈ words, IsWord word)
    (hbody : Text.trimStart body = body) : phrase? words (lead ++ body) = some body := by
  induction h with
  | nil => rfl
  | @cons word gap words lead hgap h ih =>
    have hrest := (List.forall_mem_cons.1 hsolid).2
    have hword : word? word (word ++ (gap ++ lead) ++ body) = some (lead ++ body) := by
      refine word?_eq_some_iff.2 ⟨gap ++ (lead ++ body), by simp, ?_⟩
      rw [blanks?_append_gap hgap, h.trimStart_append hrest hbody]
    rw [phrase?, hword, Option.bind_some, ih hrest]

theorem Phrase.append {gap : Text} (h : Phrase words lead) (hgap : IsGap gap) :
    Phrase (words ++ [word]) (lead ++ (word ++ gap)) := by
  induction h with
  | nil => simpa using @Phrase.cons word gap [] [] hgap .nil
  | cons hgap' h ih => simpa using Phrase.cons hgap' ih

theorem exists_phrase (h : phrase? words text = some rest) : ∃ lead, Phrase words lead ∧ text = lead ++ rest := by
  induction words generalizing text with
  | nil => exact ⟨[], .nil, Option.some.inj h⟩
  | cons word words ih =>
    obtain ⟨tail, hword, htail⟩ := Option.bind_eq_some_iff.1 h
    obtain ⟨after, rfl, hblanks⟩ := word?_eq_some_iff.1 hword
    obtain ⟨gap, hgap, rfl⟩ := exists_gap_of_blanks? hblanks
    obtain ⟨lead, hlead, rfl⟩ := ih htail
    exact ⟨word ++ (gap ++ lead), .cons hgap hlead, by simp⟩

theorem Phrase.spaced (h : Phrase words lead) : Text.Spaced words lead := by
  induction h with
  | nil => exact .blanks (Text.isBlanks_of_all [] rfl)
  | cons hgap h ih => exact .cons (Text.isBlanks_of_all [] rfl) hgap ih

theorem Phrase.infix_of_mem (h : Phrase words lead) (hm : word ∈ words) : word <:+: lead := by
  induction h with
  | nil => cases hm
  | @cons other gap words lead hgap h ih =>
    rcases List.mem_cons.1 hm with rfl | hm
    · exact ⟨[], gap ++ lead, rfl⟩
    · exact (ih hm).trans ⟨other ++ gap, [], by simp⟩

end Lexeme

/-! ## Keywords -/

namespace Declaration

open Lexeme

/-- The keywords by their words, and the kinds that they declare. -/
def forms : List (List Text × Kind) :=
  [(["function"], .function), (["async", "function"], .function), (["class"], .classType),
   (["abstract", "class"], .classType), (["interface"], .interface), (["type"], .typeAlias),
   (["enum"], .enumeration), (["const", "enum"], .enumeration), (["const"], .constant), (["let"], .value),
   (["var"], .value)]

/-- A keyword as it is written, up to the name: its words with white space after each, or those
of a function with a star, which may stand with blanks around it or without. -/
inductive Opens : (words : List Text) → (kind : Kind) → Text → Prop
  | plain {words : List Text} {kind : Kind} {text : Text} (hform : (words, kind) ∈ forms)
      (htext : Phrase words text) : Opens words kind text
  | generator {words : List Text} {text before after : Text}
      (hform : (words ++ [String.toList "function"], .function) ∈ forms) (htext : Phrase words text)
      (hbefore : IsBlanks before) (hafter : IsBlanks after) :
      Opens (words ++ [String.toList "function"]) .function
        (text ++ (String.toList "function" ++ (before ++ '*' :: after)))

variable {text rest body opening name : Text} {words : List Text} {kind : Kind}

/-- The first word of a keyword. -/
def Keyword.first (keyword : Keyword) : Text := keyword.words.headD keyword.last

theorem Keyword.after?_of_first {keyword : Keyword} (h : Text.after? keyword.first text = none) :
    keyword.after? text = none := by
  obtain ⟨words, last, starred⟩ := keyword
  cases words with
  | nil =>
    have hlast : Text.after? last text = none := h
    simp [Keyword.after?, phrase?, hlast]
  | cons word words =>
    have hword : Text.after? word text = none := h
    simp [Keyword.after?, phrase?, word?, hword]

theorem star?_append_gap {gap : Text} (h : IsGap gap) (hname : IsIdentifier name) :
    star? (gap ++ (name ++ rest)) = some (name ++ rest) := by
  have hword := hname.isWord.trimStart_append rest
  have htrim := h.blanks.trimStart_append (name ++ rest)
  rw [hword] at htrim
  obtain @⟨c, tail, hstart, _⟩ := hname
  have hstar : c ≠ '*' := by
    rintro rfl
    cases hstart
  unfold star?
  split
  next other hother =>
    rw [htrim, List.cons_append, List.cons.injEq] at hother
    exact absurd hother.1 hstar
  next => rw [blanks?_append_gap h, hword]

theorem star?_append_star {before after : Text} (hbefore : IsBlanks before) (hafter : IsBlanks after)
    (hname : IsIdentifier name) : star? (before ++ '*' :: (after ++ (name ++ rest))) = some (name ++ rest) := by
  simp only [star?, hbefore.trimStart_append_star, hafter.trimStart_append, hname.isWord.trimStart_append]

/-- What stands between a function keyword and the name. -/
theorem star?_cases (h : star? text = some rest) :
    (∃ gap, IsGap gap ∧ text = gap ++ rest) ∨
      ∃ before after, IsBlanks before ∧ IsBlanks after ∧ text = before ++ '*' :: (after ++ rest) := by
  unfold star? at h
  split at h
  next tail htail =>
    obtain ⟨before, hbefore, htext⟩ := Text.exists_trimStart text
    obtain ⟨after, hafter, hrest⟩ := Text.exists_trimStart tail
    rw [Option.some.injEq] at h
    rw [htail] at htext
    rw [h] at hrest
    exact .inr ⟨before, after, hbefore, hafter, by rw [htext, hrest]⟩
  next => exact .inl (exists_gap_of_blanks? h)

/-! ## Reading a keyword and a name -/

/-- The words of keywords. -/
theorem isWord_of_mem_forms (h : (words, kind) ∈ forms) : ∀ word ∈ words, IsWord word := by
  have hall : ∀ form ∈ forms, ∀ word ∈ form.1, word.isEmpty = false ∧ word.all (!isBlank ·) = true := by decide
  exact fun word hm => Text.isWord_of_all (hall _ h word hm)

theorem exists_concat_of_mem_forms (h : (words, kind) ∈ forms) : ∃ front last, words = front ++ [last] := by
  refine (List.eq_nil_or_concat' words).resolve_left ?_
  rintro rfl
  simp [forms] at h

/-! ### The kind of a keyword -/

/-- But for `const`, the first word decides on the kind. -/
theorem kindOf_of_first {taken first : Text} (hfirst : (Text.words taken).headD [] = first) (hword : IsWord first)
    (hconst : first ≠ "const") : kindOf taken = kindOf first := by
  have hself : (Text.words first).headD [] = first := by rw [hword.words, List.headD_cons]
  have hbeq : (first == String.toList "const") = false := beq_false_of_ne hconst
  simp only [kindOf, hfirst, hself, hbeq, Bool.false_eq_true, if_false]

theorem kindOf_of_mem_forms {taken word : Text} {others : List Text} (hform : (word :: others, kind) ∈ forms)
    (hfirst : (Text.words taken).headD [] = word) (hconst : word ≠ "const") : kindOf taken = kind := by
  have hkinds : ∀ form ∈ forms, form.1.headD [] ≠ "const" → kindOf (form.1.headD []) = form.2 := by decide +kernel
  rw [kindOf_of_first hfirst (isWord_of_mem_forms hform word List.mem_cons_self) hconst]
  exact hkinds _ hform hconst

/-- After `const` the kind depends on whether `enum` is the other word. -/
theorem kindOf_of_const {others : List Text} (hform : (String.toList "const" :: others, kind) ∈ forms)
    (htext : Phrase (String.toList "const" :: others) text) (hfirst : (Text.words text).headD [] = "const") :
    kindOf text = kind := by
  have hforms : ∀ form ∈ forms, form.1.headD [] = "const" →
      form = ([("const" : Text)], .constant) ∨ form = ([("const" : Text), "enum"], .enumeration) := by decide
  have hkind : kindOf text = if Text.hasWord "enum" text then .enumeration else .constant := by
    simp only [kindOf, hfirst]
    rfl
  rw [hkind]
  rcases hforms _ hform rfl with he | he
  · obtain ⟨hwords, rfl⟩ := Prod.mk.inj he
    rw [hwords] at htext
    have hnot : 'e' ∉ text := htext.spaced.not_mem (by decide) (by decide)
    rw [Text.hasWord, show ("enum" : Text) = 'e' :: "num" from rfl, Text.cutAt?_eq_none hnot]
    rfl
  · obtain ⟨hwords, rfl⟩ := Prod.mk.inj he
    rw [hwords] at htext
    rw [if_pos (Text.hasWord_iff.2 (htext.infix_of_mem (by decide)))]

theorem kindOf_of_phrase (hform : (words, kind) ∈ forms) (htext : Phrase words text) : kindOf text = kind := by
  cases htext with
  | nil => simp [forms] at hform
  | @cons word gap others lead hgap hlead =>
    have hword := isWord_of_mem_forms hform word List.mem_cons_self
    have hfirst := hword.headD_words_append hgap lead
    by_cases hconst : word = "const"
    · subst hconst
      exact kindOf_of_const hform (.cons hgap hlead) hfirst
    · exact kindOf_of_mem_forms hform hfirst hconst

theorem kindOf_of_star {before after : Text} (hbefore : IsBlanks before) (hafter : IsBlanks after) :
    kindOf (String.toList "function" ++ (before ++ '*' :: after)) = .function := by
  by_cases hnil : before = []
  · -- The star ends the first word, which is not in the table.
    subst hnil
    have hword : IsWord (String.toList "function*") := Text.isWord_of_all (by decide)
    have hwords : Text.words (String.toList "function" ++ ([] ++ '*' :: after)) = [String.toList "function*"] :=
      (hafter.append_words (String.toList "function*")).trans hword.words
    rw [kindOf_of_first (congrArg (List.headD · []) hwords) hword (by decide)]
    decide +kernel
  · have hword : IsWord (String.toList "function") := Text.isWord_of_all (by decide)
    exact kindOf_of_mem_forms (show ([("function" : Text)], _) ∈ forms by decide)
      (hword.headD_words_append ⟨hnil, hbefore⟩ _) (by decide)

/-- **The text that a keyword takes tells its kind**, as the table of the forms has it. -/
theorem kindOf_of_opens (h : Opens words kind opening) : kindOf opening = kind := by
  cases h with
  | plain hform htext => exact kindOf_of_phrase hform htext
  | generator hform htext hbefore hafter =>
    cases htext with
    | nil => exact kindOf_of_star hbefore hafter
    | @cons word gap others lead hgap hlead =>
      have hfunctions : ∀ form ∈ forms, form.2 = .function → form.1.headD [] ≠ "const" := by decide
      have hword := isWord_of_mem_forms hform word List.mem_cons_self
      rw [List.append_assoc, List.append_assoc]
      exact kindOf_of_mem_forms hform (hword.headD_words_append hgap _) (hfunctions _ hform rfl)

/-! ### The declared name -/

/-- A keyword of the table with a name after it. -/
theorem declared?_of_index (index : Nat) {keyword : Keyword} (hkeyword : keywords[index]? = some keyword)
    (hbefore : ∀ earlier ∈ keywords.take index, earlier.after? (opening ++ (name ++ rest)) = none)
    (hafter : keyword.after? (opening ++ (name ++ rest)) = some (name ++ rest)) (hname : IsIdentifier name)
    (hend : Text.atNameEnd rest = true) :
    declared? (opening ++ (name ++ rest)) = some (kindOf opening, name) := by
  obtain ⟨hlt, hget⟩ := List.getElem?_eq_some_iff.1 hkeyword
  refine List.findSome?_eq_some_iff.2
    ⟨keywords.take index, keyword, keywords.drop (index + 1), ?_, ?_, fun earlier hm => ?_⟩
  · rw [← hget, ← List.drop_eq_getElem_cons hlt, List.take_append_drop]
  · simp only [hafter, hname.name?_append hend, Option.bind_eq_bind, Option.bind_some, Text.upTo_append]
    rfl
  · simp only [hbefore earlier hm, Option.bind_eq_bind, Option.bind_none]

/-- Every keyword is in the table, and those before it there start with another word. For
`const` this is not so. -/
theorem exists_index_of_mem_forms (h : (words, kind) ∈ forms) (hconst : words ≠ [("const" : Text)]) :
    ∃ index keyword, keywords[index]? = some keyword ∧ keyword.words ++ [keyword.last] = words ∧
      ∀ earlier ∈ keywords.take index, Text.differs earlier.first keyword.first = true := by
  simp only [forms, List.mem_cons, List.not_mem_nil, or_false, Prod.mk.injEq] at h
  rcases h with ⟨rfl, rfl⟩ | ⟨rfl, rfl⟩ | ⟨rfl, rfl⟩ | ⟨rfl, rfl⟩ | ⟨rfl, rfl⟩ | ⟨rfl, rfl⟩ | ⟨rfl, rfl⟩ | ⟨rfl, rfl⟩ |
    ⟨rfl, rfl⟩ | ⟨rfl, rfl⟩ | ⟨rfl, rfl⟩
  · exact ⟨1, _, rfl, rfl, by decide⟩
  · exact ⟨0, _, rfl, rfl, by decide⟩
  · exact ⟨3, _, rfl, rfl, by decide⟩
  · exact ⟨2, _, rfl, rfl, by decide⟩
  · exact ⟨4, _, rfl, rfl, by decide⟩
  · exact ⟨5, _, rfl, rfl, by decide⟩
  · exact ⟨7, _, rfl, rfl, by decide⟩
  · exact ⟨6, _, rfl, rfl, by decide⟩
  · exact absurd rfl hconst
  · exact ⟨9, _, rfl, rfl, by decide⟩
  · exact ⟨10, _, rfl, rfl, by decide⟩

theorem exists_of_phrase_append {last : Text} (h : Phrase (words ++ [last]) text) :
    ∃ lead gap, Phrase words lead ∧ IsGap gap ∧ text = lead ++ (last ++ gap) := by
  induction words generalizing text with
  | nil =>
    cases h with
    | @cons _ gap _ lead hgap hlead =>
      cases hlead
      exact ⟨[], gap, .nil, hgap, by simp⟩
  | cons word words ih =>
    cases h with
    | @cons _ gap _ _ hgap hrest =>
      obtain ⟨lead, gap', hlead, hgap', rfl⟩ := ih hrest
      exact ⟨word ++ (gap ++ lead), gap', .cons hgap hlead, hgap', by simp⟩

/-- A keyword is read up to the name. -/
theorem Keyword.after?_append_name {keyword : Keyword} {lead between : Text} (hlead : Phrase keyword.words lead)
    (hsolid : ∀ word ∈ keyword.words ++ [keyword.last], IsWord word)
    (hbetween : (if keyword.starred then star? (between ++ (name ++ rest)) else blanks? (between ++ (name ++ rest))) =
      some (name ++ rest)) :
    keyword.after? (lead ++ (keyword.last ++ between) ++ (name ++ rest)) = some (name ++ rest) := by
  obtain ⟨hwords, hlast⟩ := List.forall_mem_append.1 hsolid
  have hlast := (hlast _ List.mem_cons_self).trimStart_append (between ++ (name ++ rest))
  have hassoc : lead ++ (keyword.last ++ between) ++ (name ++ rest) =
      lead ++ (keyword.last ++ (between ++ (name ++ rest))) := by simp
  simp only [Keyword.after?, Option.bind_eq_bind, hassoc, hlead.phrase?_append hwords hlast, Option.bind_some,
    Text.after?_eq_some_iff.2 rfl, hbetween]

/-- A keyword comes first in a text that starts with it. -/
theorem Keyword.exists_first {keyword : Keyword} {lead : Text} (hlead : Phrase keyword.words lead) (more : Text) :
    ∃ others, lead ++ (keyword.last ++ more) = keyword.first ++ others := by
  obtain ⟨words, last, starred⟩ := keyword
  cases hlead with
  | nil => exact ⟨more, rfl⟩
  | cons hgap h => exact ⟨_, List.append_assoc ..⟩

theorem declared?_of_keyword {lead between : Text} {last : Text} (hform : (words ++ [last], kind) ∈ forms)
    (hconst : words ++ [last] ≠ [("const" : Text)]) (hlead : Phrase words lead) (hname : IsIdentifier name)
    (hend : Text.atNameEnd rest = true)
    (hstar : last = "function" → star? (between ++ (name ++ rest)) = some (name ++ rest))
    (hplain : last ≠ "function" → IsGap between) :
    declared? (lead ++ (last ++ between) ++ (name ++ rest)) = some (kindOf (lead ++ (last ++ between)), name) := by
  obtain ⟨index, keyword, hkeyword, hwords, hdiffer⟩ := exists_index_of_mem_forms hform hconst
  have hsolid := isWord_of_mem_forms hform
  obtain ⟨rfl, hlast⟩ := List.append_inj' hwords rfl
  obtain rfl := List.singleton_inj.1 hlast
  have hstarred : ∀ keyword ∈ keywords, keyword.starred = true ↔ keyword.last = "function" := by decide
  have hiff := hstarred keyword (List.mem_of_getElem? hkeyword)
  refine declared?_of_index index hkeyword (fun earlier hm => ?_) (Keyword.after?_append_name hlead hsolid ?_) hname
    hend
  · obtain ⟨others, hothers⟩ := Keyword.exists_first hlead (between ++ (name ++ rest))
    have hassoc : lead ++ (keyword.last ++ between) ++ (name ++ rest) =
        lead ++ (keyword.last ++ (between ++ (name ++ rest))) := by simp
    rw [hassoc, hothers]
    exact Keyword.after?_of_first (Text.after?_of_differs (hdiffer earlier hm) others)
  · split
    next hs => exact hstar (hiff.1 hs)
    next hs => rw [blanks?_append_gap (hplain fun he => hs (hiff.2 he)), hname.isWord.trimStart_append]

/-- After `const` a name is not read as `enum`, even if it starts so. -/
theorem declared?_of_const {gap : Text} (hgap : IsGap gap) (hname : IsIdentifier name)
    (hend : Text.atNameEnd rest = true) (hne : name ≠ "enum") :
    declared? (String.toList "const" ++ gap ++ (name ++ rest)) =
      some (kindOf (String.toList "const" ++ gap), name) := by
  have hconst : word? "const" (String.toList "const" ++ gap ++ (name ++ rest)) = some (name ++ rest) := by
    refine word?_eq_some_iff.2 ⟨_, List.append_assoc .., ?_⟩
    rw [blanks?_append_gap hgap, hname.isWord.trimStart_append]
  have henum : (Text.after? "enum" (name ++ rest)).bind blanks? = none := by
    rw [Option.eq_none_iff_forall_ne_some]
    intro body hbody
    obtain ⟨tail, htail, hblanks⟩ := Option.bind_eq_some_iff.1 hbody
    obtain ⟨⟨c, others, rfl, hc⟩, _⟩ := blanks?_eq_some_iff.1 hblanks
    have hother : IsIdentifier "enum" := .cons (by decide) (List.all_eq_true.1 (by decide +kernel))
    have hread := hother.name?_append (atNameEnd_of_isBlank hc others)
    rw [← Text.after?_eq_some_iff.1 htail, hname.name?_append hend, Option.some.injEq, Prod.mk.injEq] at hread
    exact hne hread.1
  have hearlier : ∀ earlier ∈ keywords.take 8, Text.differs earlier.first "const" = true ∨
      earlier.words = [("const" : Text)] ∧ earlier.last = "enum" ∧ earlier.starred = false := by decide
  refine declared?_of_index 8 rfl (fun earlier hm => ?_) ?_ hname hend
  · rcases hearlier earlier hm with hdiffer | ⟨hwords, hlast, hstarred⟩
    · exact Keyword.after?_of_first (Text.after?_of_differs hdiffer _)
    · simp only [Keyword.after?, hwords, hlast, hstarred, phrase?, hconst, Option.bind_eq_bind, Option.bind_some,
        Bool.false_eq_true, if_false]
      exact henum
  · simp only [Keyword.after?, phrase?, Option.bind_eq_bind, Option.bind_some]
    exact hconst

/-- **A keyword and a name are read**, whatever stands between them. -/
theorem declared?_of_opens (h : Opens words kind opening) (hname : IsIdentifier name)
    (hend : Text.atNameEnd rest = true) (hconst : words = [("const" : Text)] → name ≠ "enum") :
    declared? (opening ++ (name ++ rest)) = some (kind, name) := by
  rw [← kindOf_of_opens h]
  cases h with
  | plain hform htext =>
    by_cases hc : words = [("const" : Text)]
    · subst hc
      obtain ⟨lead, gap, hlead, hgap, rfl⟩ := exists_of_phrase_append (show Phrase ([] ++ [_]) _ from htext)
      cases hlead
      exact declared?_of_const hgap hname hend (hconst rfl)
    · obtain ⟨front, last, rfl⟩ := exists_concat_of_mem_forms hform
      obtain ⟨lead, gap, hlead, hgap, rfl⟩ := exists_of_phrase_append htext
      exact declared?_of_keyword hform hc hlead hname hend (fun _ => star?_append_gap hgap hname) fun _ => hgap
  | @generator words text before after hform htext hbefore hafter =>
    refine declared?_of_keyword hform ?_ htext hname hend (fun _ => ?_) fun hne => absurd rfl hne
    · intro he
      have hlast := congrArg List.getLast? he
      simp at hlast
    · rw [List.append_assoc, List.cons_append]
      exact star?_append_star hbefore hafter hname

/-- What is read as a keyword is written as one. -/
theorem Keyword.exists_opens {keyword : Keyword} (hm : keyword ∈ keywords) (h : keyword.after? text = some rest) :
    ∃ kind opening, Opens (keyword.words ++ [keyword.last]) kind opening ∧ text = opening ++ rest := by
  have hforms : ∀ keyword ∈ keywords, ∃ form ∈ forms, form.1 = keyword.words ++ [keyword.last] ∧
      (keyword.starred = true → keyword.last = "function" ∧ form.2 = .function) := by decide
  obtain ⟨⟨_, kind⟩, hform, rfl, hstarred⟩ := hforms keyword hm
  simp only [Keyword.after?, Option.bind_eq_bind, Option.bind_eq_some_iff] at h
  obtain ⟨head, hhead, tail, htail, h⟩ := h
  obtain ⟨lead, hlead, rfl⟩ := exists_phrase hhead
  obtain rfl := Text.after?_eq_some_iff.1 htail
  have hplain : ∀ {gap : Text}, IsGap gap → Opens (keyword.words ++ [keyword.last]) kind
      (lead ++ (keyword.last ++ gap)) := fun hgap => .plain hform (hlead.append hgap)
  split at h
  next hs =>
    obtain ⟨hlast, rfl⟩ := hstarred hs
    rcases star?_cases h with ⟨gap, hgap, rfl⟩ | ⟨before, after, hbefore, hafter, rfl⟩
    · exact ⟨_, _, hplain hgap, by simp⟩
    · rw [hlast] at hform ⊢
      exact ⟨_, _, .generator hform hlead hbefore hafter, by simp⟩
  next =>
    obtain ⟨gap, hgap, rfl⟩ := exists_gap_of_blanks? h
    exact ⟨_, _, hplain hgap, by simp⟩

theorem exists_opens_of_declared? (h : declared? text = some (kind, name)) :
    ∃ words opening rest, Opens words kind opening ∧ IsIdentifier name ∧ Text.atNameEnd rest = true ∧
      text = opening ++ (name ++ rest) := by
  obtain ⟨keyword, hm, h⟩ := List.exists_of_findSome?_eq_some h
  simp only [Option.bind_eq_bind, Option.bind_eq_some_iff] at h
  obtain ⟨cut, hcut, ⟨found, rest⟩, hfound, he⟩ := h
  obtain ⟨rfl, rfl⟩ := Prod.mk.inj (Option.some.inj he)
  obtain ⟨kind, opening, hopens, rfl⟩ := Keyword.exists_opens hm hcut
  obtain ⟨hname, rfl, hend⟩ := isIdentifier_of_name? hfound
  rw [Text.upTo_append, kindOf_of_opens hopens]
  exact ⟨_, opening, rest, hopens, hname, hend, rfl⟩

/-! ## Declarations -/

theorem Opens.exists_first (h : Opens words kind opening) :
    ∃ word others more, (word :: others, kind) ∈ forms ∧ opening = word ++ more := by
  cases h with
  | plain hform htext =>
    cases htext with
    | nil => simp [forms] at hform
    | cons hgap hrest => exact ⟨_, _, _, hform, rfl⟩
  | generator hform htext hbefore hafter =>
    cases htext with
    | nil => exact ⟨_, [], _, hform, rfl⟩
    | cons hgap hrest => exact ⟨_, _, _, hform, List.append_assoc ..⟩

theorem Opens.trimStart_append (h : Opens words kind opening) (more : Text) :
    Text.trimStart (opening ++ more) = opening ++ more := by
  obtain ⟨word, others, tail, hform, rfl⟩ := h.exists_first
  rw [List.append_assoc, (isWord_of_mem_forms hform word List.mem_cons_self).trimStart_append]

theorem Opens.mem_forms (h : Opens words kind opening) : (words, kind) ∈ forms := by
  cases h with
  | plain hform htext => exact hform
  | generator hform htext hbefore hafter => exact hform

/-- The words that come before a keyword can be told from it and from each other. -/
theorem Opens.optionals_append {modifiers : List Text} {flags : List Bool} {lead : Text} (h : Opens words kind opening)
    (hmodifiers : AreApart modifiers)
    (hdiffer : ∀ form ∈ forms, ∀ modifier ∈ modifiers, Text.differs modifier (form.1.headD []) = true)
    (hlead : Led modifiers flags lead) (more : Text) :
    optionals modifiers (lead ++ (opening ++ more)) = (flags, opening ++ more) := by
  refine hlead.optionals_append hmodifiers (h.trimStart_append more) fun modifier hm => ?_
  obtain ⟨word, others, tail, hform, rfl⟩ := h.exists_first
  rw [List.append_assoc]
  exact Text.after?_of_differs (hdiffer _ hform modifier hm) _

theorem areApart_of_all {modifiers : List Text}
    (hsolid : ∀ word ∈ modifiers, word.isEmpty = false ∧ word.all (!isBlank ·) = true)
    (hdiffer : modifiers.Pairwise fun word other => Text.differs word other = true) : AreApart modifiers :=
  ⟨fun word hm => Text.isWord_of_all (hsolid word hm), hdiffer⟩

variable {lead : Text} {exported isDefault isAmbient : Bool}

theorem areApart_modifiers : AreApart ["export", "default", "declare"] := areApart_of_all (by decide) (by decide)

theorem explicit?_of_form (hlead : Led ["export", "default", "declare"] [exported, isDefault, isAmbient] lead)
    (hopens : Opens words kind opening) (hname : IsIdentifier name) (hend : Text.atNameEnd rest = true)
    (hconst : words = [("const" : Text)] → name ≠ "enum") :
    explicit? (lead ++ (opening ++ (name ++ rest))) =
      some ⟨kind, name, if isDefault then .default else .named, exported⟩ := by
  have hread := hopens.optionals_append areApart_modifiers (by decide) hlead (name ++ rest)
  simp only [optionals, Prod.mk.injEq, List.cons.injEq, and_true] at hread
  obtain ⟨⟨hexported, hdefault, _⟩, hbody⟩ := hread
  refine explicit?_eq_some_iff.2 ⟨kind, name, ?_, ?_⟩
  · rw [hbody, declared?_of_opens hopens hname hend hconst]
  · rw [hexported, hdefault]

/-- **What is read by keyword and name is written in one of the forms.** -/
theorem exists_form_of_explicit? {d : Declaration} (h : explicit? text = some d) :
    ∃ lead opening rest words isDefault isAmbient,
      Led ["export", "default", "declare"] [d.exported, isDefault, isAmbient] lead ∧ Opens words d.kind opening ∧
      IsIdentifier d.name ∧ Text.atNameEnd rest = true ∧ text = lead ++ (opening ++ (d.name ++ rest)) := by
  obtain ⟨kind, name, hdeclared, rfl⟩ := explicit?_eq_some_iff.1 h
  obtain ⟨lead, hlead, htext⟩ := exists_led ["export", "default", "declare"] text
  simp only [optionals] at hlead htext
  obtain ⟨words, opening, rest, hopens, hname, hend, hbody⟩ := exists_opens_of_declared? hdeclared
  exact ⟨lead, opening, rest, words, _, _, hlead, hopens, hname, hend, by rw [htext, hbody]⟩

/-- A default that is declared by a keyword other than `const` and `type`, under a name that
is no heritage word, is sound. -/
theorem isSound_of_opens (h : Opens words kind opening)
    (hdefault : isDefault = true → words ≠ [("const" : Text)] ∧ words ≠ [("type" : Text)] ∧ name ≠ "extends" ∧
      name ≠ "implements") :
    isSound ⟨kind, name, if isDefault then .default else .named, exported⟩ = true := by
  cases isDefault with
  | false => rfl
  | true =>
    have hkinds : ∀ form ∈ forms, (form.2 = .constant → form.1 = [("const" : Text)]) ∧
        (form.2 = .typeAlias → form.1 = [("type" : Text)]) := by decide
    obtain ⟨hconst, htype, hextends, himplements⟩ := hdefault rfl
    obtain ⟨hconstant, halias⟩ := hkinds _ h.mem_forms
    have hkind : kind ≠ .constant := fun he => hconst (hconstant he)
    have hkind' : kind ≠ .typeAlias := fun he => htype (halias he)
    have hname : isHeritageWord name = false := by
      rw [isHeritageWord, beq_false_of_ne hextends, beq_false_of_ne himplements, Bool.or_false]
    simp [isSound, hkind, hkind', hname]

theorem eq_nil_of_export_parse? {blanks : Text} {statement : Export} (hblanks : IsBlanks blanks)
    (h : Export.parse? (blanks ++ text) = some statement) : blanks = [] := by
  by_contra hne
  obtain ⟨blank, others, rfl⟩ := List.exists_cons_of_ne_nil hne
  have hstarts : Text.startsWith "export" (blank :: others ++ text) = true := by
    by_contra hnot
    rw [Export.parse?, if_neg hnot] at h
    cases h
  obtain ⟨tail, htail⟩ := Option.isSome_iff_exists.1 hstarts
  have hfirst : blank = 'e' := (List.cons.inj (Text.after?_eq_some_iff.1 htail)).1
  exact absurd (hblanks blank List.mem_cons_self) (by rw [hfirst]; decide)

/-- **Declarations are read in all their forms.** With `export`, `default` and `declare` each
there or not, a keyword, white space and a name, the declaration has the kind of the keyword
and exactly that name, is a default if `default` is there, and exported if `export` is. A default
can be no constant or type, and its name no heritage word. As an export statement it
is read if the text starts with `export`. -/
theorem parse?_of_form {blanks : Text} (hblanks : IsBlanks blanks)
    (hlead : Led ["export", "default", "declare"] [exported, isDefault, isAmbient] lead)
    (hopens : Opens words kind opening) (hname : IsIdentifier name) (hend : Text.atNameEnd rest = true)
    (hconst : words = [("const" : Text)] → name ≠ "enum")
    (hdefault : isDefault = true → words ≠ [("const" : Text)] ∧ words ≠ [("type" : Text)] ∧ name ≠ "extends" ∧
      name ≠ "implements") :
    parse? (blanks ++ (lead ++ (opening ++ (name ++ rest)))) =
        some ⟨kind, name, if isDefault then .default else .named, exported⟩ ∧
      (Export.parse? (blanks ++ (lead ++ (opening ++ (name ++ rest)))) =
          some (.declaration ⟨kind, name, if isDefault then .default else .named, exported⟩) ↔
        exported = true ∧ blanks = []) := by
  have hexplicit := explicit?_of_form hlead hopens hname hend hconst
  have htrim := hlead.trimStart_append areApart_modifiers.solid (hopens.trimStart_append (name ++ rest))
  have hsound : isSound ⟨kind, name, if isDefault then .default else .named, exported⟩ = true :=
    isSound_of_opens hopens hdefault
  have hparse : parse? (blanks ++ (lead ++ (opening ++ (name ++ rest)))) =
      some ⟨kind, name, if isDefault then .default else .named, exported⟩ := by
    rw [parse?_eq, hblanks.trimStart_append, htrim, hexplicit, Option.filter_some, if_pos hsound, Option.some_or]
  refine ⟨hparse, fun h => ?_, fun ⟨hexported, hnil⟩ => ?_⟩
  · exact ⟨(Export.parse?_of_parse?_declaration h).2, eq_nil_of_export_parse? hblanks h⟩
  · subst hnil
    exact export_parse?_of_exported htrim hparse hexported

/-- An asynchronous generator function as the default, with a dollar sign in its name. -/
theorem parse?_defaultGenerator :
    Led ["export", "default", "declare"] [true, true, false] "export\u3000default\t" ∧
    Opens ["async", "function"] .function "async  function\t*" ∧ IsIdentifier "of$" ∧
    parse? "export\u3000default\tasync  function\t*of$(" = some ⟨.function, "of$", .default, true⟩ ∧
    Export.parse? "export\u3000default\tasync  function\t*of$(" =
      some (.declaration ⟨.function, "of$", .default, true⟩) := by
  -- The kernel compares the texts; the elaborator takes long to evaluate a string.
  have respell : ∀ {p : Text → Prop} {text other : Text}, p text → text = other → p other := fun h he => he ▸ h
  have hlead : Led ["export", "default", "declare"] [true, true, false] "export\u3000default\t" :=
    respell (.present (Text.isGap_of_all "\u3000" (by decide) rfl)
      (.present (Text.isGap_of_all "\t" (by decide) rfl) (.absent .nil))) (by decide +kernel)
  have hopens : Opens ["async", "function"] .function "async  function\t*" :=
    respell (@Opens.generator ["async"] _ _ _ (by decide) (.cons (Text.isGap_of_all "  " (by decide) rfl) .nil)
      (Text.isBlanks_of_all "\t" rfl) (Text.isBlanks_of_all [] rfl)) (by decide +kernel)
  have hname : IsIdentifier "of$" := .cons (by decide) (List.all_eq_true.1 (by decide +kernel))
  have hread := parse?_of_form (Text.isBlanks_of_all [] rfl) hlead hopens hname
    (show Text.atNameEnd "(" = true by decide +kernel) (by decide) (fun _ => by decide)
  have htext : ([] : Text) ++ (String.toList "export\u3000default\t" ++ (String.toList "async  function\t*" ++
      (String.toList "of$" ++ String.toList "("))) =
      String.toList "export\u3000default\tasync  function\t*of$(" := by decide +kernel
  rw [htext] at hread
  exact ⟨hlead, hopens, hname, hread.1, hread.2.2 ⟨rfl, rfl⟩⟩

end Declaration

end ApiCoverage
