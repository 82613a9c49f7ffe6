/-
The pieces of a statement, with more text after them.

Lines are joined with a blank between them. So whatever a reader finds on the
first line it finds there again when more lines are joined to it, as long as it
has read up to something on that line; and a word that does not come next, or
lacks the blank after it, is not completed by what follows.
-/
import ApiCoverage.Proofs.TextFacts
import ApiCoverage.Statement.Lexeme
import ApiCoverage.Statement.Segment
import Mathlib.Data.List.DropRight

namespace ApiCoverage

/-- Nothing, or text on one line that starts with a blank: what may be joined to
the first line of a statement. -/
structure IsContinuation (more : Text) : Prop where
  blank : ∀ c ∈ more.head?, isBlank c = true
  oneLine : '\n' ∉ more

theorem exists_range_of_inRanges {ranges : List (Nat × Nat)} {n : Nat} (h : inRanges ranges n = true) :
    ∃ range ∈ ranges, range.1 ≤ n ∧ n ≤ range.2 := by
  induction ranges with
  | nil => cases h
  | cons range rest ih =>
    simp only [inRanges] at h
    split at h
    · cases h
    next hfirst =>
    simp only [Bool.or_eq_true, decide_eq_true_eq] at h
    rcases h with h | h
    · exact ⟨range, List.mem_cons_self, by omega, h⟩
    · obtain ⟨other, hm, hother⟩ := ih h
      exact ⟨other, List.mem_cons_of_mem _ hm, hother⟩

/-- What holds of no blank holds of characters that are none. -/
theorem isBlank_eq_false_of {p : Char → Bool}
    (hpoints : ∀ range ∈ blankRanges, ∀ n ∈ List.range' range.1 (range.2 + 1 - range.1), p (Char.ofNat n) = false)
    {c : Char} (h : p c = true) : isBlank c = false := by
  by_contra hblank
  obtain ⟨range, hm, hfirst, hlast⟩ := exists_range_of_inRanges (Bool.not_eq_false _ ▸ hblank)
  have hnot := hpoints range hm c.toNat (List.mem_range'_1.2 ⟨hfirst, by omega⟩)
  rw [Char.ofNat_toNat, h] at hnot
  cases hnot

theorem not_isBlank_of_all {word : Text} (h : word.all (!isBlank ·) = true) : ∀ c ∈ word, isBlank c = false := by
  intro c hm
  simpa using List.all_eq_true.1 h c hm

/-- A blank is no word character. -/
theorem isWord_of_isBlank {c : Char} (h : isBlank c = true) : isWord c = false := by
  have hpoints : ∀ range ∈ blankRanges, ∀ n ∈ List.range' range.1 (range.2 + 1 - range.1),
      inRanges wordRanges n = false := by decide +kernel
  obtain ⟨range, hm, hfirst, hlast⟩ := exists_range_of_inRanges h
  exact hpoints range hm c.toNat (List.mem_range'_1.2 ⟨hfirst, by omega⟩)

namespace Text

theorem after?_eq_some_iff {word text rest : Text} : after? word text = some rest ↔ text = word ++ rest := by
  induction word generalizing text with
  | nil => simp [after?]
  | cons w word ih =>
    cases text with
    | nil => simp [after?]
    | cons c text =>
      rw [after?]
      by_cases hc : w = c
      · simp [hc, ih]
      · have hne : c ≠ w := fun he => hc he.symm
        simp [hc, hne]

theorem after?_append {word text rest : Text} (h : after? word text = some rest) (more : Text) :
    after? word (text ++ more) = some (rest ++ more) := by
  rw [after?_eq_some_iff] at h ⊢
  rw [h, List.append_assoc]

/-- Text after a blank does not complete a word. -/
theorem after?_append_eq_none {word text more : Text} (hword : ∀ c ∈ word, isBlank c = false)
    (hmore : IsContinuation more) (h : after? word text = none) : after? word (text ++ more) = none := by
  induction word generalizing text with
  | nil => cases h
  | cons w word ih =>
    cases text with
    | nil =>
      cases more with
      | nil => rfl
      | cons c more =>
        have hblank := hmore.blank c rfl
        have hw := hword w List.mem_cons_self
        have hne : ¬ w = c := fun he => by rw [he, hblank] at hw; cases hw
        simp [after?, hne]
    | cons c text =>
      rw [List.cons_append, after?]
      rw [after?] at h
      split
      next hc =>
        rw [if_pos hc] at h
        exact ih (fun other hm => hword other (List.mem_cons_of_mem _ hm)) h
      · rfl

theorem trimStart_append {text : Text} (h : trimStart text ≠ []) (more : Text) :
    trimStart (text ++ more) = trimStart text ++ more := by
  have hne : ((List.dropWhile isBlank text).isEmpty = true) = False := by
    rw [List.isEmpty_iff, eq_iff_iff, iff_false]
    exact h
  simp only [trimStart, List.dropWhile_append, hne, if_false]

theorem trimStart_cons {c : Char} (h : isBlank c = false) (rest : Text) : trimStart (c :: rest) = c :: rest := by
  simp [trimStart, h]

theorem trimStart_cons_blank {c : Char} (h : isBlank c = true) (rest : Text) :
    trimStart (c :: rest) = trimStart rest := by
  simp [trimStart, h]

theorem isBlank_of_trimStart {text rest : Text} {c : Char} (h : trimStart text = c :: rest) :
    isBlank c = false := by
  have hhead := List.head?_dropWhile_not isBlank text
  rw [trimStart] at h
  simpa [h] using hhead

theorem trim_sublist (text : Text) : List.Sublist (trim text) text :=
  (List.rdropWhile_prefix isBlank text.trimStart).sublist.trans (List.dropWhile_sublist _)

/-- A trimmed text starts with no blank. -/
theorem trimStart_trim (text : Text) : trimStart (trim text) = trim text := by
  have hprefix : trim text <+: trimStart text := List.rdropWhile_prefix isBlank _
  cases ht : trim text with
  | nil => rfl
  | cons c rest =>
    rw [ht] at hprefix
    obtain ⟨tail, htail⟩ := hprefix
    exact trimStart_cons (isBlank_of_trimStart htail.symm) rest

/-- No line of a file holds a line feed. -/
theorem not_mem_of_mem_lines {text line : Text} (h : line ∈ lines text) : '\n' ∉ line := by
  have hpieces : ∀ pieces : List Text, (∀ piece ∈ pieces, '\n' ∉ piece) →
      ∀ line ∈ linesOfPieces pieces, '\n' ∉ line := by
    intro pieces hp
    fun_induction linesOfPieces pieces with
    | case1 => simp
    | case2 last he => simp
    | case3 last he => simpa using hp
    | case4 piece others hne ih =>
      intro line hm
      rcases List.mem_cons.1 hm with rfl | hm
      · have hpiece := hp piece List.mem_cons_self
        unfold dropReturn
        split
        · exact fun hmem => hpiece (List.dropLast_subset _ hmem)
        · exact hpiece
      · exact ih (fun other ho => hp other (List.mem_cons_of_mem _ ho)) line hm
  exact hpieces _ (fun piece hp => not_mem_of_mem_splitOn hp) line h

end Text

/-! ## Joined lines -/

theorem isContinuation_nil : IsContinuation [] := ⟨by simp, by simp⟩

theorem isContinuation_gather (stops : Text → Bool) (limit : Nat) {lines : List Text}
    (h : ∀ line ∈ lines, '\n' ∉ line) : IsContinuation (gather stops limit lines).1 := by
  have htrim : ∀ {line : Text}, '\n' ∉ line → '\n' ∉ Text.trim line := fun hl hm =>
    hl ((Text.trim_sublist _).mem hm)
  have hspace : isBlank ' ' = true := by decide
  have hne : '\n' ≠ ' ' := by decide
  induction limit generalizing lines with
  | zero => exact isContinuation_nil
  | succ limit ih =>
    cases lines with
    | nil => exact isContinuation_nil
    | cons line rest =>
      have hline := htrim (h line List.mem_cons_self)
      have hrest := ih fun other hm => h other (List.mem_cons_of_mem _ hm)
      rw [gather]
      split
      · exact ⟨by simpa using hspace, by simp [hne, hline]⟩
      · exact ⟨by simpa using hspace, by simp [hne, hline, hrest.oneLine]⟩

theorem joinBraced_fst (first : Text) (rest : List Text) :
    ∃ more, (joinBraced first rest).1 = Text.trim first ++ more := by
  simp only [joinBraced]
  split
  · exact ⟨[], by rw [List.append_nil]⟩
  · exact ⟨_, rfl⟩

/-- The header at a line is its trimmed text with a continuation. -/
theorem headerAt?_of_drop {lines : List Text} {index : Nat} {first : Text} {rest : List Text}
    (hdrop : lines.drop index = first :: rest) (hlines : ∀ line ∈ lines, '\n' ∉ line) :
    ∃ more, IsContinuation more ∧ headerAt? lines index = some (Text.trim first ++ more) := by
  simp only [headerAt?, hdrop]
  split
  · exact ⟨[], isContinuation_nil, by rw [List.append_nil]⟩
  · refine ⟨_, isContinuation_gather endsHeader lookahead fun line hm => hlines line ?_, rfl⟩
    have hm : line ∈ lines.drop index := hdrop ▸ List.mem_cons_of_mem _ hm
    exact List.mem_of_mem_drop hm

/-! ## Pieces of a statement, with more text after them -/

namespace Lexeme

variable {word text rest more : Text}

theorem blanks?_eq_some_iff :
    blanks? text = some rest ↔ (∃ c tail, text = c :: tail ∧ isBlank c = true) ∧ rest = Text.trimStart text := by
  cases text with
  | nil => simp [blanks?]
  | cons c tail =>
    by_cases hc : isBlank c = true
    · have hex : ∃ first others, c :: tail = first :: others ∧ isBlank first = true := ⟨c, tail, rfl, hc⟩
      rw [blanks?, if_pos hc, Text.trimStart_cons_blank hc, Option.some.injEq, and_iff_right hex]
      exact eq_comm
    · simp [blanks?, hc]

theorem blanks?_append (h : blanks? text = some rest) (hne : rest ≠ []) (more : Text) :
    blanks? (text ++ more) = some (rest ++ more) := by
  obtain ⟨⟨c, tail, rfl, hc⟩, rfl⟩ := blanks?_eq_some_iff.1 h
  exact blanks?_eq_some_iff.2 ⟨⟨c, tail ++ more, rfl, hc⟩, (Text.trimStart_append hne more).symm⟩

theorem word?_eq_some_iff :
    word? word text = some rest ↔ ∃ tail, text = word ++ tail ∧ blanks? tail = some rest := by
  simp only [word?, Option.bind_eq_some_iff, Text.after?_eq_some_iff]

theorem word?_append (h : word? word text = some rest) (hne : rest ≠ []) (more : Text) :
    word? word (text ++ more) = some (rest ++ more) := by
  obtain ⟨tail, rfl, htail⟩ := word?_eq_some_iff.1 h
  exact word?_eq_some_iff.2 ⟨tail ++ more, List.append_assoc .., blanks?_append htail hne more⟩

/-- A word that does not come next, or lacks its blanks, still does not come next
with more text, unless it was all there was. -/
theorem word?_append_eq_none (hword : ∀ c ∈ word, isBlank c = false) (hmore : IsContinuation more)
    (h : word? word text = none) (hne : text ≠ word) : word? word (text ++ more) = none := by
  unfold word? at h ⊢
  cases ha : Text.after? word text with
  | none => rw [Text.after?_append_eq_none hword hmore ha, Option.bind_none]
  | some tail =>
    rw [ha, Option.bind_some] at h
    rw [Text.after?_append ha, Option.bind_some]
    cases tail with
    | nil => exact absurd (by simpa using Text.after?_eq_some_iff.1 ha) hne
    | cons c tail =>
      by_cases hc : isBlank c = true
      · simp [blanks?, hc] at h
      · simp [blanks?, hc]

theorem optional_of_some (h : word? word text = some rest) : optional word text = (true, rest) := by
  simp [Lexeme.optional, h]

theorem optional_of_none (h : word? word text = none) : optional word text = (false, text) := by
  simp [Lexeme.optional, h]

theorem optional_of_fst (h : (optional word text).1 = true) :
    ∃ rest, word? word text = some rest ∧ optional word text = (true, rest) := by
  cases hw : word? word text with
  | none =>
    rw [optional_of_none hw] at h
    cases h
  | some rest => exact ⟨rest, rfl, optional_of_some hw⟩

theorem optional_snd_of_not_fst (h : ¬ (optional word text).1 = true) : (optional word text).2 = text := by
  cases hw : word? word text with
  | none => rw [optional_of_none hw]
  | some rest =>
    rw [optional_of_some hw] at h
    exact absurd rfl h

theorem optional_append (hword : ∀ c ∈ word, isBlank c = false) (hmore : IsContinuation more)
    (hrest : (optional word text).2 ≠ []) (hne : text ≠ word) :
    optional word (text ++ more) = ((optional word text).1, (optional word text).2 ++ more) := by
  unfold optional at hrest ⊢
  cases h : word? word text with
  | none => rw [word?_append_eq_none hword hmore h hne]
  | some rest =>
    rw [h] at hrest
    rw [word?_append h hrest]

theorem phrase?_append {words : List Text} (h : phrase? words text = some rest) (hne : rest ≠ [])
    (more : Text) : phrase? words (text ++ more) = some (rest ++ more) := by
  induction words generalizing text with
  | nil =>
    rw [phrase?, Option.some.injEq] at h
    rw [phrase?, h]
  | cons word words ih =>
    obtain ⟨tail, htail, h⟩ := Option.bind_eq_some_iff.1 h
    have htail_ne : tail ≠ [] := by
      rintro rfl
      cases words with
      | nil => exact hne (Option.some.inj h).symm
      | cons next words =>
        obtain ⟨_, hnext, _⟩ := Option.bind_eq_some_iff.1 h
        obtain ⟨_, hnil, hblanks⟩ := word?_eq_some_iff.1 hnext
        obtain ⟨_, rfl⟩ := List.append_eq_nil_iff.1 hnil.symm
        cases hblanks
    rw [phrase?, word?_append htail htail_ne, Option.bind_some]
    exact ih h

theorem isSome_name?_iff : (name? text).isSome = true ↔ ∃ c tail, text = c :: tail ∧ isNameStart c = true := by
  cases text with
  | nil => simp [name?]
  | cons c tail =>
    by_cases hc : isNameStart c = true
    · simp [name?, hc]
    · simp [name?, hc]

end Lexeme

end ApiCoverage
