/-
The lines of a file, shared out among its statements.

A statement that leaves a brace open goes on to the first line that closes it, or as far as
lines are looked at (`Extent`). A file is read by a loop that stands at a line, takes the
statement that starts there and goes on behind it (`Scan`). The loop can only fail by looking
at a line that does not exist or by not moving on; a statement takes at least one line and none
behind the last, so neither happens, and the statements take every line once and in order.
-/
import ApiCoverage.Proofs.SpecifierLists
import ApiCoverage.Source.Outline

namespace ApiCoverage

open Text (trim)

/-! ## The lines of one statement -/

/-- The number of lines of a statement, from its first line and the lines after that. -/
inductive Extent (first : Text) (rest : List Text) : Nat → Prop
  /-- The first line opens no brace, or has a closing one. -/
  | single (hfirst : '{' ∉ first ∨ '}' ∈ first) : Extent first rest 1
  /-- The first of the lines after it with a closing brace is within reach. -/
  | closed {between after : List Text} {last : Text} (hopen : '{' ∈ first) (hfirst : '}' ∉ first)
    (hrest : rest = between ++ last :: after) (hbetween : ∀ line ∈ between, '}' ∉ line) (hlast : '}' ∈ last)
    (hreach : between.length < lookahead) : Extent first rest (between.length + 2)
  /-- No line within reach has a closing brace. -/
  | unclosed (hopen : '{' ∈ first) (hfirst : '}' ∉ first) (hrest : ∀ line ∈ rest.take lookahead, '}' ∉ line) :
    Extent first rest (min lookahead rest.length + 1)

namespace Extent

variable {first : Text} {rest : List Text} {count : Nat}

theorem pos (h : Extent first rest count) : 1 ≤ count := by
  cases h <;> omega

theorem le_lookahead (h : Extent first rest count) : count ≤ lookahead + 1 := by
  cases h <;> omega

theorem le_length (h : Extent first rest count) : count ≤ rest.length + 1 := by
  cases h with
  | single => omega
  | closed hopen hfirst hrest =>
    rw [hrest, List.length_append, List.length_cons]
    omega
  | unclosed => omega

end Extent

/-- Where gathering lines ends: at the first line that stops it, or at the limit. -/
theorem gather_snd_cases (stops : Text → Bool) (limit : Nat) (lines : List Text) :
    (∃ between last after, lines = between ++ last :: after ∧ (∀ line ∈ between, stops line = false) ∧
      stops last = true ∧ between.length < limit ∧ (gather stops limit lines).2 = between.length + 1) ∨
    ((∀ line ∈ lines.take limit, stops line = false) ∧ (gather stops limit lines).2 = min limit lines.length) := by
  fun_induction gather stops limit lines with
  | case1 => simp
  | case2 => simp
  | case3 limit line rest hstops =>
    exact .inl ⟨[], line, rest, rfl, by simp, hstops, Nat.zero_lt_succ limit, rfl⟩
  | case4 limit line rest hstops text count hgather ih =>
    rw [hgather] at ih
    have hline : stops line = false := by simpa using hstops
    rcases ih with ⟨between, last, after, rfl, hbetween, hlast, hlimit, hcount⟩ | ⟨hrest, hcount⟩
    · exact .inl ⟨line :: between, last, after, rfl, List.forall_mem_cons.2 ⟨hline, hbetween⟩, hlast,
        Nat.succ_lt_succ hlimit, congrArg (· + 1) hcount⟩
    · refine .inr ⟨List.forall_mem_cons.2 ⟨hline, hrest⟩, ?_⟩
      rw [List.length_cons, Nat.succ_min_succ]
      exact congrArg (· + 1) hcount

theorem gather_fst (stops : Text → Bool) (limit : Nat) (lines : List Text) :
    (gather stops limit lines).1 = joinedLines (lines.take (gather stops limit lines).2) := by
  fun_induction gather stops limit lines with
  | case1 => rfl
  | case2 => rfl
  | case3 limit line rest hstops => simp [joinedLines]
  | case4 limit line rest hstops text count hgather ih =>
    rw [hgather] at ih
    simp only [List.take_succ_cons, joinedLines, List.flatMap_cons] at ih ⊢
    rw [ih]

/-- Trimming keeps every character that is no blank. -/
theorem Text.mem_trim {c : Char} (hc : isBlank c = false) (text : Text) : c ∈ trim text ↔ c ∈ text := by
  refine ⟨(trim_sublist text).mem, fun hm => ?_⟩
  obtain ⟨before, after, rfl⟩ := List.append_of_mem hm
  simp [trim_append_cons hc]

theorem extent_joinBraced (first : Text) (rest : List Text) : Extent first rest (joinBraced first rest).2 := by
  have hopens : '{' ∈ trim first ↔ '{' ∈ first := Text.mem_trim (by decide) first
  have hcloses : '}' ∈ trim first ↔ '}' ∈ first := Text.mem_trim (by decide) first
  simp only [joinBraced]
  split
  next h =>
    simp only [Bool.or_eq_true, Bool.not_eq_true', List.contains_eq_mem, decide_eq_true_eq, decide_eq_false_iff_not,
      hopens, hcloses] at h
    exact .single h
  next h =>
    simp only [Bool.or_eq_true, Bool.not_eq_true', List.contains_eq_mem, decide_eq_true_eq, decide_eq_false_iff_not,
      hopens, hcloses, not_or, not_not] at h
    obtain ⟨hopen, hfirst⟩ := h
    rcases gather_snd_cases (·.contains '}') lookahead rest with
      ⟨between, last, after, hrest, hbetween, hlast, hreach, hcount⟩ | ⟨hrest, hcount⟩
    · rw [hcount]
      exact .closed hopen hfirst hrest (by simpa using hbetween) (by simpa using hlast) hreach
    · rw [hcount]
      exact .unclosed hopen hfirst (by simpa using hrest)

theorem join_map_trim (first : Text) (rest : List Text) :
    Text.join " " ((first :: rest).map trim) = trim first ++ joinedLines rest := by
  induction rest generalizing first with
  | nil => simp [Text.join, joinedLines]
  | cons next rest ih =>
    rw [List.map_cons, List.map_cons, Text.join, ← List.map_cons, ih]
    · simp [joinedLines]
    · rintro ⟨⟩

theorem joinBraced_fst_eq (first : Text) (rest : List Text) :
    (joinBraced first rest).1 = Text.join " " (((first :: rest).take (joinBraced first rest).2).map trim) := by
  simp only [joinBraced]
  split
  · rfl
  · rw [List.take_succ_cons, join_map_trim, gather_fst]

/-- What a statement is that starts at a line of a file. -/
theorem exists_joinBracedAt? {lines : List Text} {start : Nat} (h : start < lines.length) :
    ∃ first rest text count, lines.drop start = first :: rest ∧ joinBracedAt? lines start = some (text, count) ∧
      Extent first rest count ∧ text = Text.join " " (((lines.drop start).take count).map trim) := by
  obtain ⟨first, rest, hdrop⟩ := List.exists_cons_of_ne_nil (List.drop_eq_nil_iff.not.2 (Nat.not_le.2 h))
  refine ⟨first, rest, (joinBraced first rest).1, (joinBraced first rest).2, hdrop, ?_, extent_joinBraced .., ?_⟩
  · rw [joinBracedAt?, hdrop]
  · rw [hdrop, joinBraced_fst_eq]

namespace Segment

/-- A segment holds some of the lines of a file, at least one and not too many, and its text is
theirs. -/
structure IsTakenFrom (lines : List Text) (segment : Segment) : Prop where
  pos : 1 ≤ segment.extent
  short : segment.extent ≤ lookahead + 1
  inside : segment.index + segment.extent ≤ lines.length
  text_eq : segment.text = Text.join " " (((lines.drop segment.index).take segment.extent).map trim)

theorem isTakenFrom_single {lines : List Text} {index : Nat} {line : Text} (h : lines[index]? = some line) :
    IsTakenFrom lines ⟨index, 1, trim line⟩ := by
  obtain ⟨hlt, rfl⟩ := List.getElem?_eq_some_iff.1 h
  refine ⟨Nat.le_refl 1, Nat.le_add_left 1 lookahead, hlt, ?_⟩
  rw [List.drop_eq_getElem_cons hlt]
  rfl

theorem isTakenFrom_joined {lines : List Text} {index count : Nat} {text : Text} (hindex : index < lines.length)
    (h : joinBracedAt? lines index = some (text, count)) : IsTakenFrom lines ⟨index, count, text⟩ := by
  obtain ⟨first, rest, text', count', hdrop, hjoin, hextent, htext⟩ := exists_joinBracedAt? hindex
  obtain ⟨rfl, rfl⟩ := Prod.mk.inj (Option.some.inj (hjoin.symm.trans h))
  have hlength : (lines.drop index).length = rest.length + 1 := by rw [hdrop, List.length_cons]
  rw [List.length_drop] at hlength
  have hle := hextent.le_length
  have hinside : index + count' ≤ lines.length := by omega
  exact ⟨hextent.pos, hextent.le_lookahead, hinside, htext⟩

/-! ## The loop over the lines of a file -/

/-- The run of the loop from a line on, with the statements it takes. It ends behind the last
line, and before that takes the line it stands at by itself, or, if that may go on, joined to
its closing brace. -/
inductive Scan (joins : Text → Bool) (lines : List Text) : Nat → List Segment → Prop
  | finished {index : Nat} (h : lines.length ≤ index) : Scan joins lines index []
  | single {index : Nat} {line : Text} {later : List Segment} (hline : lines[index]? = some line)
    (hjoins : joins (trim line) = false) (h : Scan joins lines (index + 1) later) :
    Scan joins lines index (⟨index, 1, trim line⟩ :: later)
  | joined {index count : Nat} {line text : Text} {later : List Segment} (hline : lines[index]? = some line)
    (hjoins : joins (trim line) = true) (hjoin : joinBracedAt? lines index = some (text, count))
    (h : Scan joins lines (index + count) later) : Scan joins lines index (⟨index, count, text⟩ :: later)

variable {joins : Text → Bool} {lines : List Text} {index : Nat} {segments : List Segment}

/-- The loop cannot run in two ways. -/
theorem Scan.eq (h : Scan joins lines index segments) {others : List Segment} (h' : Scan joins lines index others) :
    segments = others := by
  induction h generalizing others with
  | finished hend =>
    cases h' with
    | finished => rfl
    | single hline | joined hline => exact absurd (List.getElem?_eq_some_iff.1 hline).1 (Nat.not_lt.2 hend)
  | single hline hjoins h ih =>
    cases h' with
    | finished hend => exact absurd (List.getElem?_eq_some_iff.1 hline).1 (Nat.not_lt.2 hend)
    | single hline' hjoins' h' =>
      obtain rfl := Option.some.inj (hline.symm.trans hline')
      rw [ih h']
    | joined hline' hjoins' =>
      obtain rfl := Option.some.inj (hline.symm.trans hline')
      cases hjoins.symm.trans hjoins'
  | joined hline hjoins hjoin h ih =>
    cases h' with
    | finished hend => exact absurd (List.getElem?_eq_some_iff.1 hline).1 (Nat.not_lt.2 hend)
    | single hline' hjoins' =>
      obtain rfl := Option.some.inj (hline.symm.trans hline')
      cases hjoins.symm.trans hjoins'
    | joined hline' hjoins' hjoin' h' =>
      obtain ⟨rfl, rfl⟩ := Prod.mk.inj (Option.some.inj (hjoin.symm.trans hjoin'))
      rw [ih h']

/-- Every turn of the loop takes lines of the file. -/
theorem Scan.isTakenFrom (h : Scan joins lines index segments) : ∀ segment ∈ segments, IsTakenFrom lines segment := by
  induction h with
  | finished => simp
  | single hline hjoins h ih => exact List.forall_mem_cons.2 ⟨isTakenFrom_single hline, ih⟩
  | joined hline hjoins hjoin h ih =>
    exact List.forall_mem_cons.2 ⟨isTakenFrom_joined (List.getElem?_eq_some_iff.1 hline).1 hjoin, ih⟩

/-- The lines that the statements of a run take are those from its start on. -/
theorem Scan.flatMap_range' (h : Scan joins lines index segments) (hindex : index ≤ lines.length) :
    segments.flatMap (fun segment => List.range' segment.index segment.extent) =
      List.range' index (lines.length - index) := by
  have hstep : ∀ {segment : Segment}, IsTakenFrom lines segment →
      List.range' segment.index segment.extent ++
          List.range' (segment.index + segment.extent) (lines.length - (segment.index + segment.extent)) =
        List.range' segment.index (lines.length - segment.index) := by
    intro segment htaken
    have hinside := htaken.inside
    rw [List.range'_append_1]
    congr 1
    omega
  induction h with
  | finished hend => simp [Nat.le_antisymm hindex hend]
  | single hline hjoins h ih =>
    have htaken := isTakenFrom_single hline
    rw [List.flatMap_cons, ih htaken.inside]
    exact hstep htaken
  | joined hline hjoins hjoin h ih =>
    have htaken := isTakenFrom_joined (List.getElem?_eq_some_iff.1 hline).1 hjoin
    rw [List.flatMap_cons, ih htaken.inside]
    exact hstep htaken

/-- The segments of the lines after `before`, of which the first `skip` are taken already. -/
theorem scan_ofLinesFrom (joins : Text → Bool) (before rest : List Text) {skip : Nat} (hskip : skip ≤ rest.length) :
    Scan joins (before ++ rest) (before.length + skip) (ofLinesFrom joins before.length skip rest) := by
  -- The segments are found line by line, so a turn of the loop is as many steps of this induction as the
  -- statement has lines. That no step skips more lines than are left is what a statement's extent ensures.
  induction rest generalizing before skip with
  | nil => exact .finished (by simp)
  | cons first rest ih =>
    have hlater : ∀ skip ≤ rest.length, Scan joins (before ++ first :: rest) (before.length + 1 + skip)
        (ofLinesFrom joins (before.length + 1) skip rest) := by
      intro skip hle
      have hscan := ih (before ++ [first]) hle
      rwa [List.append_assoc, List.singleton_append, List.length_append, List.length_singleton] at hscan
    cases skip with
    | succ skip =>
      rw [ofLinesFrom, Nat.add_comm skip, ← Nat.add_assoc]
      exact hlater skip (Nat.le_of_succ_le_succ hskip)
    | zero =>
      have hline : (before ++ first :: rest)[before.length]? = some first := by simp
      simp only [ofLinesFrom]
      cases hjoins : joins (trim first) with
      | false => exact .single hline hjoins (hlater 0 (Nat.zero_le _))
      | true =>
        have hextent := extent_joinBraced first rest
        have hpos := hextent.pos
        have hle := hextent.le_length
        refine .joined hline hjoins (joinBracedAt?_append before first rest) ?_
        have hscan := hlater ((joinBraced first rest).2 - 1) (by omega)
        rwa [Nat.add_assoc, Nat.add_sub_cancel' hpos] at hscan

theorem scan_ofLines (joins : Text → Bool) (lines : List Text) : Scan joins lines 0 (ofLines joins lines) :=
  scan_ofLinesFrom joins [] lines (Nat.zero_le _)

end Segment

/-! ## Export and import statements -/

/-- Only a text that starts with the word is an import statement. -/
theorem Import.parse?_eq_none {text : Text} (h : Text.startsWith "import" text = false) : parse? text = none := by
  have hafter : Text.after? "import" text = none := Option.isNone_iff_eq_none.1 (Option.isSome_eq_false_iff.1 h)
  rw [parse?, split?, hafter]
  rfl

/-- The imports are found by a loop that passes over every line but those with the word. -/
theorem Outline.importsOf_eq (lines : List Text) :
    importsOf lines = (Segment.ofLines (Text.startsWith "import") lines).filterMap fun segment =>
      if Text.startsWith "import" segment.text then Import.parse? segment.text else none := by
  refine List.filterMap_congr fun segment _ => ?_
  split
  · rfl
  next h => exact Import.parse?_eq_none (by simpa using h)

namespace Segment

/-- **The statements of a file share out its lines.** Joining succeeds at every line of a file;
it takes at least one line, at most eleven and none behind the last, as many as `Extent` says,
and gives their trimmed texts with single blanks between them. So the loop over a file, whatever
lines it joins at, has exactly one run, which is the segments of the file; their texts are those
of the lines they take, and together they take every line once and in order. The exports and the
imports of a file are read in such runs. -/
theorem ofLines_shares_lines (lines : List Text) :
    (∀ start < lines.length, ∃ first rest text count, lines.drop start = first :: rest ∧
      joinBracedAt? lines start = some (text, count) ∧ 1 ≤ count ∧ count ≤ min 11 (lines.length - start) ∧
      Extent first rest count ∧ text = Text.join " " (((lines.drop start).take count).map trim)) ∧
    (∀ joins : Text → Bool,
      (∀ segments, Scan joins lines 0 segments ↔ segments = ofLines joins lines) ∧
      (∀ segment ∈ ofLines joins lines, IsTakenFrom lines segment) ∧
      (ofLines joins lines).flatMap (fun segment => List.range' segment.index segment.extent) =
        List.range lines.length) ∧
    (∀ segments, Scan Export.opensList lines 0 segments →
      Outline.exportsOf lines = segments.filterMap fun segment =>
        (Export.parse? segment.text).map (segment.line, ·)) ∧
    ∀ segments, Scan (Text.startsWith "import") lines 0 segments →
      Outline.importsOf lines = segments.filterMap fun segment =>
        if Text.startsWith "import" segment.text then Import.parse? segment.text else none := by
  refine ⟨fun start hstart => ?_, fun joins => ?_, fun segments hscan => ?_, fun segments hscan => ?_⟩
  · obtain ⟨first, rest, text, count, hdrop, hjoin, hextent, htext⟩ := exists_joinBracedAt? hstart
    have htaken := isTakenFrom_joined hstart hjoin
    refine ⟨first, rest, text, count, hdrop, hjoin, htaken.pos, Nat.le_min.2 ⟨htaken.short, ?_⟩, hextent, htext⟩
    exact Nat.le_sub_of_add_le' htaken.inside
  · have hscan := scan_ofLines joins lines
    refine ⟨fun segments => ⟨fun h => h.eq hscan, fun h => h ▸ hscan⟩, hscan.isTakenFrom, ?_⟩
    rw [hscan.flatMap_range' (Nat.zero_le _), Nat.sub_zero, List.range_eq_range']
  · rw [hscan.eq (scan_ofLines _ lines), Outline.exportsOf]
  · rw [hscan.eq (scan_ofLines _ lines), Outline.importsOf_eq]

/-- A list whose closing brace is one line too far away. -/
def longList : List Text :=
  String.toList "export \x7b" :: (List.replicate 10 (String.toList "a,") ++ [String.toList "\x7d"])

theorem ofLines_shares_longList :
    (∃ text, joinBracedAt? longList 0 = some (text, 11) ∧ text = Text.join " " ((longList.take 11).map trim)) ∧
      (ofLines Export.opensList longList).map (fun segment => (segment.index, segment.extent)) =
        [(0, 11), (11, 1)] := by
  have hlength : 0 < longList.length := by decide
  have hcount : (joinBracedAt? longList 0).map (·.2) = some 11 := by decide +kernel
  obtain ⟨first, rest, text, count, -, hjoin, -, -, -, htext⟩ := (ofLines_shares_lines longList).1 0 hlength
  rw [hjoin, Option.map_some, Option.some.injEq] at hcount
  subst hcount
  exact ⟨⟨text, hjoin, htext⟩, by decide +kernel⟩

end Segment
end ApiCoverage
