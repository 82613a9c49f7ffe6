/-
Every recorded export rests on a line of a file that can be read.

An export is first recorded where a statement declares it, where a line was found
that declares it, or, failing that, at the list that names it. Each of these is
evidence for the name at that line. Later statements copy the export and give it
other names for importers, but its file, its line and the name it was declared
under stay as they are, so the evidence stays with it.
-/
import ApiCoverage.Proofs.Arising
import ApiCoverage.Proofs.Statements

namespace ApiCoverage

/-! ## Statements and the lines they start at -/

theorem Segment.mem_ofLinesFrom {joins : Text → Bool} {index skip : Nat} {lines : List Text}
    {segment : Segment} (h : segment ∈ ofLinesFrom joins index skip lines) :
    ∃ offset first rest, segment.index = index + offset ∧ lines.drop offset = first :: rest ∧
      segment.text = if joins (Text.trim first) then (joinBraced first rest).1 else Text.trim first := by
  induction lines generalizing index skip with
  | nil => cases h
  | cons first rest ih =>
    have hlater : ∀ skip, segment ∈ ofLinesFrom joins (index + 1) skip rest →
        ∃ offset head others, segment.index = index + offset ∧ (first :: rest).drop offset = head :: others ∧
          segment.text = if joins (Text.trim head) then (joinBraced head others).1 else Text.trim head := by
      intro skip hm
      obtain ⟨offset, head, others, hindex, hdrop, htext⟩ := ih hm
      exact ⟨offset + 1, head, others, by omega, by simpa using hdrop, htext⟩
    cases skip with
    | succ skip =>
      rw [ofLinesFrom] at h
      exact hlater skip h
    | zero =>
      simp only [ofLinesFrom] at h
      rcases List.mem_cons.1 h with rfl | h
      · exact ⟨0, first, rest, rfl, rfl, apply_ite Prod.fst ..⟩
      · exact hlater _ h

/-- An export statement is read from the line it starts at, or from that line up
to a closing brace if it opens a list. -/
theorem Outline.mem_exportsOf {lines : List Text} {line : Nat} {statement : Export}
    (h : (line, statement) ∈ Outline.exportsOf lines) :
    ∃ index first rest, line = index + 1 ∧ lines.drop index = first :: rest ∧
      Export.parse? (if Export.opensList (Text.trim first) then (joinBraced first rest).1
        else Text.trim first) = some statement := by
  obtain ⟨segment, hsegment, hparse⟩ := List.mem_filterMap.1 h
  obtain ⟨found, hfound, hpair⟩ := Option.map_eq_some_iff.1 hparse
  obtain ⟨rfl, rfl⟩ := Prod.mk.inj hpair
  obtain ⟨offset, first, rest, hindex, hdrop, htext⟩ := Segment.mem_ofLinesFrom hsegment
  refine ⟨offset, first, rest, ?_, hdrop, htext ▸ hfound⟩
  rw [Segment.line, hindex, Nat.zero_add]

theorem Outline.declares?_of_mem_exportsOf {lines : List Text} {line : Nat} {d : Declaration}
    (h : (line, .declaration d) ∈ Outline.exportsOf lines) :
    ∃ index text, line = index + 1 ∧ lines[index]? = some text ∧ Export.declares? (Text.trim text) = some d := by
  obtain ⟨index, first, rest, hline, hdrop, hparse⟩ := mem_exportsOf h
  have hfirst : lines[index]? = some first := by
    rw [← List.head?_drop, hdrop]
    rfl
  refine ⟨index, first, hline, hfirst, Export.declares?_eq_some_iff.2 ?_⟩
  split at hparse
  next hopens =>
    -- A list is no declaration, on one line or on several.
    obtain ⟨more, hmore⟩ := joinBraced_fst first rest
    have hdeclared := (Export.parse?_of_parse?_declaration hparse).1
    rw [hmore, Export.declaration_parse?_of_opensList hopens] at hdeclared
    cases hdeclared
  · exact hparse

/-- A statement with names in braces is the one that starts at its line. -/
theorem Outline.joinBracedAt?_of_mem_exportsOf {lines : List Text} {line : Nat} {statement : Export}
    {specifier : Specifier} (h : (line, statement) ∈ Outline.exportsOf lines)
    (hm : specifier ∈ statement.specifiers) :
    ∃ index text count, line = index + 1 ∧ index < lines.length ∧
      joinBracedAt? lines index = some (text, count) ∧ Export.parse? text = some statement := by
  obtain ⟨index, first, rest, hline, hdrop, hparse⟩ := mem_exportsOf h
  have hindex : index < lines.length := by
    by_contra hge
    rw [List.drop_eq_nil_of_le (Nat.not_lt.1 hge)] at hdrop
    cases hdrop
  refine ⟨index, (joinBraced first rest).1, (joinBraced first rest).2, hline, hindex, ?_, ?_⟩
  · simp only [joinBracedAt?, hdrop]
  · split at hparse
    · exact hparse
    next hopens =>
      refine absurd ?_ hopens
      rcases Export.parse?_cases hparse with hstar | hlist | hdeclaration
      · obtain ⟨source, rfl⟩ := Export.star?_cases hstar
        cases hm
      · exact Export.opensList_of_list? hlist
      · obtain ⟨d, _, rfl⟩ := Option.map_eq_some_iff.1 hdeclaration
        cases hm

/-! ## Evidence -/

/-- Why a line of a file stands for a name. -/
inductive Evidence (lines : List Text) (line : Nat) (name : Text) : Prop where
  /-- The line is an exported declaration of the name. -/
  | declared {text : Text} {d : Declaration} (hline : lines[line - 1]? = some text)
    (hdeclares : Export.declares? (Text.trim text) = some d) (hname : d.name = name)
  /-- The line is the one at which the name is found. -/
  | located (h : Locate.line? lines name = some line)
  /-- The statement that starts at the line is a list with the name. -/
  | listed {text : Text} {count : Nat} {statement : Export} {specifier : Specifier}
    (hjoin : joinBracedAt? lines (line - 1) = some (text, count)) (hparse : Export.parse? text = some statement)
    (hmem : specifier ∈ statement.specifiers) (hname : specifier.declared = name)

namespace Locate

variable {condition : Text → Bool} {lines : List Text} {name : Text} {line : Nat}

theorem firstLine?_eq_some (h : firstLine? condition lines = some line) :
    ∃ index text, line = index + 1 ∧ lines[index]? = some text ∧ condition text = true := by
  obtain ⟨index, hindex, rfl⟩ := Option.map_eq_some_iff.1 h
  obtain ⟨hlt, hcondition, _⟩ := List.findIdx?_eq_some_iff_getElem.1 hindex
  exact ⟨index, lines[index], rfl, List.getElem?_eq_getElem hlt, hcondition⟩

theorem firstLine?_eq_none (h : firstLine? condition lines = none) : ∀ line ∈ lines, condition line = false :=
  List.findIdx?_eq_none_iff.1 (Option.map_eq_none_iff.1 h)

/-- The line found for a name is an exported declaration, or has the shape of a
declaration of the name while no line is an exported declaration of it. -/
theorem line?_cases (h : line? lines name = some line) :
    ∃ index text, line = index + 1 ∧ lines[index]? = some text ∧
      ((∃ d, Export.declares? (Text.trim text) = some d) ∨
        (name ≠ defaultName ∧ (∀ other ∈ lines, declaresExported name other = false) ∧
          declaresBare name (Text.trim text) = true)) := by
  by_cases hname : name = defaultName
  · rw [line?, if_pos (by simpa using hname)] at h
    obtain ⟨index, text, hline, htext, hdefault⟩ := firstLine?_eq_some h
    refine ⟨index, text, hline, htext, .inl ?_⟩
    unfold declaresDefault at hdefault
    split at hdefault
    next d hd => exact ⟨d, hd⟩
    · cases hdefault
  · rw [line?_eq hname] at h
    rcases Option.or_eq_some_iff.1 h with h | ⟨hnone, h⟩
    · obtain ⟨index, text, hline, htext, hexported⟩ := firstLine?_eq_some h
      refine ⟨index, text, hline, htext, .inl ?_⟩
      unfold declaresExported at hexported
      split at hexported
      next d hd => exact ⟨d, hd⟩
      · cases hexported
    · obtain ⟨index, text, hline, htext, hbare⟩ := firstLine?_eq_some h
      exact ⟨index, text, hline, htext, .inr ⟨hname, firstLine?_eq_none hnone, hbare⟩⟩

theorem line?_bounds (h : line? lines name = some line) : 1 ≤ line ∧ line ≤ lines.length := by
  obtain ⟨index, text, rfl, htext, _⟩ := line?_cases h
  obtain ⟨hlt, _⟩ := List.getElem?_eq_some_iff.1 htext
  exact ⟨by omega, by omega⟩

end Locate

namespace Disk

variable {disk : Disk} {file : Path} {lines : List Text}

/-- The export points at a line of a file that can be read, and the line is
evidence for the name it was declared under. -/
def Evident (disk : Disk) (entry : Traced) : Prop :=
  ∃ lines, disk.readLines entry.file = .ok lines ∧ 1 ≤ entry.line ∧ entry.line ≤ lines.length ∧
    Evidence lines entry.line entry.declared

theorem evident_of_line? {name exported : Text} {line : Nat} (hread : disk.readLines file = .ok lines)
    (h : Locate.line? lines name = some line) : disk.Evident ⟨name, exported, file, line⟩ := by
  obtain ⟨hfirst, hlast⟩ := Locate.line?_bounds h
  exact ⟨lines, hread, hfirst, hlast, .located h⟩

theorem evident_of_mem_specifiers {line : Nat} {statement : Export} {specifier : Specifier}
    (hread : disk.readLines file = .ok lines) (hstatement : (line, statement) ∈ Outline.exportsOf lines)
    (hm : specifier ∈ statement.specifiers) : disk.Evident (specifier.traced none file line) := by
  obtain ⟨index, text, count, rfl, hindex, hjoin, hparse⟩ :=
    Outline.joinBracedAt?_of_mem_exportsOf hstatement hm
  refine ⟨lines, hread, ?_, ?_, .listed hjoin hparse hm rfl⟩
  · simp [Specifier.traced]
  · simp only [Specifier.traced]
    omega

/-- What a search for a name brings in is found at a line of the other file, or it
is what the search falls back to. -/
theorem evident_of_mem_news_seek {target : Path} {name : Text} {missing entry : Traced}
    (hmissing : disk.Evident missing) (h : entry ∈ (disk.seek target name missing).news) :
    disk.Evident entry := by
  unfold seek locate? at h
  split at h
  next line hline =>
    rw [List.mem_singleton.1 h]
    split at hline
    next lines hread => exact evident_of_line? hread hline
    · cases hline
  · exact List.mem_singleton.1 h ▸ hmissing

theorem evident_of_mem_news_localTasks {line : Nat} {specifier : Specifier} {task : Task} {entry : Traced}
    (hread : disk.readLines file = .ok lines) (hfallback : disk.Evident (specifier.traced none file line))
    (ht : task ∈ disk.localTasks file (Outline.ofLines lines) line specifier) (h : entry ∈ task.news) :
    disk.Evident entry := by
  rcases localTasks_cases ht with ⟨_, rfl⟩ | ⟨_, _, target, _, _, rfl | ⟨name, rfl⟩⟩
  · rw [List.mem_singleton.1 h]
    cases hline : Locate.line? (Outline.ofLines lines).lines specifier.declared with
    | none => exact hfallback
    | some found => exact evident_of_line? hread hline
  · exact List.mem_singleton.1 h ▸ hfallback
  · exact evident_of_mem_news_seek hfallback h

theorem evident_of_mem_news_tasks {statement : Nat × Export} {task : Task} {entry : Traced}
    (hread : disk.readLines file = .ok lines) (hstatement : statement ∈ Outline.exportsOf lines)
    (ht : task ∈ disk.tasks file (Outline.ofLines lines) statement) (h : entry ∈ task.news) :
    disk.Evident entry := by
  obtain ⟨line, statement⟩ := statement
  cases statement with
  | declaration d =>
    rw [List.mem_singleton.1 ht] at h
    obtain ⟨index, text, rfl, htext, hdeclares⟩ := Outline.declares?_of_mem_exportsOf hstatement
    obtain ⟨hindex, _⟩ := List.getElem?_eq_some_iff.1 htext
    rw [List.mem_singleton.1 h]
    refine ⟨lines, hread, ?_, ?_, .declared htext hdeclares rfl⟩
    · simp [Traced.direct]
    · simp only [Traced.direct]
      omega
  | star source =>
    obtain ⟨target, _, rfl⟩ := List.mem_map.1 ht
    cases h
  | list typeOnly specifiers =>
    obtain ⟨specifier, hm, ht⟩ := List.mem_flatMap.1 ht
    exact evident_of_mem_news_localTasks hread (evident_of_mem_specifiers hread hstatement hm) ht h
  | reExport typeOnly specifiers source =>
    rw [tasks] at ht
    split at ht
    · obtain ⟨specifier, hm, rfl⟩ := List.mem_map.1 ht
      exact evident_of_mem_news_seek (evident_of_mem_specifiers hread hstatement hm) h
    · cases ht

theorem Arises.evident {graph : Graph} (h : disk.Arises graph) :
    ∀ key, ∀ entry ∈ graph.exportsOf key, disk.Evident entry := by
  refine h.forall_recorded (fun hs task ht entry hm => ?_) fun hevident _ => hevident
  obtain ⟨lines, hread, statement, hstatement, ht⟩ := mem_script hs ht
  exact evident_of_mem_news_tasks hread hstatement ht hm

/-- **Every recorded export points at evidence for its name**, whatever files were
traced before and however far the names were passed on. -/
theorem evident_of_mem_traces (disk : Disk) (paths : List Path) (key : FileKey) (entry : Traced)
    (h : entry ∈ (disk.traces paths .empty).exportsOf key) : disk.Evident entry :=
  (arises_traces paths).evident key entry h

/-- Two names of the first file, one of them declared nowhere, that are renamed
twice on the way to the last file. -/
def renamedTwice : Disk :=
  ⟨.folder
    [("a.ts", .file (.text "const a = 1\nexport \x7b a as b, gone \x7d")),
     ("b.ts", .file (.text "export \x7b b as c, gone as lost \x7d from './a.ts'")),
     ("c.ts", .file (.text "export * from './b.ts'\nexport default class K \x7b\x7d"))], []⟩

/-- The three kinds of evidence, for what the last file exports. -/
theorem evident_renamedTwice :
    (renamedTwice.traces ["c.ts"] .empty).exportsOf ("c.ts" : Path).components =
      [⟨"a", "c", "a.ts", 1⟩, ⟨"gone", "lost", "a.ts", 2⟩, ⟨"K", "K", "c.ts", 2⟩] ∧
    renamedTwice.Evident ⟨"a", "c", "a.ts", 1⟩ ∧ renamedTwice.Evident ⟨"gone", "lost", "a.ts", 2⟩ ∧
      renamedTwice.Evident ⟨"K", "K", "c.ts", 2⟩ := by
  have hexports : (renamedTwice.traces ["c.ts"] .empty).exportsOf ("c.ts" : Path).components =
      [⟨"a", "c", "a.ts", 1⟩, ⟨"gone", "lost", "a.ts", 2⟩, ⟨"K", "K", "c.ts", 2⟩] := rfl
  refine ⟨hexports, ?_, ?_, ?_⟩
  · exact evident_of_mem_traces _ ["c.ts"] _ _ (by rw [hexports]; simp)
  · exact evident_of_mem_traces _ ["c.ts"] _ _ (by rw [hexports]; simp)
  · exact evident_of_mem_traces _ ["c.ts"] _ _ (by rw [hexports]; simp)

end Disk
end ApiCoverage
