/-
The totals of a workspace.

The analyses of the members follow one another. A member that does not exist is
passed over, and the first one that fails for another reason decides the outcome;
otherwise the report holds the analysis of every member that exists, with its
symbols in order. The report counts all these symbols anew, and what it counts is
the sum of what the members count, kind by kind.
-/
import ApiCoverage.Proofs.EntryErrors
import ApiCoverage.Proofs.Statistics
import ApiCoverage.Proofs.SymbolOrder
import Mathlib.Algebra.BigOperators.Group.List.Basic

namespace ApiCoverage

/-! ## Sums of statistics -/

namespace Tally

/-- The tally of several lists together. -/
def sum (tallies : List Tally) : Tally :=
  ⟨(tallies.map (·.total)).sum, (tallies.map (·.documented)).sum⟩

theorem ofSymbols_flatMap {α : Type} (parts : List α) (symbols : α → List Symbol) :
    ofSymbols (parts.flatMap symbols) = sum (parts.map fun part => ofSymbols (symbols part)) := by
  simp only [ofSymbols, sum, List.length_flatMap, List.countP_flatMap, List.map_map]
  rfl

end Tally

namespace Stats

/-- The tally of a kind in a table; a kind without an entry has no symbols. -/
def ofKind (stats : Stats) (kind : Kind) : Tally := (stats.byKind.lookup kind).getD .empty

theorem ofKind_ofSymbols (symbols : List Symbol) (kind : Kind) :
    (ofSymbols symbols).ofKind kind = tallyOf symbols kind := by
  rw [ofKind, ofSymbols_eq]
  cases h : occurs symbols kind with
  | true =>
    rw [List.lookup_graph _ (List.mem_filter.2 ⟨Kind.mem_all kind, h⟩)]
    rfl
  | false =>
    have hnone : ((Kind.all.filter (occurs symbols)).map fun k => (k, tallyOf symbols k)).lookup kind = none := by
      rw [List.lookup_eq_none_iff]
      intro entry hm
      obtain ⟨other, hother, rfl⟩ := List.mem_map.1 hm
      refine bne_iff_ne.2 fun he => ?_
      rw [he, (List.mem_filter.1 hother).2] at h
      cases h
    rw [hnone, tallyOf_of_not_occurs h]
    rfl

theorem overall_ofSymbols (symbols : List Symbol) : (ofSymbols symbols).overall = .ofSymbols symbols := by
  rw [ofSymbols_eq]

/-- Statistics whose counts are those of the parts together. -/
structure SumsUp (stats : Stats) (parts : List Stats) : Prop where
  total : stats.overall.total = (parts.map (·.overall.total)).sum
  documented : stats.overall.documented = (parts.map (·.overall.documented)).sum
  undocumented : stats.overall.undocumented = (parts.map (·.overall.undocumented)).sum
  percentage : stats.percentage =
    coveragePercentage (parts.map (·.overall.documented)).sum (parts.map (·.overall.total)).sum
  /-- A kind has an entry exactly if it has one in some part. -/
  kinds : ∀ kind, kind ∈ stats.byKind.map Prod.fst ↔ ∃ part ∈ parts, kind ∈ part.byKind.map Prod.fst
  nodup : (stats.byKind.map Prod.fst).Nodup
  byKind : ∀ kind, stats.ofKind kind = .sum (parts.map (·.ofKind kind))

/-- Counting lists of symbols together is adding up what each of them counts. -/
theorem sumsUp_flatMap {α : Type} (parts : List α) (symbols : α → List Symbol) :
    (ofSymbols (parts.flatMap symbols)).SumsUp (parts.map fun part => ofSymbols (symbols part)) := by
  have hdescribes := describes_ofSymbols (parts.flatMap symbols)
  have hoverall : (ofSymbols (parts.flatMap symbols)).overall =
      .sum (parts.map fun part => (ofSymbols (symbols part)).overall) := by
    simp only [overall_ofSymbols, Tally.ofSymbols_flatMap]
  have htotal : (ofSymbols (parts.flatMap symbols)).overall.total =
      ((parts.map fun part => ofSymbols (symbols part)).map (·.overall.total)).sum := by
    simp only [hoverall, Tally.sum, List.map_map, Function.comp_def]
  have hdocumented : (ofSymbols (parts.flatMap symbols)).overall.documented =
      ((parts.map fun part => ofSymbols (symbols part)).map (·.overall.documented)).sum := by
    simp only [hoverall, Tally.sum, List.map_map, Function.comp_def]
  refine ⟨htotal, hdocumented, ?_, ?_, fun kind => ?_, hdescribes.nodup, fun kind => ?_⟩
  · -- Both counts are sums of counts, and no part has more documented symbols than symbols.
    have hparts : ((parts.map fun part => ofSymbols (symbols part)).map (·.overall.documented)).sum +
        ((parts.map fun part => ofSymbols (symbols part)).map (·.overall.undocumented)).sum =
        ((parts.map fun part => ofSymbols (symbols part)).map (·.overall.total)).sum := by
      rw [← List.sum_map_add]
      refine congrArg List.sum (List.map_congr_left fun stats hm => ?_)
      obtain ⟨part, _, rfl⟩ := List.mem_map.1 hm
      exact (describes_ofSymbols (symbols part)).overall.undocumented
    have hall := hdescribes.overall.undocumented
    omega
  · rw [percentage, Tally.percentage, htotal, hdocumented]
  · have hpart : ∀ part, kind ∈ (ofSymbols (symbols part)).byKind.map Prod.fst ↔
        kind ∈ (symbols part).map Symbol.kind := fun part => (describes_ofSymbols (symbols part)).kinds kind
    rw [hdescribes.kinds kind, List.map_flatMap, List.mem_flatMap]
    simp only [List.mem_map (f := fun part => ofSymbols (symbols part)), exists_exists_and_eq_and, hpart]
  · rw [ofKind_ofSymbols, tallyOf, List.filter_flatMap, Tally.ofSymbols_flatMap, List.map_map]
    exact congrArg Tally.sum (List.map_congr_left fun part _ => (ofKind_ofSymbols (symbols part) kind).symm)

end Stats

/-! ## The analysis of a member -/

namespace Disk

variable {disk : Disk}

theorem analyze_cases (disk : Disk) (path : Path) :
    disk.exists? path = false ∧ disk.analyze path = .error (.notFound path) ∨
    disk.exists? path = true ∧
      ((∃ configured entries, disk.analyze path = disk.analyzeEntries path configured entries) ∨
        ∃ hasConfig, disk.analyze path = disk.analyzeSources path hasConfig) := by
  unfold analyze
  cases hexists : disk.exists? path with
  | false => exact .inl ⟨rfl, rfl⟩
  | true =>
    refine .inr ⟨rfl, ?_⟩
    simp only [Bool.not_true, Bool.false_eq_true, if_false]
    split
    · exact .inl ⟨_, _, rfl⟩
    · split
      · exact .inr ⟨_, rfl⟩
      · split
        · exact .inl ⟨_, _, rfl⟩
        · exact .inr ⟨_, rfl⟩

/-- A path that exists is never reported as not found. -/
theorem analyze_ne_notFound {path missing : Path} (h : disk.exists? path = true) :
    disk.analyze path ≠ .error (.notFound missing) := by
  intro herror
  rcases disk.analyze_cases path with ⟨hnot, _⟩ | ⟨_, ⟨configured, entries, hanalyze⟩ | ⟨hasConfig, hanalyze⟩⟩
  · rw [h] at hnot
    cases hnot
  · rw [hanalyze, analyzeEntries] at herror
    split at herror
    next e hsymbols =>
      obtain ⟨entry, _, error, he, _⟩ := traceAll_error (entrySymbols_error_iff.1 hsymbols)
      rw [he] at herror
      cases herror
    · cases herror
  · rw [hanalyze, analyzeSources] at herror
    split at herror <;> cases herror

theorem pairwise_symbols_of_analyze {path : Path} {analysis : Analysis} (h : disk.analyze path = .ok analysis) :
    analysis.symbols.Pairwise Symbol.Precedes := by
  rcases disk.analyze_cases path with ⟨_, hanalyze⟩ | ⟨_, ⟨configured, entries, hanalyze⟩ | ⟨hasConfig, hanalyze⟩⟩
  · rw [hanalyze] at h
    cases h
  · rw [hanalyze, analyzeEntries] at h
    split at h
    · cases h
    · cases h
      exact Symbol.pairwise_mergeSort _
  · rw [hanalyze, analyzeSources] at h
    split at h
    · cases h
    · cases h
      exact Symbol.pairwise_mergeSort _

/-! ## The members one after the other -/

/-- The analysis of a member fails for another reason than that the member does
not exist. -/
def Fails (disk : Disk) (member : Path) (error : AnalysisError) : Prop :=
  disk.analyze member = .error error ∧ ∀ missing, error ≠ .notFound missing

theorem analyzeMembers_of_missing {member : Path} (h : disk.exists? member = false) (rest : List Path) :
    disk.analyzeMembers (member :: rest) = disk.analyzeMembers rest := by
  rcases disk.analyze_cases member with ⟨_, hanalyze⟩ | ⟨hexists, _⟩
  · rw [analyzeMembers, hanalyze]
  · rw [h] at hexists
    cases hexists

theorem analyzeMembers_of_fails {member : Path} {error : AnalysisError} (h : disk.Fails member error)
    (rest : List Path) : disk.analyzeMembers (member :: rest) = .error error := by
  rw [analyzeMembers, h.1]
  split
  next heq => cases heq
  next missing heq => exact absurd (Except.error.inj heq) (h.2 missing)
  next e _ heq => rw [Except.error.inj heq]

theorem analyzeMembers_of_ok {member : Path} {analysis : Analysis} (h : disk.analyze member = .ok analysis)
    (rest : List Path) :
    disk.analyzeMembers (member :: rest) = (disk.analyzeMembers rest).map (analysis :: ·) := by
  rw [analyzeMembers, h]

/-- A member is missing, fails or has an analysis. -/
theorem member_cases (disk : Disk) (member : Path) :
    disk.exists? member = false ∧ (∀ error, ¬ disk.Fails member error) ∨
    (∃ error, disk.Fails member error) ∨
    disk.exists? member = true ∧ ∃ analysis, disk.analyze member = .ok analysis := by
  rcases disk.analyze_cases member with ⟨hmissing, hanalyze⟩ | ⟨hexists, _⟩
  · refine .inl ⟨hmissing, fun error h => ?_⟩
    rw [Fails, hanalyze] at h
    exact h.2 member (Except.error.inj h.1).symm
  · cases hanalyze : disk.analyze member with
    | ok analysis => exact .inr (.inr ⟨hexists, analysis, rfl⟩)
    | error error =>
      exact .inr (.inl ⟨error, hanalyze, fun missing he => analyze_ne_notFound hexists (he ▸ hanalyze)⟩)

theorem exists_error_analyzeMembers_iff {members : List Path} :
    (∃ error, disk.analyzeMembers members = .error error) ↔ ∃ member ∈ members, ∃ error, disk.Fails member error := by
  induction members with
  | nil => simp [analyzeMembers]
  | cons member rest ih =>
    rw [List.exists_mem_cons_iff]
    rcases disk.member_cases member with ⟨hmissing, hnot⟩ | ⟨error, hfails⟩ | ⟨_, analysis, hanalyze⟩
    · rw [analyzeMembers_of_missing hmissing, ih, or_iff_right (fun ⟨e, he⟩ => hnot e he)]
    · rw [analyzeMembers_of_fails hfails]
      exact iff_of_true ⟨error, rfl⟩ (.inl ⟨error, hfails⟩)
    · have hnot : ¬ ∃ error, disk.Fails member error := by
        rintro ⟨e, he, _⟩
        rw [hanalyze] at he
        cases he
      rw [analyzeMembers_of_ok hanalyze, or_iff_right hnot, ← ih]
      cases disk.analyzeMembers rest <;> simp [Except.map]

/-- The first member that fails decides. -/
theorem analyzeMembers_of_first {front : List Path} (hfront : ∀ earlier ∈ front, ∀ e, ¬ disk.Fails earlier e)
    {member : Path} {error : AnalysisError} (h : disk.Fails member error) (back : List Path) :
    disk.analyzeMembers (front ++ member :: back) = .error error := by
  induction front with
  | nil => exact analyzeMembers_of_fails h back
  | cons first front ih =>
    have hrest := ih fun earlier hm => hfront earlier (List.mem_cons_of_mem _ hm)
    rcases disk.member_cases first with ⟨hmissing, _⟩ | ⟨e, hfails⟩ | ⟨_, analysis, hanalyze⟩
    · rw [List.cons_append, analyzeMembers_of_missing hmissing, hrest]
    · exact absurd hfails (hfront first List.mem_cons_self e)
    · rw [List.cons_append, analyzeMembers_of_ok hanalyze, hrest]
      rfl

/-- What is analyzed is every member that exists, in the given order. -/
theorem map_ok_of_analyzeMembers {members : List Path} {results : List Analysis}
    (h : disk.analyzeMembers members = .ok results) :
    results.map .ok = (members.filter disk.exists?).map disk.analyze := by
  induction members generalizing results with
  | nil =>
    cases h
    rfl
  | cons member rest ih =>
    rcases disk.member_cases member with ⟨hmissing, _⟩ | ⟨e, hfails⟩ | ⟨hexists, analysis, hanalyze⟩
    · rw [analyzeMembers_of_missing hmissing] at h
      rw [ih h, List.filter_cons_of_neg (by simp [hmissing])]
    · rw [analyzeMembers_of_fails hfails] at h
      cases h
    · rw [analyzeMembers_of_ok hanalyze] at h
      cases hrest : disk.analyzeMembers rest with
      | error e =>
        rw [hrest] at h
        cases h
      | ok others =>
        rw [hrest] at h
        cases h
        rw [List.map_cons, ih hrest, List.filter_cons_of_pos hexists, List.map_cons, hanalyze]

/-- **The report of a workspace adds up its members.** It fails exactly when a
member fails for another reason than that it does not exist, with the error of
the first such member. Otherwise it holds the analyses of the members that exist,
in their order and each with its symbols in order, and its statistics are the
sums of theirs. -/
theorem reportMembers_sumsUp (disk : Disk) (root : Path) (members : List Path) :
    ((∃ error, disk.reportMembers root members = .error error) ↔
      ∃ member ∈ members, ∃ error, disk.Fails member error) ∧
    (∀ front member back error, members = front ++ member :: back →
      (∀ earlier ∈ front, ∀ e, ¬ disk.Fails earlier e) → disk.Fails member error →
      disk.reportMembers root members = .error error) ∧
    ∀ report, disk.reportMembers root members = .ok report →
      report.root = root ∧
      report.results.map .ok = (members.filter disk.exists?).map disk.analyze ∧
      (∀ result ∈ report.results, result.symbols.Pairwise Symbol.Precedes) ∧
      report.stats.SumsUp (report.results.map (·.stats)) := by
  refine ⟨?_, ?_, fun report h => ?_⟩
  · rw [← exists_error_analyzeMembers_iff, reportMembers]
    cases disk.analyzeMembers members <;> simp [Except.map]
  · rintro front member back error rfl hfront hfails
    rw [reportMembers, analyzeMembers_of_first hfront hfails]
    rfl
  · cases hmembers : disk.analyzeMembers members with
    | error e =>
      rw [reportMembers, hmembers] at h
      cases h
    | ok results =>
      rw [reportMembers, hmembers] at h
      cases h
      have hmap := map_ok_of_analyzeMembers hmembers
      refine ⟨rfl, hmap, fun result hm => ?_, Stats.sumsUp_flatMap results (·.symbols)⟩
      have hok : Except.ok result ∈ (members.filter disk.exists?).map disk.analyze :=
        hmap ▸ List.mem_map_of_mem hm
      obtain ⟨member, _, hanalyze⟩ := List.mem_map.1 hok
      exact pairwise_symbols_of_analyze hanalyze

/-- A folder with a documented entry point, a file with a class that is not
documented, and a folder whose entry point is missing. -/
def mixedMembers : Disk :=
  ⟨.folder
    [("one", .folder
      [("deno.json", .file (.text "\x7b\x22exports\x22: \x22./mod.ts\x22\x7d")),
       ("mod.ts", .file (.text "/** One. */\nexport function one() \x7b\x7d\n"))]),
     ("two.ts", .file (.text "export class Two \x7b\x7d\n")),
     ("bad", .folder [("deno.json", .file (.text "\x7b\x22exports\x22: \x22./gone.ts\x22\x7d"))])], []⟩

/-- A missing member is passed over, also before one that fails, and the members
without a failure are summed up over different kinds. -/
theorem reportMembers_mixedMembers :
    mixedMembers.reportMembers "." [("gone" : Path), ("bad" : Path), ("bad/" : Path)] =
      .error (.entryUnreadable "bad/gone.ts" .notFound) ∧
    ∃ report, mixedMembers.reportMembers "." [("one" : Path), ("gone" : Path), ("two.ts" : Path)] = .ok report ∧
      report.results.map (·.path) = [("one" : Path), ("two.ts" : Path)] ∧
      report.stats = ⟨⟨2, 1⟩, [(.function, ⟨1, 1⟩), (.classType, ⟨1, 0⟩)]⟩ ∧
      report.stats.SumsUp (report.results.map (·.stats)) := by
  obtain ⟨_, hfirst, _⟩ := reportMembers_sumsUp mixedMembers "." [("gone" : Path), ("bad" : Path), ("bad/" : Path)]
  obtain ⟨_, _, hok⟩ := reportMembers_sumsUp mixedMembers "." [("one" : Path), ("gone" : Path), ("two.ts" : Path)]
  have hone : mixedMembers.reportMembers "." [("one" : Path), ("gone" : Path), ("two.ts" : Path)] = .ok
      { root := "."
        results :=
          [{ path := "one", hasConfig := true, hasExports := true, entries := [("one/mod.ts" : Path)]
             mode := .publicApi
             symbols := [⟨"one", .function, "one/mod.ts", 2, some "/** One. */", .named⟩] },
           { path := "two.ts", hasConfig := false, hasExports := false, entries := [("two.ts" : Path)]
             mode := .publicApi
             symbols := [⟨"Two", .classType, "two.ts", 1, none, .named⟩] }]
        isWorkspace := true } := by decide +kernel
  refine ⟨hfirst [("gone" : Path)] "bad" [("bad/" : Path)] _ rfl ?_ ⟨by decide +kernel, nofun⟩,
    _, hone, rfl, by decide +kernel, (hok _ hone).2.2.2⟩
  intro earlier hm e hfails
  obtain rfl := List.mem_singleton.1 hm
  have hmissing : mixedMembers.analyze "gone" = .error (.notFound "gone") := by decide +kernel
  exact hfails.2 "gone" (Except.error.inj (hfails.1.symm.trans hmissing))

end Disk
end ApiCoverage
