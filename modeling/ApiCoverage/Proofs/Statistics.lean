/-
Statistics and the symbols they count.

The statistics of a list can be read off the list: how long it is, how many of
its symbols are documented, and the same for the symbols of each kind that
occurs. So they do not depend on the order of the symbols. Rounding never
reaches 100 while a symbol lacks documentation, however many there are, and a
run that asks for 100 percent fails as long as one does.
-/
import ApiCoverage.Command.Run
import Mathlib.Algebra.Ring.Nat
import Mathlib.Data.List.Induction

namespace ApiCoverage

theorem Kind.mem_all (kind : Kind) : kind ∈ all := by
  cases kind <;> decide

theorem Kind.pairwise_all : all.Pairwise fun a b => a.rank < b.rank := by decide

theorem coveragePercentage_le (documented total : Nat) : coveragePercentage documented total ≤ 100 := by
  unfold coveragePercentage
  split
  · exact Nat.le_refl 100
  · exact Nat.le_trans (Nat.min_le_right _ _) (by decide)

/-- Only a complete set has 100 percent: an incomplete one is capped before the
rounding can matter. -/
theorem coveragePercentage_eq_iff {documented total : Nat} :
    coveragePercentage documented total = 100 ↔ total ≤ documented := by
  unfold coveragePercentage
  split
  next h => exact iff_of_true rfl (h.elim (fun h0 => by omega) id)
  next h =>
    have hcap : ∀ n : Nat, min n 99 ≠ 100 := fun n => by omega
    exact iff_of_false (hcap _) fun hle => h (.inr hle)

/-! ## One tally -/

namespace Tally

/-- The tally that a list of symbols has. -/
def ofSymbols (symbols : List Symbol) : Tally := ⟨symbols.length, symbols.countP Symbol.isDocumented⟩

/-- What a tally says about the symbols it counts. -/
structure Describes (tally : Tally) (symbols : List Symbol) : Prop where
  total : tally.total = symbols.length
  documented : tally.documented = symbols.countP Symbol.isDocumented
  documented_le : tally.documented ≤ tally.total
  undocumented : tally.documented + tally.undocumented = tally.total
  percentage_le : tally.percentage ≤ 100
  percentage_eq_iff : tally.percentage = 100 ↔ ∀ symbol ∈ symbols, symbol.isDocumented = true

theorem ofSymbols_concat (symbols : List Symbol) (symbol : Symbol) :
    ofSymbols (symbols ++ [symbol]) = (ofSymbols symbols).add symbol.isDocumented := by
  cases h : symbol.isDocumented <;> simp [ofSymbols, add, h]

theorem describes_ofSymbols (symbols : List Symbol) : (ofSymbols symbols).Describes symbols := by
  have hle : symbols.countP Symbol.isDocumented ≤ symbols.length := List.countP_le_length
  refine ⟨rfl, rfl, hle, Nat.add_sub_cancel' hle, coveragePercentage_le _ _, ?_⟩
  rw [percentage, coveragePercentage_eq_iff, ← List.countP_eq_length]
  exact ⟨fun h => Nat.le_antisymm hle h, fun h => Nat.le_of_eq h.symm⟩

end Tally

/-! ## The table of kinds -/

namespace Stats

/-- A symbol of the kind is among the symbols. -/
def occurs (symbols : List Symbol) (kind : Kind) : Bool := symbols.any (·.kind = kind)

/-- The tally of the symbols of one kind. -/
def tallyOf (symbols : List Symbol) (kind : Kind) : Tally := .ofSymbols (symbols.filter (·.kind = kind))

theorem tallyOf_of_not_occurs {symbols : List Symbol} {kind : Kind} (h : occurs symbols kind = false) :
    tallyOf symbols kind = .empty := by
  have hnil : symbols.filter (·.kind = kind) = [] := by
    simpa [occurs, List.filter_eq_nil_iff] using h
  rw [tallyOf, hnil]
  rfl

theorem occurs_concat (symbols : List Symbol) (symbol : Symbol) (kind : Kind) :
    occurs (symbols ++ [symbol]) kind = (occurs symbols kind || kind = symbol.kind) := by
  simp [occurs, eq_comm]

theorem tallyOf_concat (symbols : List Symbol) (symbol : Symbol) (kind : Kind) :
    tallyOf (symbols ++ [symbol]) kind =
      if kind = symbol.kind then (tallyOf symbols kind).add symbol.isDocumented else tallyOf symbols kind := by
  by_cases hk : kind = symbol.kind
  · simp [tallyOf, hk, Tally.ofSymbols_concat]
  · have hk' : ¬ symbol.kind = kind := fun he => hk he.symm
    simp [tallyOf, hk, hk']

/-- Counting a symbol in a table that lists some of the kinds in report order:
its kind is listed after that, and only its tally has changed. -/
theorem addToKind_table {kinds : List Kind} (hsorted : kinds.Pairwise fun a b => a.rank < b.rank)
    {kind : Kind} (hkind : kind ∈ kinds) {listed : Kind → Bool} {tally : Kind → Tally}
    (hempty : listed kind = false → tally kind = .empty) (isDocumented : Bool) :
    addToKind kind isDocumented ((kinds.filter listed).map fun k => (k, tally k)) =
      (kinds.filter fun k => listed k || k = kind).map fun k =>
        (k, if k = kind then (tally k).add isDocumented else tally k) := by
  induction kinds with
  | nil => cases hkind
  | cons first rest ih =>
    obtain ⟨hfirst, hrest⟩ := List.pairwise_cons.1 hsorted
    by_cases hk : first = kind
    · subst hk
      have hother : ∀ k ∈ rest, ¬ k = first := by
        rintro k hm rfl
        exact Nat.lt_irrefl _ (hfirst k hm)
      -- The kinds after it are not touched.
      have htail : ((rest.filter fun k => listed k || k = first).map fun k =>
          (k, if k = first then (tally k).add isDocumented else tally k)) =
          (rest.filter listed).map fun k => (k, tally k) := by
        have hfilter : rest.filter (fun k => listed k || k = first) = rest.filter listed :=
          List.filter_congr fun k hm => by simp [hother k hm]
        rw [hfilter]
        exact List.map_congr_left fun k hm => by rw [if_neg (hother k (List.mem_filter.1 hm).1)]
      cases hlisted : listed first with
      | true => simp [hlisted, addToKind, htail]
      | false =>
        have hnew : addToKind first isDocumented ((rest.filter listed).map fun k => (k, tally k)) =
            (first, Tally.empty.add isDocumented) :: (rest.filter listed).map fun k => (k, tally k) := by
          cases hnext : rest.filter listed with
          | nil => rfl
          | cons next others =>
            have hm : next ∈ rest := (List.mem_filter.1 (hnext ▸ List.mem_cons_self)).1
            simp [addToKind, hother next hm, hfirst next hm]
        simp [hlisted, hnew, htail, hempty hlisted]
    · have hmem : kind ∈ rest := (List.mem_cons.1 hkind).resolve_left fun he => hk he.symm
      have hlt : ¬ kind.rank < first.rank := Nat.not_lt.2 (Nat.le_of_lt (hfirst kind hmem))
      cases hlisted : listed first with
      | true => simp [hlisted, addToKind, hk, hlt, ih hrest hmem]
      | false => simp [hlisted, hk, ih hrest hmem]

/-- The statistics of a list of symbols, read off the list. -/
theorem ofSymbols_eq (symbols : List Symbol) :
    ofSymbols symbols =
      ⟨.ofSymbols symbols, (Kind.all.filter (occurs symbols)).map fun kind => (kind, tallyOf symbols kind)⟩ := by
  induction symbols using List.reverseRecOn with
  | nil => rfl
  | append_singleton front symbol ih =>
    have htable := addToKind_table Kind.pairwise_all (Kind.mem_all symbol.kind)
      (fun hnot : occurs front _ = false => tallyOf_of_not_occurs hnot) symbol.isDocumented
    rw [ofSymbols, List.foldl_append, ← ofSymbols, ih]
    simp only [List.foldl_cons, List.foldl_nil, add, htable, Tally.ofSymbols_concat, tallyOf_concat,
      funext (occurs_concat front symbol)]

/-- The symbols may be counted in any order. -/
theorem ofSymbols_perm {symbols others : List Symbol} (h : symbols.Perm others) :
    ofSymbols symbols = ofSymbols others := by
  have htally : ∀ {a b : List Symbol}, a.Perm b → Tally.ofSymbols a = Tally.ofSymbols b := by
    intro a b hab
    rw [Tally.ofSymbols, Tally.ofSymbols, hab.length_eq, hab.countP_eq]
  have hoccurs : occurs symbols = occurs others := funext fun kind => h.any_eq
  have htallyOf : tallyOf symbols = tallyOf others := funext fun kind => htally (h.filter _)
  rw [ofSymbols_eq, ofSymbols_eq, htally h, hoccurs, htallyOf]

/-- Counting a symbol adds to the sum over the kinds what it adds to a tally. -/
theorem sum_addToKind {weight : Tally → Nat} {isDocumented : Bool} {n : Nat} (hempty : weight .empty = 0)
    (hadd : ∀ tally : Tally, weight (tally.add isDocumented) = weight tally + n) (kind : Kind)
    (table : List (Kind × Tally)) :
    ((addToKind kind isDocumented table).map fun entry => weight entry.2).sum =
      (table.map fun entry => weight entry.2).sum + n := by
  fun_induction addToKind kind isDocumented table with
  | case1 => simp [hadd, hempty]
  | case2 tally rest => simp only [List.map_cons, List.sum_cons, hadd]; omega
  | case3 other tally rest _ _ => simp only [List.map_cons, List.sum_cons, hadd, hempty]; omega
  | case4 other tally rest _ _ ih => simp only [List.map_cons, List.sum_cons, ih]; omega

/-- Both sums over the kinds are the overall counts. -/
theorem sum_byKind (symbols : List Symbol) :
    ((ofSymbols symbols).byKind.map (·.2.total)).sum = (ofSymbols symbols).overall.total ∧
    ((ofSymbols symbols).byKind.map (·.2.documented)).sum = (ofSymbols symbols).overall.documented := by
  induction symbols using List.reverseRecOn with
  | nil => exact ⟨rfl, rfl⟩
  | append_singleton front symbol ih =>
    obtain ⟨htotal, hdocumented⟩ := ih
    rw [ofSymbols, List.foldl_append, ← ofSymbols]
    simp only [List.foldl_cons, List.foldl_nil, add]
    constructor
    · rw [sum_addToKind (n := 1) rfl (fun _ => rfl), htotal]
      rfl
    · rw [sum_addToKind rfl (fun _ => rfl), hdocumented]
      rfl

/-- What statistics say about the symbols they count. -/
structure Describes (stats : Stats) (symbols : List Symbol) : Prop where
  overall : stats.overall.Describes symbols
  /-- There is an entry exactly for the kinds that occur, and one for each. -/
  kinds : ∀ kind, kind ∈ stats.byKind.map Prod.fst ↔ kind ∈ symbols.map Symbol.kind
  nodup : (stats.byKind.map Prod.fst).Nodup
  byKind : ∀ entry ∈ stats.byKind, entry.2.Describes (symbols.filter (·.kind = entry.1))
  sum_total : (stats.byKind.map (·.2.total)).sum = stats.overall.total
  sum_documented : (stats.byKind.map (·.2.documented)).sum = stats.overall.documented

theorem kinds_ofSymbols (symbols : List Symbol) :
    (ofSymbols symbols).byKind.map Prod.fst = Kind.all.filter (occurs symbols) := by
  rw [ofSymbols_eq, List.map_map]
  exact List.map_id _

theorem describes_ofSymbols (symbols : List Symbol) : (ofSymbols symbols).Describes symbols := by
  refine ⟨?_, fun kind => ?_, ?_, fun entry hm => ?_, (sum_byKind symbols).1, (sum_byKind symbols).2⟩
  · rw [ofSymbols_eq]
    exact Tally.describes_ofSymbols symbols
  · simp [kinds_ofSymbols, Kind.mem_all, occurs]
  · rw [kinds_ofSymbols]
    have hne : Kind.all.Nodup := by decide
    exact hne.filter _
  · rw [ofSymbols_eq] at hm
    obtain ⟨kind, _, rfl⟩ := List.mem_map.1 hm
    exact Tally.describes_ofSymbols _

end Stats

/-! ## The threshold of a run -/

namespace Command

/-- A run that asks for 100 percent succeeds exactly if the analysis does and
leaves no symbol without documentation. -/
theorem exitCode_runWith_of_complete {disk : Disk} {isTerminal : Bool} {options : Options}
    (h : options.threshold = some 100) :
    (runWith disk isTerminal options).exitCode = 0 ↔
      ∃ report, disk.report (options.path.getD ".") = .ok report ∧
        ∀ result ∈ report.results, ∀ symbol ∈ result.symbols, symbol.isDocumented = true := by
  cases hreport : disk.report (options.path.getD ".") with
  | error e => simp only [runWith, hreport, reduceCtorEq, false_and, exists_false, Nat.one_ne_zero]
  | ok report =>
    have hdescribes := Stats.describes_ofSymbols (report.results.flatMap (·.symbols))
    have hle : report.stats.percentage ≤ 100 := hdescribes.overall.percentage_le
    have hcomplete : report.stats.percentage = 100 ↔
        ∀ result ∈ report.results, ∀ symbol ∈ result.symbols, symbol.isDocumented = true := by
      refine hdescribes.overall.percentage_eq_iff.trans ⟨fun hall result hr symbol hs => ?_, fun hall symbol hm => ?_⟩
      · exact hall symbol (List.mem_flatMap.2 ⟨result, hr, hs⟩)
      · obtain ⟨result, hr, hs⟩ := List.mem_flatMap.1 hm
        exact hall result hr symbol hs
    simp only [runWith, hreport, h]
    by_cases hlt : report.stats.percentage < 100
    · have hnot : ¬ report.stats.percentage = 100 := Nat.ne_of_lt hlt
      simp [hlt, ← hcomplete, hnot]
    · have heq : report.stats.percentage = 100 := by omega
      simp [← hcomplete, heq]

end Command

/-- **Statistics describe their symbols.** They do not depend on the order of the
symbols, and a run with the threshold 100 exits with success exactly if there is
a report and every symbol in it is documented. -/
theorem stats_describe_symbols :
    (∀ symbols : List Symbol, (Stats.ofSymbols symbols).Describes symbols) ∧
    (∀ symbols others : List Symbol, symbols.Perm others → Stats.ofSymbols symbols = Stats.ofSymbols others) ∧
    ∀ (disk : Disk) (isTerminal : Bool) (arguments : List Text) (options : Command.Options),
      Command.readArguments arguments = .ok options → options.threshold = some 100 →
      ((Command.run disk isTerminal arguments).exitCode = 0 ↔
        ∃ report, disk.report (options.path.getD ".") = .ok report ∧
          ∀ result ∈ report.results, ∀ symbol ∈ result.symbols, symbol.isDocumented = true) := by
  refine ⟨Stats.describes_ofSymbols, fun _ _ => Stats.ofSymbols_perm, ?_⟩
  intro disk isTerminal arguments options hread hthreshold
  have hrun : Command.run disk isTerminal arguments = Command.runWith disk isTerminal options := by
    rw [Command.run, hread]
  rw [hrun]
  exact Command.exitCode_runWith_of_complete hthreshold

/-- A file whose only symbol is documented, and one whose only symbol is not. -/
def halfDocumented : Disk :=
  ⟨.folder
    [("a.ts", .file (.text "/** The first. */\nexport const a = 1\n")),
     ("b.ts", .file (.text "export enum B \x7b X \x7d\n"))], []⟩

/-- With the threshold 100 one file passes and the other does not. -/
theorem stats_describe_halfDocumented :
    (∃ report, halfDocumented.report "a.ts" = .ok report ∧
      ∀ result ∈ report.results, ∀ symbol ∈ result.symbols, symbol.isDocumented = true) ∧
    (Command.run halfDocumented false ["b.ts", "--threshold=100"]).exitCode = 1 ∧
    (¬ ∃ report, halfDocumented.report "b.ts" = .ok report ∧
      ∀ result ∈ report.results, ∀ symbol ∈ result.symbols, symbol.isDocumented = true) ∧
    Stats.ofSymbols (halfDocumented.scanSymbols [("a.ts" : Path), ("b.ts" : Path)]) =
      Stats.ofSymbols (halfDocumented.scanSymbols [("b.ts" : Path), ("a.ts" : Path)]) := by
  obtain ⟨_, hperm, hthreshold⟩ := stats_describe_symbols
  have hpasses := hthreshold halfDocumented false ["-t", "100", "a.ts"]
    { path := some "a.ts", threshold := some 100 } (by decide +kernel) rfl
  have hfails := hthreshold halfDocumented false ["b.ts", "--threshold=100"]
    { path := some "b.ts", threshold := some 100 } (by decide +kernel) rfl
  have hcode : (Command.run halfDocumented false ["b.ts", "--threshold=100"]).exitCode = 1 := by decide +kernel
  refine ⟨hpasses.1 (by decide +kernel), hcode, fun h => ?_, hperm _ _ (by decide +kernel)⟩
  rw [hfails.2 h] at hcode
  cases hcode

end ApiCoverage
