/-
Where a name comes from that another file exports.

`export { n } from` and an imported name that is exported ask `originOf`, while
`export *` forwards what is recorded for the other file, of which the first
entry under a name counts. Once the file is entered, the two give the same
origin unless the file declares the name itself: an exported declaration wins
over what an earlier `export *` has brought under its name
(`originOf_of_arises`), and without one a line of the file that merely has the
shape of a declaration wins over all that is recorded (`originOf_of_bareLine?`).
-/
import ApiCoverage.Proofs.Arising
import ApiCoverage.Proofs.OwnExports

namespace ApiCoverage

open ApiCoverage.Graph (originOf)
open ApiCoverage.Path (IsNormal)

namespace Traced

def origin (entry : Traced) : Origin := ⟨entry.declared, entry.file, entry.line⟩

end Traced

namespace Disk

variable {disk : Disk} {graph : Graph} {file : Path} {name : Text}

theorem tracing_of_isVisited (fuel : Nat) (h : graph.isVisited file.normalize.components = true) :
    disk.tracing fuel file graph = graph := by
  unfold tracing
  cases fuel with
  | zero => rfl
  | succ fuel => simp only [Graph.traceWithin, h, if_true]

/-- The first line of a file that is an exported declaration of a name; the name
`default` stands for the default export. -/
def exportedLine? (disk : Disk) (file : Path) (name : Text) : Option Nat :=
  match disk.readLines file with
  | .error _ => none
  | .ok lines =>
    if name == defaultName then Locate.firstLine? Locate.declaresDefault lines
    else Locate.firstLine? (Locate.declaresExported name) lines

/-- The first line of a file that has the shape of a declaration of a name, which
may stand inside a function. The name `default` is not looked for in this way. -/
def bareLine? (disk : Disk) (file : Path) (name : Text) : Option Nat :=
  match disk.readLines file with
  | .error _ => none
  | .ok lines =>
    if name == defaultName then none
    else Locate.firstLine? (fun line => Locate.declaresBare name (Text.trim line)) lines

theorem locate?_eq_or (disk : Disk) (file : Path) (name : Text) :
    disk.locate? file name = (disk.exportedLine? file name).or (disk.bareLine? file name) := by
  unfold locate? exportedLine? bareLine?
  cases disk.readLines file with
  | error e => rfl
  | ok lines =>
    dsimp only
    by_cases hname : name = defaultName
    · rw [hname, Locate.line?, if_pos (beq_self_eq_true _), if_pos (beq_self_eq_true _),
        if_pos (beq_self_eq_true _), Option.or_none, Locate.defaultLine?]
    · have hbeq : (name == defaultName) = false := beq_false_of_ne hname
      rw [Locate.line?_eq hname, hbeq, if_neg Bool.false_ne_true, if_neg Bool.false_ne_true]

theorem locate?_of_exportedLine? {line : Nat} (h : disk.exportedLine? file name = some line) :
    disk.locate? file name = some line := by
  rw [locate?_eq_or, h, Option.some_or]

/-! ## Lines of names that a file lists -/

/-- The statement does not export the name by a declaration or from another file. -/
def leavesToLists (name : Text) : Export → Bool
  | .declaration d => d.name != name
  | .reExport _ specifiers _ => specifiers.all (·.declared != name)
  | .list _ _ => true
  | .star _ => true

/-- The file may export the name by its lists and in no other way of its own: no
export statement declares it or takes it from another file, and no import binds it. -/
def onlyLists (disk : Disk) (file : Path) (name : Text) : Bool :=
  match disk.readLines file with
  | .error _ => true
  | .ok lines =>
    let outline := Outline.ofLines lines
    (outline.binding? name).isNone && outline.exports.all fun statement => leavesToLists name statement.2

theorem onlyLists_iff {lines : List Text} (hread : disk.readLines file = .ok lines) :
    disk.onlyLists file name = true ↔ (Outline.ofLines lines).binding? name = none ∧
      ∀ statement ∈ Outline.exportsOf lines, leavesToLists name statement.2 = true := by
  simp only [onlyLists, hread, Bool.and_eq_true, Option.isNone_iff_eq_none, List.all_eq_true]
  rfl

/-- The entry stands where its name is declared in its file, if only lists of the
file export the name. -/
def Placed (disk : Disk) (entry : Traced) : Prop :=
  disk.onlyLists entry.file entry.declared = true →
    ∀ line, disk.locate? entry.file entry.declared = some line → entry.line = line

/-- What a task may record that no other file has recorded before is placed. -/
def PlacedTask (disk : Disk) : Task → Prop
  | .own entry => disk.Placed entry
  | .copy _ => True
  | .seek _ _ missing => disk.Placed missing

theorem placedTask_seek {missing : Traced} (target : Path) (name : Text) (h : disk.Placed missing) :
    disk.PlacedTask (disk.seek target name missing) := by
  unfold seek
  cases hline : disk.locate? target name with
  | none => exact h
  | some line =>
    intro _ other hother
    exact Option.some.inj (hline.symm.trans hother)

section

variable {lines : List Text} (hread : disk.readLines file = .ok lines)

include hread

theorem placedTask_of_localTasks {line : Nat} {specifier : Specifier} {task : Task}
    (ht : task ∈ disk.localTasks file (Outline.ofLines lines) line specifier) : disk.PlacedTask task := by
  rcases localTasks_cases ht with ⟨_, rfl⟩ | ⟨statement, binding, target, hbound, _, htask⟩
  · intro _ declared hdeclared
    have hline : Locate.line? lines specifier.declared = some declared := by
      simpa only [locate?, hread] using hdeclared
    simp only [Outline.ofLines, hline, Option.getD_some]
  · have himported : disk.Placed (specifier.traced none file line) := by
      intro honly
      have hfree : (Outline.ofLines lines).binding? specifier.declared = none :=
        ((onlyLists_iff hread).1 honly).1
      rw [hbound] at hfree
      cases hfree
    rcases htask with rfl | ⟨name, rfl⟩
    · exact himported
    · exact placedTask_seek target name himported

theorem placedTask_of_tasks {statement : Nat × Export} (hm : statement ∈ Outline.exportsOf lines)
    {task : Task} (ht : task ∈ disk.tasks file (Outline.ofLines lines) statement) :
    disk.PlacedTask task := by
  obtain ⟨line, statement⟩ := statement
  cases statement with
  | declaration d =>
    rw [List.mem_singleton.1 ht]
    intro honly
    have hother : d.name ≠ d.name := bne_iff_ne.1 (((onlyLists_iff hread).1 honly).2 _ hm)
    exact absurd rfl hother
  | star source =>
    obtain ⟨target, _, rfl⟩ := List.mem_map.1 ht
    trivial
  | list typeOnly specifiers =>
    obtain ⟨specifier, _, ht⟩ := List.mem_flatMap.1 ht
    exact placedTask_of_localTasks hread ht
  | reExport typeOnly specifiers source =>
    rw [tasks] at ht
    split at ht
    · obtain ⟨specifier, hspecifier, rfl⟩ := List.mem_map.1 ht
      refine placedTask_seek _ _ fun honly => ?_
      have hall := List.all_eq_true.1 (((onlyLists_iff hread).1 honly).2 _ hm) specifier hspecifier
      exact absurd rfl (bne_iff_ne.1 hall)
    · cases ht

end

theorem placedTask_of_script {key : FileKey} {tasks : List Task} (hs : disk.script key = .ok tasks)
    {task : Task} (ht : task ∈ tasks) : disk.PlacedTask task := by
  obtain ⟨lines, hread, statement, hm, ht⟩ := mem_script hs ht
  exact placedTask_of_tasks hread hm ht

/-- **Every entry that tracing records is placed.** -/
theorem Arises.placed (h : disk.Arises graph) :
    ∀ file, ∀ entry ∈ graph.exportsOf file, disk.Placed entry := by
  refine h.forall_recorded (fun hs task ht entry hm => ?_) fun hplaced _ => hplaced
  have hplaced := placedTask_of_script hs ht
  cases task with
  | own recorded => exact List.mem_singleton.1 hm ▸ hplaced
  | copy target => cases hm
  | seek target name missing => exact List.mem_singleton.1 hm ▸ hplaced

/-! ## The origin of an exported name -/

/-- **The origin of an exported name.** Of a file that was entered, under a name
that is recorded for it, it is found without a change to the graph. An exported
declaration in the file comes first. It is the origin of the first entry recorded
under the name where the file has no declaration of the name, or where that entry
stands for the name in the file itself and only lists of the file export it. -/
theorem originOf_of_arises (disk : Disk) (fuel : Nat) (path : Path) (name : Text) (graph : Graph)
    (entry : Traced) (harises : disk.Arises graph)
    (hvisited : graph.isVisited path.normalize.components = true)
    (hentry : (graph.exportsOf path.normalize.components).find? (·.exported == name) = some entry) :
    ∃ origin, originOf (disk.tracing fuel) disk path.normalize name graph = (some origin, graph) ∧
      (∀ line, disk.exportedLine? path.normalize name = some line →
        origin = ⟨name, path.normalize, line⟩) ∧
      (disk.locate? path.normalize name = none → origin = entry.origin) ∧
      (disk.onlyLists path.normalize name = true → entry.file = path.normalize → entry.declared = name →
        origin = entry.origin) := by
  have hplaced := harises.placed _ entry (List.mem_of_find?_eq_some hentry)
  unfold originOf
  cases hline : disk.locate? path.normalize name with
  | some line =>
    refine ⟨⟨name, path.normalize, line⟩, rfl, fun first hfirst => ?_, by simp, fun honly hfile hname => ?_⟩
    · rw [locate?_of_exportedLine? hfirst] at hline
      rw [Option.some.inj hline]
    · subst hname
      rw [← hfile] at honly hline ⊢
      rw [Traced.origin, hplaced honly line hline]
  | none =>
    refine ⟨entry.origin, ?_, fun first hfirst => ?_, fun _ => rfl, fun _ _ _ => rfl⟩
    · have hnormal : path.normalize.normalize.components = path.normalize.components :=
        path.isNormal_components_normalize.components_normalize
      rw [← hnormal] at hvisited
      simp only [tracing_of_isVisited fuel hvisited, Graph.exported?, hentry]
      rfl
    · rw [locate?_of_exportedLine? hfirst] at hline
      cases hline

/-- A file that exports all of another one, then declares a name of that one, and
lists a declaration of its own. -/
def starBeforeOwn : Disk :=
  ⟨.folder
    [("a.ts", .file (.text "export const n = 1\nexport const k = 2")),
     ("b.ts", .file (.text "export * from './a.ts'\nexport const n = 3\nconst m = 4\nexport \x7b m \x7d")),
     ("c.ts", .file (.text "export \x7b n \x7d from './b.ts'"))], []⟩

/-- Each of the three ways to find an origin, in the second file. -/
theorem originOf_starBeforeOwn :
    ∃ graph, starBeforeOwn.Arises graph ∧ graph.isVisited ("b.ts" : Path).normalize.components = true ∧
      graph.exportsOf ("b.ts" : Path).normalize.components =
        [⟨"n", "n", "a.ts", 1⟩, ⟨"k", "k", "a.ts", 2⟩, ⟨"n", "n", "b.ts", 2⟩, ⟨"m", "m", "b.ts", 3⟩] ∧
      originOf (starBeforeOwn.tracing 4) starBeforeOwn "b.ts" "n" graph = (some ⟨"n", "b.ts", 2⟩, graph) ∧
      originOf (starBeforeOwn.tracing 4) starBeforeOwn "b.ts" "k" graph = (some ⟨"k", "a.ts", 2⟩, graph) ∧
      originOf (starBeforeOwn.tracing 4) starBeforeOwn "b.ts" "m" graph = (some ⟨"m", "b.ts", 3⟩, graph) := by
  refine ⟨starBeforeOwn.traces ["b.ts"] .empty, arises_traces _, rfl, rfl, ?_, ?_, ?_⟩
  · obtain ⟨origin, horigin, hexported, _⟩ := originOf_of_arises starBeforeOwn 4 "b.ts" "n"
      (starBeforeOwn.traces ["b.ts"] .empty) ⟨"n", "n", "a.ts", 1⟩ (arises_traces _) rfl rfl
    rw [hexported 2 rfl] at horigin
    exact horigin
  · obtain ⟨origin, horigin, _, hfirst, _⟩ := originOf_of_arises starBeforeOwn 4 "b.ts" "k"
      (starBeforeOwn.traces ["b.ts"] .empty) ⟨"k", "k", "a.ts", 2⟩ (arises_traces _) rfl rfl
    rw [hfirst rfl] at horigin
    exact horigin
  · obtain ⟨origin, horigin, _, _, hlisted⟩ := originOf_of_arises starBeforeOwn 4 "b.ts" "m"
      (starBeforeOwn.traces ["b.ts"] .empty) ⟨"m", "m", "b.ts", 3⟩ (arises_traces _) rfl rfl
    rw [hlisted rfl rfl rfl] at horigin
    exact horigin

/-- A name that the third file takes from the second is not the one recorded first
there. -/
theorem named_export_not_first :
    (starBeforeOwn.traces ["b.ts"] .empty).isVisited ("b.ts" : Path).components = true ∧
      ((starBeforeOwn.traces ["b.ts"] .empty).exportsOf ("b.ts" : Path).components).find?
        (·.exported == ("n" : Text)) = some ⟨"n", "n", "a.ts", 1⟩ ∧
      (originOf (starBeforeOwn.tracing 4) starBeforeOwn "b.ts" "n"
        (starBeforeOwn.traces ["b.ts"] .empty)).1 ≠ some ⟨"n", "a.ts", 1⟩ ∧
      (starBeforeOwn.traces ["b.ts", "c.ts"] .empty).exportsOf ("c.ts" : Path).components =
        [⟨"n", "n", "b.ts", 2⟩] :=
  ⟨rfl, rfl, by decide +kernel, rfl⟩

/-- **A line inside the file captures the name** that no exported declaration of
the file has: the first line of the shape of a declaration is the origin, whatever
the graph records for the file, and no other file is asked. -/
theorem originOf_of_bareLine? {line : Nat} (hexported : disk.exportedLine? file name = none)
    (hbare : disk.bareLine? file name = some line) (visit : Graph.Visit) (graph : Graph) :
    originOf visit disk file name graph = (some ⟨name, file, line⟩, graph) := by
  have hline : disk.locate? file name = some line := by
    rw [locate?_eq_or, hexported, Option.none_or, hbare]
  simp only [originOf, hline]

/-- A file that takes a name from another one and has a variable of this name in a
function of its own. -/
def localInBetween : Disk :=
  ⟨.folder
    [("a.ts", .file (.text "/** d */\nexport const n = 1")),
     ("g.ts", .file (.text
       "export \x7b n \x7d from './a.ts'\nfunction helper() \x7b\n const n = 2\n\x7d")),
     ("c.ts", .file (.text "export \x7b n \x7d from './g.ts'"))], []⟩

example :
    (localInBetween.traces ["g.ts", "c.ts"] .empty).exportsOf ("g.ts" : Path).components =
        [⟨"n", "n", "a.ts", 2⟩] ∧
      localInBetween.exportedLine? "g.ts" "n" = none ∧ localInBetween.bareLine? "g.ts" "n" = some 3 ∧
      (localInBetween.traces ["g.ts", "c.ts"] .empty).exportsOf ("c.ts" : Path).components =
        [⟨"n", "n", "g.ts", 3⟩] := by
  decide +kernel

end Disk
end ApiCoverage
