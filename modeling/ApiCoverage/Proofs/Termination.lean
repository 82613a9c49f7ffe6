/-
Tracing ends.

`traceStep` is one level of tracing, with the files that statements lead to left to
a function, and `nestedCalls` lists the calls of that function. A call `Returns` if
its nested calls do; since this is an inductive relation, it holds only of calls
with a finite tree of calls below them. Tracing returns, for any disk, any graph
and any path: below a file that is read there is one file less among the normal
paths of files that are not entered yet, and these are finitely many.
-/
import ApiCoverage.Proofs.Spelling
import ApiCoverage.Proofs.Visit
import Mathlib.Data.Set.Finite.Lattice
import Mathlib.Order.CompletePartialOrder

namespace ApiCoverage

open ApiCoverage.Path (IsNormal)

namespace Graph

/-! ## One level of tracing -/

/-- One level of tracing: the files that statements lead to are entered by `visit`. -/
def traceStep (visit : Visit) (disk : Disk) (path : Path) (graph : Graph) : Graph × Option ReadError :=
  let file := path.normalize
  if graph.isVisited file.components then (graph, none)
  else
    let graph := graph.enter file.components
    match disk.readLines file with
    | .error e => (graph, some e)
    | .ok lines =>
      let outline := Outline.ofLines lines
      (outline.exports.foldl (follow visit disk file outline) graph, none)

theorem traceWithin_succ (disk : Disk) (fuel : Nat) (path : Path) (graph : Graph) :
    traceWithin disk (fuel + 1) path graph = traceStep (disk.tracing fuel) disk path graph := rfl

/-- A call to enter a file, and the graph it is made in. -/
structure Call where
  path : Path
  graph : Graph
  deriving DecidableEq, Repr

/-- The calls of a loop over a list, each item of which makes calls in the graph
that the items before it leave. -/
def callsAlong {α : Type} (step : Graph → α → Graph) (calls : Graph → α → List Call) :
    List α → Graph → List Call
  | [], _ => []
  | item :: rest, graph => calls graph item ++ callsAlong step calls rest (step graph item)

/-- Looking for a name enters the file unless the file declares the name. -/
def originCalls (disk : Disk) (target : Path) (name : Text) (graph : Graph) : List Call :=
  match disk.locate? target name with
  | some _ => []
  | none => [⟨target, graph⟩]

/-- The calls of one name of `export { … }`. -/
def localCalls (disk : Disk) (outline : Outline) (file : Path) (graph : Graph) (specifier : Specifier) :
    List Call :=
  match outline.binding? specifier.declared with
  | none => []
  | some (statement, binding) =>
    match disk.resolve? file statement.source with
    | none => []
    | some target =>
      match binding.exportedName with
      | some name => originCalls disk target name graph
      | none => []

/-- The calls of one export statement. -/
def followCalls (visit : Visit) (disk : Disk) (file : Path) (outline : Outline) (graph : Graph) :
    Nat × Export → List Call
  | (_, .star source) =>
    match disk.resolve? file source with
    | some target => [⟨target, graph⟩]
    | none => []
  | (line, .reExport _ specifiers source) =>
    match disk.resolve? file source with
    | some target => callsAlong (followNamed visit disk target file line)
        (fun graph specifier => originCalls disk target specifier.declared graph) specifiers graph
    | none => []
  | (line, .list _ specifiers) =>
    callsAlong (followLocal visit disk outline file line) (localCalls disk outline file) specifiers graph
  | (_, .declaration _) => []

/-- The calls that tracing a file makes, if `visit` answers them. -/
def nestedCalls (visit : Visit) (disk : Disk) (path : Path) (graph : Graph) : List Call :=
  let file := path.normalize
  if graph.isVisited file.components then []
  else match disk.readLines file with
    | .error _ => []
    | .ok lines =>
      let outline := Outline.ofLines lines
      callsAlong (follow visit disk file outline) (followCalls visit disk file outline) outline.exports
        (graph.enter file.components)

/-! ## Nothing depends on other calls -/

section

variable {visit visit' : Visit} {disk : Disk} {file target : Path} {outline : Outline} {graph : Graph}

/-- The two give the same answers to calls. -/
def AgreeOn (visit visit' : Visit) (calls : List Call) : Prop :=
  ∀ call ∈ calls, visit call.path call.graph = visit' call.path call.graph

theorem foldl_congr_of_agreeOn {α : Type} {step step' : Graph → α → Graph} {calls : Graph → α → List Call}
    (hstep : ∀ graph item, AgreeOn visit visit' (calls graph item) → step graph item = step' graph item)
    {items : List α} (h : AgreeOn visit visit' (callsAlong step calls items graph)) :
    items.foldl step graph = items.foldl step' graph := by
  induction items generalizing graph with
  | nil => rfl
  | cons item rest ih =>
    have hfirst : step graph item = step' graph item :=
      hstep graph item fun call hm => h call (List.mem_append_left _ hm)
    rw [List.foldl_cons, List.foldl_cons, ← hfirst]
    exact ih fun call hm => h call (List.mem_append_right _ hm)

theorem originOf_congr {name : Text} (h : AgreeOn visit visit' (originCalls disk target name graph)) :
    originOf visit disk target name graph = originOf visit' disk target name graph := by
  unfold originOf
  unfold originCalls at h
  cases hline : disk.locate? target name with
  | some line => rfl
  | none =>
    have hcall := h ⟨target, graph⟩ (by simp [hline])
    simp only [hcall]

theorem followNamed_congr {line : Nat} {specifier : Specifier}
    (h : AgreeOn visit visit' (originCalls disk target specifier.declared graph)) :
    followNamed visit disk target file line graph specifier =
      followNamed visit' disk target file line graph specifier := by
  rw [followNamed, followNamed, originOf_congr h]

theorem followLocal_congr {line : Nat} {specifier : Specifier}
    (h : AgreeOn visit visit' (localCalls disk outline file graph specifier)) :
    followLocal visit disk outline file line graph specifier =
      followLocal visit' disk outline file line graph specifier := by
  unfold followLocal
  unfold localCalls at h
  cases hbound : outline.binding? specifier.declared with
  | none => rfl
  | some bound =>
    obtain ⟨statement, binding⟩ := bound
    simp only [hbound] at h ⊢
    cases htarget : disk.resolve? file statement.source with
    | none => rfl
    | some target =>
      cases hname : binding.exportedName with
      | none => rfl
      | some name =>
        simp only [htarget, hname] at h
        simp only [originOf_congr h]

theorem follow_congr {statement : Nat × Export}
    (h : AgreeOn visit visit' (followCalls visit disk file outline graph statement)) :
    follow visit disk file outline graph statement = follow visit' disk file outline graph statement := by
  obtain ⟨line, statement⟩ := statement
  cases statement with
  | declaration d => rfl
  | list typeOnly specifiers => exact foldl_congr_of_agreeOn (fun _ _ => followLocal_congr) h
  | star source =>
    rw [follow, follow]
    cases htarget : disk.resolve? file source with
    | none => rfl
    | some target =>
      have hcall := h ⟨target, graph⟩ (by simp [followCalls, htarget])
      simp only [followStar, hcall]
  | reExport typeOnly specifiers source =>
    rw [follow, follow]
    cases htarget : disk.resolve? file source with
    | none => rfl
    | some target =>
      simp only [followCalls, htarget] at h
      exact foldl_congr_of_agreeOn (fun _ _ => followNamed_congr) h

/-- **The nested calls are all that tracing a file asks for.** -/
theorem traceStep_congr {path : Path} (h : AgreeOn visit visit' (nestedCalls visit disk path graph)) :
    traceStep visit disk path graph = traceStep visit' disk path graph := by
  unfold traceStep
  unfold nestedCalls at h
  simp only
  split
  · rfl
  next hnew =>
    simp only [if_neg hnew] at h
    cases hread : disk.readLines path.normalize with
    | error e => rfl
    | ok lines =>
      simp only [hread] at h
      simp only [foldl_congr_of_agreeOn (fun _ _ => follow_congr) h]

end

/-- A call returns what its level of tracing gives, if the calls it makes return
what `answer` says they do. -/
inductive Returns (disk : Disk) : Path → Graph → Graph × Option ReadError → Prop where
  | intro {path : Path} {graph : Graph} (answer : Path → Graph → Graph × Option ReadError)
    (h : ∀ call ∈ nestedCalls (fun target graph => (answer target graph).1) disk path graph,
      Returns disk call.path call.graph (answer call.path call.graph)) :
    Returns disk path graph (traceStep (fun target graph => (answer target graph).1) disk path graph)

end Graph

namespace Disk

open ApiCoverage.Graph
  (Call AgreeOn Returns callsAlong originCalls localCalls followCalls nestedCalls traceStep perform)

variable {disk : Disk} {path file target : Path} {graph : Graph} {call : Call}

/-! ## When a nested call is made -/

/-- The call is for a file of the disk that is the target of one of the tasks of a
file, and it is made when the tasks before that one are done. -/
def Awaited (disk : Disk) (visit : FileKey → Graph → Graph) (file : FileKey) (graph : Graph)
    (tasks : List Task) (call : Call) : Prop :=
  disk.isFile call.path = true ∧ ∃ done task rest, tasks = done ++ task :: rest ∧
    task.target? = some call.path.components ∧ call.graph = done.foldl (perform visit file) graph

section

variable {visit : FileKey → Graph → Graph} {key : FileKey} {tasks : List Task}

theorem awaited_singleton {source : Text} {task : Task} (hr : disk.resolve? file source = some target)
    (h : task.target? = some target.components) : disk.Awaited visit key graph [task] ⟨target, graph⟩ :=
  ⟨isFile_of_resolve? hr, [], task, [], rfl, h, rfl⟩

theorem Awaited.append (h : disk.Awaited visit key graph tasks call) (more : List Task) :
    disk.Awaited visit key graph (tasks ++ more) call := by
  obtain ⟨hfile, done, task, rest, rfl, htarget, hgraph⟩ := h
  exact ⟨hfile, done, task, rest ++ more, by simp, htarget, hgraph⟩

theorem Awaited.after {earlier : List Task}
    (h : disk.Awaited visit key (earlier.foldl (perform visit key) graph) tasks call) :
    disk.Awaited visit key graph (earlier ++ tasks) call := by
  obtain ⟨hfile, done, task, rest, rfl, htarget, hgraph⟩ := h
  exact ⟨hfile, earlier ++ done, task, rest, by simp, htarget, by rw [hgraph, List.foldl_append]⟩

theorem awaited_of_mem_callsAlong {α : Type} {step : Graph → α → Graph} {calls : Graph → α → List Call}
    {tasksOf : α → List Task}
    (hstep : ∀ graph item, step graph item = (tasksOf item).foldl (perform visit key) graph)
    (hcalls : ∀ graph item, ∀ call ∈ calls graph item, disk.Awaited visit key graph (tasksOf item) call)
    {items : List α} (h : call ∈ callsAlong step calls items graph) :
    disk.Awaited visit key graph (items.flatMap tasksOf) call := by
  induction items generalizing graph with
  | nil => cases h
  | cons item rest ih =>
    rw [List.flatMap_cons]
    rcases List.mem_append.1 h with h | h
    · exact (hcalls graph item call h).append _
    · refine Awaited.after ?_
      rw [← hstep]
      exact ih h

theorem awaited_of_mem_originCalls {source name : Text} (missing : Traced)
    (hr : disk.resolve? file source = some target) (h : call ∈ originCalls disk target name graph) :
    disk.Awaited visit key graph [disk.seek target name missing] call := by
  unfold originCalls at h
  split at h
  · cases h
  next hnone =>
    rw [List.mem_singleton.1 h]
    refine awaited_singleton hr ?_
    rw [seek, hnone]
    rfl

theorem awaited_of_mem_localCalls {outline : Outline} {line : Nat} {specifier : Specifier}
    (h : call ∈ localCalls disk outline file graph specifier) :
    disk.Awaited visit key graph (disk.localTasks file outline line specifier) call := by
  unfold localCalls at h
  unfold localTasks
  split at h
  · cases h
  next statement binding hbound =>
    split at h
    · cases h
    next target hr =>
      split at h
      next name hname =>
        simp only [hbound, hr, hname]
        exact awaited_of_mem_originCalls _ hr h
      · cases h

end

theorem tracing_eq (fuel : Nat) (target : Path) (ht : IsNormal target.components) (graph : Graph) :
    disk.tracing fuel target graph = disk.visitWithin fuel target.components graph := by
  rw [tracing, traceWithin_fst, ht.components_normalize]

theorem awaited_of_mem_followCalls {fuel : Nat} {outline : Outline} {statement : Nat × Export}
    (h : call ∈ followCalls (disk.tracing fuel) disk file outline graph statement) :
    disk.Awaited (disk.visitWithin fuel) file.components graph (disk.tasks file outline statement) call := by
  have hvisit := @tracing_eq disk fuel
  obtain ⟨line, statement⟩ := statement
  cases statement with
  | declaration d => cases h
  | list typeOnly specifiers =>
    refine awaited_of_mem_callsAlong ?_ ?_ h
    · exact fun graph specifier => Graph.followLocal_eq hvisit ..
    · exact fun graph specifier call => awaited_of_mem_localCalls
  | star source =>
    simp only [followCalls] at h
    split at h
    next target hr =>
      rw [List.mem_singleton.1 h, tasks, hr]
      exact awaited_singleton hr rfl
    · cases h
  | reExport typeOnly specifiers source =>
    simp only [followCalls] at h
    split at h
    next target hr =>
      simp only [tasks, hr, List.map_eq_flatMap]
      refine awaited_of_mem_callsAlong ?_ ?_ h
      · exact fun graph specifier => Graph.record_originOf hvisit (resolve?_isNormal hr) ..
      · exact fun graph specifier call => awaited_of_mem_originCalls _ hr
    · cases h

/-- A call is made by a file that is entered to perform its tasks, when it is the
turn of one of them. -/
theorem awaited_of_mem_nestedCalls {fuel : Nat} (h : call ∈ nestedCalls (disk.tracing fuel) disk path graph) :
    ∃ tasks, disk.Opens path.normalize.components graph tasks ∧
      disk.Awaited (disk.visitWithin fuel) path.normalize.components
        (graph.enter path.normalize.components) tasks call := by
  unfold nestedCalls at h
  simp only at h
  split at h
  · cases h
  next hnew =>
    rw [Graph.isVisited_iff] at hnew
    cases hread : disk.readLines path.normalize with
    | error e => simp [hread] at h
    | ok lines =>
      simp only [hread] at h
      have hscript : disk.script path.normalize.components =
          .ok ((Outline.exportsOf lines).flatMap (disk.tasks path.normalize (Outline.ofLines lines))) := by
        rw [script, Path.ofComponents_components_normalize, hread]
        rfl
      refine ⟨_, ⟨path.isNormal_components_normalize, hnew, hscript⟩, ?_⟩
      refine awaited_of_mem_callsAlong ?_ ?_ h
      · exact fun graph statement => Graph.follow_eq (@tracing_eq disk fuel) ..
      · exact fun graph statement call => awaited_of_mem_followCalls

/-! ## What a nested call finds -/

/-- The call is for a file of the disk by its normal path, and what was entered in
`graph` is entered when it is made. -/
structure CalledFrom (disk : Disk) (graph : Graph) (call : Call) : Prop where
  isFile : disk.isFile call.path = true
  normal : IsNormal call.path.components
  grown : graph.visited ⊆ call.graph.visited

/-- A file that makes calls is read, and it is entered when they are made. -/
theorem calledFrom_of_mem_nestedCalls {fuel : Nat} (h : call ∈ nestedCalls (disk.tracing fuel) disk path graph) :
    path.normalize.components ∉ graph.visited ∧ disk.isFile path.normalize = true ∧
      disk.CalledFrom (graph.enter path.normalize.components) call := by
  obtain ⟨_, hopens, hfile, done, task, rest, rfl, htarget, hgraph⟩ := awaited_of_mem_nestedCalls h
  obtain ⟨lines, hread, _⟩ := script_ok hopens.script
  rw [Path.ofComponents_components_normalize] at hread
  refine ⟨hopens.fresh, isFile_of_readLines hread, hfile, ?_, ?_⟩
  · exact isNormal_of_script hopens.script (by simp) htarget
  · rw [hgraph]
    exact Graph.visited_subset_foldl_perform (extends_visitWithin fuel) ..

theorem unread_lt_of_mem_nestedCalls {fuel : Nat}
    (h : call ∈ nestedCalls (disk.tracing fuel) disk path graph) : disk.unread call.graph < disk.unread graph := by
  obtain ⟨hnew, hfile, hcalled⟩ := calledFrom_of_mem_nestedCalls h
  have hkey : path.normalize.components ∈ disk.fileKeys := by
    refine mem_fileKeys_of_isFile path.isNormal_components_normalize ?_
    rwa [Path.ofComponents_components_normalize]
  have hlt := unread_enter_lt hkey hnew
  have hle := disk.unread_le hcalled.grown
  omega

/-! ## Tracing returns -/

/-- Tracing is its own answer to the calls it makes. -/
theorem trace_eq_traceStep (disk : Disk) (path : Path) (graph : Graph) :
    disk.trace path graph = traceStep (fun target graph => (disk.trace target graph).1) disk path graph := by
  have hbound := disk.length_fileKeys
  have htrace : disk.trace path graph = traceStep (disk.tracing disk.fileKeys.length) disk path graph := by
    rw [trace, ← hbound, Graph.traceWithin_succ]
  rw [htrace]
  refine Graph.traceStep_congr fun call hm => ?_
  have hlt := unread_lt_of_mem_nestedCalls hm
  have hall := disk.unread_lt_traceBound graph
  obtain ⟨_, _, hcalled⟩ := calledFrom_of_mem_nestedCalls hm
  change disk.tracing _ call.path call.graph = disk.tracing disk.traceBound call.path call.graph
  rw [tracing_eq _ _ hcalled.normal, tracing_eq _ _ hcalled.normal]
  exact visitWithin_eq_of_unread_lt hcalled.normal (by omega) (by omega)

theorem returns_trace (disk : Disk) (path : Path) (graph : Graph) :
    Returns disk path graph (disk.trace path graph) := by
  -- On the number of files that are not entered yet, which the calls of a file find smaller.
  induction hn : disk.unread graph using Nat.strong_induction_on generalizing path graph with
  | _ n ih =>
  subst hn
  rw [trace_eq_traceStep]
  refine .intro disk.trace fun call hm => ?_
  exact ih _ (@unread_lt_of_mem_nestedCalls disk path graph call disk.traceBound hm) call.path call.graph rfl

theorem eq_trace_of_returns {result : Graph × Option ReadError} (h : Returns disk path graph result) :
    result = disk.trace path graph := by
  induction h with
  | @intro path graph answer _ ih =>
    rw [trace_eq_traceStep]
    exact Graph.traceStep_congr fun call hm => congrArg Prod.fst (ih call hm)

/-! ## The files that are left -/

/-- The normal paths of files that are not entered yet. -/
def unvisited (disk : Disk) (graph : Graph) : Set Path :=
  {path | path.normalize = path ∧ disk.isFile path = true ∧ graph.isVisited path.components = false}

theorem finite_unvisited (disk : Disk) (graph : Graph) : (disk.unvisited graph).Finite := by
  refine ((disk.fileKeys.map Path.ofComponents).finite_toSet).subset ?_
  rintro path ⟨hnormal, hfile, _⟩
  have hspelled : Path.ofComponents path.components = path := by
    have hplain := path.ofComponents_components_normalize
    rwa [hnormal] at hplain
  have hkey : IsNormal path.components := hnormal ▸ path.isNormal_components_normalize
  refine List.mem_map.2 ⟨path.components, mem_fileKeys_of_isFile hkey ?_, hspelled⟩
  rwa [hspelled]

theorem unvisited_subset {earlier later : Graph} (h : earlier.visited ⊆ later.visited) :
    disk.unvisited later ⊆ disk.unvisited earlier := by
  rintro path ⟨hnormal, hfile, hnew⟩
  refine ⟨hnormal, hfile, ?_⟩
  by_contra hold
  have hmem := h (Graph.isVisited_iff.1 (Bool.of_not_eq_false hold))
  rw [Graph.isVisited_iff.2 hmem] at hnew
  cases hnew

/-- Entering a file leaves one less. -/
theorem unvisited_enter_ssubset (hfile : disk.isFile path.normalize = true)
    (hnew : path.normalize.components ∉ graph.visited) :
    disk.unvisited (graph.enter path.normalize.components) ⊂ disk.unvisited graph := by
  have hnormal : path.normalize.normalize = path.normalize := by
    have hplain := path.isNormal_components_normalize.normalComponents_eq
    rw [Path.normalize, hplain, Path.ofComponents_components_normalize]
  refine ⟨unvisited_subset fun key hm => List.mem_cons_of_mem _ hm, fun hsub => ?_⟩
  have hleft : path.normalize ∈ disk.unvisited graph := by
    refine ⟨hnormal, hfile, ?_⟩
    by_contra hold
    exact hnew (Graph.isVisited_iff.1 (Bool.of_not_eq_false hold))
  have hentered : (graph.enter path.normalize.components).isVisited path.normalize.components = true :=
    Graph.isVisited_iff.2 List.mem_cons_self
  have hnot := (hsub hleft).2.2
  rw [hentered] at hnot
  cases hnot

/-- **Tracing returns**, for any disk, any path and any graph. The files that are
left are finitely many, a nested call finds fewer of them than the call that makes
it, and it is for a file that is entered already or for one of those. -/
theorem trace_terminates (disk : Disk) (path : Path) (graph : Graph) :
    (∀ result, Returns disk path graph result ↔ result = disk.trace path graph) ∧
    (disk.unvisited graph).Finite ∧
    ∀ call ∈ nestedCalls (fun target graph => (disk.trace target graph).1) disk path graph,
      disk.unvisited call.graph ⊂ disk.unvisited graph ∧
      (call.graph.isVisited call.path.normalize.components = true ∨
        disk.unvisited (call.graph.enter call.path.normalize.components) ⊂ disk.unvisited call.graph) := by
  refine ⟨fun result => ⟨eq_trace_of_returns, ?_⟩, disk.finite_unvisited graph, fun call hm => ?_⟩
  · rintro rfl
    exact returns_trace disk path graph
  · obtain ⟨hnew, hfile, hcalled⟩ := @calledFrom_of_mem_nestedCalls disk path graph call disk.traceBound hm
    refine ⟨Set.ssubset_of_subset_of_ssubset (unvisited_subset hcalled.grown)
      (unvisited_enter_ssubset hfile hnew), ?_⟩
    by_cases hold : call.path.normalize.components ∈ call.graph.visited
    · exact .inl (Graph.isVisited_iff.2 hold)
    · refine .inr (unvisited_enter_ssubset ?_ hold)
      have hfound := find_normalize hcalled.isFile hcalled.normal
      have hcallee := hcalled.isFile
      unfold isFile at hcallee ⊢
      rwa [hfound]

/-- Two files that export each other, the second under two spellings. -/
def twoSpellings : Disk :=
  ⟨.folder [("dir", .folder
    [("a.ts", .file (.text "export * from './b.ts'\nexport * from '../dir/b.ts'")),
     ("b.ts", .file (.text "export * from './a.ts'"))])], ["dir"]⟩

/-- The second spelling is a call of its own, made after the file has been entered
under the first. -/
theorem trace_terminates_twoSpellings :
    Returns twoSpellings "a.ts" .empty (twoSpellings.trace "a.ts" .empty) ∧
    ∃ call ∈ nestedCalls (fun target graph => (twoSpellings.trace target graph).1) twoSpellings "a.ts" .empty,
      call.path = "../dir/b.ts" ∧ call.graph.isVisited ("b.ts" : Path).components = true ∧
      twoSpellings.unvisited (call.graph.enter call.path.normalize.components) ⊂
        twoSpellings.unvisited call.graph := by
  obtain ⟨hreturns, _, hcalls⟩ := trace_terminates twoSpellings "a.ts" .empty
  refine ⟨(hreturns _).2 rfl, ?_⟩
  let call : Call := ⟨"../dir/b.ts", (twoSpellings.trace "b.ts" (Graph.empty.enter ("a.ts" : Path).components)).1⟩
  have hsecond : (nestedCalls (fun target graph => (twoSpellings.trace target graph).1) twoSpellings "a.ts"
      .empty)[1]? = some call := rfl
  have hcall := List.mem_of_getElem? hsecond
  have hnew : call.graph.isVisited call.path.normalize.components = false := rfl
  refine ⟨call, hcall, rfl, rfl, (hcalls call hcall).2.resolve_left ?_⟩
  rw [hnew]
  decide

end Disk
end ApiCoverage
