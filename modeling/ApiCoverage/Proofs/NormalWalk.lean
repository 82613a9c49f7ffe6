/-
A path and its normal form lead to the same place.

While a path is walked, what `normalize` has on its stack leads to the place reached so far
(`exists_foldl_pushComponent_steps`): a `..` that takes back a name goes back to the folder the name was
entered from, one that stays on the stack is walked as it is, and one that is dropped stays at the root.
The folders that the normal form needs have all been walked through, so they are there. The converse
fails: `missing/../a.ts` leads nowhere, whatever its normal form does.
-/
import ApiCoverage.Proofs.CanonicalPaths
import ApiCoverage.Proofs.Spelling

namespace ApiCoverage

open ApiCoverage.Path (Component isFiller IsStep pushComponent)

namespace Disk

variable {disk : Disk} {top start spot next final : Spot} {p q : Path}

/-! ## Walking in parts -/

theorem steps_append (disk : Disk) (top spot : Spot) (front back : List Text) :
    disk.steps top spot (front ++ back) = (disk.steps top spot front).bind (disk.steps top · back) := by
  induction front generalizing spot with
  | nil => rfl
  | cons piece rest ih =>
    rw [List.cons_append, steps, steps]
    cases disk.step top spot piece with
    | error e => rfl
    | ok next => exact ih next

theorem steps_concat_eq_ok_iff {front : List Text} {piece : Text} :
    disk.steps top start (front ++ [piece]) = .ok next ↔
      ∃ spot, disk.steps top start front = .ok spot ∧ disk.step top spot piece = .ok next := by
  rw [steps_append]
  cases hfront : disk.steps top start front with
  | error e => simp [Except.bind]
  | ok spot =>
    cases hstep : disk.step top spot piece with
    | error e => simp [Except.bind, steps, hstep]
    | ok other => simp [Except.bind, steps, hstep]

theorem up_concat (location : Location) (name : Text) (top : Spot) :
    (Spot.inside (location ++ [name])).up top = .inside location := by
  cases location with
  | nil => rfl
  | cons first rest =>
    change Spot.inside ((first :: rest) ++ [name]).dropLast = _
    rw [List.dropLast_concat]

/-! ## The stack leads where the steps have led -/

/-- A step from `spot` takes the stack that leads from `start` to `spot` with it. -/
theorem exists_pushComponent_steps {stack bottom : List Component} {component : Component}
    (hbottom : bottom = [] ∨ bottom = [.root] ∧ start.up top = start) (hstack : ∀ c ∈ stack, IsStep c)
    (hc : IsStep component) (h : disk.steps top start (stack.reverse.map Component.piece) = .ok spot)
    (hs : disk.step top spot component.piece = .ok next) :
    ∃ pushed, pushComponent (stack ++ bottom) component = pushed ++ bottom ∧ (∀ c ∈ pushed, IsStep c) ∧
      disk.steps top start (pushed.reverse.map Component.piece) = .ok next := by
  rcases Path.pushComponent_cases (hbottom.imp_right And.left) hstack hc with
    he | ⟨rfl, name, below, hname, rfl, he⟩ | ⟨rfl, rfl, rfl, he⟩
  · refine ⟨component :: stack, he, by simpa using ⟨hc, hstack⟩, ?_⟩
    rw [List.reverse_cons, List.map_append, List.map_singleton, steps_concat_eq_ok_iff]
    exact ⟨spot, h, hs⟩
  -- The name was entered from the folder that `..` goes back to.
  · rw [List.reverse_cons, List.map_append, List.map_singleton, steps_concat_eq_ok_iff] at h
    obtain ⟨folder, hfolder, hentry⟩ := h
    obtain ⟨location, rfl, rfl⟩ := step_name hname hentry
    refine ⟨below, he, fun c hm => hstack c (by simp [hm]), ?_⟩
    rw [hfolder, step_up hs, up_concat]
  · obtain rfl : start = spot := Except.ok.inj h
    have hroot : start.up top = start := hbottom.elim (fun hnil => by cases hnil) And.right
    refine ⟨[], he, hstack, ?_⟩
    rw [step_up hs, hroot]
    rfl

/-- **What is left on the stack leads where the steps lead.** -/
theorem exists_foldl_pushComponent_steps {walk stack bottom : List Component}
    (hbottom : bottom = [] ∨ bottom = [.root] ∧ start.up top = start) (hwalk : ∀ c ∈ walk, IsStep c)
    (hstack : ∀ c ∈ stack, IsStep c) (h : disk.steps top start (stack.reverse.map Component.piece) = .ok spot)
    (hs : disk.steps top spot (walk.map Component.piece) = .ok final) :
    ∃ pushed, walk.foldl pushComponent (stack ++ bottom) = pushed ++ bottom ∧
      disk.steps top start (pushed.reverse.map Component.piece) = .ok final := by
  induction walk generalizing stack spot with
  | nil =>
    obtain rfl : spot = final := Except.ok.inj hs
    exact ⟨stack, rfl, h⟩
  | cons component rest ih =>
    rw [List.map_cons] at hs
    obtain ⟨next, hnext, hrest⟩ := steps_cons hs
    obtain ⟨pushed, hpush, hpushed, hsteps⟩ :=
      exists_pushComponent_steps hbottom hstack (hwalk component (by simp)) h hnext
    rw [List.foldl_cons, hpush]
    exact ih (fun c hm => hwalk c (by simp [hm])) hpushed hsteps hrest

/-! ## Walking a path by its components -/

/-- Where a path starts. -/
def startOf (disk : Disk) (p : Path) : Spot := if p.isAbsolute then .inside [] else .inside disk.current

/-- What lies above the root for a path: the root itself, if the path is absolute. -/
def topOf (top : Spot) (p : Path) : Spot := if p.isAbsolute then .inside [] else top

/-- The place that a path leads to, one component after the other, however it is spelled. A relative path
that climbs out of the tree comes to `top`: to nowhere, or to the root again where that is the root of
all. -/
def walkBy (disk : Disk) (top : Spot) (p : Path) : Except ReadError Spot :=
  disk.steps (topOf top p) (disk.startOf p) (p.steps.map Component.piece)

theorem startOf_normalize (disk : Disk) (p : Path) : disk.startOf p.normalize = disk.startOf p := by
  rw [startOf, startOf, Path.isAbsolute_normalize]

/-- **The normal form of a path leads to the same place.** -/
theorem walkBy_normalize (h : disk.walkBy top p = .ok spot) : disk.walkBy top p.normalize = .ok spot := by
  have hbottom : p.base = [] ∨ p.base = [.root] ∧ (disk.startOf p).up (topOf top p) = disk.startOf p := by
    rw [Path.base, startOf, topOf]
    cases p.isAbsolute with
    | true => exact .inr ⟨rfl, rfl⟩
    | false => exact .inl rfl
  obtain ⟨pushed, hfold, hfinal⟩ := @exists_foldl_pushComponent_steps disk _ _ _ _ p.steps [] _ hbottom
    (fun _ => Path.isStep_of_mem_steps) (by simp) rfl h
  have hstack : pushed = p.normalize.steps.reverse :=
    List.append_cancel_right (hfold.symm.trans p.stack_eq)
  rw [hstack, List.reverse_reverse] at hfinal
  rw [walkBy, topOf, Path.isAbsolute_normalize, startOf_normalize]
  exact hfinal

/-! ## Walking a path as it is spelled -/

/-- A path that is walked to its end passes only folders, so empty pieces and `.` may be left out. -/
theorem steps_filter_of_ok {pieces : List Text} (h : disk.steps top spot pieces = .ok final) :
    disk.steps top spot (pieces.filter (!isFiller ·)) = .ok final := by
  induction pieces generalizing spot with
  | nil => exact h
  | cons piece rest ih =>
    obtain ⟨next, hstep, hrest⟩ := steps_cons h
    cases hfiller : isFiller piece with
    | true =>
      have hstay : next = spot := by
        rw [step_of_isFiller hfiller] at hstep
        split at hstep
        · cases hstep
        · cases hstep
        · exact (Except.ok.inj hstep).symm
      rw [List.filter_cons_of_neg (by simp [hfiller]), ← hstay]
      exact ih hrest
    | false =>
      rw [List.filter_cons_of_pos (by simp [hfiller]), steps, hstep]
      exact ih hrest

theorem exists_pieces_of_walk (h : disk.walk p = .ok spot) :
    ∃ pieces, pieces ≠ [] ∧ pieces.filter (!isFiller ·) = p.steps.map Component.piece ∧
      disk.steps (topOf .above p) (disk.startOf p) pieces = .ok spot := by
  obtain ⟨text⟩ := p
  have hfilter : (Text.splitOn '/' text).filter (!isFiller ·) = (Path.steps ⟨text⟩).map Component.piece :=
    Path.filter_not_isFiller _
  unfold walk at h
  split at h
  next => cases h
  next body he =>
    obtain rfl : text = '/' :: body := he
    have hsplit : Text.splitOn '/' ('/' :: body) = [] :: Text.splitOn '/' body :=
      Text.splitOn_append_cons List.not_mem_nil body
    rw [hsplit, List.filter_cons_of_neg (by decide)] at hfilter
    exact ⟨_, Text.splitOn_ne_nil _ _, hfilter, h⟩
  next hseparator =>
    have hrelative : (⟨text⟩ : Path).isAbsolute = false := by
      rw [Path.isAbsolute_eq_false_iff]
      intro hhead
      obtain ⟨body, hbody⟩ := List.head?_eq_some_iff.1 hhead
      exact hseparator body hbody
    rw [topOf, startOf, hrelative]
    exact ⟨_, Text.splitOn_ne_nil _ _, hfilter, h⟩

theorem walkBy_of_walk (h : disk.walk p = .ok spot) : disk.walkBy .above p = .ok spot := by
  obtain ⟨pieces, _, hfilter, hsteps⟩ := exists_pieces_of_walk h
  rw [walkBy, ← hfilter]
  exact steps_filter_of_ok hsteps

theorem walk_eq_walkBy (disk : Disk) (h : p.EndsPlain) : disk.walk p = disk.walkBy .above p := by
  rw [walk_of_endsPlain h, walkBy, topOf, startOf]
  cases habs : p.isAbsolute with
  | true =>
    rw [Path.components_of_absolute habs]
    rfl
  | false =>
    rcases Path.components_of_relative habs with he | he
    · rw [he]
      exact walkComponents_filterMap disk fun _ => Text.not_mem_of_mem_splitOn
    · rw [he]
      rfl

theorem node?_startOf_of_walk (h : disk.walk p = .ok spot) :
    ∃ entries, disk.node? (disk.startOf p) = some (.folder entries) := by
  obtain ⟨pieces, hne, _, hsteps⟩ := exists_pieces_of_walk h
  obtain ⟨piece, rest, rfl⟩ := List.exists_cons_of_ne_nil hne
  obtain ⟨next, hstep, _⟩ := steps_cons hsteps
  unfold step at hstep
  split at hstep
  next => cases hstep
  next => cases hstep
  next entries hnode => exact ⟨entries, hnode⟩

theorem endsPlain_normalize (h : p.normalize.steps ≠ []) : p.normalize.EndsPlain := by
  have hnormal := p.isNormal_components_normalize
  have hcomponents := Path.components_eq hnormal.here_not_mem
  have hne : p.normalize.components ≠ [] := by simp [hcomponents, h]
  have hroot : p.normalize.components ≠ [.root] := by
    intro he
    have habs : p.normalize.isAbsolute = true := by simp [Path.isAbsolute_eq_head?, he]
    rw [Path.components_of_absolute habs, List.cons.injEq] at he
    exact h he.2
  have hplain := hnormal.endsPlain hne hroot
  rwa [Path.ofComponents_components_normalize] at hplain

/-- **A file stays where it is when its path is normalized.** Whatever mix of `.`, `..`, separators and names
leads to a file, the normal form leads to the same file: for a path as the disk walks it, and for its
components taken one by one, with nothing above the root of the tree or the root itself. -/
theorem walk_normalize {location : Location} {content : Content}
    (hfile : disk.root.get? location = some (.file content)) (p : Path) :
    (disk.walk p = .ok (.inside location) → disk.walk p.normalize = .ok (.inside location)) ∧
      ∀ top, disk.walkBy top p = .ok (.inside location) → disk.walkBy top p.normalize = .ok (.inside location) := by
  refine ⟨fun h => ?_, fun top h => walkBy_normalize h⟩
  have hwalkBy := walkBy_normalize (walkBy_of_walk h)
  -- The walk starts in a folder, so the normal form has a step, and asks for no folder at its end.
  have hsteps : p.normalize.steps ≠ [] := by
    intro hnil
    obtain ⟨entries, hstart⟩ := node?_startOf_of_walk h
    have hend : disk.startOf p = .inside location := by
      rw [walkBy, hnil, startOf_normalize] at hwalkBy
      exact Except.ok.inj hwalkBy
    have hnode : disk.node? (.inside location) = some (.file content) := hfile
    rw [← hend, hstart] at hnode
    cases hnode
  rw [walk_eq_walkBy disk (endsPlain_normalize hsteps), hwalkBy]

/-- A file beside the current folder. -/
def besideCurrent : Disk :=
  ⟨.folder [("lib", .folder [("deep", .folder []), ("b.ts", .file (.text "export const b = 1;"))]),
    ("src", .folder [])], ["src"]⟩

/-- The path leaves the current folder, comes back to it and goes in and out of another on its way. The same
file is found from the root, and from below it by a path that climbs too far where the root is the
root of all. -/
theorem walk_normalize_besideCurrent :
    besideCurrent.root.get? ["lib", "b.ts"] = some (.file (.text "export const b = 1;")) ∧
      besideCurrent.walk "./..//src/../lib/deep/./../b.ts" = .ok (.inside ["lib", "b.ts"]) ∧
      besideCurrent.walk "../lib/b.ts" = .ok (.inside ["lib", "b.ts"]) ∧
      besideCurrent.walk "/../lib/./b.ts" = .ok (.inside ["lib", "b.ts"]) ∧
      besideCurrent.walk "/lib/b.ts" = .ok (.inside ["lib", "b.ts"]) ∧
      besideCurrent.walkBy (.inside []) "../../lib/deep/../b.ts" = .ok (.inside ["lib", "b.ts"]) ∧
      besideCurrent.walkBy (.inside []) "../../lib/b.ts" = .ok (.inside ["lib", "b.ts"]) := by
  have hfile : besideCurrent.root.get? ["lib", "b.ts"] = some (.file (.text "export const b = 1;")) := rfl
  have hroundabout : besideCurrent.walk "./..//src/../lib/deep/./../b.ts" = .ok (.inside ["lib", "b.ts"]) := by
    decide +kernel
  have habsolute : besideCurrent.walk "/../lib/./b.ts" = .ok (.inside ["lib", "b.ts"]) := by decide +kernel
  have hclimbing : besideCurrent.walkBy (.inside []) "../../lib/deep/../b.ts" = .ok (.inside ["lib", "b.ts"]) := by
    decide +kernel
  have hnormal : Path.normalize "./..//src/../lib/deep/./../b.ts" = "../lib/b.ts" ∧
      Path.normalize "/../lib/./b.ts" = "/lib/b.ts" ∧
      Path.normalize "../../lib/deep/../b.ts" = "../../lib/b.ts" := by decide +kernel
  obtain ⟨hshort, habsoluteShort, hclimbingShort⟩ := hnormal
  refine ⟨hfile, hroundabout, ?_, habsolute, ?_, hclimbing, ?_⟩
  · rw [← hshort]
    exact (walk_normalize hfile _).1 hroundabout
  · rw [← habsoluteShort]
    exact (walk_normalize hfile _).1 habsolute
  · rw [← hclimbingShort]
    exact (walk_normalize hfile _).2 (.inside []) hclimbing

end Disk
end ApiCoverage
