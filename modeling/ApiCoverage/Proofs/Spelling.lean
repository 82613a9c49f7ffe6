/-
The spellings of a path.

Empty pieces and `.` between separators lead nowhere, and at the end of a path
they ask for a folder. So a file is found in the same place under any spelling of
its components that leads to a file (`find_of_components_eq`), and under the
normal form of such a spelling if its components are normal.
-/
import ApiCoverage.Proofs.DiskFiles

namespace ApiCoverage

open ApiCoverage.Path (Component isFiller IsNormal IsEntryName)

namespace Path

theorem piece_of_ofPiece? {piece : Text} {component : Component}
    (h : Component.ofPiece? piece = some component) : component.piece = piece := by
  unfold Component.ofPiece? at h
  split at h
  · cases h
  · split at h
    next hup =>
      obtain rfl := Option.some.inj h
      exact (beq_iff_eq.1 hup).symm
    · obtain rfl := Option.some.inj h
      rfl

/-- The pieces that stand for a component are the spellings of the components. -/
theorem filter_not_isFiller (pieces : List Text) :
    pieces.filter (!isFiller ·) = (pieces.filterMap Component.ofPiece?).map Component.piece := by
  induction pieces with
  | nil => rfl
  | cons piece rest ih =>
    cases h : Component.ofPiece? piece with
    | none =>
      have hfiller : isFiller piece = true := by simp [isFiller, h]
      simp [hfiller, h, ih]
    | some component =>
      have hplain : isFiller piece = false := by simp [isFiller, h]
      simp [hplain, h, ih, piece_of_ofPiece? h]

theorem isFiller_of_isEntryName {text : Text} (h : IsEntryName text) : isFiller text = false := by
  simp [isFiller, h.ofPiece?]

/-- The last piece of a path stands for a component. -/
def EndsPlain (p : Path) : Prop := ∃ front last, p.pieces.rest = front ++ [last] ∧ isFiller last = false

theorem endsPlain_of_forall {p : Path} (hne : p.pieces.rest ≠ [])
    (h : ∀ piece ∈ p.pieces.rest, isFiller piece = false) : p.EndsPlain := by
  rcases p.pieces.rest.eq_nil_or_concat' with he | ⟨front, last, he⟩
  · exact absurd he hne
  · exact ⟨front, last, he, h last (by simp [he])⟩

/-- The plain spelling of normal components ends plainly, unless there is no step
in them. -/
theorem IsNormal.endsPlain {components : List Component} (h : IsNormal components) (hne : components ≠ [])
    (hroot : components ≠ [.root]) : (ofComponents components).EndsPlain := by
  cases h with
  | @absolute names hn =>
    have hnames : names ≠ [] := by
      rintro rfl
      exact hroot rfl
    have hpieces : (ofComponents (.root :: names.map .name)).pieces.rest = names := by
      rw [ofComponents_absolute, pieces_absolute]
      exact Text.splitOn_join hnames fun piece hm => (hn piece hm).noSeparator
    refine endsPlain_of_forall (by rwa [hpieces]) fun piece hm => ?_
    rw [hpieces] at hm
    exact isFiller_of_isEntryName (hn piece hm)
  | @relative ups names hn =>
    have hall : ∀ piece ∈ relativePieces ups names, piece = ['.', '.'] ∨ IsEntryName piece :=
      fun _ hm => mem_relativePieces hn hm
    have hsome : relativePieces ups names ≠ [] := by
      intro he
      rw [← filterMap_ofPiece?_relative hn, he] at hne
      exact hne rfl
    have hpieces : (ofComponents (List.replicate ups .up ++ names.map .name)).pieces.rest =
        relativePieces ups names := by
      rw [ofComponents_relative, pieces_join hall, if_neg hsome]
    refine endsPlain_of_forall (by rwa [hpieces]) fun piece hm => ?_
    rw [hpieces] at hm
    rcases hall piece hm with rfl | hentry
    · decide
    · exact isFiller_of_isEntryName hentry

/-- A path that ends plainly has a step. -/
theorem EndsPlain.components_ne {p : Path} (hp : p.EndsPlain) : p.components ≠ [] ∧ p.components ≠ [.root] := by
  obtain ⟨front, last, hrest, hlast⟩ := hp
  obtain ⟨component, hcomponent⟩ : ∃ component, Component.ofPiece? last = some component :=
    Option.isSome_iff_exists.1 (by simpa [isFiller] using hlast)
  have hstep : component ≠ .root := by
    rintro rfl
    have hlast : last ∈ p.pieces.rest := by simp [hrest]
    rcases ofPiece?_isStep (not_mem_of_mem_pieces hlast) hcomponent with he | ⟨_, he, _⟩ <;> cases he
  have hmem : component ∈ p.components := by simp [components, hrest, hcomponent]
  constructor
  · intro he
    simp [he] at hmem
  · intro he
    exact hstep (by simpa [he] using hmem)

end Path

namespace Disk

variable {disk : Disk} {top spot : Spot} {p q : Path}

/-! ## Pieces that stand for no component -/

theorem step_of_isFiller {piece : Text} (h : isFiller piece = true) :
    disk.step top spot piece = match disk.node? spot with
      | none => .error .notFound
      | some (.file _) => .error .notFolder
      | some (.folder _) => .ok spot := by
  have hfiller : (piece.isEmpty || piece == ".") = true := by
    by_contra hnot
    simp only [isFiller, Component.ofPiece?, if_neg hnot] at h
    split at h <;> cases h
  unfold step
  cases disk.node? spot with
  | none => rfl
  | some node =>
    cases node with
    | file content => rfl
    | folder entries => exact if_pos hfiller

theorem steps_cons_filler {piece : Text} (h : isFiller piece = true) (next : Text) (rest : List Text) :
    disk.steps top spot (piece :: next :: rest) = disk.steps top spot (next :: rest) := by
  rw [steps, step_of_isFiller h]
  cases hnode : disk.node? spot with
  | none => simp [steps, step, hnode]
  | some node =>
    cases node with
    | file content => simp [steps, step, hnode]
    | folder entries => rfl

theorem steps_filter {last : Text} (hlast : isFiller last = false) (front : List Text) (top spot : Spot) :
    disk.steps top spot (front ++ [last]) =
      disk.steps top spot ((front ++ [last]).filter (!isFiller ·)) := by
  induction front generalizing spot with
  | nil => simp [hlast]
  | cons piece rest ih =>
    by_cases hpiece : isFiller piece = true
    · obtain ⟨next, others, hne⟩ : ∃ next others, rest ++ [last] = next :: others :=
        List.exists_cons_of_ne_nil (by simp)
      have hfilter : (piece :: (rest ++ [last])).filter (!isFiller ·) = (rest ++ [last]).filter (!isFiller ·) := by
        simp [hpiece]
      rw [List.cons_append, hfilter, ← ih, hne]
      exact steps_cons_filler hpiece next others
    · have hfilter : (piece :: (rest ++ [last])).filter (!isFiller ·) =
          piece :: (rest ++ [last]).filter (!isFiller ·) := by
        simp [hpiece]
      rw [List.cons_append, hfilter, steps, steps]
      cases disk.step top spot piece with
      | error e => rfl
      | ok next => exact ih next

/-- A path that ends in such a piece leads to a folder, if anywhere. -/
theorem node?_of_steps_filler {last : Text} (hlast : isFiller last = true) {front : List Text} {final : Spot}
    (h : disk.steps top spot (front ++ [last]) = .ok final) : ∃ entries, disk.node? final = some (.folder entries) := by
  induction front generalizing spot with
  | nil =>
    rw [List.nil_append, steps, step_of_isFiller hlast] at h
    cases hnode : disk.node? spot with
    | none => simp [hnode] at h
    | some node =>
      cases node with
      | file content => simp [hnode] at h
      | folder entries =>
        simp only [hnode, steps, Except.ok.injEq] at h
        exact ⟨entries, h ▸ hnode⟩
  | cons piece rest ih =>
    rw [List.cons_append, steps] at h
    cases hstep : disk.step top spot piece with
    | error e => simp [hstep] at h
    | ok next =>
      rw [hstep] at h
      exact ih h

/-! ## Where the components of a path lead -/

/-- The place that components lead to. -/
def walkComponents (disk : Disk) : List Component → Except ReadError Spot
  | .root :: rest => disk.steps (.inside []) (.inside []) (rest.map Component.piece)
  | .here :: rest => disk.steps .above (.inside disk.current) (rest.map Component.piece)
  | components => disk.steps .above (.inside disk.current) (components.map Component.piece)

theorem steps_of_endsPlain {pieces front : List Text} {last : Text} (hpieces : pieces = front ++ [last])
    (hlast : isFiller last = false) (top spot : Spot) :
    disk.steps top spot pieces =
      disk.steps top spot ((pieces.filterMap Component.ofPiece?).map Component.piece) := by
  rw [← Path.filter_not_isFiller, hpieces]
  exact steps_filter hlast front top spot

/-- How a path is walked, by what it starts with. -/
theorem walk_cases (disk : Disk) (h : p.spelling ≠ []) :
    (p.pieces.start = some .root ∧ p.pieces.rest ≠ [] ∧
      disk.walk p = disk.steps (.inside []) (.inside []) p.pieces.rest) ∨
    (p.pieces.start = some .here ∧
      disk.walk p = disk.steps .above (.inside disk.current) (['.'] :: p.pieces.rest)) ∨
    (p.pieces.start = none ∧ p.pieces.rest ≠ [] ∧
      disk.walk p = disk.steps .above (.inside disk.current) p.pieces.rest) := by
  obtain ⟨text⟩ := p
  obtain ⟨c, rest, rfl⟩ := List.exists_cons_of_ne_nil h
  by_cases hc : c = '/'
  · subst hc
    exact .inl ⟨rfl, Text.splitOn_ne_nil '/' rest, rfl⟩
  · have hwalk : disk.walk ⟨c :: rest⟩ =
        disk.steps .above (.inside disk.current) (Text.splitOn '/' (c :: rest)) := by
      unfold walk
      split
      next he => cases he
      next body he => exact absurd (List.cons.inj he).1 hc
      next => rfl
    rw [hwalk, Path.pieces]
    split
    next body he => exact absurd (List.cons.inj he).1 hc
    split
    next others hs => exact .inr (.inl ⟨rfl, by rw [hs]⟩)
    next hs => exact .inr (.inr ⟨rfl, Text.splitOn_ne_nil '/' (c :: rest), rfl⟩)

theorem walkComponents_filterMap (disk : Disk) {pieces : List Text} (h : ∀ piece ∈ pieces, '/' ∉ piece) :
    disk.walkComponents (pieces.filterMap Component.ofPiece?) = disk.steps .above (.inside disk.current)
      ((pieces.filterMap Component.ofPiece?).map Component.piece) := by
  cases he : pieces.filterMap Component.ofPiece? with
  | nil => rfl
  | cons component rest =>
    obtain ⟨piece, hpiece, hc⟩ := List.mem_filterMap.1 (he ▸ List.mem_cons_self)
    rcases Path.ofPiece?_isStep (h piece hpiece) hc with rfl | ⟨name, rfl, -⟩
    · rfl
    · rfl

theorem walk_of_endsPlain (h : p.EndsPlain) : disk.walk p = disk.walkComponents p.components := by
  obtain ⟨front, last, hrest, hlast⟩ := h
  have hsteps := @steps_of_endsPlain disk _ _ _ hrest hlast
  have hne : p.spelling ≠ [] := by
    intro he
    have hempty : p.pieces.rest = [[]] := by
      obtain ⟨text⟩ := p
      subst he
      rfl
    obtain ⟨-, hnil⟩ := List.append_inj' (hempty ▸ hrest : [] ++ [[]] = front ++ [last]) rfl
    rw [← List.singleton_inj.1 hnil] at hlast
    cases hlast
  rw [Path.components]
  rcases walk_cases disk hne with ⟨hs, -, hw⟩ | ⟨hs, hw⟩ | ⟨hs, -, hw⟩
  · rw [hw, hs, hsteps]
    rfl
  · obtain ⟨next, others, hcons⟩ := List.exists_cons_of_ne_nil (show p.pieces.rest ≠ [] by simp [hrest])
    have hhere : disk.steps .above (.inside disk.current) (['.'] :: p.pieces.rest) =
        disk.steps .above (.inside disk.current) p.pieces.rest := by
      rw [hcons]
      exact steps_cons_filler (by decide) next others
    rw [hw, hs, hhere, hsteps]
    rfl
  · rw [hw, hs, hsteps]
    exact (walkComponents_filterMap disk fun _ => Path.not_mem_of_mem_pieces).symm

theorem endsPlain_of_isFile (h : disk.isFile p = true) : p.EndsPlain := by
  obtain ⟨spot, content, hwalk, hnode⟩ := walk_of_isFile h
  have hends : ∀ {top start : Spot} {pieces : List Text}, pieces ≠ [] → disk.steps top start pieces = .ok spot →
      ∃ front last, pieces = front ++ [last] ∧ isFiller last = false := by
    intro top start pieces hne hsteps
    obtain ⟨front, last, rfl⟩ := pieces.eq_nil_or_concat'.resolve_left hne
    refine ⟨front, last, rfl, ?_⟩
    by_contra hfiller
    obtain ⟨entries, hfolder⟩ := node?_of_steps_filler (Bool.of_not_eq_false hfiller) hsteps
    rw [hnode] at hfolder
    cases hfolder
  have hne : p.spelling ≠ [] := by
    intro he
    rw [walk, he] at hwalk
    cases hwalk
  rcases walk_cases disk hne with ⟨-, hrest, hw⟩ | ⟨-, hw⟩ | ⟨-, hrest, hw⟩
  · exact hends hrest (hw ▸ hwalk)
  · obtain ⟨front, last, hcons, hlast⟩ := hends (List.cons_ne_nil _ _) (hw ▸ hwalk)
    cases front with
    | nil =>
      rw [← (List.cons.inj hcons).1] at hlast
      cases hlast
    | cons first front => exact ⟨front, last, (List.cons.inj hcons).2, hlast⟩
  · exact hends hrest (hw ▸ hwalk)

/-- **A file is found under every spelling of its components that leads to a file.** -/
theorem find_of_components_eq (hp : disk.isFile p = true) (hq : disk.isFile q = true)
    (h : p.components = q.components) : disk.find p = disk.find q := by
  rw [find, find, walk_of_endsPlain (endsPlain_of_isFile hp), walk_of_endsPlain (endsPlain_of_isFile hq), h]

theorem readLines_of_components_eq {lines others : List Text} (hp : disk.readLines p = .ok lines)
    (hq : disk.readLines q = .ok others) (h : p.components = q.components) : lines = others := by
  have hfind := find_of_components_eq (isFile_of_readLines hp) (isFile_of_readLines hq) h
  have hread : disk.readLines p = disk.readLines q := by rw [readLines, readLines, read, read, hfind]
  exact Except.ok.inj (hp.symm.trans (hread.trans hq))

theorem find_normalize (hp : disk.isFile p = true) (hn : IsNormal p.components) :
    disk.find p.normalize = disk.find p := by
  have hplain := endsPlain_of_isFile hp
  have hnormal : p.normalize = Path.ofComponents p.components := by
    rw [Path.normalize, hn.normalComponents_eq]
  have hends := hn.endsPlain hplain.components_ne.1 hplain.components_ne.2
  rw [find, find, walk_of_endsPlain hplain, hnormal, walk_of_endsPlain hends, hn.components_ofComponents]

end Disk
end ApiCoverage
