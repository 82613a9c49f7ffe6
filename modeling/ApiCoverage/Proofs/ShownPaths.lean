/-
How a path is shown from a folder above it.

The components of the folder are taken off where the path starts with them, and nothing is where it does
not. A path that was built from the folder starts with them however the folder is spelled
(`display_descend`). A path in normal form does so exactly if the folder's components are normal too; from
any other folder it is shown as it is, and then its first steps are missing only if the folder is the
current one (`IsPlain.display_eq`).
-/
import ApiCoverage.Path.Relative
import ApiCoverage.Proofs.PathsBelow

namespace ApiCoverage.Path

variable {p root : Path} {names : List Text}

/-! ## Taking off the components of a folder -/

/-- With as many components gone as the pieces in front have, nothing but fillers is left of those. -/
theorem dropWhile_dropComponents (front rest : List Text) :
    (dropComponents (front.filterMap Component.ofPiece?).length (front ++ rest)).dropWhile isFiller =
      rest.dropWhile isFiller := by
  induction front with
  | nil => simp [dropComponents]
  | cons piece front ih =>
    cases hpiece : Component.ofPiece? piece with
    | none =>
      have hfiller : isFiller piece = true := by simp [isFiller, hpiece]
      rw [List.filterMap_cons_none hpiece, List.cons_append]
      cases hcount : (front.filterMap Component.ofPiece?).length with
      | zero =>
        rw [hcount, dropComponents] at ih
        rw [dropComponents, List.dropWhile_cons_of_pos hfiller]
        exact ih
      | succ count =>
        rw [hcount] at ih
        rw [dropComponents, if_pos hfiller]
        exact ih
    | some component =>
      have hplain : ¬ isFiller piece = true := by simp [isFiller, hpiece]
      rw [List.filterMap_cons_some hpiece, List.length_cons, List.cons_append, dropComponents, if_neg hplain]
      exact ih

theorem dropWhile_isFiller_names (h : ∀ name ∈ names, IsEntryName name) : names.dropWhile isFiller = names := by
  cases names with
  | nil => rfl
  | cons name rest => exact List.dropWhile_cons_of_neg (by simp [isFiller_of_isEntryName (h name (by simp))])

theorem dropFillers_names (h : ∀ name ∈ names, IsEntryName name) : dropFillers names = names := by
  rw [dropFillers, dropWhile_isFiller_names fun name hm => h name (List.mem_reverse.1 hm), List.reverse_reverse]

/-- A path is shown by the names that stand after the components of the folder. -/
theorem display_of_pieces {start : Option Component} {front : List Text} (hpieces : p.pieces = ⟨start, front ++ names⟩)
    (hroot : root.components = start.toList ++ front.filterMap Component.ofPiece?) (hne : root.components ≠ [])
    (hnames : names ≠ []) (h : ∀ name ∈ names, IsEntryName name) : display root p = Text.join "/" names := by
  have hcomponents : p.components = root.components ++ names.map .name := by
    rw [hroot, components, hpieces, List.filterMap_append, filterMap_ofPiece?_names h, List.append_assoc]
  have hstarts : root.components.isPrefixOf p.components = true := by
    rw [hcomponents, List.isPrefixOf_iff_prefix]
    exact List.prefix_append _ _
  have hcount : root.components.length - p.pieces.start.toList.length =
      (front.filterMap Component.ofPiece?).length := by
    rw [hroot, hpieces, List.length_append, Nat.add_sub_cancel_left]
  have hrest :
      (dropComponents (root.components.length - p.pieces.start.toList.length) p.pieces.rest).dropWhile isFiller =
        names := by
    rw [hcount, hpieces, dropWhile_dropComponents, dropWhile_isFiller_names h]
  have hrelative : p.relativeTo? root = some (ofNames names) := by
    simp only [relativeTo?, hstarts, hrest, dropFillers_names h, List.isEmpty_iff, hne, if_true, if_false]
    rfl
  have hshown : (ofNames names).spelling ≠ [] := fun he => ofNames_ne_empty hnames h (congrArg Path.mk he)
  simp only [display, hrelative, Option.getD_some, List.isEmpty_iff, hshown, if_false]
  rfl

/-- **What was found from a folder down is shown by the names from there**, however the folder is spelled. -/
theorem display_descend (hne : p.components ≠ []) (hnames : names ≠ []) (h : ∀ name ∈ names, IsEntryName name) :
    display p (p.descend names) = Text.join "/" names :=
  display_of_pieces (pieces_descend hnames h p) (by rw [filterMap_room]; rfl) hne hnames h

/-! ## Paths in normal form -/

theorem IsNormal.of_concat {components : List Component} {last : Component} (h : IsNormal (components ++ [last])) :
    IsNormal components := by
  generalize hall : components ++ [last] = all at h
  cases h with
  | @absolute names hnames =>
    rcases names.eq_nil_or_concat' with rfl | ⟨front, name, rfl⟩
    · obtain ⟨rfl, _⟩ := List.append_inj' (hall.trans (List.nil_append _).symm) rfl
      exact .relative 0 (List.forall_mem_nil _)
    · rw [List.map_append, ← List.cons_append] at hall
      obtain ⟨rfl, _⟩ := List.append_inj' hall rfl
      exact .absolute fun other hm => hnames other (by simp [hm])
  | @relative ups names hnames =>
    rcases names.eq_nil_or_concat' with rfl | ⟨front, name, rfl⟩
    · cases ups with
      | zero => simp at hall
      | succ ups =>
        rw [List.map_nil, List.append_nil, List.replicate_succ'] at hall
        obtain ⟨rfl, _⟩ := List.append_inj' hall rfl
        simpa using IsNormal.relative ups (List.forall_mem_nil _)
    · rw [List.map_append, ← List.append_assoc] at hall
      obtain ⟨rfl, _⟩ := List.append_inj' hall rfl
      exact .relative ups fun other hm => hnames other (by simp [hm])

theorem IsNormal.of_append {components others : List Component} (h : IsNormal (components ++ others)) :
    IsNormal components := by
  induction others using List.reverseRecOn with
  | nil => simpa using h
  | append_singleton front last ih =>
    rw [← List.append_assoc] at h
    exact ih h.of_concat

theorem IsPlain.isEntryName_of_components (h : p.IsPlain) {front : List Component}
    (hcomponents : p.components = front ++ names.map .name) : ∀ name ∈ names, IsEntryName name := by
  intro name hm
  refine h.isNormal.isEntryName ?_
  rw [hcomponents]
  exact List.mem_append_right _ (List.mem_map_of_mem hm)

/-- A path spelled plainly has no fillers but those before its first step. -/
theorem IsPlain.exists_pieces (h : p.IsPlain) : ∃ start fillers steps,
    p.pieces = ⟨start, fillers ++ steps.map Component.piece⟩ ∧ fillers.filterMap Component.ofPiece? = [] ∧
      p.components = start.toList ++ steps := by
  have hempty : [([] : Text)].filterMap Component.ofPiece? = [] := rfl
  cases h with
  | @belowRoot name hname =>
    exact ⟨some .root, [[]], [.name name], pieces_belowRoot hname, hempty, components_belowRoot hname⟩
  | @plain components hnormal =>
    rw [hnormal.components_ofComponents]
    cases hnormal with
    | @absolute names hnames =>
      rw [ofComponents_absolute, pieces_absolute]
      by_cases hne : names = []
      · subst hne
        exact ⟨some .root, [[]], [], rfl, hempty, rfl⟩
      · refine ⟨some .root, [], names.map .name, ?_, rfl, rfl⟩
        rw [Text.splitOn_join hne fun name hm => (hnames name hm).noSeparator, map_piece_names]
        rfl
    | @relative ups names hnames =>
      rw [ofComponents_relative, pieces_join fun _ hm => mem_relativePieces hnames hm]
      split
      next hnil =>
        refine ⟨none, [[]], [], rfl, hempty, ?_⟩
        rw [← filterMap_ofPiece?_relative hnames, hnil]
        rfl
      next =>
        refine ⟨none, [], List.replicate ups .up ++ names.map .name, ?_, rfl, rfl⟩
        rw [map_piece_relative]
        rfl

theorem IsPlain.display_of_components (h : p.IsPlain) (hcomponents : p.components = root.components ++ names.map .name)
    (hne : root.components ≠ []) (hnames : names ≠ []) (hentries : ∀ name ∈ names, IsEntryName name) :
    display root p = Text.join "/" names := by
  obtain ⟨start, fillers, steps, hpieces, hfillers, hsteps⟩ := h.exists_pieces
  -- The folder has the start of the path, since it has a component.
  obtain ⟨front, hroot, rfl⟩ : ∃ front, root.components = start.toList ++ front ∧ steps = front ++ names.map .name := by
    rw [hsteps] at hcomponents
    cases start with
    | none => exact ⟨root.components, rfl, hcomponents⟩
    | some component =>
      obtain ⟨first, front, hroot⟩ := List.exists_cons_of_ne_nil hne
      rw [hroot] at hcomponents
      obtain ⟨rfl, hrest⟩ := List.cons.inj hcomponents
      exact ⟨front, hroot, hrest⟩
  have hread : (front.map Component.piece).filterMap Component.ofPiece? = front := by
    have hself : p.components = start.toList ++ (front ++ names.map .name) := hsteps
    rw [components, hpieces, List.append_cancel_left_eq, List.filterMap_append, hfillers, List.nil_append,
      List.map_append, map_piece_names, List.filterMap_append, filterMap_ofPiece?_names hentries,
      List.append_cancel_right_eq] at hself
    exact hself
  have hsplit : p.pieces = ⟨start, (fillers ++ front.map Component.piece) ++ names⟩ := by
    rw [hpieces, List.map_append, map_piece_names, List.append_assoc]
  refine display_of_pieces hsplit ?_ hne hnames hentries
  rw [List.filterMap_append, hfillers, List.nil_append, hread, hroot]

theorem display_of_not_isNormal (h : IsNormal p.components) (hroot : ¬ IsNormal root.components)
    (hp : p.spelling ≠ []) : display root p = p.spelling := by
  have hne : root.components ≠ [] := by
    intro he
    rw [he] at hroot
    exact hroot (.relative 0 (List.forall_mem_nil _))
  have hstarts : ¬ root.components.isPrefixOf p.components = true := by
    rw [List.isPrefixOf_iff_prefix]
    rintro ⟨others, he⟩
    rw [← he] at h
    exact hroot h.of_append
  have hrelative : p.relativeTo? root = none := by simp [relativeTo?, hne, hstarts]
  simp [display, hrelative, hp]

/-- From the folder, files below it are shown without it: its components are normal, or lead nowhere. -/
def showsBelow (root : Path) : Bool := root.isNormalized || root.normalize.components.isEmpty

theorem IsPlain.spelling_eq_iff (h : p.IsPlain) {front : List Component}
    (hcomponents : p.components = front ++ names.map .name) : p.spelling = Text.join "/" names ↔ front = [] := by
  constructor
  · intro he
    have hentries : ∀ name ∈ names, IsEntryName name := h.isEntryName_of_components hcomponents
    have hnormal : IsNormal (names.map Component.name) := .relative 0 hentries
    have hp : p = ofComponents (names.map .name) := by
      rw [ofComponents_names]
      exact congrArg Path.mk he
    rw [hp, hnormal.components_ofComponents] at hcomponents
    exact List.append_left_eq_self.1 hcomponents.symm
  · rintro rfl
    rw [List.nil_append] at hcomponents
    cases h with
    | plain hnormal =>
      rw [hnormal.components_ofComponents] at hcomponents
      rw [hcomponents, ofComponents_names]
      rfl
    | belowRoot hname =>
      rw [components_belowRoot hname] at hcomponents
      cases names with
      | nil => cases hcomponents
      | cons name rest => cases hcomponents

/-- **A plain path below a folder is shown by the names from there, or as it is**, as the spelling of the folder
has it. -/
theorem IsPlain.display_eq (h : p.IsPlain) (hroot : root.components ≠ []) (hnames : names ≠ [])
    (hbelow : p.components = root.normalize.components ++ names.map .name) :
    display root p = if root.showsBelow then Text.join "/" names else p.spelling := by
  have hentries := h.isEntryName_of_components hbelow
  have hspelling : p.spelling ≠ [] := by
    intro he
    have hp : p = ⟨[]⟩ := congrArg Path.mk he
    have hnil : p.components = [] := by rw [hp]; rfl
    rw [hnil] at hbelow
    exact hnames (List.map_eq_nil_iff.1 (List.append_eq_nil_iff.1 hbelow.symm).2)
  by_cases hnormal : IsNormal root.components
  · have hshows : root.showsBelow = true := by simp [showsBelow, isNormalized_iff.2 hnormal]
    rw [hnormal.components_normalize] at hbelow
    rw [if_pos hshows, h.display_of_components hbelow hroot hnames hentries]
  · rw [display_of_not_isNormal h.isNormal hnormal hspelling]
    split
    next hshows =>
      have hnone : root.normalize.components = [] := by
        rw [showsBelow, Bool.or_eq_true, isNormalized_iff, List.isEmpty_iff] at hshows
        exact hshows.resolve_left hnormal
      exact (h.spelling_eq_iff hbelow).2 hnone
    next => rfl

theorem IsPlain.display_eq_join_iff (h : p.IsPlain) (hroot : root.components ≠ []) (hnames : names ≠ [])
    (hbelow : p.components = root.normalize.components ++ names.map .name) :
    display root p = Text.join "/" names ↔ root.showsBelow = true := by
  rw [h.display_eq hroot hnames hbelow]
  cases hshows : root.showsBelow with
  | true => simp
  | false =>
    have hfront : root.normalize.components ≠ [] := by
      intro hnone
      simp [showsBelow, hnone] at hshows
    simpa using mt (h.spelling_eq_iff hbelow).1 hfront

end ApiCoverage.Path
