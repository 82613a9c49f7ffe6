/-
The steps of a path: its components without the root or the `.` that may start it.

Joining two paths puts the steps of the one after those of the other (`steps_join`), and the folder
of a file has the steps of the file but for the last (`exists_parent?`), however the paths
are spelled. A relative path has the normal form of its steps.
-/
import ApiCoverage.Proofs.NormalPath
import ApiCoverage.Proofs.Words

namespace ApiCoverage.Path

variable {p q : Path}

/-- The components that the pieces of a path between separators stand for. -/
def steps (p : Path) : List Component := (Text.splitOn '/' p.spelling).filterMap Component.ofPiece?

/-! ## Steps and components -/

theorem isAbsolute_eq_false_iff : p.isAbsolute = false ↔ p.spelling.head? ≠ some '/' := by
  rw [isAbsolute, beq_eq_false_iff_ne]

theorem pieces_of_relative (h : p.isAbsolute = false) :
    (p.pieces.start = none ∧ Text.splitOn '/' p.spelling = p.pieces.rest) ∨
      (p.pieces.start = some .here ∧ Text.splitOn '/' p.spelling = ['.'] :: p.pieces.rest) := by
  unfold pieces
  split
  next body hbody =>
    rw [isAbsolute_eq_false_iff, hbody] at h
    exact absurd rfl h
  · split
    next rest hrest => exact .inr ⟨rfl, hrest⟩
    · exact .inl ⟨rfl, rfl⟩

theorem filterMap_pieces_of_relative (h : p.isAbsolute = false) :
    p.pieces.rest.filterMap Component.ofPiece? = p.steps := by
  have hdot : Component.ofPiece? ['.'] = none := rfl
  rcases pieces_of_relative h with ⟨_, hsplit⟩ | ⟨_, hsplit⟩
  · rw [steps, hsplit]
  · rw [steps, hsplit, List.filterMap_cons, hdot]

/-- A relative path has its steps as components, and perhaps a `.` before them. -/
theorem components_of_relative (h : p.isAbsolute = false) :
    p.components = p.steps ∨ p.components = .here :: p.steps := by
  rw [components, filterMap_pieces_of_relative h]
  rcases pieces_of_relative h with ⟨hstart, _⟩ | ⟨hstart, _⟩
  · exact .inl (by rw [hstart]; rfl)
  · exact .inr (by rw [hstart]; rfl)

/-- The `.` before the steps does not count for the normal form. -/
theorem foldl_pushComponent_of_relative (h : p.isAbsolute = false) (stack : List Component) :
    p.components.foldl pushComponent stack = p.steps.foldl pushComponent stack := by
  have hhere : pushComponent stack .here = stack := by cases stack <;> rfl
  rcases components_of_relative h with he | he
  · rw [he]
  · rw [he, List.foldl_cons, hhere]

/-- A path that ends in a name has a step. -/
theorem steps_ne_nil (h : p.isAbsolute = false) (hname : p.fileName?.isSome = true) : p.steps ≠ [] := by
  intro hnil
  rcases components_of_relative h with he | he
  · simp [fileName?, he, hnil] at hname
  · simp [fileName?, he, hnil] at hname

/-! ## Joined paths -/

theorem splitOn_append_separator (before after : Text) :
    Text.splitOn '/' (before ++ '/' :: after) = Text.splitOn '/' before ++ Text.splitOn '/' after := by
  obtain ⟨pieces, last, hpieces⟩ := Text.exists_splitOn_concat '/' before
  have hafter : Text.splitOn '/' ('/' :: after) = [] :: Text.splitOn '/' after :=
    Text.splitOn_append_cons List.not_mem_nil after
  rw [Text.splitOn_append hpieces hafter, hpieces]
  simp

theorem steps_append_separator (before after : Text) :
    steps ⟨before ++ '/' :: after⟩ = steps ⟨before⟩ ++ steps ⟨after⟩ := by
  rw [steps, splitOn_append_separator, List.filterMap_append]
  rfl

/-- **A joined path takes the steps of its two parts.** -/
theorem steps_join (hq : q.isAbsolute = false) : (p.join q).steps = p.steps ++ q.steps := by
  obtain ⟨text⟩ := p
  unfold join
  rw [if_neg (by simp [hq])]
  split
  next hnone =>
    obtain rfl : text = [] := List.getLast?_eq_none_iff.1 hnone
    rfl
  next hlast =>
    obtain ⟨before, rfl⟩ := List.getLast?_eq_some_iff.1 hlast
    have hempty : steps ⟨[]⟩ = [] := rfl
    rw [List.append_assoc, List.singleton_append, steps_append_separator, steps_append_separator, hempty,
      List.append_nil]
  next => exact steps_append_separator text q.spelling

theorem isAbsolute_join (hp : p.isAbsolute = false) (hq : q.isAbsolute = false) : (p.join q).isAbsolute = false := by
  obtain ⟨text⟩ := p
  rw [isAbsolute_eq_false_iff] at hp
  unfold join
  rw [if_neg (by simp [hq])]
  cases text with
  | nil => exact hq
  | cons c rest =>
    split
    next hnone => cases List.getLast?_eq_none_iff.1 hnone
    next => exact isAbsolute_eq_false_iff.2 hp
    next => exact isAbsolute_eq_false_iff.2 hp

/-! ## The folder of a file -/

theorem steps_join_pieces {pieces : List Text} (h : ∀ piece ∈ pieces, '/' ∉ piece) :
    steps ⟨Text.join ['/'] pieces⟩ = pieces.filterMap Component.ofPiece? := by
  by_cases hne : pieces = []
  · subst hne
    rfl
  · rw [steps, Text.splitOn_join hne h]

theorem filterMap_dropFillers (pieces : List Text) :
    (dropFillers pieces).filterMap Component.ofPiece? = pieces.filterMap Component.ofPiece? := by
  induction pieces using List.reverseRecOn with
  | nil => rfl
  | append_singleton front last ih =>
    have hconcat : dropFillers (front ++ [last]) = if isFiller last then dropFillers front else front ++ [last] :=
      List.rdropWhile_concat ..
    rw [hconcat]
    split
    next hfiller =>
      have hnone : Component.ofPiece? last = none := by simpa [isFiller] using hfiller
      simp [ih, hnone]
    next => rfl

theorem isPrefix_dropFillers (pieces : List Text) : dropFillers pieces <+: pieces := List.rdropWhile_prefix ..

/-- The last piece that is not dropped stands for a component. -/
theorem filterMap_dropLast_dropFillers (pieces : List Text) :
    (dropFillers pieces).dropLast.filterMap Component.ofPiece? = (pieces.filterMap Component.ofPiece?).dropLast := by
  rw [← filterMap_dropFillers pieces]
  rcases (dropFillers pieces).eq_nil_or_concat' with hnil | ⟨front, last, hconcat⟩
  · rw [hnil]
    rfl
  · have hlast : isFiller last = false := by
      have hnot := List.rdropWhile_last_not isFiller pieces (show dropFillers pieces ≠ [] by simp [hconcat])
      have hget : (List.rdropWhile isFiller pieces) = front ++ [last] := hconcat
      simpa [hget] using hnot
    obtain ⟨component, hcomponent⟩ : ∃ component, Component.ofPiece? last = some component :=
      Option.isSome_iff_exists.1 (by simpa [isFiller] using hlast)
    simp [hconcat, hcomponent]

theorem isPrefix_join {front pieces : List Text} (h : front <+: pieces) (separator : Text) :
    Text.join separator front <+: Text.join separator pieces := by
  obtain ⟨more, rfl⟩ := h
  induction front with
  | nil => exact List.nil_prefix
  | cons piece others ih =>
    cases others with
    | nil =>
      cases more with
      | nil => exact List.prefix_rfl
      | cons next more =>
        refine ⟨separator ++ Text.join separator (next :: more), ?_⟩
        simp only [List.singleton_append, Text.join, List.append_assoc]
    | cons next others => exact (List.prefix_append_right_inj _).2 ih

theorem isAbsolute_of_isPrefix (h : p.spelling <+: q.spelling) (hq : q.isAbsolute = false) : p.isAbsolute = false := by
  obtain ⟨more, hmore⟩ := h
  rw [isAbsolute_eq_false_iff] at hq ⊢
  intro hhead
  rw [← hmore, List.head?_append, hhead] at hq
  exact hq rfl

/-- The first pieces of a relative path make a relative path, with the steps that they stand for. -/
theorem steps_ofPieces (hp : p.isAbsolute = false) {front : List Text} (hstarts : front <+: p.pieces.rest) :
    (ofPieces ⟨p.pieces.start, front⟩).isAbsolute = false ∧
      (ofPieces ⟨p.pieces.start, front⟩).steps = front.filterMap Component.ofPiece? := by
  have hpieces : ∀ piece ∈ front, '/' ∉ piece := fun piece hm => not_mem_of_mem_pieces (hstarts.subset hm)
  rcases pieces_of_relative hp with ⟨hstart, hsplit⟩ | ⟨hstart, _⟩
  · rw [hstart]
    refine ⟨isAbsolute_of_isPrefix ?_ hp, ?_⟩
    · rw [← Text.join_splitOn '/' p.spelling, hsplit]
      exact isPrefix_join hstarts ['/']
    · rw [← steps_join_pieces hpieces]
      rfl
  -- The `.` at the start stands alone where no piece follows it.
  · have hhere : steps ⟨['.']⟩ = [] := rfl
    rw [hstart]
    by_cases hnil : front = []
    · subst hnil
      exact ⟨rfl, hhere⟩
    · have hspelling : ofPieces ⟨some .here, front⟩ = ⟨['.'] ++ '/' :: Text.join ['/'] front⟩ := by
        simp only [ofPieces, List.isEmpty_iff, if_neg hnil]
        rfl
      rw [hspelling]
      refine ⟨rfl, ?_⟩
      rw [steps_append_separator, hhere, List.nil_append, steps_join_pieces hpieces]

theorem parent?_eq (h : dropFillers p.pieces.rest ≠ []) :
    p.parent? = some (ofPieces ⟨p.pieces.start, dropFillers (dropFillers p.pieces.rest).dropLast⟩) := by
  unfold parent?
  split
  next hnil => exact absurd hnil h
  next piece others hcons => rw [hcons]

/-- **The folder of a file has the steps of the file but for the last.** -/
theorem exists_parent? (hp : p.isAbsolute = false) (hsteps : p.steps ≠ []) :
    ∃ folder, p.parent? = some folder ∧ folder.isAbsolute = false ∧ folder.steps = p.steps.dropLast := by
  have hfilter := filterMap_pieces_of_relative hp
  have hsome : dropFillers p.pieces.rest ≠ [] := by
    intro hnil
    have hdropped := filterMap_dropFillers p.pieces.rest
    rw [hnil, hfilter] at hdropped
    exact hsteps hdropped.symm
  have hstarts : dropFillers (dropFillers p.pieces.rest).dropLast <+: p.pieces.rest :=
    ((isPrefix_dropFillers _).trans ( List.dropLast_prefix _)).trans (isPrefix_dropFillers _)
  obtain ⟨hrelative, hfront⟩ := steps_ofPieces hp hstarts
  refine ⟨_, parent?_eq hsome, hrelative, ?_⟩
  rw [hfront, filterMap_dropFillers, filterMap_dropLast_dropFillers, hfilter]

end ApiCoverage.Path
