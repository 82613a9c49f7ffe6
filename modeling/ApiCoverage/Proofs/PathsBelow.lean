/-
The paths of what lies below a folder.

A name is put after the pieces of the folder's path, in the place of an empty last piece if there is one
(`pieces_join_entry`). So however the folder is spelled, the path of a way down has the components of the
folder and then the names, and leads from the place of the folder to the place at the end of the names.
-/
import ApiCoverage.Proofs.NormalWalk
import ApiCoverage.Proofs.Relocation
import ApiCoverage.Proofs.SymbolOrder

namespace ApiCoverage

open ApiCoverage.Path (Component IsEntryName pushComponent isFiller)

namespace Path

variable {p : Path} {name : Text} {names : List Text}

/-! ## One name below a folder -/

/-- The pieces that a name is put after: an empty one at the end makes room for it. -/
def room (pieces : List Text) : List Text := if pieces.getLast? = some [] then pieces.dropLast else pieces

theorem room_concat_nil (pieces : List Text) : room (pieces ++ [[]]) = pieces := by simp [room]

theorem room_concat (pieces : List Text) {last : Text} (h : last ≠ []) :
    room (pieces ++ [last]) = pieces ++ [last] := by
  simp [room, h]

theorem filterMap_room (pieces : List Text) :
    (room pieces).filterMap Component.ofPiece? = pieces.filterMap Component.ofPiece? := by
  rcases pieces.eq_nil_or_concat' with rfl | ⟨front, last, rfl⟩
  · rfl
  · by_cases hlast : last = []
    · have hempty : Component.ofPiece? [] = none := rfl
      rw [hlast, room_concat_nil]
      simp [hempty]
    · rw [room_concat front hlast]

/-- Text that does not end in a separator has no empty piece at its end. -/
theorem room_splitOn {text : Text} {c : Char} (hlast : text.getLast? = some c) (hc : c ≠ '/') :
    room (Text.splitOn '/' text) = Text.splitOn '/' text := by
  obtain ⟨before, rfl⟩ := List.getLast?_eq_some_iff.1 hlast
  obtain ⟨pieces, last, hpieces⟩ := Text.exists_splitOn_concat '/' before
  have hsingle : Text.splitOn '/' [c] = [[c]] := Text.splitOn_eq_singleton (by simpa using hc.symm)
  rw [Text.splitOn_append hpieces hsingle]
  exact room_concat pieces (by simp)

theorem splitOn_join_entry (hname : IsEntryName name) (text : Text) :
    Text.splitOn '/' ((⟨text⟩ : Path).join ⟨name⟩).spelling = room (Text.splitOn '/' text) ++ [name] := by
  have hsingle : Text.splitOn '/' name = [name] := Text.splitOn_eq_singleton hname.noSeparator
  unfold join
  rw [if_neg (by simp [hname.isAbsolute])]
  split
  next hnone =>
    obtain rfl : text = [] := List.getLast?_eq_none_iff.1 hnone
    exact hsingle
  next hlast =>
    obtain ⟨before, rfl⟩ := List.getLast?_eq_some_iff.1 hlast
    have hempty : Text.splitOn '/' [] = [[]] := rfl
    rw [List.append_assoc, List.singleton_append, splitOn_append_separator, splitOn_append_separator, hempty,
      room_concat_nil, hsingle]
  next c hc hlast => rw [splitOn_append_separator, hsingle, room_splitOn hlast hc]

theorem room_cons (first : Text) {rest : List Text} (h : rest ≠ []) : room (first :: rest) = first :: room rest := by
  obtain ⟨front, last, rfl⟩ := rest.eq_nil_or_concat'.resolve_left h
  by_cases hlast : last = []
  · rw [hlast, ← List.cons_append, room_concat_nil, room_concat_nil]
  · rw [← List.cons_append, room_concat _ hlast, room_concat _ hlast, List.cons_append]

theorem pieces_of_isAbsolute (h : p.isAbsolute = true) :
    p.pieces.start = some .root ∧ p.pieces.rest ≠ [] ∧ Text.splitOn '/' p.spelling = [] :: p.pieces.rest := by
  obtain ⟨text⟩ := p
  obtain ⟨body, rfl⟩ := List.head?_eq_some_iff.1 (beq_iff_eq.1 h)
  rw [pieces_absolute]
  exact ⟨rfl, Text.splitOn_ne_nil _ _, Text.splitOn_append_cons List.not_mem_nil body⟩

/-- The pieces of a relative path, from those between its separators. -/
def relativeOf : List Text → Pieces
  | ['.'] :: rest => ⟨some .here, rest⟩
  | pieces => ⟨none, pieces⟩

theorem pieces_eq_relativeOf (h : p.isAbsolute = false) : p.pieces = relativeOf (Text.splitOn '/' p.spelling) := by
  obtain ⟨text⟩ := p
  cases text with
  | nil => rfl
  | cons c rest =>
    have hc : c ≠ '/' := by simpa [isAbsolute] using h
    unfold pieces
    split
    next body hbody => exact absurd (List.cons.inj hbody).1 hc
    next => rfl

theorem relativeOf_cons_of_ne {first : Text} (h : first ≠ ['.']) (rest : List Text) :
    relativeOf (first :: rest) = ⟨none, first :: rest⟩ := by
  unfold relativeOf
  split
  next he => exact absurd (List.cons.inj he).1 h
  next => rfl

/-- Only the empty path has no component. -/
theorem spelling_eq_nil (h : p.components = []) : p.spelling = [] := by
  obtain ⟨text⟩ := p
  cases text with
  | nil => rfl
  | cons c rest =>
    cases habs : (⟨c :: rest⟩ : Path).isAbsolute with
    | true =>
      rw [components_of_absolute habs] at h
      cases h
    | false =>
      obtain ⟨first, others, hsplit⟩ := List.exists_cons_of_ne_nil (Text.splitOn_ne_nil '/' rest)
      have hc : (c == '/') = false := by simpa [isAbsolute] using habs
      have hpieces := pieces_eq_relativeOf habs
      simp only [Text.splitOn_cons, hc, hsplit, Bool.false_eq_true, if_false, List.modifyHead_cons] at hpieces
      by_cases hhere : c :: first = ['.']
      · rw [components, hpieces, hhere] at h
        cases h
      · rw [components, hpieces, relativeOf_cons_of_ne hhere] at h
        have hnone : Component.ofPiece? (c :: first) = none := List.filterMap_eq_nil_iff.1 h _ List.mem_cons_self
        unfold Component.ofPiece? at hnone
        split at hnone
        next hfiller => exact absurd (by simpa using hfiller) hhere
        next => split at hnone <;> cases hnone

theorem relativeOf_room (hname : IsEntryName name) (pieces : List Text) :
    relativeOf (room pieces ++ [name]) = ⟨(relativeOf pieces).start, room (relativeOf pieces).rest ++ [name]⟩ := by
  cases pieces with
  | nil => exact relativeOf_cons_of_ne hname.notHere []
  | cons first rest =>
    by_cases hrest : rest = []
    · subst hrest
      by_cases hhere : first = ['.']
      · subst hhere
        rfl
      · by_cases hempty : first = []
        · subst hempty
          exact relativeOf_cons_of_ne hname.notHere []
        · rw [relativeOf_cons_of_ne hhere, ← List.nil_append [first], room_concat [] hempty]
          exact relativeOf_cons_of_ne hhere [name]
    · rw [room_cons first hrest, List.cons_append]
      by_cases hhere : first = ['.']
      · subst hhere
        rfl
      · rw [relativeOf_cons_of_ne hhere, relativeOf_cons_of_ne hhere, room_cons first hrest, List.cons_append]

/-- **The pieces of an entry of a folder**, however the folder is spelled. -/
theorem pieces_join_entry (hname : IsEntryName name) (p : Path) :
    (p.join ⟨name⟩).pieces = ⟨p.pieces.start, room p.pieces.rest ++ [name]⟩ := by
  have hsplit := splitOn_join_entry hname p.spelling
  have habs : (p.join ⟨name⟩).isAbsolute = p.isAbsolute := isAbsolute_join_eq hname.isAbsolute
  cases hp : p.isAbsolute with
  | false => rw [pieces_eq_relativeOf (habs.trans hp), hsplit, relativeOf_room hname, ← pieces_eq_relativeOf hp]
  | true =>
    obtain ⟨hstart, hne, hpieces⟩ := pieces_of_isAbsolute hp
    obtain ⟨hstart', _, hpieces'⟩ := pieces_of_isAbsolute (habs.trans hp)
    have hrest : (p.join ⟨name⟩).pieces.rest = room p.pieces.rest ++ [name] := by
      rw [hpieces, room_cons [] hne, List.cons_append] at hsplit
      exact (List.cons.inj (hpieces'.symm.trans hsplit)).2
    rw [hstart, ← hrest, ← hstart']

theorem components_join_entry (hname : IsEntryName name) (p : Path) :
    (p.join ⟨name⟩).components = p.components ++ [.name name] := by
  simp only [components, pieces_join_entry hname, List.filterMap_append, filterMap_room, List.append_assoc]
  rw [List.filterMap_cons, hname.ofPiece?]
  rfl

theorem fileName?_join_entry (hname : IsEntryName name) (p : Path) : (p.join ⟨name⟩).fileName? = some name := by
  simp [fileName?, components_join_entry hname]

/-! ## A way down from a folder -/

/-- The path at the end of the names from a folder down. -/
def descend (p : Path) (names : List Text) : Path := names.foldl (fun folder name => folder.join ⟨name⟩) p

theorem descend_concat (p : Path) (names : List Text) (name : Text) :
    p.descend (names ++ [name]) = (p.descend names).join ⟨name⟩ := by
  rw [descend, List.foldl_append]
  rfl

theorem pieces_descend (hne : names ≠ []) (h : ∀ name ∈ names, IsEntryName name) (p : Path) :
    (p.descend names).pieces = ⟨p.pieces.start, room p.pieces.rest ++ names⟩ := by
  induction names using List.reverseRecOn with
  | nil => exact absurd rfl hne
  | append_singleton front last ih =>
    have hfront : ∀ name ∈ front, IsEntryName name := fun name hm => h name (by simp [hm])
    rw [descend_concat, pieces_join_entry (h last (by simp))]
    rcases front.eq_nil_or_concat' with rfl | ⟨before, name, rfl⟩
    · rfl
    -- A name in front is not empty, so it keeps its place.
    · have hname : name ≠ [] := (h name (by simp)).nonempty
      rw [ih (by simp) hfront]
      simp only [← List.append_assoc]
      rw [room_concat _ hname]

theorem components_descend (h : ∀ name ∈ names, IsEntryName name) (p : Path) :
    (p.descend names).components = p.components ++ names.map .name := by
  induction names generalizing p with
  | nil => simp [descend]
  | cons name rest ih =>
    have hrest := ih (fun other hm => h other (by simp [hm])) (p.join ⟨name⟩)
    rw [components_join_entry (h name (by simp))] at hrest
    simpa [descend] using hrest

theorem descend_inj {names others : List Text} (h : ∀ name ∈ names, IsEntryName name)
    (hothers : ∀ name ∈ others, IsEntryName name) (he : p.descend names = p.descend others) : names = others := by
  have hcomponents := congrArg components he
  rw [components_descend h, components_descend hothers, List.append_cancel_left_eq] at hcomponents
  exact List.map_injective_iff.2 (fun _ _ => Component.name.inj) hcomponents

theorem isAbsolute_descend (h : ∀ name ∈ names, IsEntryName name) (p : Path) :
    (p.descend names).isAbsolute = p.isAbsolute := by
  induction names generalizing p with
  | nil => rfl
  | cons name rest ih =>
    have hrest := ih (fun other hm => h other (by simp [hm])) (p.join ⟨name⟩)
    rwa [isAbsolute_join_eq (h name (by simp)).isAbsolute] at hrest

theorem steps_entry (hname : IsEntryName name) : steps ⟨name⟩ = [.name name] := by
  simp [steps, Text.splitOn_eq_singleton hname.noSeparator, hname.ofPiece?]

theorem steps_descend (h : ∀ name ∈ names, IsEntryName name) (p : Path) :
    (p.descend names).steps = p.steps ++ names.map .name := by
  induction names generalizing p with
  | nil => simp [descend]
  | cons name rest ih =>
    have hname := h name (by simp)
    have hrest := ih (fun other hm => h other (by simp [hm])) (p.join ⟨name⟩)
    rw [steps_join hname.isAbsolute, steps_entry hname] at hrest
    simpa [descend] using hrest

theorem endsPlain_descend (hne : names ≠ []) (h : ∀ name ∈ names, IsEntryName name) (p : Path) :
    (p.descend names).EndsPlain := by
  obtain ⟨front, last, rfl⟩ := names.eq_nil_or_concat'.resolve_left hne
  refine ⟨room p.pieces.rest ++ front, last, ?_, isFiller_of_isEntryName (h last (by simp))⟩
  rw [pieces_descend hne h, List.append_assoc]

theorem components_normalize_descend (h : ∀ name ∈ names, IsEntryName name) (p : Path) :
    (p.descend names).normalize.components = p.normalize.components ++ names.map .name := by
  have hbase : (p.descend names).base = p.base := by rw [base, base, isAbsolute_descend h]
  rw [components_normalize_eq, components_normalize_eq, stack, hbase, steps_descend h, List.foldl_append,
    foldl_pushComponent_names, List.reverse_append, List.reverse_reverse]
  rfl

theorem normalize_descend_congr {q : Path} (h : ∀ name ∈ names, IsEntryName name) (hsame : p.normalize = q.normalize) :
    (p.descend names).normalize = (q.descend names).normalize := by
  rw [← ofComponents_components_normalize (p.descend names), components_normalize_descend h, hsame,
    ← components_normalize_descend h, ofComponents_components_normalize]

/-- Paths from one folder down are in the order of their names. -/
theorem compare_descend {names others : List Text} (h : ∀ name ∈ names, IsEntryName name)
    (hothers : ∀ name ∈ others, IsEntryName name) (p : Path) :
    (p.descend names).compare (p.descend others) =
      compareComponents (names.map .name) (others.map .name) := by
  have hfront : ∀ front : List Component, compareComponents (front ++ names.map .name) (front ++ others.map .name) =
      compareComponents (names.map .name) (others.map .name) := by
    intro front
    induction front with
    | nil => rfl
    | cons component rest ih =>
      have hself : component.compare component = .eq := Component.compare_eq_iff.2 rfl
      rw [List.cons_append, List.cons_append, compareComponents, hself]
      exact ih
  rw [compare, components_descend h, components_descend hothers, hfront]

end Path

/-! ## Walking down from a folder -/

namespace Disk

variable {disk : Disk} {top spot : Spot} {p q : Path} {names : List Text}

/-- A way down is walked from the place of the folder. -/
theorem walkBy_descend (h : ∀ name ∈ names, IsEntryName name) (hwalkBy : disk.walkBy top p = .ok spot) :
    disk.walkBy top (p.descend names) = disk.steps (topOf top p) spot names := by
  have hpieces : (names.map Component.name).map Component.piece = names := Path.map_piece_names names
  rw [walkBy] at hwalkBy
  rw [walkBy, topOf, startOf, Path.isAbsolute_descend h, Path.steps_descend h, List.map_append, hpieces, ← topOf,
    ← startOf, steps_append, hwalkBy]
  rfl

/-- **What lies below a folder is found under the names that lead to it.** -/
theorem find_descend (hne : names ≠ []) (h : ∀ name ∈ names, IsEntryName name) {location : Location}
    (hwalk : disk.walk p = .ok (.inside location)) {node : Node}
    (hnode : disk.root.get? (location ++ names) = some node) : disk.find (p.descend names) = .ok node := by
  refine find_eq_ok_iff.2 ⟨.inside (location ++ names), ?_, hnode⟩
  rw [walk_eq_walkBy disk (Path.endsPlain_descend hne h p), walkBy_descend h (walkBy_of_walk hwalk)]
  exact steps_of_get? _ h (by rw [hnode]; rfl)

/-- Paths with one normal form lead to the same place, where they lead anywhere. -/
theorem walk_congr (hsame : p.normalize = q.normalize) {other : Spot} (hp : disk.walk p = .ok spot)
    (hq : disk.walk q = .ok other) : spot = other := by
  have hnormal := walkBy_normalize (walkBy_of_walk hp)
  rw [hsame, walkBy_normalize (walkBy_of_walk hq)] at hnormal
  exact (Except.ok.inj hnormal).symm

/-- Folders with one normal form have the same entries. -/
theorem find_descend_congr (hne : names ≠ []) (h : ∀ name ∈ names, IsEntryName name) (hsame : p.normalize = q.normalize)
    {other : Spot} (hp : disk.walk p = .ok spot) (hq : disk.walk q = .ok other) :
    disk.find (p.descend names) = disk.find (q.descend names) := by
  have habs : p.isAbsolute = q.isAbsolute := by rw [← p.isAbsolute_normalize, hsame, q.isAbsolute_normalize]
  obtain rfl := walk_congr hsame hp hq
  rw [find, find, walk_eq_walkBy disk (Path.endsPlain_descend hne h p),
    walk_eq_walkBy disk (Path.endsPlain_descend hne h q), walkBy_descend h (walkBy_of_walk hp),
    walkBy_descend h (walkBy_of_walk hq), topOf, topOf, habs]

end Disk
end ApiCoverage
