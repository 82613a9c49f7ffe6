/-
Documentation blocks and the lines they belong to.

A block runs from a line that opens one, outside all others, to the first line that
closes it, and belongs to the next line that is not skipped, if that is a declaration.
The scanner goes over the lines once and finds exactly these blocks, each when it
comes to the line that closes it (`bindings_ofLines`). Between a block and its line no
other block opens, so later blocks belong to later lines (`Binds.lt_target`). That is
why the last block whose window covers a line is that of the nearest declaration.
-/
import ApiCoverage.Proofs.Statements
import ApiCoverage.Source.DocMap

namespace ApiCoverage

/-! ## What starts a declaration -/

theorem isDeclarationLine_cons_eq_false {c : Char} (hc : c = '/' ∨ c = '@') (rest : Text) :
    isDeclarationLine (c :: rest) = false := by
  have hblank : isBlank c = false := by
    rcases hc with rfl | rfl
    · rfl
    · rfl
  have hnone : Declaration.explicit? (c :: rest) = none ∧ Declaration.defaultValue? (c :: rest) = none ∧
      Text.startsWith "export" (c :: rest) = false := by
    rcases hc with rfl | rfl
    · exact ⟨rfl, rfl, rfl⟩
    · exact ⟨rfl, rfl, rfl⟩
  obtain ⟨hexplicit, hvalue, hexport⟩ := hnone
  rw [isDeclarationLine, Export.parse?, hexport, Declaration.parse?_eq, Text.trimStart_cons hblank, hexplicit,
    Declaration.defaultExport?, hvalue]
  rfl

/-- A declaration starts neither as a comment nor as a decorator. -/
theorem exists_cons_of_isDeclarationLine {line : Text} (h : isDeclarationLine line = true) :
    ∃ c rest, line = c :: rest ∧ c ≠ '/' ∧ c ≠ '@' := by
  cases line with
  | nil => cases h
  | cons c rest =>
    refine ⟨c, rest, rfl, fun hc => ?_, fun hc => ?_⟩
    · rw [isDeclarationLine_cons_eq_false (.inl hc)] at h
      cases h
    · rw [isDeclarationLine_cons_eq_false (.inr hc)] at h
      cases h

theorem Text.startsWith_cons_of_ne {w c : Char} (hne : c ≠ w) (word rest : Text) :
    Text.startsWith (w :: word) (c :: rest) = false := by
  simp [Text.startsWith, Text.after?, hne.symm]

namespace DocMap

theorem isSkipped_of_isDeclarationLine {line : Text} (h : isDeclarationLine (Text.trim line) = true) :
    isSkipped line = false := by
  obtain ⟨c, rest, hline, hslash, hat⟩ := exists_cons_of_isDeclarationLine h
  have hcomment : Text.startsWith "//" (c :: rest) = false := Text.startsWith_cons_of_ne hslash ['/'] rest
  have hdecorator : Text.startsWith "@" (c :: rest) = false := Text.startsWith_cons_of_ne hat [] rest
  simp only [isSkipped, hline, hcomment, hdecorator]
  rfl

theorem opensBlock_of_isDeclarationLine {line : Text} (h : isDeclarationLine line = true) :
    opensBlock line = false := by
  obtain ⟨c, rest, rfl, hslash, _⟩ := exists_cons_of_isDeclarationLine h
  have hstart : Text.startsWith "/**" (c :: rest) = false := Text.startsWith_cons_of_ne hslash ['*', '*'] rest
  rw [opensBlock, hstart, Bool.false_and]

theorem opensBlock_of_isSkipped {line : Text} (h : isSkipped line = true) : opensBlock (Text.trim line) = false := by
  by_contra hopens
  rw [Bool.not_eq_false, opensBlock, Bool.and_eq_true] at hopens
  obtain ⟨rest, hrest⟩ := Option.isSome_iff_exists.1 hopens.1
  have hline : Text.trim line = '/' :: '*' :: '*' :: rest := Text.after?_eq_some_iff.1 hrest
  simp only [isSkipped, hline] at h
  cases h

/-! ## Blocks -/

/-- A line of a file without the blanks around it. Past the end all lines are empty. -/
def lineAt (lines : List Text) (index : Nat) : Text := Text.trim (lines.getD index [])

/-- The line at `index` closes the block that the line at `first` opens. On the line
that opens the block, the three characters that open it do not count. -/
def closesAt (lines : List Text) (first index : Nat) : Bool :=
  closesBlock (if index = first then (lineAt lines index).drop 3 else lineAt lines index)

/-- The line that has opened the block which is open before the line at an index. -/
def openAt (lines : List Text) : (index : Nat) → Option Nat
  | 0 => none
  | index + 1 =>
    match openAt lines index with
    | some first => if closesAt lines first index then none else some first
    | none => if opensBlock (lineAt lines index) && !closesAt lines index index then some index else none

/-- The lines from `first` to `last` are a block: the first line opens it outside all
other blocks, and the last is the first one that closes it. -/
structure IsBlock (lines : List Text) (first last : Nat) : Prop where
  outside : openAt lines first = none
  opens : opensBlock (lineAt lines first) = true
  le : first ≤ last
  closes : closesAt lines first last = true
  earliest : ∀ index, first ≤ index → index < last → closesAt lines first index = false

/-- The text of a block: its lines without the blanks around them. -/
def blockText (lines : List Text) (first last : Nat) : Text :=
  Text.join "\n" ((List.range' first (last + 1 - first)).map (lineAt lines))

/-- The first line after a block that is not skipped. -/
structure IsNext (lines : List Text) (last target : Nat) : Prop where
  after : last < target
  skipped : ∀ index, last < index → index < target → isSkipped (lines.getD index []) = true
  stops : isSkipped (lines.getD target []) = false

/-- A block belongs to the next line that is not skipped. That is a declaration, and
the block does not document the file as a whole. -/
structure Binds (lines : List Text) (first last target : Nat) : Prop where
  block : IsBlock lines first last
  ofLine : Text.hasWord "@module" (blockText lines first last) = false
  next : IsNext lines last target
  declares : isDeclarationLine (lineAt lines target) = true

section

variable {lines : List Text} {first last target index : Nat}

theorem lineAt_of_length_le (h : lines.length ≤ index) : lineAt lines index = [] := by
  rw [lineAt, List.getD_eq_getElem?_getD, List.getElem?_eq_none h]
  rfl

theorem blockText_self (lines : List Text) (index : Nat) : blockText lines index index = lineAt lines index := by
  rw [blockText, Nat.add_sub_cancel_left]
  rfl

theorem closesAt_self (lines : List Text) (index : Nat) :
    closesAt lines index index = closesBlock ((lineAt lines index).drop 3) := by
  rw [closesAt, if_pos rfl]

theorem closesAt_of_ne (hne : index ≠ first) : closesAt lines first index = closesBlock (lineAt lines index) := by
  rw [closesAt, if_neg hne]

/-- A block is open where it has been opened, outside all others, and not closed since. -/
theorem openAt_eq_some_iff :
    openAt lines index = some first ↔
      first < index ∧ openAt lines first = none ∧ opensBlock (lineAt lines first) = true ∧
        ∀ k, first ≤ k → k < index → closesAt lines first k = false := by
  induction index with
  | zero => simp [openAt]
  | succ index ih =>
    cases hopen : openAt lines index with
    | none =>
      simp only [openAt, hopen]
      constructor
      · intro h
        split at h
        next hopens =>
          obtain rfl := Option.some.inj h
          simp only [Bool.and_eq_true, Bool.not_eq_true'] at hopens
          refine ⟨Nat.lt_succ_self _, hopen, hopens.1, fun k hk hlt => ?_⟩
          obtain rfl : k = index := by omega
          exact hopens.2
        · cases h
      · rintro ⟨hlt, houtside, hopens, hclosed⟩
        obtain rfl : first = index := by
          by_contra hne
          have hearlier := ih.2 ⟨by omega, houtside, hopens, fun k hk hkl => hclosed k hk (by omega)⟩
          rw [hopen] at hearlier
          cases hearlier
        simp [hopens, hclosed first (Nat.le_refl _) hlt]
    | some earlier =>
      simp only [openAt, hopen]
      constructor
      · intro h
        split at h
        · cases h
        next hcloses =>
          obtain rfl := Option.some.inj h
          obtain ⟨hlt, houtside, hopens, hclosed⟩ := ih.1 hopen
          refine ⟨by omega, houtside, hopens, fun k hk hkl => ?_⟩
          by_cases hlast : k = index
          · rw [hlast]
            exact Bool.eq_false_iff.2 hcloses
          · exact hclosed k hk (by omega)
      · rintro ⟨hlt, houtside, hopens, hclosed⟩
        have hne : first ≠ index := by
          rintro rfl
          rw [hopen] at houtside
          cases houtside
        have hearlier := ih.2 ⟨by omega, houtside, hopens, fun k hk hkl => hclosed k hk (by omega)⟩
        obtain rfl := Option.some.inj (hopen.symm.trans hearlier)
        rw [hclosed index (by omega) (Nat.lt_succ_self _)]
        rfl

theorem IsBlock.openAt (h : IsBlock lines first last) (hfirst : first < index) (hlast : index ≤ last) :
    openAt lines index = some first :=
  openAt_eq_some_iff.2 ⟨hfirst, h.outside, h.opens, fun k hk hkl => h.earliest k hk (by omega)⟩

/-- After a block no block is open. -/
theorem IsBlock.openAt_succ (h : IsBlock lines first last) : DocMap.openAt lines (last + 1) = none := by
  by_contra hopen
  obtain ⟨other, hother⟩ := Option.ne_none_iff_exists'.1 hopen
  obtain ⟨hlt, houtside, hopens, hclosed⟩ := openAt_eq_some_iff.1 hother
  rcases Nat.lt_trichotomy first other with hlater | rfl | hearlier
  · rw [h.openAt hlater (by omega)] at houtside
    cases houtside
  · have hcloses := h.closes
    rw [hclosed last h.le (Nat.lt_succ_self _)] at hcloses
    cases hcloses
  · have hinside := openAt_eq_some_iff.2
      ⟨hearlier, houtside, hopens, fun k hk hkl => hclosed k hk (by have := h.le; omega)⟩
    rw [h.outside] at hinside
    cases hinside

/-- A block that closes after another one also opens after it. -/
theorem IsBlock.lt_first {first' last' : Nat} (h : IsBlock lines first last) (h' : IsBlock lines first' last')
    (hlt : last < last') : last < first' := by
  by_contra hle
  have hopen : DocMap.openAt lines (last + 1) = some first' := h'.openAt (by omega) (by omega)
  rw [h.openAt_succ] at hopen
  cases hopen

theorem IsBlock.first_eq {first' : Nat} (h : IsBlock lines first last) (h' : IsBlock lines first' last) :
    first = first' := by
  rcases Nat.lt_trichotomy first first' with hlt | he | hlt
  · have hopen := h.openAt hlt h'.le
    rw [h'.outside] at hopen
    cases hopen
  · exact he
  · have hopen := h'.openAt hlt h.le
    rw [h.outside] at hopen
    cases hopen

theorem IsNext.unique {other : Nat} (h : IsNext lines last target) (h' : IsNext lines last other) :
    target = other := by
  rcases Nat.lt_trichotomy target other with hlt | he | hlt
  · have hskipped := h'.skipped target h.after hlt
    rw [h.stops] at hskipped
    cases hskipped
  · exact he
  · have hskipped := h.skipped other h'.after hlt
    rw [h'.stops] at hskipped
    cases hskipped

/-! ## What the scanner finds -/

/-- The line that opens the block which the line at an index closes. -/
def closedAt? (lines : List Text) (index : Nat) : Option Nat :=
  match openAt lines index with
  | some first => if closesAt lines first index then some first else none
  | none => if opensBlock (lineAt lines index) && closesAt lines index index then some index else none

theorem closedAt?_eq_some_iff : closedAt? lines last = some first ↔ IsBlock lines first last := by
  constructor
  · intro h
    unfold closedAt? at h
    split at h
    next earlier hopen =>
      obtain ⟨hlt, houtside, hopens, hclosed⟩ := openAt_eq_some_iff.1 hopen
      split at h
      next hcloses =>
        obtain rfl := Option.some.inj h
        exact ⟨houtside, hopens, Nat.le_of_lt hlt, hcloses, hclosed⟩
      · cases h
    next hopen =>
      split at h
      next hboth =>
        obtain rfl := Option.some.inj h
        rw [Bool.and_eq_true] at hboth
        exact ⟨hopen, hboth.1, Nat.le_refl _, hboth.2, fun k hk hkl => by omega⟩
      · cases h
  · intro h
    rcases Nat.eq_or_lt_of_le h.le with rfl | hlt
    · simp [closedAt?, h.outside, h.opens, h.closes]
    · simp [closedAt?, h.openAt hlt (Nat.le_refl _), h.closes]

/-- The binding of the block that the line at an index closes. -/
def boundAt? (lines : List Text) (index : Nat) : Option DocBinding :=
  (closedAt? lines index).bind fun first =>
    bind? (blockText lines first index) (index + 1) (lines.drop (index + 1))

/-- The lines so far of the block that is open before the line at an index. -/
def openLines (lines : List Text) (index : Nat) : Option (List Text) :=
  (openAt lines index).map fun first => (List.range' first (index - first)).map (lineAt lines)

/-- **One line** of the scanner: it finds the block that the line closes. -/
theorem scan_drop (h : index < lines.length) :
    scan index (openLines lines index) (lines.drop index) =
      (boundAt? lines index).toList ++ scan (index + 1) (openLines lines (index + 1)) (lines.drop (index + 1)) := by
  have hline : Text.trim lines[index] = lineAt lines index := by
    rw [lineAt, List.getD_eq_getElem?_getD, List.getElem?_eq_getElem h]
    rfl
  rw [List.drop_eq_getElem_cons h]
  cases hopen : openAt lines index with
  | some first =>
    obtain ⟨hlt, -⟩ := openAt_eq_some_iff.1 hopen
    have hcloses : closesAt lines first index = closesBlock (lineAt lines index) :=
      closesAt_of_ne (Nat.ne_of_gt hlt)
    have htext : (List.range' first (index + 1 - first)).map (lineAt lines) =
        (List.range' first (index - first)).map (lineAt lines) ++ [lineAt lines index] := by
      have hsize : index + 1 - first = index - first + 1 := by omega
      have hlast : first + 1 * (index - first) = index := by omega
      rw [hsize, List.range'_concat, hlast, List.map_append, List.map_singleton]
    simp only [scan, openLines, hopen, Option.map_some, boundAt?, closedAt?, openAt, hcloses, blockText, hline]
    split
    · rw [Option.bind_some, htext]
      rfl
    · rw [Option.map_some, htext]
      rfl
  | none =>
    simp only [scan, openLines, hopen, Option.map_none, boundAt?, closedAt?, openAt, closesAt_self, hline]
    cases opensBlock (lineAt lines index) with
    | false => rfl
    | true =>
      cases closesBlock ((lineAt lines index).drop 3) with
      | false => simp
      | true => simp [blockText_self]

/-- The scanner finds the blocks that the remaining lines close, in order. -/
theorem scan_eq (lines : List Text) (index : Nat) :
    scan index (openLines lines index) (lines.drop index) =
      (List.range' index (lines.length - index)).filterMap (boundAt? lines) := by
  induction hn : lines.length - index generalizing index with
  | zero =>
    rw [List.drop_eq_nil_of_le (by omega)]
    cases openLines lines index with
    | none => rfl
    | some earlier => rfl
  | succ n ih =>
    rw [scan_drop (by omega), ih (index + 1) (by omega), List.range'_succ, List.filterMap_cons]
    cases boundAt? lines index with
    | none => rfl
    | some binding => rfl

theorem bindings_ofLines (lines : List Text) :
    (ofLines lines).bindings = (List.range lines.length).filterMap (boundAt? lines) := by
  rw [List.range_eq_range']
  exact scan_eq lines 0

/-! ## Bindings -/

theorem getD_add_of_drop {start : Nat} {front : List Text} {line : Text} {tail : List Text}
    (h : lines.drop start = front ++ line :: tail) : lines.getD (start + front.length) [] = line := by
  rw [List.getD_eq_getElem?_getD, ← List.getElem?_drop, h]
  simp

theorem getD_mem_of_drop {start : Nat} {front tail : List Text} (h : lines.drop start = front ++ tail)
    (hstart : start ≤ index) (hindex : index < start + front.length) : lines.getD index [] ∈ front := by
  obtain ⟨k, rfl⟩ := Nat.exists_eq_add_of_le hstart
  have hk : k < front.length := by omega
  rw [List.getD_eq_getElem?_getD, ← List.getElem?_drop, h, List.getElem?_append_left hk,
    List.getElem?_eq_getElem hk]
  exact List.getElem_mem hk

/-- The scanner looks for the next line that is not skipped. -/
theorem isNext_of_dropWhile {line : Text} {tail : List Text}
    (h : (lines.drop (last + 1)).dropWhile isSkipped = line :: tail) :
    IsNext lines last (last + 1 + ((lines.drop (last + 1)).takeWhile isSkipped).length) ∧
      lines.getD (last + 1 + ((lines.drop (last + 1)).takeWhile isSkipped).length) [] = line := by
  have hsplit := List.takeWhile_append_dropWhile (p := isSkipped) (l := lines.drop (last + 1))
  rw [h] at hsplit
  have hline := getD_add_of_drop hsplit.symm
  refine ⟨⟨by omega, fun index hlast hindex => ?_, ?_⟩, hline⟩
  · exact List.mem_takeWhile_imp (getD_mem_of_drop hsplit.symm hlast hindex)
  · have hhead := List.head?_dropWhile_not isSkipped (lines.drop (last + 1))
    rw [hline]
    simpa [h] using hhead

theorem not_isNext_of_dropWhile (h : (lines.drop (last + 1)).dropWhile isSkipped = []) :
    ¬ IsNext lines last target := by
  intro hnext
  have hafter := hnext.after
  have hall : isSkipped (lines.getD target []) = true := by
    by_cases hinside : target < lines.length
    · refine List.dropWhile_eq_nil_iff.1 h _ ?_
      exact getD_mem_of_drop (List.append_nil _).symm hafter (by rw [List.length_drop]; omega)
    · rw [List.getD_eq_getElem?_getD, List.getElem?_eq_none (by omega)]
      rfl
  rw [hnext.stops] at hall
  cases hall

/-- What a block with a given text is bound to. -/
theorem bind?_drop_eq_some_iff {text : Text} {binding : DocBinding} :
    bind? text (last + 1) (lines.drop (last + 1)) = some binding ↔
      Text.hasWord "@module" text = false ∧ binding.text = text ∧ IsNext lines last binding.target ∧
        isDeclarationLine (lineAt lines binding.target) = true := by
  unfold bind?
  cases hmodule : Text.hasWord "@module" text with
  | true => simp
  | false =>
    cases hdrop : (lines.drop (last + 1)).dropWhile isSkipped with
    | nil => simp [not_isNext_of_dropWhile hdrop]
    | cons line tail =>
      obtain ⟨hnext, hline⟩ := isNext_of_dropWhile hdrop
      simp only [Bool.false_eq_true, if_false, true_and]
      constructor
      · intro h
        split at h
        next hdeclares =>
          obtain rfl := Option.some.inj h
          refine ⟨rfl, hnext, ?_⟩
          rw [lineAt, hline]
          exact hdeclares
        · cases h
      · rintro ⟨rfl, htarget, hdeclares⟩
        rw [lineAt, htarget.unique hnext, hline] at hdeclares
        rw [if_pos hdeclares, ← htarget.unique hnext]

theorem boundAt?_eq_some_iff {binding : DocBinding} :
    boundAt? lines last = some binding ↔
      ∃ first, Binds lines first last binding.target ∧ binding.text = blockText lines first last := by
  simp only [boundAt?, Option.bind_eq_some_iff, closedAt?_eq_some_iff, bind?_drop_eq_some_iff]
  refine exists_congr fun first => ⟨?_, ?_⟩
  · rintro ⟨hblock, hmodule, htext, hnext, hdeclares⟩
    exact ⟨⟨hblock, hmodule, hnext, hdeclares⟩, htext⟩
  · rintro ⟨⟨hblock, hmodule, hnext, hdeclares⟩, htext⟩
    exact ⟨hblock, hmodule, htext, hnext, hdeclares⟩

theorem IsBlock.lt_length (h : IsBlock lines first last) : last < lines.length := by
  by_contra hle
  have hcloses := h.closes
  rw [closesAt, lineAt_of_length_le (by omega), List.drop_nil, ite_self] at hcloses
  cases hcloses

/-- The documentation of a file holds the blocks that belong to a line. -/
theorem mem_bindings_iff {binding : DocBinding} :
    binding ∈ (ofLines lines).bindings ↔
      ∃ first last, Binds lines first last binding.target ∧ binding.text = blockText lines first last := by
  simp only [bindings_ofLines, List.mem_filterMap, List.mem_range, boundAt?_eq_some_iff]
  constructor
  · rintro ⟨last, _, first, h⟩
    exact ⟨first, last, h⟩
  · rintro ⟨first, last, h⟩
    exact ⟨last, h.1.block.lt_length, first, h⟩

/-! ## Bound lines -/

/-- From a block to its line no other block opens. -/
theorem Binds.outside (h : Binds lines first last target) (hlast : last < index) (htarget : index ≤ target) :
    openAt lines index = none ∧ opensBlock (lineAt lines index) = false := by
  have hplain : ∀ index, last < index → index ≤ target → opensBlock (lineAt lines index) = false := by
    intro index hlast htarget
    rcases Nat.eq_or_lt_of_le htarget with rfl | hlt
    · exact opensBlock_of_isDeclarationLine h.declares
    · exact opensBlock_of_isSkipped (h.next.skipped index hlast hlt)
  refine ⟨?_, hplain index hlast htarget⟩
  induction index, hlast using Nat.le_induction with
  | base => exact h.block.openAt_succ
  | succ index hlast ih =>
    rw [openAt, ih (by omega)]
    simp [hplain index hlast (by omega)]

/-- Later blocks belong to later lines. -/
theorem Binds.lt_target {first' last' target' : Nat} (h : Binds lines first last target)
    (h' : Binds lines first' last' target') (hlt : last < last') : target < target' := by
  have hfirst := h.block.lt_first h'.block hlt
  have hle := h'.block.le
  have hafter := h'.next.after
  by_contra hge
  have hplain := (h.outside hfirst (by omega)).2
  rw [h'.block.opens] at hplain
  cases hplain

/-- A line has one block at most. -/
theorem Binds.unique {first' last' : Nat} (h : Binds lines first last target)
    (h' : Binds lines first' last' target) : first = first' ∧ last = last' := by
  have hlast : last = last' := by
    rcases Nat.lt_trichotomy last last' with hlt | he | hlt
    · exact absurd (h.lt_target h' hlt) (Nat.lt_irrefl _)
    · exact he
    · exact absurd (h'.lt_target h hlt) (Nat.lt_irrefl _)
  subst hlast
  exact ⟨h.block.first_eq h'.block, rfl⟩

theorem pairwise_bindings (lines : List Text) :
    (ofLines lines).bindings.Pairwise fun a b => a.target < b.target := by
  rw [bindings_ofLines, List.pairwise_filterMap]
  refine List.pairwise_lt_range.imp fun {last last'} hlt binding hbinding other hother => ?_
  obtain ⟨first, hbinds, _⟩ := boundAt?_eq_some_iff.1 hbinding
  obtain ⟨first', hbinds', _⟩ := boundAt?_eq_some_iff.1 hother
  exact hbinds.lt_target hbinds' hlt

end

/-! ## Documented lines -/

theorem covers_iff {binding : DocBinding} {index : Nat} :
    binding.covers index = true ↔ binding.target ≤ index ∧ index ≤ binding.target + 5 :=
  decide_eq_true_iff

/-- Where targets increase, the last binding that covers a line is the one with the
nearest target. -/
theorem getLast?_filter_covers {bindings : List DocBinding} {binding : DocBinding} {index : Nat}
    (hsorted : bindings.Pairwise fun a b => a.target < b.target)
    (h : (bindings.filter (·.covers index)).getLast? = some binding) :
    binding ∈ bindings ∧ binding.covers index = true ∧
      ∀ other ∈ bindings, other.target ≤ index → other.target ≤ binding.target := by
  obtain ⟨front, hfront⟩ := List.getLast?_eq_some_iff.1 h
  have hm : binding ∈ bindings.filter (·.covers index) := by simp [hfront]
  obtain ⟨hmem, hcovers⟩ := List.mem_filter.1 hm
  refine ⟨hmem, hcovers, fun other hother hle => ?_⟩
  by_contra hgt
  have hwindow := (covers_iff.1 hcovers).2
  have hcovered : other ∈ front ++ [binding] := by
    rw [← hfront]
    exact List.mem_filter.2 ⟨hother, covers_iff.2 ⟨hle, by omega⟩⟩
  have hpairs := hsorted.filter (·.covers index)
  rw [hfront, List.pairwise_append] at hpairs
  rcases List.mem_append.1 hcovered with hearlier | hlast
  · have hlt := hpairs.2.2 other hearlier binding (List.mem_singleton_self _)
    omega
  · rw [List.mem_singleton.1 hlast] at hgt
    omega

/-- Some block belongs to the line. -/
def IsBound (lines : List Text) (target : Nat) : Prop := ∃ first last, Binds lines first last target

section

variable {lines : List Text} {target index : Nat}

theorem isBound_iff : IsBound lines target ↔ ∃ binding ∈ (ofLines lines).bindings, binding.target = target := by
  constructor
  · rintro ⟨first, last, h⟩
    exact ⟨⟨target, blockText lines first last⟩, mem_bindings_iff.2 ⟨first, last, h, rfl⟩, rfl⟩
  · rintro ⟨binding, hm, rfl⟩
    obtain ⟨first, last, h, _⟩ := mem_bindings_iff.1 hm
    exact ⟨first, last, h⟩

/-- A line is documented if it is in the window of a line that has a block. -/
theorem isSome_get?_iff :
    ((ofLines lines).get? index).isSome = true ↔
      index < lines.length ∧ ∃ target, IsBound lines target ∧ target ≤ index ∧ index ≤ target + 5 := by
  unfold get?
  by_cases hindex : index < lines.length
  · have hsize : index < (ofLines lines).size := hindex
    rw [if_pos hsize, Option.isSome_map, List.getLast?_isSome, and_iff_right hindex]
    constructor
    · intro hne
      obtain ⟨binding, hm⟩ := List.exists_mem_of_ne_nil _ hne
      obtain ⟨hmem, hcovers⟩ := List.mem_filter.1 hm
      exact ⟨binding.target, isBound_iff.2 ⟨binding, hmem, rfl⟩, covers_iff.1 hcovers⟩
    · rintro ⟨target, hbound, hwindow⟩
      obtain ⟨binding, hmem, rfl⟩ := isBound_iff.1 hbound
      exact List.ne_nil_of_mem (List.mem_filter.2 ⟨hmem, covers_iff.2 hwindow⟩)
  · have hsize : ¬ index < (ofLines lines).size := hindex
    simp [hsize, hindex]

theorem exists_binds_of_get? {text : Text} (h : (ofLines lines).get? index = some text) :
    ∃ first last target, Binds lines first last target ∧ target ≤ index ∧
      (∀ other, IsBound lines other → other ≤ index → other ≤ target) ∧ text = blockText lines first last := by
  unfold get? at h
  split at h
  · obtain ⟨binding, hlast, rfl⟩ := Option.map_eq_some_iff.1 h
    obtain ⟨hm, hcovers, hnearest⟩ := getLast?_filter_covers (pairwise_bindings lines) hlast
    obtain ⟨first, last, hbinds, htext⟩ := mem_bindings_iff.1 hm
    refine ⟨first, last, binding.target, hbinds, (covers_iff.1 hcovers).1, fun other hbound hle => ?_, htext⟩
    obtain ⟨earlier, hearlier, rfl⟩ := isBound_iff.1 hbound
    exact hnearest earlier hearlier hle
  · cases h

end

/-- **The documentation of a file.** A line is documented if it is a line that has a
block, or one of the five lines after such a line, and its documentation is the block
of the nearest. A line that has a block lies outside all blocks, closed or not, and
has only that one. -/
theorem get?_ofLines (lines : List Text) :
    (∀ index, ((ofLines lines).get? index).isSome = true ↔
      index < lines.length ∧ ∃ target, IsBound lines target ∧ target ≤ index ∧ index ≤ target + 5) ∧
    (∀ index text, (ofLines lines).get? index = some text →
      ∃ first last target, Binds lines first last target ∧ target ≤ index ∧
        (∀ other, IsBound lines other → other ≤ index → other ≤ target) ∧ text = blockText lines first last) ∧
    ∀ target, IsBound lines target →
      openAt lines target = none ∧
      (∀ first last, IsBlock lines first last → target < first ∨ last < target) ∧
      ∃! block : Nat × Nat, Binds lines block.1 block.2 target := by
  refine ⟨fun index => isSome_get?_iff, fun index text => exists_binds_of_get?, ?_⟩
  rintro target ⟨first, last, h⟩
  obtain ⟨houtside, hplain⟩ := h.outside h.next.after (Nat.le_refl _)
  refine ⟨houtside, fun first' last' hblock => ?_, (first, last), h, fun block hblock => ?_⟩
  · by_contra hinside
    rcases Nat.eq_or_lt_of_le (show first' ≤ target by omega) with rfl | hlt
    · rw [hblock.opens] at hplain
      cases hplain
    · rw [hblock.openAt hlt (by omega)] at houtside
      cases houtside
  · obtain ⟨hfirst, hlast⟩ := h.unique hblock
    exact Prod.ext hfirst.symm hlast.symm

/-- A file with a block on one line, one for the file as a whole, and one on two lines
with a comment between it and its declaration. -/
def threeBlocks : List Text :=
  ["/** A. */", "export const a = 1", "  /** @module */", "/** B.", " */", "// b", "const b = 2", "b"]

/-- The second declaration is in the window of the first, which ends there, and has
its own block. -/
theorem get?_threeBlocks :
    (ofLines threeBlocks).toList.map (·.1) = [1, 2, 3, 4, 5, 6, 7] ∧
    (ofLines threeBlocks).get? 5 = some "/** A. */" ∧
    (ofLines threeBlocks).get? 6 = some "/** B.\n*/" ∧
    ∃! block : Nat × Nat, Binds threeBlocks block.1 block.2 6 := by
  have hbound : IsBound threeBlocks 6 := isBound_iff.2 ⟨⟨6, "/** B.\n*/"⟩, by decide +kernel, rfl⟩
  obtain ⟨-, -, hone⟩ := get?_ofLines threeBlocks
  exact ⟨by decide +kernel, by decide +kernel, by decide +kernel, (hone 6 hbound).2.2⟩

end DocMap
end ApiCoverage
