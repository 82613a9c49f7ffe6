/-
Normal paths: the root or any number of `..`, then names. `normalize` brings
every path to this form and leaves a path in this form as it is; and what a
module specifier resolves to has its components in this form, so that a file
met through an export statement is known by the same components as the file
that tracing then enters.
-/
import ApiCoverage.Disk.Resolution
import ApiCoverage.Proofs.TextFacts

namespace ApiCoverage.Path

/-- A text that names an entry of a folder. -/
structure IsEntryName (text : Text) : Prop where
  nonempty : text ≠ []
  notHere : text ≠ ['.']
  notUp : text ≠ ['.', '.']
  noSeparator : '/' ∉ text

instance (text : Text) : Decidable (IsEntryName text) :=
  decidable_of_iff (text ≠ [] ∧ text ≠ ['.'] ∧ text ≠ ['.', '.'] ∧ '/' ∉ text)
    ⟨fun ⟨nonempty, notHere, notUp, noSeparator⟩ => ⟨nonempty, notHere, notUp, noSeparator⟩,
      fun h => ⟨h.nonempty, h.notHere, h.notUp, h.noSeparator⟩⟩

/-- Components in normal form. -/
inductive IsNormal : List Component → Prop where
  | absolute {names : List Text} (h : ∀ name ∈ names, IsEntryName name) :
    IsNormal (.root :: names.map .name)
  | relative (ups : Nat) {names : List Text} (h : ∀ name ∈ names, IsEntryName name) :
    IsNormal (List.replicate ups .up ++ names.map .name)

theorem IsEntryName.ofPiece? {text : Text} (h : IsEntryName text) :
    Component.ofPiece? text = some (.name text) := by
  simp [Component.ofPiece?, h.nonempty, h.notHere, h.notUp]

theorem filterMap_ofPiece?_names {names : List Text} (h : ∀ name ∈ names, IsEntryName name) :
    names.filterMap Component.ofPiece? = names.map .name := by
  rw [← List.filterMap_eq_map]
  exact List.filterMap_congr fun name hm => (h name hm).ofPiece?

/-! ## Reading back the plain spelling -/

/-- The pieces of a normal relative path. -/
def relativePieces (ups : Nat) (names : List Text) : List Text :=
  List.replicate ups ['.', '.'] ++ names

theorem map_piece_names (names : List Text) :
    (names.map Component.name).map Component.piece = names := by
  simp [Component.piece, Function.comp_def]

theorem map_piece_relative (ups : Nat) (names : List Text) :
    (List.replicate ups Component.up ++ names.map Component.name).map Component.piece =
      relativePieces ups names := by
  rw [List.map_append, map_piece_names, List.map_replicate]
  rfl

theorem ofComponents_absolute (names : List Text) :
    ofComponents (.root :: names.map .name) = ⟨'/' :: Text.join ['/'] names⟩ := by
  simp only [ofComponents, map_piece_names]
  rfl

theorem ofComponents_relative (ups : Nat) (names : List Text) :
    ofComponents (List.replicate ups .up ++ names.map .name) =
      ⟨Text.join ['/'] (relativePieces ups names)⟩ := by
  rw [ofComponents, map_piece_relative]
  · rfl
  · cases ups <;> cases names <;> simp [List.replicate_succ]

theorem pieces_absolute (body : Text) :
    (⟨'/' :: body⟩ : Path).pieces = ⟨some .root, Text.splitOn '/' body⟩ := rfl

theorem mem_relativePieces {ups : Nat} {names : List Text} {piece : Text}
    (h : ∀ name ∈ names, IsEntryName name) (hp : piece ∈ relativePieces ups names) :
    piece = ['.', '.'] ∨ IsEntryName piece := by
  rcases List.mem_append.1 hp with hp | hp
  · exact .inl (List.eq_of_mem_replicate hp)
  · exact .inr (h piece hp)

theorem splitOn_join_pieces {texts : List Text} (hne : texts ≠ [])
    (h : ∀ piece ∈ texts, piece = ['.', '.'] ∨ IsEntryName piece) :
    Text.splitOn '/' (Text.join ['/'] texts) = texts := by
  refine Text.splitOn_join hne fun piece hp => ?_
  rcases h piece hp with rfl | hp
  · decide
  · exact hp.noSeparator

/-- No piece of a normal relative path is empty, so the path does not start
with a separator. -/
theorem join_pieces_ne_separator {texts : List Text}
    (h : ∀ piece ∈ texts, piece = ['.', '.'] ∨ IsEntryName piece) (body : Text) :
    Text.join ['/'] texts ≠ '/' :: body := by
  intro he
  cases texts with
  | nil => cases he
  | cons first others =>
    have hsplit := splitOn_join_pieces (by simp) h
    rw [he] at hsplit
    simp only [Text.splitOn, Text.pieces, beq_self_eq_true, if_true, List.cons.injEq] at hsplit
    rcases h first (by simp) with hf | hf
    · exact absurd (hsplit.1.trans hf) (by simp)
    · exact hf.nonempty hsplit.1.symm

theorem pieces_join {texts : List Text}
    (h : ∀ piece ∈ texts, piece = ['.', '.'] ∨ IsEntryName piece) :
    (⟨Text.join ['/'] texts⟩ : Path).pieces = ⟨none, if texts = [] then [[]] else texts⟩ := by
  cases texts with
  | nil => rfl
  | cons first others =>
    have hfirst : first ≠ ['.'] := by
      rcases h first (by simp) with rfl | hf
      · decide
      · exact hf.notHere
    rw [pieces]
    split
    · next body he => exact absurd he (join_pieces_ne_separator h body)
    · rw [splitOn_join_pieces (by simp) h]
      split
      · next he => exact absurd (List.cons.inj he).1 hfirst
      · simp

theorem filterMap_ofPiece?_relative {ups : Nat} {names : List Text}
    (h : ∀ name ∈ names, IsEntryName name) :
    (relativePieces ups names).filterMap Component.ofPiece? =
      List.replicate ups .up ++ names.map .name := by
  have hup : Component.ofPiece? ['.', '.'] = some .up := by decide
  rw [relativePieces, List.filterMap_append, filterMap_ofPiece?_names h,
    List.filterMap_replicate_of_some hup]

/-- The plain spelling of a normal list of components has these components. -/
theorem IsNormal.components_ofComponents {components : List Component} (h : IsNormal components) :
    (ofComponents components).components = components := by
  cases h with
  | @absolute names hn =>
    rw [ofComponents_absolute, Path.components, pieces_absolute]
    cases names with
    | nil => rfl
    | cons first others =>
      rw [Text.splitOn_join (by simp) fun piece hp => (hn piece hp).noSeparator]
      simp only [filterMap_ofPiece?_names hn, Option.toList_some, List.singleton_append]
  | @relative ups names hn =>
    rw [ofComponents_relative, Path.components, pieces_join fun _ hp => mem_relativePieces hn hp]
    simp only [Option.toList_none, List.nil_append]
    split
    · next he =>
      rw [← filterMap_ofPiece?_relative hn, he]
      rfl
    · exact filterMap_ofPiece?_relative hn

/-! ## Every path has a normal form -/

theorem IsNormal.concat_name {components : List Component} (h : IsNormal components) {name : Text}
    (hn : IsEntryName name) : IsNormal (components ++ [.name name]) := by
  have hall : ∀ {names : List Text}, (∀ other ∈ names, IsEntryName other) →
      ∀ other ∈ names ++ [name], IsEntryName other := by
    intro names hnames other hm
    rcases List.mem_append.1 hm with hm | hm
    · exact hnames other hm
    · rw [List.mem_singleton.1 hm]
      exact hn
  cases h with
  | absolute hnames => simpa using IsNormal.absolute (hall hnames)
  | relative ups hnames => simpa using IsNormal.relative ups (hall hnames)

/-- What a piece of a path adds to the components read so far. -/
def IsStep (component : Component) : Prop :=
  component = .up ∨ ∃ name, component = .name name ∧ IsEntryName name

theorem pushComponent_name (stack : List Component) (name : Text) :
    pushComponent stack (.name name) = .name name :: stack := by
  cases stack with
  | nil => rfl
  | cons top below => cases top <;> rfl

theorem pushComponent_up_ups (ups : Nat) :
    pushComponent (List.replicate ups .up) .up = List.replicate (ups + 1) .up := by
  cases ups <;> rfl

theorem pushComponent_isNormal {stack : List Component} {component : Component}
    (h : IsNormal stack.reverse) (hc : IsStep component) :
    IsNormal (pushComponent stack component).reverse := by
  obtain ⟨components, rfl⟩ : ∃ components, stack = components.reverse := ⟨stack.reverse, by simp⟩
  rw [List.reverse_reverse] at h
  rcases hc with rfl | ⟨name, rfl, hname⟩
  -- `..` takes back the last name, if there is one.
  · cases h with
    | @absolute names hn =>
      rcases names.eq_nil_or_concat' with rfl | ⟨front, last, rfl⟩
      · exact .absolute hn
      · have hfront := IsNormal.absolute fun name hm => hn name (List.mem_append_left _ hm)
        simpa [pushComponent] using hfront
    | @relative ups names hn =>
      rcases names.eq_nil_or_concat' with rfl | ⟨front, last, rfl⟩
      · have hups := IsNormal.relative (ups + 1) hn
        simpa [pushComponent_up_ups] using hups
      · have hfront := IsNormal.relative ups fun name hm => hn name (List.mem_append_left _ hm)
        simpa [pushComponent] using hfront
  · rw [pushComponent_name, List.reverse_cons, List.reverse_reverse]
    exact h.concat_name hname

theorem foldl_pushComponent_isNormal {components stack : List Component}
    (hc : ∀ component ∈ components, IsStep component) (h : IsNormal stack.reverse) :
    IsNormal (components.foldl pushComponent stack).reverse := by
  induction components generalizing stack with
  | nil => exact h
  | cons component rest ih =>
    exact ih (fun other hm => hc other (by simp [hm]))
      (pushComponent_isNormal h (hc component (by simp)))

theorem ofPiece?_isStep {piece : Text} {component : Component} (hp : '/' ∉ piece)
    (h : Component.ofPiece? piece = some component) : IsStep component := by
  unfold Component.ofPiece? at h
  split at h
  · cases h
  next hfill =>
  simp only [Bool.or_eq_true, List.isEmpty_iff, beq_iff_eq, not_or] at hfill
  split at h
  · exact .inl (Option.some.inj h).symm
  next hup =>
  refine .inr ⟨piece, (Option.some.inj h).symm, hfill.1, ?_, ?_, hp⟩
  · simpa using hfill.2
  · simpa using hup

theorem mem_splitOn_of_mem_pieces {p : Path} {piece : Text} (h : piece ∈ p.pieces.rest) :
    piece ∈ Text.splitOn '/' p.spelling := by
  unfold pieces at h
  split at h
  next body hspelling =>
    rw [hspelling]
    exact List.mem_cons_of_mem _ h
  next =>
    split at h
    next he => exact he ▸ List.mem_cons_of_mem _ h
    next => exact h

theorem not_mem_of_mem_pieces {p : Path} {piece : Text} (h : piece ∈ p.pieces.rest) :
    '/' ∉ piece :=
  Text.not_mem_of_mem_splitOn (mem_splitOn_of_mem_pieces h)

theorem pieces_start (p : Path) :
    p.pieces.start = none ∨ p.pieces.start = some .root ∨ p.pieces.start = some .here := by
  unfold pieces
  split
  · simp
  · split <;> simp

/-- Every path has its normal form. -/
theorem isNormal_normalComponents (p : Path) : IsNormal (normalComponents p.components) := by
  have hsteps : ∀ component ∈ p.pieces.rest.filterMap Component.ofPiece?, IsStep component := by
    intro component hm
    obtain ⟨piece, hp, hc⟩ := List.mem_filterMap.1 hm
    exact ofPiece?_isStep (not_mem_of_mem_pieces hp) hc
  have hempty : IsNormal ([] : List Component).reverse := @IsNormal.relative 0 [] (by simp)
  have hroot : IsNormal [Component.root].reverse := @IsNormal.absolute [] (by simp)
  rw [normalComponents, components, List.foldl_append]
  rcases pieces_start p with hs | hs | hs <;> rw [hs]
  · exact foldl_pushComponent_isNormal hsteps hempty
  · exact foldl_pushComponent_isNormal hsteps hroot
  · exact foldl_pushComponent_isNormal hsteps hempty

theorem components_normalize (p : Path) : p.normalize.components = normalComponents p.components :=
  (isNormal_normalComponents p).components_ofComponents

theorem isNormal_components_normalize (p : Path) : IsNormal p.normalize.components := by
  rw [components_normalize]
  exact isNormal_normalComponents p

theorem ofComponents_components_normalize (p : Path) : ofComponents p.normalize.components = p.normalize := by
  rw [components_normalize, normalize]

/-! ## Normal components stay as they are -/

theorem foldl_pushComponent_names (names : List Text) (stack : List Component) :
    (names.map .name).foldl pushComponent stack = (names.map .name).reverse ++ stack := by
  induction names generalizing stack with
  | nil => rfl
  | cons name rest ih => simp [pushComponent_name, ih]

theorem foldl_pushComponent_ups (ups done : Nat) :
    (List.replicate ups Component.up).foldl pushComponent (List.replicate done .up) =
      List.replicate (ups + done) .up := by
  induction ups generalizing done with
  | zero => simp
  | succ ups ih =>
    rw [List.replicate_succ, List.foldl_cons, pushComponent_up_ups, ih]
    congr 1
    omega

theorem IsNormal.normalComponents_eq {components : List Component} (h : IsNormal components) :
    normalComponents components = components := by
  cases h with
  | @absolute names hn =>
    have hnames := foldl_pushComponent_names names [.root]
    simp [normalComponents, pushComponent, hnames]
  | @relative ups names hn =>
    have hups := foldl_pushComponent_ups ups 0
    simp only [List.replicate_zero, Nat.add_zero] at hups
    rw [normalComponents, List.foldl_append, hups, foldl_pushComponent_names]
    simp

/-- A path whose components are normal names the same file as its normal form. -/
theorem IsNormal.components_normalize {p : Path} (h : IsNormal p.components) :
    p.normalize.components = p.components := by
  rw [Path.components_normalize, h.normalComponents_eq]

/-- Normalizing the path leaves its components as they are. -/
def isNormalized (p : Path) : Bool := p.normalize.same p

theorem isNormalized_iff {p : Path} : p.isNormalized = true ↔ IsNormal p.components := by
  constructor
  · intro h
    rw [← beq_iff_eq.1 h]
    exact p.isNormal_components_normalize
  · intro h
    exact beq_iff_eq.2 h.components_normalize

/-! ## What a specifier resolves to -/

theorem IsEntryName.append_extension {text suffix : Text} (ht : '/' ∉ text) (hs : '/' ∉ suffix)
    (hlen : 3 ≤ suffix.length) : IsEntryName (text ++ suffix) := by
  have hlong : 3 ≤ (text ++ suffix).length := by
    rw [List.length_append]
    omega
  refine ⟨?_, ?_, ?_, by simp [ht, hs]⟩ <;> intro he <;> simp [he] at hlong

/-- How resolution spells a file: plainly, but for a second separator right below the root. -/
inductive IsPlain : Path → Prop where
  | plain {components : List Component} (h : IsNormal components) : IsPlain (ofComponents components)
  | belowRoot {name : Text} (h : IsEntryName name) : IsPlain ⟨'/' :: '/' :: name⟩

theorem pieces_belowRoot {name : Text} (h : IsEntryName name) :
    (⟨'/' :: '/' :: name⟩ : Path).pieces = ⟨some .root, [[], name]⟩ := by
  have hsplit : Text.splitOn '/' name = [name] := by
    change Text.splitOn '/' (Text.join ['/'] [name]) = [name]
    exact Text.splitOn_join (by simp) (by simpa using h.noSeparator)
  rw [pieces_absolute, ← hsplit]
  rfl

theorem components_belowRoot {name : Text} (h : IsEntryName name) :
    (⟨'/' :: '/' :: name⟩ : Path).components = [.root, .name name] := by
  have hempty : Component.ofPiece? [] = none := rfl
  simp [Path.components, pieces_belowRoot h, hempty, h.ofPiece?]

theorem IsPlain.isNormal {p : Path} (h : p.IsPlain) : IsNormal p.components := by
  cases h with
  | plain h => exact h.components_ofComponents.symm ▸ h
  | @belowRoot name h =>
    have hnames : ∀ other ∈ [name], IsEntryName other := by simpa using h
    rw [components_belowRoot h]
    exact .absolute hnames

theorem isPlain_normalize (p : Path) : p.normalize.IsPlain := .plain (isNormal_normalComponents p)

/-- An extension put after a normal path goes to its last name, or makes one. -/
theorem IsNormal.append_extension {components : List Component} (h : IsNormal components)
    {suffix : Text} (hs : '/' ∉ suffix) (hlen : 3 ≤ suffix.length) :
    ((ofComponents components).append suffix).IsPlain := by
  suffices hex : ∃ other, IsNormal other ∧ (ofComponents components).append suffix = ofComponents other by
    obtain ⟨other, hother, he⟩ := hex
    rw [he]
    exact .plain hother
  have hname : ∀ {text : Text}, '/' ∉ text → IsEntryName (text ++ suffix) := fun ht =>
    .append_extension ht hs hlen
  have hsuffix : ∀ name ∈ [suffix], IsEntryName name := by
    intro name hm
    rw [List.mem_singleton.1 hm]
    exact hname List.not_mem_nil
  have hlast : ∀ {front : List Text} {last : Text}, (∀ name ∈ front ++ [last], IsEntryName name) →
      ∀ name ∈ front ++ [last ++ suffix], IsEntryName name := by
    intro front last hn name hm
    rcases List.mem_append.1 hm with hm | hm
    · exact hn name (by simp [hm])
    · rw [List.mem_singleton.1 hm]
      exact hname (hn last (by simp)).noSeparator
  cases h with
  | @absolute names hn =>
    rw [ofComponents_absolute, append]
    rcases names.eq_nil_or_concat' with rfl | ⟨front, last, rfl⟩
    · exact ⟨_, .absolute hsuffix, (ofComponents_absolute [suffix]).symm⟩
    · refine ⟨_, .absolute (hlast hn), ?_⟩
      rw [ofComponents_absolute, ← Text.join_concat_append, List.cons_append]
  | @relative ups names hn =>
    rw [ofComponents_relative, append]
    rcases names.eq_nil_or_concat' with rfl | ⟨front, last, rfl⟩
    · cases ups with
      | zero =>
        exact ⟨_, .relative 0 hsuffix, (ofComponents_relative 0 [suffix]).symm⟩
      | succ ups =>
        have hup : ∀ name ∈ [['.', '.'] ++ suffix], IsEntryName name := by
          intro name hm
          rw [List.mem_singleton.1 hm]
          exact hname (by decide)
        refine ⟨_, .relative ups hup, ?_⟩
        rw [ofComponents_relative, relativePieces, relativePieces, List.replicate_succ',
          List.append_nil, Text.join_concat_append]
    · refine ⟨_, .relative ups (hlast hn), ?_⟩
      rw [ofComponents_relative, relativePieces, relativePieces, ← List.append_assoc,
        ← List.append_assoc, Text.join_concat_append]

/-- The path of an entry below a normal path. After the empty path it is
absolute. -/
theorem IsNormal.append_entry {components : List Component} (h : IsNormal components)
    {name : Text} (hname : IsEntryName name) : ((ofComponents components).append ('/' :: name)).IsPlain := by
  have hall : ∀ other ∈ [name], IsEntryName other := by simpa using hname
  cases h with
  | @absolute names hn =>
    rw [ofComponents_absolute, append, List.cons_append]
    by_cases hne : names = []
    · subst hne
      exact .belowRoot hname
    · have hconcat := IsNormal.concat_name (.absolute hn) hname
      have hjoin : Text.join ['/'] names ++ '/' :: name = Text.join ['/'] (names ++ [name]) :=
        (Text.join_concat hne name).symm
      rw [hjoin, ← ofComponents_absolute, List.map_append]
      exact .plain hconcat
  | @relative ups names hn =>
    rw [ofComponents_relative, append]
    by_cases hne : relativePieces ups names = []
    · have hroot := IsPlain.plain (.absolute hall)
      rw [ofComponents_absolute] at hroot
      rw [hne]
      exact hroot
    · have hconcat := IsNormal.concat_name (.relative ups hn) hname
      have hjoin : Text.join ['/'] (relativePieces ups names) ++ '/' :: name =
          Text.join ['/'] (relativePieces ups (names ++ [name])) := by
        have hpieces : relativePieces ups (names ++ [name]) = relativePieces ups names ++ [name] :=
          (List.append_assoc ..).symm
        rw [hpieces]
        exact (Text.join_concat hne name).symm
      rw [hjoin, ← ofComponents_relative, List.map_append, ← List.append_assoc]
      exact .plain hconcat

end ApiCoverage.Path

namespace ApiCoverage

theorem mem_resolutionSuffixes {suffix : Text} (h : suffix ∈ resolutionSuffixes) :
    ('/' ∉ suffix ∧ 3 ≤ suffix.length) ∨ ∃ name, suffix = '/' :: name ∧ Path.IsEntryName name := by
  simp only [resolutionSuffixes, List.mem_cons, List.not_mem_nil, or_false] at h
  rcases h with rfl | rfl | rfl | rfl | rfl | rfl | rfl
  · exact .inl (by decide)
  · exact .inl (by decide)
  · exact .inl (by decide)
  · exact .inl (by decide)
  · exact .inl (by decide)
  · exact .inr ⟨("mod.ts" : Text), by decide, by decide, by decide, by decide, by decide⟩
  · exact .inr ⟨("index.ts" : Text), by decide, by decide, by decide, by decide, by decide⟩

/-- **What a specifier resolves to is spelled plainly**, but for `//mod.ts`, which
`..` resolves to below the root. -/
theorem Disk.resolve?_isPlain {disk : Disk} {importer target : Path} {specifier : Text}
    (h : disk.resolve? importer specifier = some target) : target.IsPlain := by
  unfold resolve? at h
  split at h
  · have hmem := List.mem_of_find?_eq_some h
    have hbase := Path.isNormal_normalComponents
      ((importer.parent?.getD ⟨[]⟩).join ⟨specifier⟩)
    rw [Path.candidates, List.mem_cons, List.mem_map] at hmem
    rcases hmem with rfl | ⟨suffix, hs, rfl⟩
    · exact Path.isPlain_normalize _
    · rcases mem_resolutionSuffixes hs with ⟨hsep, hlen⟩ | ⟨name, rfl, hname⟩
      · exact hbase.append_extension hsep hlen
      · exact hbase.append_entry hname
  · cases h

theorem Disk.resolve?_isNormal {disk : Disk} {importer target : Path} {specifier : Text}
    (h : disk.resolve? importer specifier = some target) : Path.IsNormal target.components :=
  (resolve?_isPlain h).isNormal

end ApiCoverage
