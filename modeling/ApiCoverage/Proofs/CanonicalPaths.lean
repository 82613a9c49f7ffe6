/-
The normal form of a path is canonical.

`normalize` reads the steps of a path onto a stack that starts with the root, or empty. So joined paths
push the steps of the second onto the stack of the first (`stack_join`), and normalizing the first before
they are joined changes nothing. A path keeps its components exactly if it has no `.`, and `..` only at
its start and not below the root.
-/
import ApiCoverage.Proofs.PathSteps

namespace ApiCoverage.Path

variable {p q : Path}

/-! ## The stack of a path -/

/-- What the components of a path start from: the root, if it is absolute. -/
def base (p : Path) : List Component := if p.isAbsolute then [.root] else []

/-- The components of the normal form, the last of which comes first. -/
def stack (p : Path) : List Component := p.steps.foldl pushComponent p.base

theorem isStep_of_mem_steps {component : Component} (h : component ∈ p.steps) : IsStep component := by
  obtain ⟨piece, hpiece, hcomponent⟩ := List.mem_filterMap.1 h
  exact ofPiece?_isStep (Text.not_mem_of_mem_splitOn hpiece) hcomponent

theorem IsStep.ne_root {component : Component} (h : IsStep component) : component ≠ .root := by
  rintro rfl
  rcases h with h | ⟨_, h, _⟩ <;> cases h

theorem components_of_absolute (h : p.isAbsolute = true) : p.components = .root :: p.steps := by
  obtain ⟨text⟩ := p
  obtain ⟨body, rfl⟩ := List.head?_eq_some_iff.1 (beq_iff_eq.1 h)
  have hsplit : Text.splitOn '/' ('/' :: body) = [] :: Text.splitOn '/' body :=
    Text.splitOn_append_cons List.not_mem_nil body
  have hempty : Component.ofPiece? [] = none := rfl
  simp [components, pieces_absolute, steps, hsplit, hempty]

/-- Without a `.` at the start, the components of a path are the root, if it is absolute, and its steps. -/
theorem components_eq (h : .here ∉ p.components) : p.components = p.base ++ p.steps := by
  cases habs : p.isAbsolute with
  | true => simp [base, habs, components_of_absolute habs]
  | false =>
    rcases components_of_relative habs with he | he
    · simp [base, habs, he]
    · simp [he] at h

theorem isAbsolute_eq_head? (p : Path) : p.isAbsolute = (p.components.head? == some .root) := by
  cases habs : p.isAbsolute with
  | true => simp [components_of_absolute habs]
  | false =>
    have hroot : p.steps.head? ≠ some .root := fun hhead =>
      (isStep_of_mem_steps (List.mem_of_head? hhead)).ne_root rfl
    rcases components_of_relative habs with he | he
    · simp [he, hroot]
    · simp [he]

/-- The normal form is what the steps leave on the stack. -/
theorem normalComponents_components (p : Path) : normalComponents p.components = p.stack.reverse := by
  cases habs : p.isAbsolute with
  | true => simp [normalComponents, components_of_absolute habs, stack, base, habs, pushComponent]
  | false => simp [normalComponents, foldl_pushComponent_of_relative habs, stack, base, habs]

theorem components_normalize_eq (p : Path) : p.normalize.components = p.stack.reverse := by
  rw [components_normalize, normalComponents_components]

theorem normalize_eq_iff : p.normalize = q.normalize ↔ p.stack = q.stack := by
  constructor
  · intro h
    have hcomponents := congrArg components h
    rwa [components_normalize_eq, components_normalize_eq, List.reverse_inj] at hcomponents
  · intro h
    rw [normalize, normalize, normalComponents_components, normalComponents_components, h]

theorem normalize_normalize (p : Path) : p.normalize.normalize = p.normalize := by
  have hnormal := p.isNormal_components_normalize
  rw [normalize, hnormal.normalComponents_eq, ofComponents_components_normalize]

/-! ## The root below the stack -/

/-- **What a step does to the stack**, with the root below it or nothing: it stays there, takes back the
last name, or is dropped at the root. -/
theorem pushComponent_cases {stack bottom : List Component} {component : Component}
    (hbottom : bottom = [] ∨ bottom = [.root]) (hstack : ∀ c ∈ stack, IsStep c) (hc : IsStep component) :
    pushComponent (stack ++ bottom) component = component :: stack ++ bottom ∨
      (component = .up ∧ ∃ name below, IsEntryName name ∧ stack = .name name :: below ∧
        pushComponent (stack ++ bottom) component = below ++ bottom) ∨
      (component = .up ∧ stack = [] ∧ bottom = [.root] ∧ pushComponent (stack ++ bottom) component = bottom) := by
  rcases hc with rfl | ⟨name, rfl, hname⟩
  · cases stack with
    | nil =>
      rcases hbottom with rfl | rfl
      · exact .inl rfl
      · exact .inr (.inr ⟨rfl, rfl, rfl, rfl⟩)
    | cons last below =>
      rcases hstack last (by simp) with rfl | ⟨name, rfl, hname⟩
      · exact .inl rfl
      · exact .inr (.inl ⟨rfl, name, below, hname, rfl, rfl⟩)
  · exact .inl (pushComponent_name _ _)

theorem exists_foldl_pushComponent_append {walk stack bottom : List Component}
    (hbottom : bottom = [] ∨ bottom = [.root]) (hwalk : ∀ c ∈ walk, IsStep c) (hstack : ∀ c ∈ stack, IsStep c) :
    ∃ pushed, walk.foldl pushComponent (stack ++ bottom) = pushed ++ bottom ∧ ∀ c ∈ pushed, IsStep c := by
  induction walk generalizing stack with
  | nil => exact ⟨stack, rfl, hstack⟩
  | cons component rest ih =>
    have hc := hwalk component (by simp)
    have hrest : ∀ c ∈ rest, IsStep c := fun c hm => hwalk c (by simp [hm])
    rw [List.foldl_cons]
    rcases pushComponent_cases hbottom hstack hc with he | ⟨_, name, below, _, rfl, he⟩ | ⟨_, rfl, rfl, he⟩
    · rw [he]
      exact ih hrest (by simpa using ⟨hc, hstack⟩)
    · rw [he]
      exact ih hrest fun c hm => hstack c (by simp [hm])
    · rw [he]
      exact ih hrest hstack

theorem base_cases (p : Path) : p.base = [] ∨ p.base = [.root] := by
  rw [base]
  split
  · exact .inr rfl
  · exact .inl rfl

theorem isAbsolute_normalize (p : Path) : p.normalize.isAbsolute = p.isAbsolute := by
  obtain ⟨pushed, hstack, hpushed⟩ := @exists_foldl_pushComponent_append p.steps [] _ p.base_cases
    (fun _ => isStep_of_mem_steps) (by simp)
  have hroot : pushed.reverse.head? ≠ some .root := fun hhead =>
    (hpushed _ (List.mem_reverse.1 (List.mem_of_head? hhead))).ne_root rfl
  rw [List.nil_append] at hstack
  rw [isAbsolute_eq_head?, components_normalize_eq, stack, hstack, List.reverse_append, base]
  cases p.isAbsolute with
  | true => rfl
  | false => simpa using hroot

theorem IsNormal.here_not_mem {components : List Component} (h : IsNormal components) : .here ∉ components := by
  cases h with
  | absolute _ => simp
  | relative _ _ => simp

/-- The stack holds the steps of the normal form. -/
theorem stack_eq (p : Path) : p.stack = p.normalize.steps.reverse ++ p.base := by
  have hcomponents := p.components_normalize_eq
  have hbase : p.normalize.base = p.base := by rw [base, base, isAbsolute_normalize]
  rw [components_eq p.isNormal_components_normalize.here_not_mem, hbase] at hcomponents
  have hreverse : p.base.reverse = p.base := by rcases p.base_cases with he | he <;> rw [he] <;> rfl
  rw [← List.reverse_reverse p.stack, ← hcomponents, List.reverse_append, hreverse]

/-! ## Joined paths -/

theorem isAbsolute_join_eq (hq : q.isAbsolute = false) : (p.join q).isAbsolute = p.isAbsolute := by
  cases hp : p.isAbsolute with
  | false => exact isAbsolute_join hp hq
  | true =>
    obtain ⟨text⟩ := p
    obtain ⟨body, rfl⟩ := List.head?_eq_some_iff.1 (beq_iff_eq.1 hp)
    unfold join
    rw [if_neg (by simp [hq])]
    split
    next hnone => cases List.getLast?_eq_none_iff.1 hnone
    next => rfl
    next => rfl

/-- **A joined path pushes the steps of its second part onto the stack of its first.** -/
theorem stack_join (hq : q.isAbsolute = false) : (p.join q).stack = q.steps.foldl pushComponent p.stack := by
  rw [stack, stack, base, base, isAbsolute_join_eq hq, steps_join hq, List.foldl_append]

/-- Only the normal form of the first part of a joined path counts. -/
theorem normalize_join_congr {p' : Path} (h : p.normalize = p'.normalize) (q : Path) :
    (p.join q).normalize = (p'.join q).normalize := by
  cases hq : q.isAbsolute with
  | true => rw [join, join, if_pos hq, if_pos hq]
  | false => rw [normalize_eq_iff, stack_join hq, stack_join hq, normalize_eq_iff.1 h]

/-! ## Canonical paths -/

/-- The path has no `.`, and `..` only as a run at the start of a relative path. -/
structure IsCanonical (p : Path) : Prop where
  noHere : .here ∉ p.components
  absolute : p.isAbsolute = true → .up ∉ p.components
  relative : p.isAbsolute = false → ∃ ups rest, p.components = List.replicate ups .up ++ rest ∧ .up ∉ rest

/-- Steps without a `..` are names. -/
theorem exists_names_of_steps {components : List Component} (hsteps : ∀ component ∈ components, IsStep component)
    (hup : .up ∉ components) :
    ∃ names : List Text, components = names.map .name ∧ ∀ name ∈ names, IsEntryName name := by
  induction components with
  | nil => exact ⟨[], rfl, by simp⟩
  | cons first others ih =>
    obtain ⟨names, rfl, hnames⟩ := ih (fun component hm => hsteps component (by simp [hm])) fun hm => hup (by simp [hm])
    rcases hsteps first (by simp) with rfl | ⟨name, rfl, hname⟩
    · simp at hup
    · exact ⟨name :: names, rfl, by simpa using ⟨hname, hnames⟩⟩

theorem isCanonical_iff : p.IsCanonical ↔ IsNormal p.components := by
  constructor
  · rintro ⟨hhere, habsolute, hrelative⟩
    have hcomponents := components_eq hhere
    cases habs : p.isAbsolute with
    | true =>
      have hup := habsolute habs
      rw [components_of_absolute habs] at hup ⊢
      obtain ⟨names, hnames, hentries⟩ := exists_names_of_steps (fun _ => isStep_of_mem_steps)
        fun hm => hup (List.mem_cons_of_mem _ hm)
      rw [hnames]
      exact .absolute hentries
    | false =>
      obtain ⟨ups, rest, hrest, hup⟩ := hrelative habs
      have hsteps : ∀ component ∈ rest, IsStep component := by
        intro component hm
        refine isStep_of_mem_steps (p := p) ?_
        rw [base, habs] at hcomponents
        have hmem : component ∈ p.components := by simp [hrest, hm]
        simpa [hcomponents] using hmem
      obtain ⟨names, rfl, hentries⟩ := exists_names_of_steps hsteps hup
      rw [hrest]
      exact .relative ups hentries
  · intro h
    have hhead := isAbsolute_eq_head? p
    have hhere := h.here_not_mem
    generalize hc : p.components = components at h hhead
    cases h with
    | absolute hnames => exact ⟨hhere, by simp [hc], by simp [hhead]⟩
    | @relative ups names hnames =>
      refine ⟨hhere, ?_, fun _ => ⟨ups, names.map .name, hc, by simp⟩⟩
      intro habs
      have hroot := List.mem_of_head? (beq_iff_eq.1 (hhead.symm.trans habs))
      simp at hroot

/-- **The normal form is canonical.** It has no `.`, and `..` only as a run at the start of a relative path;
`normalize` keeps the components of exactly such paths, so doing it twice is doing it once; and a path is
joined to another by their normal forms alone, wherever the second one leads. -/
theorem normalize_isCanonical (p : Path) :
    p.normalize.IsCanonical ∧ (p.normalize.same p = true ↔ p.IsCanonical) ∧
      p.normalize.normalize = p.normalize ∧
      ∀ q : Path, (p.join q).normalize = (p.normalize.join q).normalize := by
  refine ⟨isCanonical_iff.2 p.isNormal_components_normalize, ?_, p.normalize_normalize, fun q => ?_⟩
  · rw [isCanonical_iff, ← isNormalized_iff, isNormalized]
  · exact normalize_join_congr p.normalize_normalize.symm q

end ApiCoverage.Path
