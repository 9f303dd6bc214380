import LayeredConfig.Proofs.Location.Relative

namespace LayeredConfig

theorem mem_of_mem_joinWith {sep c : Char} {parts : List (List Char)} (member : c ∈ joinWith sep parts) :
    c = sep ∨ ∃ part ∈ parts, c ∈ part := by
  induction parts with
  | nil => cases member
  | cons part rest ih =>
    cases rest with
    | nil => exact Or.inr ⟨part, List.mem_cons_self, by simpa [joinWith] using member⟩
    | cons next more =>
      rw [joinWith, List.mem_append, List.mem_cons] at member
      · rcases member with own | same | later
        · exact Or.inr ⟨part, List.mem_cons_self, own⟩
        · exact Or.inl same
        · rcases ih later with same | ⟨other, inside, held⟩
          · exact Or.inl same
          · exact Or.inr ⟨other, List.mem_cons_of_mem _ inside, held⟩
      · exact List.cons_ne_nil _ _

namespace Location

/-- The letters of a place stand in its parts, but for slashes and dots. -/
theorem exists_step_of_mem_text {l : Location} {c : Char} (member : c ∈ l.text.toList) :
    c = '/' ∨ c = '.' ∨ ∃ step ∈ l.steps, c ∈ (Step.text step).toList := by
  rw [← joinWith_pieces '/' l.text.toList] at member
  rcases mem_of_mem_joinWith member with slash | ⟨part, cut, held⟩
  · exact Or.inl slash
  by_cases quiet : idle part = true
  · have dots : part = [] ∨ part = ['.'] := by simpa [idle] using quiet
    rcases dots with rfl | rfl
    · cases held
    · exact Or.inr (Or.inl (List.mem_singleton.mp held))
  · refine Or.inr (Or.inr ⟨stepOf part, ?_, ?_⟩)
    · rw [steps_eq]
      exact List.mem_append_right _ (List.mem_map_of_mem (List.mem_filter.mpr ⟨cut, by simpa using quiet⟩))
    · by_cases dots : part = ['.', '.']
      · simpa [stepOf, dots, Step.text] using held
      · simpa [stepOf, dots, Step.text] using held

/-- No part of the place has a backslash in it. -/
def BackslashFree (l : Location) : Prop :=
  ∀ step ∈ l.steps, '\\' ∉ (Step.text step).toList

theorem BackslashFree.not_mem {l : Location} (free : l.BackslashFree) : '\\' ∉ l.text.toList := by
  intro member
  rcases exists_step_of_mem_text member with slash | dot | ⟨step, inside, held⟩
  · cases slash
  · cases dot
  · exact free step inside held

theorem relativeTo_congr {l m base other : Location} (places : l.steps = m.steps)
    (bases : base.steps = other.steps) :
    l.relativeTo base = m.relativeTo other := by
  rw [relativeTo, relativeTo, places, bases]

theorem foldl_settle_names (names : List String) (done : List Step) :
    (names.map Step.name).foldl settle done = (names.map Step.name).reverse ++ done := by
  induction names generalizing done with
  | nil => rfl
  | cons s rest ih => simp [settle, ih]

/-- As many steps up as there are names lead out of them. -/
theorem foldl_settle_ups (names : List String) (done : List Step) :
    (List.replicate names.length Step.up).foldl settle (names.map Step.name ++ done) = done := by
  induction names with
  | nil => rfl
  | cons s rest ih => simpa [List.replicate_succ, settle] using ih

theorem spelled_of_steps_eq_climb {l : Location} {ups : Nat} {names : List String}
    (steps : l.steps = climb ups names) :
    spelled l.text.toList = climb ups names ∧ l.text.toList.head? ≠ some '/' := by
  have known : ∀ step ∈ opening l.text.toList, step = .up ∨ ∃ s, step = .name s := by
    intro step member
    have inside : step ∈ climb ups names := by
      rw [← steps, steps_eq]
      exact List.mem_append_left _ member
    rcases List.mem_append.mp inside with up | named
    · exact Or.inl (List.eq_of_mem_replicate up)
    · obtain ⟨s, _, same⟩ := List.mem_map.mp named
      exact Or.inr ⟨s, same.symm⟩
  have relative : l.text.toList.head? ≠ some '/' := by
    intro slash
    simp [opening, slash] at known
  have none_ : opening l.text.toList = [] := by
    unfold opening at known ⊢
    rw [if_neg relative] at known ⊢
    split
    · next dot => simp [dot] at known
    · rfl
  rw [steps_eq, none_, List.nil_append] at steps
  exact ⟨steps, relative⟩

/-- The way from a base to a place leads back from the base to the place. -/
theorem absolutize_relativeTo {l base : Location} (absolute : l.isAbsolute = true)
    (canonical : l.same l.normalize = true) (anchored : base.isAbsolute = true)
    (settled : base.same base.normalize = true) : ((l.relativeTo base).absolutize base).same l = true := by
  have own := isAbsolute_normalize absolute
  rw [relativeTo_congr (same_iff.mp canonical) (same_iff.mp settled), same_iff, same_iff.mp canonical]
  obtain ⟨names, left, way⟩ := steps_relativeTo own l.normalize_normalize (isAbsolute_normalize anchored)
  obtain ⟨others, _, above⟩ := steps_of_canonical (isAbsolute_normalize anchored) base.normalize_normalize
  obtain ⟨rest, below⟩ := List.head?_eq_some_iff.mp (isAbsolute_iff_steps.mp own)
  obtain ⟨bound, front⟩ := sharedSteps_spec l.normalize.steps base.normalize.steps
  -- both begin with the root, so that what they do not share are names
  have rooted : ∃ n, sharedSteps l.normalize.steps base.normalize.steps = n + 1 :=
    ⟨sharedSteps rest (others.map .name), by simp [below, above, sharedSteps]⟩
  generalize sharedSteps l.normalize.steps base.normalize.steps = shared at *
  obtain ⟨n, rfl⟩ := rooted
  have higher : base.normalize.steps.drop (n + 1) = (others.drop n).map Step.name := by
    rw [above, List.drop_succ_cons, List.map_drop]
  have count : base.normalize.steps.length - (n + 1) = (others.drop n).reverse.length := by
    rw [above, List.length_cons, List.length_map, List.length_reverse, List.length_drop]
    omega
  obtain ⟨spells, relative⟩ := spelled_of_steps_eq_climb way
  have filled := text_ne_of_isAbsolute anchored
  have start : base.settledSteps =
      (others.drop n).reverse.map Step.name ++ (base.normalize.steps.take (n + 1)).reverse := by
    rw [← List.reverse_reverse base.settledSteps, ← steps_normalize_of_isAbsolute anchored,
      List.map_reverse, ← higher, ← List.reverse_append, List.take_append_drop]
  unfold absolutize
  rw [if_neg (by simpa [isAbsolute] using relative), steps_normalize_of_isAbsolute (isAbsolute_join anchored _),
    settledSteps, steps_join relative (Or.inl filled), spells, List.foldl_append, climb, List.foldl_append, count]
  change ((names.map Step.name).foldl settle
    ((List.replicate _ Step.up).foldl settle base.settledSteps)).reverse = _
  rw [start, foldl_settle_ups, foldl_settle_names, ← front, ← left, ← List.reverse_append, List.reverse_reverse,
    List.take_append_drop]

end Location

end LayeredConfig
