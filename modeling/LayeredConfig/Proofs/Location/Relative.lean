import LayeredConfig.Proofs.Location.Descent

namespace LayeredConfig

theorem mem_of_mem_pieces {sep c : Char} {cs part : List Char} (cut : part ∈ pieces sep cs) (member : c ∈ part) :
    c ∈ cs := by
  induction cs generalizing part with
  | nil => simp_all [pieces]
  | cons first rest ih =>
    simp only [pieces] at cut
    split at cut
    · rcases List.mem_cons.mp cut with rfl | later
      · cases member
      · exact List.mem_cons_of_mem _ (ih later member)
    · split at cut
      · next none_ => exact absurd none_ (pieces_ne_nil sep rest)
      · next piece more known =>
        rcases List.mem_cons.mp cut with rfl | later
        · rcases List.mem_cons.mp member with rfl | inside
          · exact List.mem_cons_self
          · exact List.mem_cons_of_mem _ (ih (known ▸ List.mem_cons_self) inside)
        · exact List.mem_cons_of_mem _ (ih (known ▸ List.mem_cons_of_mem _ later) member)

namespace Location

theorem sharedSteps_spec (a b : List Step) :
    sharedSteps a b ≤ b.length ∧ a.take (sharedSteps a b) = b.take (sharedSteps a b) := by
  induction a generalizing b with
  | nil => simp [sharedSteps]
  | cons step rest ih =>
    cases b with
    | nil => simp [sharedSteps]
    | cons other more =>
      by_cases same : step = other
      · obtain ⟨bound, front⟩ := ih more
        simp [sharedSteps, same, bound, front]
      · simp [sharedSteps, same]

theorem climb_inj {ups more : Nat} {names others : List String} (same : climb ups names = climb more others) :
    ups = more ∧ names.map Step.name = others.map Step.name := by
  have count : ∀ n (ss : List String), (climb n ss).count .up = n := by
    intro n ss
    have named : (ss.map Step.name).count .up = 0 := List.count_eq_zero.mpr (by simp)
    rw [climb, List.count_append, List.count_replicate_self, named, Nat.add_zero]
  have level : ups = more := by rw [← count ups names, same, count]
  subst level
  exact ⟨rfl, List.append_cancel_left same⟩

/-- The text of a step up or of a name is one part, that step. -/
theorem steps_join_step {ups : Nat} {names : List String} (valid : ∀ s ∈ names, IsName s) {step : Step}
    (member : step ∈ climb ups names) (base : Location) :
    (base.join (Step.text step)).steps = base.steps ++ [step] := by
  obtain ⟨free, busy, own⟩ := climb_sound valid member
  have sound : ∀ part ∈ [(Step.text step).toList], '/' ∉ part ∧ idle part = false := by simp [free, busy]
  have plain : opening (Step.text step).toList = [] := opening_joinWith sound
  have spells : spelled (Step.text step).toList = [step] := (spelled_joinWith sound).trans (by simp [own])
  have relative : (Step.text step).toList.head? ≠ some '/' := fun slash => free (List.mem_of_head? slash)
  rw [steps_join relative (Or.inr plain), spells]

theorem steps_foldl_join {ups : Nat} {names : List String} (valid : ∀ s ∈ names, IsName s) {steps : List Step}
    (inside : ∀ step ∈ steps, step ∈ climb ups names) (base : Location) :
    (steps.foldl (fun out step => out.join (Step.text step)) base).steps = base.steps ++ steps := by
  induction steps generalizing base with
  | nil => simp
  | cons step rest ih =>
    have own := steps_join_step valid (inside step List.mem_cons_self) base
    have later := ih (fun step member => inside step (List.mem_cons_of_mem _ member)) (base.join (Step.text step))
    rw [List.foldl_cons, later, own]
    simp

theorem steps_of_canonical {l : Location} (absolute : l.isAbsolute = true) (canonical : l.normalize = l) :
    ∃ names : List String, (∀ s ∈ names, IsName s) ∧ l.steps = .root :: names.map .name := by
  have steps := steps_normalize_of_isAbsolute absolute
  rw [canonical] at steps
  obtain ⟨names, valid, form | ⟨ups, form⟩⟩ := l.settledSteps_settled.form
  · exact ⟨names, valid, steps.trans form⟩
  · have root := root_mem_settledSteps absolute
    rw [← List.mem_reverse, form, climb] at root
    simp at root

/-- The steps from a base to a canonical place. -/
theorem steps_relativeTo {l base : Location} (absolute : l.isAbsolute = true) (canonical : l.normalize = l)
    (anchored : base.isAbsolute = true) :
    ∃ names, l.steps.drop (sharedSteps l.steps base.steps) = names.map Step.name ∧
      (l.relativeTo base).steps = climb (base.steps.length - sharedSteps l.steps base.steps) names := by
  obtain ⟨names, valid, own⟩ := steps_of_canonical absolute canonical
  obtain ⟨rest, above⟩ := List.head?_eq_some_iff.mp (isAbsolute_iff_steps.mp anchored)
  have rooted : sharedSteps l.steps base.steps = sharedSteps (names.map .name) rest + 1 := by
    simp [own, above, sharedSteps]
  have left : l.steps.drop (sharedSteps l.steps base.steps) =
      (names.drop (sharedSteps (names.map .name) rest)).map Step.name := by
    rw [rooted, own, List.drop_succ_cons, List.map_drop]
  refine ⟨_, left, ?_⟩
  unfold relativeTo
  dsimp only
  rw [left]
  exact steps_foldl_join (fun s member => valid s (List.mem_of_mem_drop member)) (fun step member => member) ⟨""⟩

/-- A canonical place is known by the way to it. -/
theorem eq_of_relativeTo_eq {l m base : Location} (left : l.isAbsolute = true ∧ l.normalize = l)
    (right : m.isAbsolute = true ∧ m.normalize = m) (anchored : base.isAbsolute = true)
    (same : l.relativeTo base = m.relativeTo base) : l = m := by
  obtain ⟨names, own, way⟩ := steps_relativeTo left.1 left.2 anchored
  obtain ⟨others, other, path⟩ := steps_relativeTo right.1 right.2 anchored
  obtain ⟨level, below⟩ := climb_inj (way.symm.trans ((congrArg steps same).trans path))
  have ahead := sharedSteps_spec l.steps base.steps
  have behind := sharedSteps_spec m.steps base.steps
  have shared : sharedSteps l.steps base.steps = sharedSteps m.steps base.steps := by omega
  have steps : l.steps = m.steps := by
    rw [← List.take_append_drop (sharedSteps l.steps base.steps) l.steps, own, ahead.2, below, ← other, shared,
      ← behind.2, List.take_append_drop]
  rw [← left.2, ← right.2]
  exact normalize_eq_of_same (by simp [Location.same, steps])

theorem mem_of_mem_join {base : Location} {text : String} {c : Char} (member : c ∈ (base.join text).text.toList) :
    c ∈ base.text.toList ∨ c ∈ text.toList ∨ c = '/' := by
  unfold join at member
  split at member
  · exact Or.inr (Or.inl member)
  · split at member
    · exact Or.inr (Or.inl member)
    · simp only [String.toList_append, List.mem_append] at member
      exact member.imp_right Or.inl
    · simp only [String.toList_append, List.mem_append] at member
      rcases member with (own | slash) | more
      · exact Or.inl own
      · exact Or.inr (Or.inr (by simpa using slash))
      · exact Or.inr (Or.inl more)

theorem mem_of_mem_foldl_join {steps : List Step} {base : Location} {c : Char}
    (member : c ∈ (steps.foldl (fun out step => out.join (Step.text step)) base).text.toList) :
    c ∈ base.text.toList ∨ (∃ step ∈ steps, c ∈ (Step.text step).toList) ∨ c = '/' := by
  induction steps generalizing base with
  | nil => exact Or.inl member
  | cons step rest ih =>
    rcases ih member with front | ⟨other, known, held⟩ | slash
    · rcases mem_of_mem_join front with own | part | slash
      · exact Or.inl own
      · exact Or.inr (Or.inl ⟨step, List.mem_cons_self, part⟩)
      · exact Or.inr (Or.inr slash)
    · exact Or.inr (Or.inl ⟨other, List.mem_cons_of_mem _ known, held⟩)
    · exact Or.inr (Or.inr slash)

theorem mem_text_of_mem_steps {l : Location} {step : Step} (member : step ∈ l.steps) {c : Char}
    (held : c ∈ (Step.text step).toList) : c ∈ l.text.toList ∨ c = '.' ∨ c = '/' := by
  rw [steps_eq, List.mem_append] at member
  rcases member with start | inside
  · have marks : step = .root ∨ step = .here := by
      unfold opening at start
      split at start
      · exact Or.inl (List.mem_singleton.mp start)
      · split at start
        · exact Or.inr (List.mem_singleton.mp start)
        · cases start
    rcases marks with rfl | rfl
    · exact Or.inr (Or.inr (by simpa [Step.text] using held))
    · exact Or.inr (Or.inl (by simpa [Step.text] using held))
  · obtain ⟨part, busy, rfl⟩ := List.mem_map.mp inside
    have cut := (List.mem_filter.mp busy).1
    unfold stepOf at held
    split at held
    · exact Or.inr (Or.inl (by simpa [Step.text] using held))
    · exact Or.inl (mem_of_mem_pieces cut (by simpa [Step.text] using held))

/-- The way to a place is written with the letters of the place, dots and
slashes. -/
theorem mem_of_mem_relativeTo {l base : Location} {c : Char} (member : c ∈ (l.relativeTo base).text.toList) :
    c ∈ l.text.toList ∨ c = '.' ∨ c = '/' := by
  rcases mem_of_mem_foldl_join member with empty | ⟨step, inside, held⟩ | slash
  · cases empty
  · rcases List.mem_append.mp inside with up | own
    · obtain rfl := List.eq_of_mem_replicate up
      exact Or.inr (Or.inl (by simpa [Step.text] using held))
    · exact mem_text_of_mem_steps (List.mem_of_mem_drop own) held
  · exact Or.inr (Or.inr slash)

theorem slashed_of_not_mem {l : Location} (free : '\\' ∉ l.text.toList) : l.slashed = l.text := by
  unfold slashed
  rw [← String.toList_inj, String.toList_ofList]
  refine (List.map_congr_left fun c inside => ?_).trans (List.map_id _)
  have apart : c ≠ '\\' := fun same => free (same ▸ inside)
  simp [apart]

end Location

end LayeredConfig
