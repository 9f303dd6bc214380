import LayeredConfig.Proofs.Location.Canonical

namespace LayeredConfig.Location

theorem isAbsolute_iff {l : Location} : l.isAbsolute = true ↔ ∃ body, l.text.toList = '/' :: body := by
  simp [isAbsolute, List.head?_eq_some_iff]

theorem isAbsolute_iff_steps {l : Location} : l.isAbsolute = true ↔ l.steps.head? = some .root := by
  rw [steps_eq, opening, isAbsolute, decide_eq_true_iff]
  by_cases root : l.text.toList.head? = some '/'
  · simp [root]
  · have names : (spelled l.text.toList).head? ≠ some .root := by
      intro head
      have member := List.mem_of_head? head
      rcases spelled_sound member with up | ⟨s, same, _⟩
      · cases up
      · cases same
    by_cases dot : (pieces '/' l.text.toList).head? = some ['.'] <;> simp [root, dot, names]

theorem isAbsolute_of_steps_eq {l m : Location} (absolute : l.isAbsolute = true) (same : m.steps = l.steps) :
    m.isAbsolute = true := by
  rwa [isAbsolute_iff_steps, same, ← isAbsolute_iff_steps]

theorem text_ne_of_isAbsolute {l : Location} (absolute : l.isAbsolute = true) : l.text ≠ "" := by
  intro empty
  simp [isAbsolute, empty] at absolute

/-- No step leads above the root. -/
theorem root_mem_settle {done : List Step} (root : .root ∈ done) (step : Step) : .root ∈ settle done step := by
  cases step with
  | root => exact List.mem_singleton_self _
  | here => exact root
  | name s => exact List.mem_cons_of_mem _ root
  | up => cases done with
    | nil => cases root
    | cons last before => cases last <;> simp_all [settle]

theorem root_mem_foldl_settle {done : List Step} (root : .root ∈ done) (steps : List Step) :
    .root ∈ steps.foldl settle done := by
  induction steps generalizing done with
  | nil => exact root
  | cons step rest ih => exact ih (root_mem_settle root step)

theorem root_mem_settledSteps {l : Location} (absolute : l.isAbsolute = true) : .root ∈ l.settledSteps := by
  obtain ⟨rest, steps⟩ := List.head?_eq_some_iff.mp (isAbsolute_iff_steps.mp absolute)
  rw [settledSteps, steps, List.foldl_cons]
  exact root_mem_foldl_settle (List.mem_singleton_self _) rest

theorem isAbsolute_normalize {l : Location} (absolute : l.isAbsolute = true) : l.normalize.isAbsolute = true := by
  have root := root_mem_settledSteps absolute
  obtain ⟨names, _, form | ⟨ups, form⟩⟩ := l.settledSteps_settled.form
  · rw [normalize_eq, form]
    exact isAbsolute_iff.mpr ⟨_, text_ofSteps_absolute names⟩
  · rw [← List.mem_reverse, form, climb] at root
    simp at root

theorem isAbsolute_join {base : Location} (absolute : base.isAbsolute = true) (text : String) :
    (base.join text).isAbsolute = true := by
  obtain ⟨body, written⟩ := isAbsolute_iff.mp absolute
  unfold join
  split
  · next rest same => exact isAbsolute_iff.mpr ⟨rest, same⟩
  · split
    · next empty => simp [written] at empty
    · exact isAbsolute_iff.mpr ⟨body ++ text.toList, by simp [written]⟩
    · exact isAbsolute_iff.mpr ⟨body ++ '/' :: text.toList, by simp [written]⟩

theorem isAbsolute_absolutize {base : Location} (absolute : base.isAbsolute = true) (l : Location) :
    (l.absolutize base).isAbsolute = true := by
  unfold absolutize
  split
  · next own => exact isAbsolute_normalize own
  · exact isAbsolute_normalize (isAbsolute_join absolute l.text)

theorem isAbsolute_of_parent? {l above : Location} (absolute : l.isAbsolute = true)
    (parent : l.parent? = some above) : above.isAbsolute = true := by
  obtain ⟨body, written⟩ := isAbsolute_iff.mp absolute
  unfold parent? dissect at parent
  simp only [written] at parent
  split at parent
  · cases parent
  · cases parent
    exact isAbsolute_iff.mpr ⟨_, by simp [assemble, Step.text]; rfl⟩

theorem isAbsolute_dir {l : Location} (absolute : l.isAbsolute = true) : l.dir.isAbsolute = true := by
  unfold dir
  cases parent : l.parent? with
  | none => rfl
  | some above => exact isAbsolute_of_parent? absolute parent

theorem isAbsolute_of_mem_ancestorsWithin {fuel : Nat} {l above : Location} (absolute : l.isAbsolute = true)
    (member : above ∈ ancestorsWithin fuel l) : above.isAbsolute = true := by
  induction fuel generalizing l with
  | zero => exact List.mem_singleton.mp member ▸ absolute
  | succ fuel ih =>
    rcases List.mem_cons.mp member with rfl | higher
    · exact absolute
    · cases parent : l.parent? with
      | none => simp [parent] at higher
      | some next => exact ih (isAbsolute_of_parent? absolute parent) (by simpa [parent] using higher)

end LayeredConfig.Location
