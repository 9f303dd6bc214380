import LayeredConfig.Proofs.Location.Absolute

namespace LayeredConfig.Location

theorem spelled_append_slash (front back : List Char) :
    spelled (front ++ '/' :: back) = spelled front ++ spelled back := by
  simp [spelled, pieces_append_sep]

/-- The steps that one written part spells. -/
def partSteps (part : List Char) : List Step :=
  if idle part then [] else [stepOf part]

theorem spelled_eq_flatMap (cs : List Char) : spelled cs = (pieces '/' cs).flatMap partSteps := by
  unfold spelled
  induction pieces '/' cs with
  | nil => rfl
  | cons part rest ih => by_cases quiet : idle part <;> simp [partSteps, quiet, ih]

theorem partSteps_of_name {s : String} (filled : s ≠ "") (notHere : s ≠ ".") (notUp : s ≠ "..") :
    partSteps s.toList = [.name s] := by
  have here : s.toList ≠ ['.'] := fun same => notHere (String.toList_inj.mp same)
  have up : s.toList ≠ ['.', '.'] := fun same => notUp (String.toList_inj.mp same)
  simp [partSteps, idle, stepOf, filled, here, up]

/-- What follows a slash does not change how a text starts. -/
theorem opening_append_slash {front : List Char} (filled : front ≠ []) (back : List Char) :
    opening (front ++ '/' :: back) = opening front := by
  have cut : (pieces '/' (front ++ '/' :: back)).head? = (pieces '/' front).head? := by
    rw [pieces_append_sep]
    cases own : pieces '/' front with
    | nil => exact absurd own (pieces_ne_nil _ _)
    | cons part rest => rfl
  have head : (front ++ '/' :: back).head? = front.head? := by
    cases front with
    | nil => exact absurd rfl filled
    | cons c rest => rfl
  rw [opening, opening, cut, head]

/-- A relative text continues a base by the steps it spells. -/
theorem steps_join {base : Location} {text : String} (relative : text.toList.head? ≠ some '/')
    (start : base.text ≠ "" ∨ opening text.toList = []) :
    (base.join text).steps = base.steps ++ spelled text.toList := by
  unfold join
  split
  · next rest same => simp [same] at relative
  · split
    · next empty =>
      have none_ := List.getLast?_eq_none_iff.mp empty
      have plain : opening text.toList = [] := start.resolve_left fun filled =>
        filled (String.toList_eq_nil_iff.mp none_)
      rw [steps_eq, steps_eq, none_, plain]
      rfl
    · next slash =>
      -- the last slash of the base stands between both
      obtain ⟨front, written⟩ := List.getLast?_eq_some_iff.mp slash
      have joined : (base.text ++ text).toList = front ++ '/' :: text.toList := by simp [written]
      have same : opening (front ++ '/' :: text.toList) = opening (front ++ ['/']) := by
        cases front with
        | nil => simp [opening]
        | cons c rest => rw [opening_append_slash (by simp), opening_append_slash (by simp)]
      have own : spelled (front ++ ['/']) = spelled front := by
        rw [spelled_append_slash]
        exact List.append_nil _
      rw [steps_eq, steps_eq, joined, written, same, own, spelled_append_slash, List.append_assoc]
    · next last _ =>
      have filled : base.text.toList ≠ [] := by
        intro none_
        simp_all
      have joined : (base.text ++ "/" ++ text).toList = base.text.toList ++ '/' :: text.toList := by simp
      rw [steps_eq, steps_eq, joined, opening_append_slash filled, spelled_append_slash, List.append_assoc]

/-- A step up that stays is never cancelled. -/
theorem mem_settle_of_up {done : List Step} (up : .up ∈ done) {step : Step} (relative : step ≠ .root) :
    .up ∈ settle done step := by
  cases step with
  | root => exact absurd rfl relative
  | here => exact up
  | name s => exact List.mem_cons_of_mem _ up
  | up => cases done with
    | nil => cases up
    | cons last before => cases last <;> simp_all [settle]

theorem mem_foldl_settle_of_up {done : List Step} (up : .up ∈ done) {steps : List Step}
    (relative : .root ∉ steps) :
    .up ∈ steps.foldl settle done := by
  induction steps generalizing done with
  | nil => exact up
  | cons step rest ih =>
    simp only [List.mem_cons, not_or] at relative
    exact ih (mem_settle_of_up up (Ne.symm relative.1)) relative.2

/-- Steps that do not lead out of where they start settle on top of it. -/
theorem foldl_settle_append {steps inner : List Step} (relative : .root ∉ steps)
    (names : ∀ step ∈ inner, ∃ s, step = .name s) (inside : .up ∉ steps.foldl settle inner) (base : List Step) :
    steps.foldl settle (inner ++ base) = steps.foldl settle inner ++ base := by
  induction steps generalizing inner with
  | nil => rfl
  | cons step rest ih =>
    simp only [List.mem_cons, not_or] at relative
    simp only [List.foldl_cons] at inside ⊢
    cases step with
    | root => exact absurd rfl relative.1
    | here => exact ih relative.2 names inside
    | name s => exact ih relative.2 (by simpa [settle] using names) inside
    | up => cases inner with
      | nil => exact absurd (mem_foldl_settle_of_up (List.mem_singleton_self _) relative.2) inside
      | cons last before =>
        obtain ⟨s, rfl⟩ := names last List.mem_cons_self
        exact ih relative.2 (fun step member => names step (List.mem_cons_of_mem _ member)) inside

theorem not_root_mem_spelled (cs : List Char) : .root ∉ spelled cs := by
  intro member
  rcases spelled_sound member with up | ⟨s, named, _⟩
  · cases up
  · cases named

/-- The parts of the canonical form; a dot has none. -/
def inner (l : Location) : List Step :=
  l.normalize.steps.filter (· ≠ .here)

theorem Settled.here_not_mem {done : List Step} (settled : Settled done) : .here ∉ done := by
  induction settled with
  | nil => simp
  | root => simp
  | up _ _ ih => simpa using ih
  | name _ _ ih => simpa using ih

theorem not_isName_here : ¬IsName "." := by
  simp [IsName, idle]

theorem not_isName_up : ¬IsName ".." := by
  simp [IsName]

theorem steps_normalize {l : Location} (some_ : l.settledSteps ≠ []) :
    l.normalize.steps = l.settledSteps.reverse :=
  l.settledSteps_settled.steps_ofSteps some_

theorem steps_normalize_of_isAbsolute {l : Location} (absolute : l.isAbsolute = true) :
    l.normalize.steps = l.settledSteps.reverse :=
  steps_normalize (List.ne_nil_of_mem (root_mem_settledSteps absolute))

theorem inner_eq (l : Location) : l.inner = l.settledSteps.reverse := by
  unfold inner
  by_cases none_ : l.settledSteps = []
  · rw [normalize_eq, none_]
    decide
  · rw [steps_normalize none_, List.filter_eq_self]
    intro step member
    have real := l.settledSteps_settled.here_not_mem
    grind

theorem up_not_mem_inner {l : Location} (relative : l.normalize.isAbsolute = false)
    (down : l.normalize.steps.head? ≠ some .up) : .up ∉ l.inner := by
  rw [inner_eq]
  by_cases none_ : l.settledSteps = []
  · simp [none_]
  · rw [steps_normalize none_] at down
    obtain ⟨names, _, form | ⟨ups, form⟩⟩ := l.settledSteps_settled.form
    · have rooted : l.normalize.isAbsolute = true := by
        rw [isAbsolute_iff_steps, steps_normalize none_, form]
        rfl
      rw [relative] at rooted
      cases rooted
    · rw [form] at down ⊢
      cases ups with
      | zero => simp [climb]
      | succ n => exact absurd rfl down

theorem settledSteps_of_relative {text : String} (relative : text.toList.head? ≠ some '/') :
    settledSteps ⟨text⟩ = (spelled text.toList).foldl settle [] := by
  rw [settledSteps, steps_eq, opening, if_neg relative]
  split <;> rfl

/-- A place below an absolute one, by a text that does not lead out of it. -/
theorem settledSteps_join {base : Location} (absolute : base.isAbsolute = true) {text : String}
    (relative : text.toList.head? ≠ some '/') (inside : .up ∉ inner ⟨text⟩) :
    (base.join text).settledSteps = (inner ⟨text⟩).reverse ++ base.settledSteps := by
  have own := settledSteps_of_relative relative
  rw [inner_eq, own, List.mem_reverse] at inside
  rw [settledSteps, steps_join relative (Or.inl (text_ne_of_isAbsolute absolute)), List.foldl_append,
    inner_eq, own, List.reverse_reverse]
  exact foldl_settle_append (not_root_mem_spelled _) (by simp) inside base.settledSteps

@[simp] theorem settledSteps_normalize (l : Location) : l.normalize.settledSteps = l.settledSteps :=
  l.settledSteps_settled.settledSteps_ofSteps

@[simp] theorem inner_normalize (l : Location) : l.normalize.inner = l.inner := by
  rw [inner_eq, inner_eq, settledSteps_normalize]

/-- A relative place in canonical form is written as the steps inside it, but for a dot. -/
theorem spelled_of_canonical {l : Location} (canonical : l.normalize = l) (relative : l.isAbsolute = false) :
    spelled l.text.toList = l.inner := by
  have start : (opening l.text.toList).filter (· ≠ .here) = [] := by
    have noRoot : l.text.toList.head? ≠ some '/' := by simpa [isAbsolute] using relative
    unfold opening
    rw [if_neg noRoot]
    split <;> simp
  have names : (spelled l.text.toList).filter (· ≠ .here) = spelled l.text.toList := by
    refine List.filter_eq_self.mpr fun step member => ?_
    rcases spelled_sound member with rfl | ⟨s, rfl, _⟩ <;> simp
  rw [inner, canonical, steps_eq, List.filter_append, start, names, List.nil_append]

theorem Settled.isName {done : List Step} (settled : Settled done) {s : String} (member : .name s ∈ done) :
    IsName s := by
  induction settled with
  | nil => cases member
  | root => simp at member
  | up _ _ ih => exact ih (by simpa using member)
  | @name done t _ name ih =>
    rcases List.mem_cons.mp member with same | later
    · cases same
      exact name
    · exact ih later

theorem Settled.append_names {done steps : List Step} (settled : Settled done)
    (named : ∀ step ∈ steps, ∃ s, step = .name s ∧ IsName s) : Settled (steps ++ done) := by
  induction steps with
  | nil => exact settled
  | cons step rest ih =>
    obtain ⟨s, rfl, name⟩ := named step List.mem_cons_self
    exact .name (ih fun step member => named step (List.mem_cons_of_mem _ member)) name

/-- A place in canonical form has canonical steps, or it is a dot. -/
theorem steps_normalize_cases (l : Location) :
    l.normalize.steps = l.settledSteps.reverse ∨ l.settledSteps = [] ∧ l.normalize.steps = [.here] := by
  by_cases none_ : l.settledSteps = []
  · refine Or.inr ⟨none_, ?_⟩
    rw [normalize_eq, none_]
    rfl
  · exact Or.inl (steps_normalize none_)

theorem text_normalize_ne (l : Location) : l.normalize.text ≠ "" := by
  intro empty
  have same : l.normalize = ⟨""⟩ := by rw [← empty]
  rcases l.steps_normalize_cases with steps | ⟨_, steps⟩
  · have none_ : l.settledSteps = [] := by
      rw [same] at steps
      exact List.reverse_eq_nil_iff.mp steps.symm
    rw [normalize_eq, none_] at empty
    exact absurd empty (by decide)
  · rw [same] at steps
    cases steps

end LayeredConfig.Location
