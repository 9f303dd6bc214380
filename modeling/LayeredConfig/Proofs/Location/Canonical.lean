import LayeredConfig.Location.Basic

namespace LayeredConfig

theorem not_mem_of_mem_pieces {sep : Char} {cs part : List Char} (member : part ∈ pieces sep cs) : sep ∉ part := by
  induction cs generalizing part with
  | nil => simp_all [pieces]
  | cons c rest ih =>
    simp only [pieces] at member
    split at member
    · rcases List.mem_cons.mp member with rfl | later
      · simp
      · exact ih later
    · next apart =>
      split at member
      · next none_ => exact absurd none_ (pieces_ne_nil sep rest)
      · next piece more cut =>
        rcases List.mem_cons.mp member with rfl | later
        · have free := ih (cut ▸ List.mem_cons_self : piece ∈ pieces sep rest)
          simpa [Ne.symm apart] using free
        · exact ih (cut ▸ List.mem_cons_of_mem _ later)

/-- A text cut at a separator is cut before it and behind it. -/
theorem pieces_append_sep (sep : Char) (front back : List Char) :
    pieces sep (front ++ sep :: back) = pieces sep front ++ pieces sep back := by
  induction front with
  | nil => simp [pieces]
  | cons c rest ih =>
    by_cases same : c = sep
    · simp [pieces, same, ih]
    · cases cut : pieces sep rest with
      | nil => exact absurd cut (pieces_ne_nil sep rest)
      | cons piece more => simp [pieces, same, ih, cut]

theorem pieces_of_not_mem {sep : Char} {cs : List Char} (free : sep ∉ cs) : pieces sep cs = [cs] := by
  induction cs with
  | nil => rfl
  | cons c rest ih =>
    simp only [List.mem_cons, not_or] at free
    simp [pieces, Ne.symm free.1, ih free.2]

/-- Parts without the separator come back from the text that joins them. -/
theorem pieces_joinWith {sep : Char} {parts : List (List Char)} (nonempty : parts ≠ [])
    (free : ∀ part ∈ parts, sep ∉ part) : pieces sep (joinWith sep parts) = parts := by
  induction parts with
  | nil => exact absurd rfl nonempty
  | cons part rest ih =>
    have own := pieces_of_not_mem (free part List.mem_cons_self)
    cases rest with
    | nil => simpa [joinWith] using own
    | cons next more =>
      have later := ih (by simp) fun p member => free p (List.mem_cons_of_mem _ member)
      rw [joinWith, pieces_append_sep, own, later]
      · rfl
      · simp

theorem length_pieces_le (sep : Char) (cs : List Char) : (pieces sep cs).length ≤ cs.length + 1 := by
  induction cs with
  | nil => simp [pieces]
  | cons c rest ih =>
    simp only [pieces]
    split
    · simpa using ih
    · split
      · simp
      · next part others known =>
        rw [known] at ih
        simp only [List.length_cons] at ih ⊢
        omega

namespace Location

/-- The steps that a written text spells, without the start of a place. -/
def spelled (cs : List Char) : List Step :=
  ((pieces '/' cs).filter (!idle ·)).map stepOf

/-- How a written text starts: at the root, at a leading dot, or at neither. -/
def opening (cs : List Char) : List Step :=
  if cs.head? = some '/' then [.root] else if (pieces '/' cs).head? = some ['.'] then [.here] else []

theorem steps_eq (l : Location) : l.steps = opening l.text.toList ++ spelled l.text.toList := by
  unfold steps dissect
  generalize l.text.toList = cs
  by_cases root : cs.head? = some '/'
  · obtain ⟨body, rfl⟩ := List.head?_eq_some_iff.mp root
    simp [opening, spelled, pieces, idle]
  by_cases dot : (pieces '/' cs).head? = some ['.']
  · obtain ⟨rest, cut⟩ := List.head?_eq_some_iff.mp dot
    have joined := joinWith_pieces '/' cs
    rw [cut] at joined
    cases rest with
    | nil =>
      subst joined
      simp [opening, spelled, pieces, idle, joinWith]
    | cons piece more =>
      subst joined
      simp [opening, spelled, pieces, idle, joinWith]
  · have plain : ∀ body, cs ≠ '.' :: '/' :: body := by
      rintro body rfl
      simp [pieces] at dot
    have single : cs ≠ ['.'] := by
      rintro rfl
      simp [pieces] at dot
    have start : ∀ body, cs ≠ '/' :: body := by
      rintro body rfl
      simp at root
    simp only [opening, root, dot, if_false, spelled]
    rfl

/-- A name as it may stand in a place: no dot, no slash in it, and not empty. -/
def IsName (s : String) : Prop :=
  '/' ∉ s.toList ∧ idle s.toList = false ∧ s.toList ≠ ['.', '.']

theorem stepOf_of_isName {s : String} (name : IsName s) : stepOf s.toList = .name s := by
  simp [stepOf, name.2.2]

/-- The steps of a written text lead up or to a name. -/
theorem spelled_sound {cs : List Char} {step : Step} (member : step ∈ spelled cs) :
    step = .up ∨ ∃ s, step = .name s ∧ IsName s := by
  obtain ⟨part, inside, rfl⟩ := List.mem_map.mp member
  obtain ⟨cut, busy⟩ := List.mem_filter.mp inside
  by_cases dots : part = ['.', '.']
  · exact Or.inl (by simp [stepOf, dots])
  · have free := not_mem_of_mem_pieces cut
    exact Or.inr ⟨String.ofList part, by simp [stepOf, dots], by simpa using free, by simpa using busy,
      by simpa using dots⟩

/-- Canonical steps, the last one first: names behind the root, or names behind
steps up. -/
inductive Settled : List Step → Prop
  | nil : Settled []
  | root : Settled [.root]
  | up {done : List Step} : Settled done → (∀ step ∈ done, step = .up) → Settled (.up :: done)
  | name {done : List Step} {s : String} : Settled done → IsName s → Settled (.name s :: done)

theorem Settled.settle {done : List Step} (settled : Settled done) {step : Step}
    (sound : ∀ s, step = .name s → IsName s) : Settled (settle done step) := by
  cases step with
  | root => exact .root
  | here => exact settled
  | name s => exact .name settled (sound s rfl)
  | up =>
    cases settled with
    | nil => exact .up .nil (by simp)
    | root => exact .root
    | name rest _ => exact rest
    | @up done rest ups => exact .up (.up rest ups) (by simpa using ups)

theorem Settled.foldl {done : List Step} (settled : Settled done) {steps : List Step}
    (sound : ∀ s, .name s ∈ steps → IsName s) : Settled (steps.foldl Location.settle done) := by
  induction steps generalizing done with
  | nil => exact settled
  | cons step rest ih =>
    exact ih (settled.settle fun s same => sound s (by simp [same])) fun s member => sound s (by simp [member])

/-- Settling canonical steps once more changes nothing. -/
theorem Settled.refold {done : List Step} (settled : Settled done) :
    done.reverse.foldl Location.settle [] = done := by
  induction settled with
  | nil => rfl
  | root => rfl
  | @up done _ ups ih =>
    rw [List.reverse_cons, List.foldl_append, ih]
    cases done with
    | nil => rfl
    | cons step rest => simp [ups step, Location.settle]
  | name _ _ ih =>
    rw [List.reverse_cons, List.foldl_append, ih]
    rfl

/-- The canonical steps of a place, the last one first. -/
def settledSteps (l : Location) : List Step :=
  l.steps.foldl settle []

theorem settledSteps_settled (l : Location) : Settled l.settledSteps := by
  refine Settled.foldl .nil fun s member => ?_
  rw [steps_eq, List.mem_append] at member
  rcases member with start | inside
  · unfold opening at start
    split at start
    · simp at start
    · split at start <;> simp at start
  · rcases spelled_sound inside with up | ⟨t, same, name⟩
    · cases up
    · cases same
      exact name

theorem normalize_eq (l : Location) : l.normalize = ofSteps l.settledSteps.reverse :=
  rfl

/-- Steps up and names behind them. -/
def climb (ups : Nat) (names : List String) : List Step :=
  List.replicate ups .up ++ names.map .name

/-- Canonical steps in order: names behind the root, or behind steps up. -/
theorem Settled.form {done : List Step} (settled : Settled done) :
    ∃ names : List String, (∀ s ∈ names, IsName s) ∧
      (done.reverse = .root :: climb 0 names ∨ ∃ ups, done.reverse = climb ups names) := by
  induction settled with
  | nil => exact ⟨[], by simp, Or.inr ⟨0, rfl⟩⟩
  | root => exact ⟨[], by simp, Or.inl rfl⟩
  | @up done _ ups _ =>
    refine ⟨[], by simp, Or.inr ⟨done.length + 1, ?_⟩⟩
    have same : done = List.replicate done.length .up := List.eq_replicate_iff.mpr ⟨rfl, ups⟩
    rw [List.reverse_cons, same]
    simp [climb, List.replicate_succ']
  | @name done s _ name ih =>
    obtain ⟨names, valid, form⟩ := ih
    refine ⟨names ++ [s], ?_, ?_⟩
    · intro t member
      rcases List.mem_append.mp member with old | new
      · exact valid t old
      · exact List.mem_singleton.mp new ▸ name
    · rcases form with absolute | ⟨ups, relative⟩
      · exact Or.inl (by simp [absolute, climb])
      · exact Or.inr ⟨ups, by simp [relative, climb]⟩

/-- Parts that count for nothing spell no steps. -/
theorem spelled_joinWith_filter {parts : List (List Char)} (free : ∀ part ∈ parts, '/' ∉ part) :
    spelled (joinWith '/' parts) = (parts.filter (!idle ·)).map stepOf := by
  by_cases empty : parts = []
  · subst empty
    rfl
  · rw [spelled, pieces_joinWith empty free]

theorem spelled_joinWith {parts : List (List Char)} (sound : ∀ part ∈ parts, '/' ∉ part ∧ idle part = false) :
    spelled (joinWith '/' parts) = parts.map stepOf := by
  have busy : parts.filter (!idle ·) = parts :=
    List.filter_eq_self.mpr fun part member => by simp [(sound part member).2]
  rw [spelled_joinWith_filter fun part member => (sound part member).1, busy]

theorem spelled_slash (cs : List Char) : spelled ('/' :: cs) = spelled cs := by
  simp [spelled, pieces, idle]

/-- A text that joins parts of which the first is no dot has neither a root nor a leading dot. -/
theorem opening_joinWith_of_head {parts : List (List Char)} (free : ∀ part ∈ parts, '/' ∉ part)
    (busy : ∀ part ∈ parts.head?, idle part = false) : opening (joinWith '/' parts) = [] := by
  cases parts with
  | nil => rfl
  | cons part rest =>
    have cut := pieces_joinWith (List.cons_ne_nil part rest) free
    have busy := busy part rfl
    have noRoot : (joinWith '/' (part :: rest)).head? ≠ some '/' := by
      intro head
      obtain ⟨body, text⟩ := List.head?_eq_some_iff.mp head
      rw [text] at cut
      simp only [pieces, if_true, List.cons.injEq] at cut
      simp [← cut.1, idle] at busy
    have noDot : part ≠ ['.'] := by
      rintro rfl
      simp [idle] at busy
    simp [opening, noRoot, cut, noDot]

theorem opening_joinWith {parts : List (List Char)} (sound : ∀ part ∈ parts, '/' ∉ part ∧ idle part = false) :
    opening (joinWith '/' parts) = [] :=
  opening_joinWith_of_head (fun part member => (sound part member).1) fun part first =>
    (sound part (List.mem_of_mem_head? first)).2

/-- The written parts of steps. -/
def partsOf (steps : List Step) : List (List Char) :=
  steps.map fun step => (Step.text step).toList

theorem climb_sound {ups : Nat} {names : List String} (valid : ∀ s ∈ names, IsName s) {step : Step}
    (member : step ∈ climb ups names) :
    '/' ∉ (Step.text step).toList ∧ idle (Step.text step).toList = false ∧
      stepOf (Step.text step).toList = step := by
  rcases List.mem_append.mp member with up | named
  · obtain rfl := List.eq_of_mem_replicate up
    decide
  · obtain ⟨s, known, rfl⟩ := List.mem_map.mp named
    exact ⟨(valid s known).1, (valid s known).2.1, stepOf_of_isName (valid s known)⟩

/-- The text of steps up and names spells these steps. -/
theorem opening_spelled_climb (ups : Nat) {names : List String} (valid : ∀ s ∈ names, IsName s) :
    opening (joinWith '/' (partsOf (climb ups names))) = [] ∧
      spelled (joinWith '/' (partsOf (climb ups names))) = climb ups names := by
  have sound : ∀ part ∈ partsOf (climb ups names), '/' ∉ part ∧ idle part = false := by
    intro part member
    obtain ⟨step, inside, rfl⟩ := List.mem_map.mp member
    have written := climb_sound valid inside
    exact ⟨written.1, written.2.1⟩
  have back : (climb ups names).map (fun step => stepOf (Step.text step).toList) = (climb ups names).map id :=
    List.map_congr_left fun step inside => (climb_sound valid inside).2.2
  refine ⟨opening_joinWith sound, ?_⟩
  rw [spelled_joinWith sound, partsOf, List.map_map]
  exact back.trans (List.map_id _)

theorem text_ofSteps_absolute (names : List String) :
    (ofSteps (.root :: climb 0 names)).text.toList = '/' :: joinWith '/' (partsOf (climb 0 names)) := by
  simp [ofSteps, assemble, Step.text, partsOf]

theorem text_ofSteps_relative {ups : Nat} {names : List String} (nonempty : climb ups names ≠ []) :
    (ofSteps (climb ups names)).text.toList = joinWith '/' (partsOf (climb ups names)) := by
  unfold ofSteps
  split
  · next none_ => exact absurd none_ nonempty
  · next rest same =>
    rw [climb] at same
    cases ups with
    | zero => cases names <;> simp at same
    | succ n => simp [List.replicate_succ] at same
  · simp [assemble, partsOf]

/-- The steps of the text that canonical steps are written as. -/
theorem Settled.steps_ofSteps {done : List Step} (settled : Settled done) (nonempty : done ≠ []) :
    (ofSteps done.reverse).steps = done.reverse := by
  obtain ⟨names, valid, absolute | ⟨ups, relative⟩⟩ := settled.form
  · rw [steps_eq, absolute, text_ofSteps_absolute, spelled_slash, (opening_spelled_climb 0 valid).2]
    rfl
  · have some_ : climb ups names ≠ [] := by simpa [← relative] using nonempty
    rw [steps_eq, relative, text_ofSteps_relative some_, (opening_spelled_climb ups valid).1,
      (opening_spelled_climb ups valid).2, List.nil_append]

theorem Settled.settledSteps_ofSteps {done : List Step} (settled : Settled done) :
    (ofSteps done.reverse).settledSteps = done := by
  by_cases empty : done = []
  · subst empty
    decide
  · rw [settledSteps, settled.steps_ofSteps empty, settled.refold]

@[simp] theorem normalize_normalize (l : Location) : l.normalize.normalize = l.normalize := by
  rw [normalize_eq l, normalize_eq, l.settledSteps_settled.settledSteps_ofSteps]

theorem same_iff {a b : Location} : a.same b = true ↔ a.steps = b.steps := by
  simp [same]

/-- Places with the same steps have one canonical form. -/
theorem normalize_eq_of_same {a b : Location} (same : a.same b) : a.normalize = b.normalize := by
  rw [normalize, normalize, same_iff.mp same]

end Location

end LayeredConfig
