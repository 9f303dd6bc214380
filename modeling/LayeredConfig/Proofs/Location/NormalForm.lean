import LayeredConfig.Proofs.Location.Descent
import Mathlib.Data.List.Induction

namespace LayeredConfig.Location

/-- Parts in normal form: a dot stands alone, and only steps up stand before a step up. -/
structure NormalForm (steps : List Step) : Prop where
  alone : .here ∈ steps → steps = [.here]
  leading : ∀ before after, steps = before ++ .up :: after → ∀ step ∈ before, step = .up

/-- Behind the root there is no step up in normal form. -/
theorem NormalForm.up_not_mem {steps : List Step} (normal : NormalForm steps) (rooted : steps.head? = some .root) :
    .up ∉ steps := by
  intro up
  obtain ⟨before, after, split⟩ := List.append_of_mem up
  cases before with
  | nil => simp [split] at rooted
  | cons first more =>
    have own := normal.leading _ _ split first List.mem_cons_self
    simp [split, own] at rooted

/-- Without a dot the parts in front are in normal form on their own. -/
theorem NormalForm.of_append {before after : List Step} (normal : NormalForm (before ++ after))
    (moved : .here ∉ before) :
    NormalForm before where
  alone here := absurd here moved
  leading first rest split := normal.leading first (rest ++ after) (by simp [split])

theorem Settled.leading {done later before : List Step} (settled : Settled done)
    (split : done = later ++ .up :: before) :
    ∀ step ∈ before, step = .up := by
  induction settled generalizing later with
  | nil => simp at split
  | root => cases later <;> simp at split
  | up _ ups ih =>
    cases later with
    | nil =>
      cases split
      exact ups
    | cons last more => exact ih (List.cons.inj split).2
  | name _ _ ih =>
    cases later with
    | nil => cases split
    | cons last more => exact ih (List.cons.inj split).2

/-- Canonical steps in order are in normal form. -/
theorem Settled.normalForm {done : List Step} (settled : Settled done) : NormalForm done.reverse where
  alone here := absurd (List.mem_reverse.mp here) settled.here_not_mem
  leading before after split := by
    have reversed : done = after.reverse ++ .up :: before.reverse := by
      rw [← List.reverse_reverse done, split]
      simp
    intro step member
    exact settled.leading reversed step (List.mem_reverse.mpr member)

theorem normalForm_normalize (l : Location) : NormalForm l.normalize.steps := by
  rcases l.steps_normalize_cases with steps | ⟨-, steps⟩
  · rw [steps]
    exact l.settledSteps_settled.normalForm
  · rw [steps]
    exact ⟨fun _ => rfl, fun before after split => by cases before <;> simp at split⟩

/-- The only canonical place with a dot for a part is the dot. -/
theorem normalize_eq_dot {l : Location} (here : .here ∈ l.normalize.steps) : l.normalize = ⟨"."⟩ := by
  rcases l.steps_normalize_cases with steps | ⟨none_, -⟩
  · rw [steps] at here
    exact absurd (List.mem_reverse.mp here) l.settledSteps_settled.here_not_mem
  · rw [normalize_eq, none_]
    rfl

theorem root_not_mem_steps {l : Location} (relative : l.isAbsolute = false) : .root ∉ l.steps := by
  have plain : l.text.toList.head? ≠ some '/' := by simpa [isAbsolute] using relative
  rw [steps_eq, List.mem_append, opening, if_neg plain]
  rintro (start | inside)
  · split at start <;> simp at start
  · exact not_root_mem_spelled _ inside

/-- The root is never met unless it is a step. -/
theorem root_not_mem_foldl_settle {steps done : List Step} (free : .root ∉ steps) (below : .root ∉ done) :
    .root ∉ steps.foldl settle done := by
  induction steps generalizing done with
  | nil => exact below
  | cons step rest ih =>
    simp only [List.mem_cons, not_or] at free
    refine ih free.2 ?_
    cases step with
    | root => exact absurd rfl free.1
    | here => exact below
    | name s => simpa [settle] using below
    | up => cases done with
      | nil => simp [settle]
      | cons last before => cases last <;> simp_all [settle]

theorem isAbsolute_normalize_eq (l : Location) : l.normalize.isAbsolute = l.isAbsolute := by
  cases kind : l.isAbsolute with
  | true => exact isAbsolute_normalize kind
  | false =>
    have free : .root ∉ l.settledSteps := root_not_mem_foldl_settle (root_not_mem_steps kind) (by simp)
    rw [← Bool.not_eq_true]
    intro absolute
    have root := List.mem_of_head? (isAbsolute_iff_steps.mp absolute)
    rcases l.steps_normalize_cases with steps | ⟨-, steps⟩
    · exact free (List.mem_reverse.mp (steps ▸ root))
    · simp [steps] at root

/-- What a base and a relative text spell is settled in turn. -/
theorem settledSteps_join_eq {base : Location} {text : String} (relative : text.toList.head? ≠ some '/') :
    (base.join text).settledSteps = (spelled text.toList).foldl settle base.settledSteps := by
  by_cases empty : base.text = ""
  · -- No slash is put behind the empty base.
    have same : base = ⟨""⟩ := by rw [← empty]
    have joined : (⟨""⟩ : Location).join text = ⟨text⟩ := by
      unfold join
      split <;> rfl
    rw [same, joined, settledSteps_of_relative relative]
    rfl
  · rw [settledSteps, steps_join relative (Or.inl empty), List.foldl_append]
    rfl

/-- A base may be settled before it is continued. -/
theorem normalize_join_normalize (l : Location) (text : String) :
    (l.normalize.join text).normalize = (l.join text).normalize := by
  by_cases absolute : text.toList.head? = some '/'
  · obtain ⟨body, written⟩ := List.head?_eq_some_iff.mp absolute
    simp [join, written]
  · rw [normalize_eq (l.normalize.join text), normalize_eq (l.join text), settledSteps_join_eq absolute,
      settledSteps_join_eq absolute, settledSteps_normalize]

/-- The root is the first step or none. -/
theorem eq_nil_of_steps_eq_append {l : Location} {before after : List Step}
    (split : l.steps = before ++ .root :: after) :
    before = [] := by
  by_cases absolute : l.isAbsolute = true
  · obtain ⟨body, written⟩ := isAbsolute_iff.mp absolute
    have rooted : opening l.text.toList = [.root] := by simp [opening, written]
    rw [steps_eq, rooted] at split
    cases before with
    | nil => rfl
    | cons first more =>
      have rest : spelled l.text.toList = more ++ .root :: after := (List.cons.inj split).2
      exact absurd (rest ▸ List.mem_append_right more List.mem_cons_self) (not_root_mem_spelled _)
  · have free := root_not_mem_steps (Bool.eq_false_iff.mpr absolute)
    exact absurd (split ▸ List.mem_append_right before List.mem_cons_self) free

/-- Steps in normal form settle as they are, if none is a dot and the root can only be the first. -/
theorem foldl_settle_of_normalForm {steps : List Step} (normal : NormalForm steps) (moved : .here ∉ steps)
    (front : ∀ before after, steps = before ++ .root :: after → before = []) :
    steps.foldl settle [] = steps.reverse := by
  -- From the back, since the last step is settled on what the ones before it have left.
  induction steps using List.reverseRecOn with
  | nil => rfl
  | append_singleton before last ih =>
    have still : .here ∉ before := fun here => moved (List.mem_append_left _ here)
    have own : before.foldl settle [] = before.reverse :=
      ih (normal.of_append still) still fun first rest split => front first (rest ++ [last]) (by simp [split])
    rw [List.foldl_append, own, List.reverse_append]
    cases last with
    | here => simp at moved
    | name s => rfl
    | root =>
      rw [front before [] rfl]
      rfl
    | up =>
      -- Nothing is taken back, as only steps up come before.
      have ups := normal.leading before [] rfl
      cases reversed : before.reverse with
      | nil => rfl
      | cons final more =>
        have up : final = .up := ups final (List.mem_reverse.mp (reversed ▸ List.mem_cons_self))
        rw [up]
        rfl

/-- Only the empty place has no parts. -/
theorem steps_ne_nil {l : Location} (filled : l.text ≠ "") : l.steps ≠ [] := by
  rw [steps_eq]
  intro none_
  obtain ⟨start, inside⟩ := List.append_eq_nil_iff.mp none_
  cases written : l.text.toList with
  | nil => exact filled (String.toList_eq_nil_iff.mp written)
  | cons c rest =>
    rw [written] at start inside
    by_cases slash : c = '/'
    · simp [opening, slash] at start
    · cases cut : pieces '/' rest with
      | nil => exact pieces_ne_nil _ _ cut
      | cons piece more =>
        have first : pieces '/' (c :: rest) = (c :: piece) :: more := by simp [pieces, slash, cut]
        by_cases dot : c :: piece = ['.']
        · simp [opening, slash, first, dot] at start
        · simp [spelled, first, idle, dot] at inside

/-- What is in normal form is left as it is. -/
theorem same_normalize_iff_normalForm (l : Location) :
    l.same l.normalize = true ↔ l.text ≠ "" ∧ NormalForm l.steps := by
  rw [same_iff]
  constructor
  · intro same
    refine ⟨fun empty => ?_, same ▸ normalForm_normalize l⟩
    have none_ : l = ⟨""⟩ := by rw [← empty]
    exact absurd same (by rw [none_]; decide)
  · rintro ⟨filled, normal⟩
    by_cases here : .here ∈ l.steps
    · have dot := normal.alone here
      have settled : l.settledSteps = [] := by
        rw [settledSteps, dot]
        rfl
      rw [dot, normalize_eq, settled]
      rfl
    · have own : l.settledSteps = l.steps.reverse :=
        foldl_settle_of_normalForm normal here fun before after split => eq_nil_of_steps_eq_append split
      have some_ : l.settledSteps ≠ [] := by simpa [own] using steps_ne_nil filled
      rw [steps_normalize some_, own, List.reverse_reverse]

/-- The canonical form of a place is in normal form: a dot in it is all of it, and steps up open a
relative place. It is absolute when the place is. Another pass leaves it as it is, and so does a
pass over any place in normal form, and over no other. A base may be settled before it is continued. -/
theorem normalize_law (l : Location) :
    NormalForm l.normalize.steps ∧ (.here ∈ l.normalize.steps → l.normalize = ⟨"."⟩) ∧
      (.up ∈ l.normalize.steps → l.normalize.isAbsolute = false) ∧ l.normalize.isAbsolute = l.isAbsolute ∧
      l.normalize.normalize = l.normalize ∧ (l.same l.normalize = true ↔ l.text ≠ "" ∧ NormalForm l.steps) ∧
      ∀ b : Location, (l.normalize.join b.text).normalize = (l.join b.text).normalize := by
  have normal := normalForm_normalize l
  refine ⟨normal, normalize_eq_dot, fun up => ?_, isAbsolute_normalize_eq l, normalize_normalize l,
    same_normalize_iff_normalForm l, fun b => normalize_join_normalize l b.text⟩
  rw [← Bool.not_eq_true, isAbsolute_iff_steps]
  exact fun rooted => normal.up_not_mem rooted up

/-- The empty base becomes a dot, which a step up behind it takes away. -/
example : normalize ⟨""⟩ = ⟨"."⟩ ∧ (join (normalize ⟨""⟩) "../a/..").normalize = ⟨".."⟩ := by decide

end LayeredConfig.Location
