import LayeredConfig.Proofs.FileTree.Frame
import LayeredConfig.Proofs.Location.Absolute
import LayeredConfig.Proofs.Text.Cut
import Mathlib.Data.List.Nodup
import Mathlib.Data.List.Perm.Subperm
import Mathlib.Data.List.ProdSigma

namespace LayeredConfig

/-- Where a step leads from a directory in a tree without links. -/
def Step.move (names : List String) : Step → List String
  | .root => []
  | .here => names
  | .up => names.dropLast
  | .name s => names ++ [s]

theorem length_le_utf8ByteSize_ofList (cs : List Char) : cs.length ≤ (String.ofList cs).utf8ByteSize := by
  induction cs with
  | nil => exact Nat.zero_le _
  | cons c rest ih =>
    have positive := c.utf8Size_pos
    rw [utf8ByteSize_ofList_cons, List.length_cons]
    omega

theorem length_le_utf8ByteSize (s : String) : s.toList.length ≤ s.utf8ByteSize := by
  simpa using length_le_utf8ByteSize_ofList s.toList

namespace FileTree

theorem walk_eq_ok {t : FileTree} {dir names : List String} {parts : List (List Char)}
    (walked : t.walk dir parts = .ok names) :
    names = ((parts.filter (!Location.idle ·)).map Location.stepOf).foldl Step.move dir := by
  induction parts generalizing dir with
  | nil => simpa [walk] using walked.symm
  | cons part rest ih =>
    rw [walk] at walked
    split at walked
    · cases walked
    · cases walked
    · split at walked
      · next idle => simpa [idle] using ih walked
      · next busy =>
        split at walked
        · next dots =>
          subst dots
          simpa [Location.idle, Location.stepOf, Step.move] using ih walked
        · next apart =>
          by_cases long : 255 < (String.ofList part).utf8ByteSize
          · simp [long] at walked
          · simp only [long, if_false] at walked
            simpa [busy, apart, Location.stepOf, Step.move] using ih walked

/-- The names that a place stands for follow from its steps alone. -/
theorem locate_eq_ok {t : FileTree} {l : Location} {names : List String} (located : t.locate l = .ok names) :
    l.text.utf8ByteSize ≤ longestPlace ∧ names = l.steps.foldl Step.move t.here := by
  unfold locate at located
  cases checked : checkPlace l with
  | error fault => simp [checked, bind, Except.bind] at located
  | ok u =>
    constructor
    · unfold checkPlace at checked
      split at checked
      · cases checked
      · split at checked
        · cases checked
        · split at checked
          · cases checked
          · omega
    · simp only [checked, bind, Except.bind, follow] at located
      have moved := walk_eq_ok located
      rw [moved, Location.steps_eq, List.foldl_append, Location.spelled, Location.isAbsolute, Location.opening]
      by_cases root : l.text.toList.head? = some '/'
      · simp [root, Step.move]
      · by_cases dot : (pieces '/' l.text.toList).head? = some ['.'] <;> simp [root, dot, Step.move]

theorem mem_entries_of_file {t : FileTree} {names : List String} {body : Body}
    (found : t.entry? names = some (.file body)) : names ∈ t.entries.map Prod.fst := by
  cases names with
  | nil => cases found
  | cons first rest =>
    obtain ⟨before, after, split, _⟩ := List.lookup_eq_some_iff.mp found
    simp [split]

/-- Parts that count for nothing lead to the directory itself. -/
theorem walk_idle {t : FileTree} {dir names : List String} {parts : List (List Char)} (some_ : parts ≠ [])
    (idle : ∀ part ∈ parts, Location.idle part = true) (walked : t.walk dir parts = .ok names) :
    names = dir ∧ t.entry? dir = some .directory := by
  induction parts with
  | nil => exact absurd rfl some_
  | cons part rest ih =>
    have own := idle part List.mem_cons_self
    rw [walk] at walked
    split at walked
    · cases walked
    · cases walked
    · next directory =>
      rw [if_pos own] at walked
      cases rest with
      | nil => exact ⟨by simpa [walk] using walked.symm, directory⟩
      | cons next more => exact ih (by simp) (fun p member => idle p (List.mem_cons_of_mem _ member)) walked

/-- A place of dots only is a directory. -/
theorem exists_step_of_isFile {t : FileTree} {l : Location} (file : t.isFile l = true) :
    ∃ step ∈ l.steps, step ≠ .here := by
  by_contra none_
  push Not at none_
  obtain ⟨names, body, located, found⟩ := isFile_eq_true file
  have idle : ∀ part ∈ pieces '/' l.text.toList, Location.idle part = true := by
    intro part inside
    by_contra busy
    have member : Location.stepOf part ∈ Location.spelled l.text.toList :=
      List.mem_map_of_mem (List.mem_filter.mpr ⟨inside, by simpa using busy⟩)
    have here := none_ _ (by rw [Location.steps_eq]; exact List.mem_append_right _ member)
    rcases Location.spelled_sound member with up | ⟨s, named, _⟩
    · rw [here] at up
      cases up
    · rw [here] at named
      cases named
  have relative : l.isAbsolute = false := by
    by_contra absolute
    rw [Bool.not_eq_false, Location.isAbsolute_iff_steps] at absolute
    have here := none_ _ (List.mem_of_mem_head? absolute)
    cases here
  unfold locate at located
  cases checked : checkPlace l with
  | error fault => simp [checked, bind, Except.bind] at located
  | ok u =>
    simp only [checked, bind, Except.bind, follow, relative] at located
    obtain ⟨rfl, directory⟩ := walk_idle (pieces_ne_nil _ _) idle located
    rw [found] at directory
    cases directory

end FileTree

namespace Location

/-- Which of the canonical places of a file it is: the absolute one, or the
relative one with so many steps up. -/
def variant (done : List Step) : Nat :=
  if .root ∈ done then 0 else done.count .up + 1

theorem count_up_steps_le (l : Location) : l.steps.count .up ≤ l.text.toList.length + 1 := by
  have cut := length_pieces_le '/' l.text.toList
  have kept := List.length_filter_le (!idle ·) (pieces '/' l.text.toList)
  have few := List.count_le_length (a := Step.up) (l := spelled l.text.toList)
  have start : (opening l.text.toList).count .up = 0 := by
    unfold opening
    split
    · rfl
    · split <;> rfl
  rw [steps_eq, List.count_append, start]
  rw [spelled, List.length_map] at few
  rw [spelled]
  omega

/-- Settling adds no step up of its own. -/
theorem count_up_foldl_settle_le (steps done : List Step) :
    (steps.foldl settle done).count .up ≤ done.count .up + steps.count .up := by
  induction steps generalizing done with
  | nil => simp
  | cons step rest ih =>
    have later := ih (settle done step)
    have once : (settle done step).count .up ≤ done.count .up + [step].count .up := by
      cases step with
      | root => simp [settle]
      | here => simp [settle]
      | name s => simp [settle]
      | up => cases done with
        | nil => simp [settle]
        | cons last before => cases last <;> simp [settle]
    rw [List.foldl_cons, ← List.singleton_append, List.count_append]
    omega

theorem variant_settledSteps_le (l : Location) : variant l.settledSteps ≤ l.text.toList.length + 2 := by
  have written := l.count_up_steps_le
  have settled := count_up_foldl_settle_le l.steps []
  unfold variant settledSteps
  split
  · omega
  · rw [List.count_nil] at settled
    omega

theorem foldl_move_names (names dir : List String) : (names.map Step.name).foldl Step.move dir = dir ++ names := by
  induction names generalizing dir with
  | nil => simp
  | cons s rest ih => simp [Step.move, ih]

theorem foldl_move_climb (ups : Nat) (names dir : List String) :
    (climb ups names).foldl Step.move dir = (List.replicate ups Step.up).foldl Step.move dir ++ names := by
  rw [climb, List.foldl_append, foldl_move_names]

theorem variant_of_root {done : List Step} {names : List String} (form : done.reverse = .root :: climb 0 names) :
    variant done = 0 := by
  have member : Step.root ∈ done := List.mem_reverse.mp (form ▸ List.mem_cons_self)
  rw [variant, if_pos member]

theorem variant_of_climb {done : List Step} {ups : Nat} {names : List String}
    (form : done.reverse = climb ups names) :
    variant done = ups + 1 := by
  have member : Step.root ∉ done := by
    rw [← List.mem_reverse, form, climb]
    simp
  have count : done.count .up = ups := by
    have named : (names.map Step.name).count .up = 0 := List.count_eq_zero.mpr (by simp)
    rw [← List.count_reverse, form, climb, List.count_append, List.count_replicate_self, named, Nat.add_zero]
  rw [variant, if_neg member, count]

/-- Settling a step leads where the step leads. -/
theorem foldl_move_settle (done : List Step) (step : Step) (dir : List String) :
    (settle done step).reverse.foldl Step.move dir = Step.move (done.reverse.foldl Step.move dir) step := by
  cases step with
  | root => rfl
  | here => rfl
  | name s => simp [settle]
  | up => cases done with
    | nil => rfl
    | cons last before => cases last <;> simp [settle, Step.move]

/-- The canonical steps of a place lead where its steps lead. -/
theorem foldl_move_settledSteps (l : Location) (dir : List String) :
    l.settledSteps.reverse.foldl Step.move dir = l.steps.foldl Step.move dir := by
  suffices ∀ done : List Step, (l.steps.foldl settle done).reverse.foldl Step.move dir =
      l.steps.foldl Step.move (done.reverse.foldl Step.move dir) from this []
  induction l.steps with
  | nil => exact fun _ => rfl
  | cons step rest ih =>
    intro done
    rw [List.foldl_cons, ih, foldl_move_settle, List.foldl_cons]

/-- Canonical steps are known by their variant and by where they lead. -/
theorem Settled.eq_of_variant {a b : List Step} (left : Settled a) (right : Settled b) {dir : List String}
    (variants : variant a = variant b)
    (ends : a.reverse.foldl Step.move dir = b.reverse.foldl Step.move dir) : a = b := by
  obtain ⟨names, _, absolute | ⟨ups, relative⟩⟩ := left.form
  · obtain ⟨others, _, other | ⟨_, other⟩⟩ := right.form
    · rw [absolute, other, List.foldl_cons, List.foldl_cons, foldl_move_climb, foldl_move_climb] at ends
      have same : names = others := List.append_cancel_left ends
      exact List.reverse_injective (by rw [absolute, other, same])
    · rw [variant_of_root absolute, variant_of_climb other] at variants
      omega
  · obtain ⟨others, _, other | ⟨more, other⟩⟩ := right.form
    · rw [variant_of_climb relative, variant_of_root other] at variants
      omega
    · rw [variant_of_climb relative, variant_of_climb other] at variants
      obtain rfl : ups = more := by omega
      rw [relative, other, foldl_move_climb, foldl_move_climb] at ends
      have same : names = others := List.append_cancel_left ends
      exact List.reverse_injective (by rw [relative, other, same])

end Location

namespace FileTree

/-- A canonical place leads where its canonical steps lead. -/
theorem locate_canonical {t : FileTree} {l : Location} {names : List String} (canonical : l.normalize = l)
    (located : t.locate l = .ok names) : names = l.settledSteps.reverse.foldl Step.move t.here := by
  have moved := (locate_eq_ok located).2
  by_cases empty : l.settledSteps = []
  · have dot : l.steps = [.here] := by
      rw [← canonical, Location.normalize_eq, empty]
      rfl
    rw [moved, dot, empty]
    rfl
  · have same : l.steps = l.settledSteps.reverse := by
      have written := l.settledSteps_settled.steps_ofSteps empty
      rwa [← Location.normalize_eq, canonical] at written
    rw [moved, same]

/-- A place and its canonical form lead to the same names. -/
theorem locate_normalize {t : FileTree} {l : Location} {names others : List String}
    (located : t.locate l = .ok names) (canonical : t.locate l.normalize = .ok others) : others = names := by
  have settled : l.normalize.settledSteps = l.settledSteps := l.settledSteps_settled.settledSteps_ofSteps
  rw [locate_canonical l.normalize_normalize canonical, settled, Location.foldl_move_settledSteps,
    (locate_eq_ok located).2]

/-- An absolute canonical place is known by the names it leads to. -/
theorem eq_of_locate {t : FileTree} {l m : Location} {names : List String}
    (left : l.isAbsolute = true ∧ l.normalize = l) (right : m.isAbsolute = true ∧ m.normalize = m)
    (here : t.locate l = .ok names) (there : t.locate m = .ok names) : l = m := by
  have ends := (locate_canonical left.2 here).symm.trans (locate_canonical right.2 there)
  have variants : Location.variant l.settledSteps = Location.variant m.settledSteps := by
    simp [Location.variant, Location.root_mem_settledSteps left.1, Location.root_mem_settledSteps right.1]
  have steps := l.settledSteps_settled.eq_of_variant m.settledSteps_settled variants ends
  rw [← left.2, ← right.2, Location.normalize_eq, Location.normalize_eq, steps]

/-- A file has few canonical places, so a list of them without repetition is
short. -/
theorem length_le_of_nodup {t : FileTree} {places : List Location} (distinct : places.Nodup)
    (files : ∀ l ∈ places, l.normalize = l ∧ t.isFile l = true) :
    places.length ≤ (longestPlace + 3) * t.entries.length := by
  let mark (l : Location) : Nat × List String :=
    (Location.variant l.settledSteps, l.settledSteps.reverse.foldl Step.move t.here)
  have known : places.map mark ⊆ List.range (longestPlace + 3) ×ˢ t.entries.map Prod.fst := by
    intro pair member
    obtain ⟨l, inside, rfl⟩ := List.mem_map.mp member
    obtain ⟨canonical, file⟩ := files l inside
    obtain ⟨names, body, located, found⟩ := isFile_eq_true file
    refine List.pair_mem_product.mpr ⟨List.mem_range.mpr ?_, ?_⟩
    · have size := (locate_eq_ok located).1
      have length := length_le_utf8ByteSize l.text
      have few := l.variant_settledSteps_le
      omega
    · rw [← locate_canonical canonical located]
      exact mem_entries_of_file found
  have apart : (places.map mark).Nodup := by
    refine List.Nodup.map_on (fun a one b other same => ?_) distinct
    have steps := a.settledSteps_settled.eq_of_variant b.settledSteps_settled (congrArg Prod.fst same)
      (congrArg Prod.snd same)
    rw [← (files a one).1, ← (files b other).1, Location.normalize_eq, Location.normalize_eq, steps]
  have fewer := (List.Nodup.subperm apart known).length_le
  simpa [List.length_product] using fewer

end FileTree

end LayeredConfig
