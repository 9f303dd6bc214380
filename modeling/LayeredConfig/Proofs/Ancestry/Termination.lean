import LayeredConfig.Proofs.Ancestry.Evidence
import LayeredConfig.Proofs.Location.Relative
import Mathlib.Data.List.Dedup

namespace LayeredConfig

open Location

namespace FileTree

/-- The names of all regular files, each once. -/
def regularFiles (t : FileTree) : List (List String) :=
  (t.entries.map Prod.fst).dedup.filter fun names => (t.entry? names).any fun e => !e.isDirectory

variable {t : FileTree} {places : List Location}

theorem mem_regularFiles {names : List String} :
    names ∈ t.regularFiles ↔ ∃ body, t.entry? names = some (.file body) := by
  unfold regularFiles
  rw [List.mem_filter, List.mem_dedup, Option.any_eq_true]
  constructor
  · rintro ⟨_, entry, found, file⟩
    cases entry with
    | directory => cases file
    | file body => exact ⟨body, found⟩
  · rintro ⟨body, found⟩
    exact ⟨mem_entries_of_file found, .file body, found, rfl⟩

theorem length_regularFiles_le (t : FileTree) : t.regularFiles.length ≤ t.entries.length := by
  have few := (List.dedup_sublist (t.entries.map Prod.fst)).length_le
  rw [List.length_map] at few
  exact (List.length_filter_le _ _).trans few

/-- The steps of an absolute place in canonical form follow from where they lead. -/
theorem steps_of_foldl_move {l : Location} (absolute : l.isAbsolute = true) (canonical : l.same l.normalize = true)
    (dir : List String) : l.steps = .root :: (l.steps.foldl Step.move dir).map .name := by
  obtain ⟨names, _, steps⟩ := steps_of_canonical (isAbsolute_normalize absolute) l.normalize_normalize
  rw [same_iff.mp canonical, steps, List.foldl_cons, foldl_move_names]
  rfl

/-- Of absolute places that are files there are no more than files, when no two of them have
the same parts. -/
theorem length_le_regularFiles (distinct : (places.map steps).Nodup)
    (canonical : ∀ l ∈ places, l.isAbsolute = true ∧ l.same l.normalize = true)
    (files : ∀ l ∈ places, t.isFile l = true) : places.length ≤ t.regularFiles.length := by
  have apart : ((places.map steps).map fun steps => steps.foldl Step.move t.here).Nodup := by
    refine List.Nodup.map_on ?_ distinct
    intro own left other right same
    obtain ⟨l, first, rfl⟩ := List.mem_map.mp left
    obtain ⟨m, second, rfl⟩ := List.mem_map.mp right
    rw [steps_of_foldl_move (canonical l first).1 (canonical l first).2 t.here, same,
      ← steps_of_foldl_move (canonical m second).1 (canonical m second).2 t.here]
  have known : ((places.map steps).map fun steps => steps.foldl Step.move t.here) ⊆ t.regularFiles := by
    intro names member
    rw [List.map_map] at member
    obtain ⟨l, inside, rfl⟩ := List.mem_map.mp member
    obtain ⟨names, body, located, found⟩ := isFile_eq_true (files l inside)
    have leads := (locate_eq_ok located).2
    exact mem_regularFiles.mpr ⟨body, by simpa [← leads] using found⟩
  simpa using (apart.subperm known).length_le

end FileTree

namespace Surroundings

variable {s : Surroundings}

/-- What holds of each turn when the package roots and the first place are absolute: its
branch names files, and no two of its places have the same parts. -/
structure Turn.Fresh (t : FileTree) (turn : Turn) : Prop where
  distinct : (turn.branch.map steps).Nodup
  canonical : ∀ l ∈ turn.branch, l.isAbsolute = true ∧ l.same l.normalize = true
  files : ∀ l ∈ turn.branch, t.isFile l = true

variable {t x y : FileTree} {root place target referrer : Location} {above branch : List Location} {d : Document}
  {reference : Option String} {named : String}

theorem Turn.Fresh.length_le {turn : Turn} (fresh : turn.Fresh t) : turn.branch.length ≤ t.regularFiles.length :=
  FileTree.length_le_regularFiles fresh.distinct fresh.canonical fresh.files

/-- A fresh branch leaves room for one more place. -/
theorem Turn.Fresh.length_ne (fresh : Turn.Fresh t ⟨above, place⟩) : above.length ≠ branchBound t := by
  have short := fresh.length_le
  have few := t.length_regularFiles_le
  rw [Turn.branch, List.length_append, List.length_singleton] at short
  unfold branchBound FileTree.longestPlace
  dsimp only at short
  omega

theorem Turn.fresh_root (absolute : root.isAbsolute = true) (file : t.isFile root.normalize = true) :
    Turn.Fresh t ⟨[], root.normalize⟩ := by
  have own := isAbsolute_normalize absolute
  have same : root.normalize.same root.normalize = true := by rw [same_iff]
  refine ⟨?_, ?_, ?_⟩ <;> simp [Turn.branch, own, same, file]

/-- A turn below a fresh one is fresh: its place is a file that is not on the branch. -/
theorem Turn.Fresh.deeper (roots : ∀ r ∈ s.search.roots, r.isAbsolute = true) (fresh : Turn.Fresh t ⟨above, place⟩)
    (before : t.SameShape x) (after : t.SameShape y)
    (loaded : (Document.load s.policy s.now x place).result = .ok d)
    (found : s.parent y (above ++ [d.location]) d.location named = .ok target) :
    Turn.Fresh t ⟨above ++ [d.location], target⟩ := by
  have location := Document.location_of_load loaded
  obtain ⟨located, new, file⟩ := parent_eq_ok found
  have own := fresh.canonical place (by simp [Turn.branch])
  have parts : (above ++ [d.location]).map steps = (above ++ [place]).map steps := by
    rw [List.map_append, List.map_append, location, List.map_singleton, List.map_singleton, same_iff.mp own.2]
  have absolute : d.location.isAbsolute = true := by
    rw [location]
    exact isAbsolute_normalize own.1
  refine ⟨?_, fun l member => ?_, fun l member => ?_⟩
  · rw [Turn.branch, List.map_append, parts]
    refine List.nodup_append.mpr ⟨fresh.distinct, List.nodup_singleton _, ?_⟩
    rintro known inside _ last rfl
    rw [← parts] at inside
    obtain ⟨l, member, same⟩ := List.mem_map.mp inside
    rw [List.map_singleton, List.mem_singleton] at last
    exact List.any_eq_false.mp new l member (same_iff.mpr (same.trans last))
  · rcases List.mem_append.mp member with earlier | last
    · rcases List.mem_append.mp earlier with higher | own_
      · exact fresh.canonical l (List.mem_append_left _ higher)
      · rw [List.mem_singleton.mp own_]
        exact ⟨absolute, by rw [location, normalize_normalize, same_iff]⟩
    · rw [List.mem_singleton.mp last]
      exact ⟨isAbsolute_of_locateReference roots absolute located,
        same_normalize_of_locateReference roots absolute located⟩
  · rcases List.mem_append.mp member with earlier | last
    · rcases List.mem_append.mp earlier with higher | own_
      · exact fresh.files l (List.mem_append_left _ higher)
      · rw [List.mem_singleton.mp own_, location, ← before.isFile]
        exact Document.isFile_of_load loaded
    · rw [List.mem_singleton.mp last, ← after.isFile]
      exact file

/-- The fuel of a visit is not spent, since a fresh branch leaves room for one more place. -/
theorem Turn.Fresh.not_spent (roots : ∀ r ∈ s.search.roots, r.isAbsolute = true) {fuel : Nat}
    (left : fuel + above.length = branchBound t) (fresh : Turn.Fresh t ⟨above, place⟩) (shape : t.SameShape x) :
    ¬(s.visit fuel x above reference place).Spent := by
  induction fuel generalizing x above reference place with
  | zero => exact absurd (by simpa using left) fresh.length_ne
  | succ fuel ih =>
    rintro ⟨l, spent⟩
    cases loaded : (Document.load s.policy s.now x place).result with
    | error fault =>
      rw [visit_of_load_error loaded] at spent
      exact (Document.load_eq_error loaded).ne_endless (Except.error.inj spent)
    | ok d =>
      have room : fuel + (above ++ [d.location]).length = branchBound t := by
        rw [List.length_append, List.length_singleton]
        omega
      have keep : ∀ y, t.SameShape y → ∀ named ∈ d.parents,
          t.SameShape (s.visitParent fuel (above ++ [d.location]) d.location y named).files :=
        fun y kept named _ => kept.trans (s.sameShape_visitParent fuel _ _ y named)
      have after := shape.trans (Document.sameShape_load s.policy s.now x place)
      rw [visit_of_load_ok loaded] at spent
      obtain ⟨_, ⟨_, done, _⟩ | ⟨named, _, y, fault, kept, failed, stopped⟩⟩ := Outcome.inTurn_cases keep after
      · rw [Outcome.andThen_of_ok done] at spent
        cases spent
      · rw [Outcome.andThen_of_error stopped] at spent
        cases spent
        cases found : s.parent y (above ++ [d.location]) d.location named with
        | error cause =>
          rw [visitParent_of_parent_error found] at failed
          exact parent_ne_endless found l (Except.error.inj failed)
        | ok target =>
          rw [visitParent_of_parent found] at failed
          exact ih room (fresh.deeper roots shape kept loaded found) kept ⟨l, failed⟩

theorem Walk.sameShape {turns : List Turn} {o : Outcome Ancestry} (walk : s.Walk x above reference place turns o) :
    x.SameShape o.files := by
  rw [← walk.visit_eq (Nat.le_refl _)]
  exact s.sameShape_visit _ x above reference place

mutual

/-- All turns of a walk are fresh when the first one is. -/
theorem Walk.fresh {t x : FileTree} {above : List Location} {reference : Option String} {place : Location}
    {turns : List Turn} {o : Outcome Ancestry} (roots : ∀ r ∈ s.search.roots, r.isAbsolute = true) :
    s.Walk x above reference place turns o → Turn.Fresh t ⟨above, place⟩ → t.SameShape x →
      ∀ turn ∈ turns, turn.Fresh t
  | .unloaded _, fresh, _ => by simpa using fresh
  | .loaded loaded walk, fresh, shape =>
    List.forall_mem_cons.mpr ⟨fresh, walk.fresh roots
      (fun _ kept _ _ found => fresh.deeper roots shape kept loaded found)
      (shape.trans (Document.sameShape_load _ _ _ _))⟩

theorem WalkAll.fresh {t x : FileTree} {branch : List Location} {referrer : Location} {references : List String}
    {turns : List Turn} {o : Outcome (List Ancestry)} (roots : ∀ r ∈ s.search.roots, r.isAbsolute = true) :
    s.WalkAll x branch referrer references turns o →
      (∀ y, t.SameShape y → ∀ named target, s.parent y branch referrer named = .ok target →
        Turn.Fresh t ⟨branch, target⟩) →
      t.SameShape x → ∀ turn ∈ turns, turn.Fresh t
  | .nil, _, _ => by simp
  | .refused _, _, _ => by simp
  | .failed found walk _, deeper, shape => walk.fresh roots (deeper _ shape _ _ found) shape
  | .next found walk _ rest, deeper, shape =>
    List.forall_mem_append.mpr ⟨walk.fresh roots (deeper _ shape _ _ found) shape,
      rest.fresh roots deeper (shape.trans walk.sameShape)⟩

end

/-- A visit below a fresh branch is a walk through fresh turns. -/
theorem exists_walk (roots : ∀ r ∈ s.search.roots, r.isAbsolute = true) {fuel : Nat}
    (left : fuel + above.length = branchBound t) (fresh : Turn.Fresh t ⟨above, place⟩) (shape : t.SameShape x) :
    ∃ turns, s.Walk x above reference place turns (s.visit fuel x above reference place) ∧
      ∀ turn ∈ turns, turn.Fresh t := by
  obtain ⟨turns, walk⟩ := exists_walk_of_visit (fresh.not_spent roots left shape)
  exact ⟨turns, walk, walk.fresh roots fresh shape⟩

theorem exists_run (roots : ∀ r ∈ s.search.roots, r.isAbsolute = true) (absolute : root.isAbsolute = true) :
    ∃ turns, s.Runs t root turns (s.ancestry t root) ∧ ∀ turn ∈ turns, turn.Fresh t := by
  unfold ancestry
  dsimp only
  split
  · next file =>
    obtain ⟨turns, walk, fresh⟩ := exists_walk roots rfl (Turn.fresh_root absolute file) (.refl t)
    exact ⟨turns, .found file walk, fresh⟩
  · next missing => exact ⟨[], .missing (by simpa using missing), by simp⟩

/-- Following references comes to an end, with documents or with a fault. There is one run
from an absolute place, it is finite, and the ancestry is its outcome, so the bound on the
walk of an ancestry is never met. On each branch of the run all places are files, of which no
two have the same parts, whatever the loads before have written: a branch has no more places
than there are files. -/
theorem ancestry_terminates (roots : ∀ r ∈ s.search.roots, r.isAbsolute = true)
    (absolute : root.isAbsolute = true) :
    ∃ turns, s.Runs t root turns (s.ancestry t root) ∧
      (∀ others o, s.Runs t root others o → others = turns ∧ o = s.ancestry t root) ∧
      t.SameShape (s.ancestry t root).files ∧
      ∀ turn ∈ turns, (turn.branch.map steps).Nodup ∧ (∀ l ∈ turn.branch, t.isFile l = true) ∧
        turn.branch.length ≤ t.regularFiles.length := by
  obtain ⟨turns, run, fresh⟩ := exists_run (t := t) roots absolute
  refine ⟨turns, run, fun others o other => other.unique run, s.sameShape_ancestry t root, fun turn member => ?_⟩
  exact ⟨(fresh turn member).distinct, (fresh turn member).files, (fresh turn member).length_le⟩

/-- The walk of a document whose first reference leads to a parent walks that parent, in
fewer turns. -/
theorem Walk.exists_first {turns : List Turn} {o : Outcome Ancestry} {rest : List String}
    (walk : s.Walk x above reference place turns o)
    (loaded : (Document.load s.policy s.now x place).result = .ok d) (names : d.parents = named :: rest)
    (found : s.parent (Document.load s.policy s.now x place).files (above ++ [d.location]) d.location named =
      .ok target) :
    ∃ fewer p, fewer.length < turns.length ∧
      s.Walk (Document.load s.policy s.now x place).files (above ++ [d.location]) (some named) target fewer p := by
  rcases walk with failed | ⟨again, walk⟩
  · rw [loaded] at failed
    cases failed
  · rw [loaded] at again
    cases again
    rw [names] at walk
    cases walk with
    | refused refused =>
      rw [found] at refused
      cases refused
    | failed other walk _ =>
      rw [found] at other
      cases other
      exact ⟨_, _, Nat.lt_succ_self _, walk⟩
    | next other walk _ _ =>
      rw [found] at other
      cases other
      exact ⟨_, _, by rw [List.length_cons, List.length_append]; omega, walk⟩

/-- A document that names its own place, in a way in which the place is not known again, is
walked into without end. -/
theorem not_walk_of_self_reference (loaded : (Document.load s.policy s.now x place).result = .ok d)
    (kept : (Document.load s.policy s.now x place).files = x) {rest : List String}
    (names : d.parents = named :: rest) (located : locateReference s.search x named d.location = .ok place)
    (file : x.isFile place = true) (apart : d.location.same place = false) {turns : List Turn}
    {o : Outcome Ancestry} (unknown : ∀ l ∈ above, l.same place = false) :
    ¬s.Walk x above reference place turns o := by
  -- the walk of the parent is a shorter one of the same kind
  generalize count : turns.length = n
  induction n using Nat.strong_induction_on generalizing above reference turns o with
  | _ n ih =>
    intro walk
    have new : ∀ l ∈ above ++ [d.location], l.same place = false := by
      intro l member
      rcases List.mem_append.mp member with higher | own
      · exact unknown l higher
      · rwa [List.mem_singleton.mp own]
    have fresh : (above ++ [d.location]).any (·.same place) = false :=
      List.any_eq_false.mpr fun l member => by simp [new l member]
    have found : s.parent x (above ++ [d.location]) d.location named = .ok place := by
      rw [parent_of_locate located file, fresh]
      rfl
    obtain ⟨fewer, p, less, again⟩ := walk.exists_first loaded names (by rw [kept]; exact found)
    rw [kept] at again
    exact ih fewer.length (count ▸ less) new rfl again

set_option maxRecDepth 10000 in
theorem fork_terminates :
    (∀ r ∈ plain.search.roots, r.isAbsolute = true) ∧ (⟨"/a"⟩ : Location).isAbsolute = true ∧
      ∃ turns, plain.Runs (fork "./a") ⟨"/a"⟩ turns (plain.ancestry (fork "./a") ⟨"/a"⟩) ∧
        ∀ turn ∈ turns, turn.branch.length ≤ 3 := by
  have roots : ∀ r ∈ plain.search.roots, r.isAbsolute = true := by decide
  have absolute : (⟨"/a"⟩ : Location).isAbsolute = true := by decide
  obtain ⟨turns, run, _, _, fresh⟩ := ancestry_terminates (t := fork "./a") roots absolute
  have three : (fork "./a").regularFiles.length = 3 := by decide +kernel
  exact ⟨roots, absolute, turns, run, fun turn member => three ▸ (fresh turn member).2.2⟩

/-- A document that names itself by a package in the current directory, and one that names
that document. -/
def selfLoop : FileTree :=
  ⟨[(["a"], .file (.text "$schema: ./s\nextends: '@k/../p'")),
    (["p"], .file (.text "$schema: .//s\nextends: '@k/../p'")), (["@k"], .directory)], []⟩

set_option maxRecDepth 10000 in
/-- Below a package root that is not absolute, references can be followed without end; and
where a wrapper goes when its document is loaded once more, so that a cycle is found, the
branch has a place twice and more places than there are files. -/
theorem not_terminates_of_relative_root :
    (¬∀ (s : Surroundings) (t : FileTree) (root : Location), root.isAbsolute = true →
        ∃ turns o, s.Runs t root turns o) ∧
      ¬∀ (s : Surroundings) (t : FileTree) (root : Location) (chain : List Location) (repeated : Location),
        root.isAbsolute = true → (s.ancestry t root).result = .error (.circular chain repeated) →
        chain.Nodup ∧ chain.length ≤ t.regularFiles.length := by
  let s : Surroundings := ⟨⟨⟨"/s"⟩, false⟩, ⟨[], [⟨"."⟩]⟩, ⟨0, 0⟩⟩
  constructor
  · intro ends
    obtain ⟨turns, o, run⟩ := ends s selfLoop ⟨"/a"⟩ (by decide)
    have names (l : Location) (listed : l ∈ [(⟨"/a"⟩ : Location), ⟨"p"⟩]) :
        ∃ d, (Document.load s.policy s.now selfLoop l).result = .ok d ∧
          (Document.load s.policy s.now selfLoop l).files = selfLoop ∧ d.parents = ["@k/../p"] := by
      have settled : ∀ l ∈ [(⟨"/a"⟩ : Location), ⟨"p"⟩], s.settledAt selfLoop [⟨"p"⟩] l = true ∧
          s.references selfLoop l = ["@k/../p"] := by decide +kernel
      obtain ⟨d, loaded, parents⟩ := load_of_settledAt (settled l listed).1
      exact ⟨d, loaded, files_load_of_settledAt (settled l listed).1, parents.trans (settled l listed).2⟩
    have leads (l : Location) (listed : l ∈ [(⟨"/a"⟩ : Location), ⟨"p"⟩]) :
        locateReference s.search selfLoop "@k/../p" l = .ok ⟨"./p"⟩ := by
      have all : ∀ l ∈ [(⟨"/a"⟩ : Location), ⟨"p"⟩],
          (locateReference s.search selfLoop "@k/../p" l).toOption = some ⟨"./p"⟩ := by decide +kernel
      exact eq_ok_of_toOption (all l listed)
    have file : selfLoop.isFile ⟨"./p"⟩ = true := by decide +kernel
    obtain ⟨d, loadedA, keptA, namesA⟩ := names ⟨"/a"⟩ (by simp)
    obtain ⟨e, loadedP, keptP, namesP⟩ := names ⟨"p"⟩ (by simp)
    have locationA : d.location = ⟨"/a"⟩ := (Document.location_of_load loadedA).trans (by decide +kernel)
    have locationP : e.location = ⟨"p"⟩ := (Document.location_of_load loadedP).trans (by decide +kernel)
    have dotted : Location.normalize ⟨"./p"⟩ = ⟨"p"⟩ := by decide +kernel
    rw [← dotted, load_normalize] at loadedP keptP
    have start : Location.normalize ⟨"/a"⟩ = ⟨"/a"⟩ := by decide +kernel
    cases run with
    | missing none_ => exact absurd none_ (by decide +kernel)
    | found _ walk =>
      rw [start] at walk
      have found : s.parent selfLoop ([] ++ [d.location]) d.location "@k/../p" = .ok ⟨"./p"⟩ := by
        rw [locationA, parent_of_locate (leads ⟨"/a"⟩ (by simp)) file]
        decide +kernel
      obtain ⟨_, _, _, again⟩ := walk.exists_first loadedA namesA (by rw [keptA]; exact found)
      rw [keptA] at again
      refine not_walk_of_self_reference loadedP keptP namesP (locationP ▸ leads ⟨"p"⟩ (by simp)) file
        (by rw [locationP]; decide) ?_ again
      rw [locationA]
      decide
  · intro short
    have both := short s wrappedLoop ⟨"/a"⟩ [⟨"/a"⟩, ⟨"p"⟩, ⟨"y"⟩, ⟨"p"⟩] ⟨"y"⟩ (by decide)
      (eq_error_of_error? (by decide +kernel))
    exact absurd both.1 (by decide)

end Surroundings

end LayeredConfig
