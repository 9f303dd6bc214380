import LayeredConfig.Proofs.Ancestry.Package
import LayeredConfig.Proofs.Location.Ancestors
import LayeredConfig.Proofs.Outcome

namespace LayeredConfig

/-- In a list in order, the first that passes a test is the one that passes with none before it
that does. -/
theorem find?_eq_some_iff_of_pairwise {α : Type} {before : α → α → Prop} (asymm : ∀ a b, before a b → ¬before b a)
    {p : α → Bool} {items : List α} (sorted : items.Pairwise before) {a : α} :
    items.find? p = some a ↔ a ∈ items ∧ p a = true ∧ ∀ b ∈ items, before b a → p b = false := by
  constructor
  · intro found
    obtain ⟨passes, front, back, rfl, fails⟩ := List.find?_eq_some_iff_append.mp found
    refine ⟨by simp, passes, fun b member sooner => ?_⟩
    rcases List.mem_append.mp member with early | late
    · simpa using fails b early
    · -- What stands behind is not before.
      have order := (List.pairwise_cons.mp (List.pairwise_append.mp sorted).2.1).1
      rcases List.mem_cons.mp late with rfl | later
      · exact absurd sooner (asymm b b sooner)
      · exact absurd sooner (asymm a b (order b later))
  · rintro ⟨member, passes, first⟩
    obtain ⟨front, back, rfl⟩ := List.append_of_mem member
    refine List.find?_eq_some_iff_append.mpr ⟨passes, front, back, rfl, fun b early => ?_⟩
    have sooner := (List.pairwise_append.mp sorted).2.2 b early a (by simp)
    simpa using first b (List.mem_append_left _ early) sooner

/-- A list in order is known by what is in it. -/
theorem eq_of_pairwise_of_mem_iff {α : Type} {before : α → α → Prop} (asymm : ∀ a b, before a b → ¬before b a)
    {items others : List α} (left : items.Pairwise before) (right : others.Pairwise before)
    (same : ∀ a, a ∈ items ↔ a ∈ others) : items = others := by
  have apart : ∀ {a b}, before a b → a ≠ b := by
    rintro a _ order rfl
    exact asymm a a order order
  have perm := (List.perm_ext_iff_of_nodup (left.imp apart) (right.imp apart)).mpr same
  exact perm.eq_of_pairwise (fun a b _ _ order back => absurd back (asymm a b order)) left right

/-- To go through the positions of a list is to go through its items. -/
theorem map_range_getElem? {α β : Type} (f : Option α → β) (items : List α) :
    (List.range items.length).map (fun n => f items[n]?) = items.map fun a => f (some a) := by
  refine List.ext_getElem (by simp) fun n _ inside => ?_
  rw [List.length_map] at inside
  simp [List.getElem?_eq_getElem inside]

/-- Where a package is looked for: in a root, or under a directory name that many directories
above the one that is started from. -/
inductive Spot
  | root (i : Nat)
  | above (climbs i : Nat)
  deriving DecidableEq

namespace Spot

/-- Roots are tried first, in their order; then nearer directories before farther ones, and in
one of them the directory names in their order. -/
def Before : Spot → Spot → Prop
  | root i, root j => i < j
  | root _, above _ _ => True
  | above _ _, root _ => False
  | above climbs i, above more j => climbs < more ∨ climbs = more ∧ i < j

theorem Before.asymm {a b : Spot} (before : a.Before b) : ¬b.Before a := by
  cases a with
  | root i =>
    cases b with
    | root j => exact Nat.lt_asymm before
    | above more j => exact id
  | above climbs i =>
    cases b with
    | root j => exact False.elim before
    | above more j =>
      simp only [Before] at before ⊢
      omega

/-- The directory of a package at a spot. -/
def place? (search : PackageSearch) (package : String) (dir : Location) : Spot → Option Location
  | root i => search.roots[i]?.map (·.join package)
  | above climbs i =>
    dir.ancestors[climbs]?.bind fun up => search.dirNames[i]?.map fun name => (up.join name).join package

end Spot

namespace PackageSearch

variable {search : PackageSearch} {files : FileTree} {package : String} {dir : Location}

/-- All spots at which a package may be, in their order. -/
def spots (search : PackageSearch) (dir : Location) : List Spot :=
  (List.range search.roots.length).map .root ++
    (List.range dir.ancestors.length).flatMap fun climbs => (List.range search.dirNames.length).map (.above climbs)

theorem pairwise_spots (search : PackageSearch) (dir : Location) : (search.spots dir).Pairwise Spot.Before := by
  refine List.pairwise_append.mpr ⟨?_, List.pairwise_flatMap.mpr ⟨fun climbs _ => ?_, ?_⟩, ?_⟩
  · exact List.pairwise_map.mpr List.pairwise_lt_range
  · exact List.pairwise_map.mpr (List.pairwise_lt_range.imp fun less => Or.inr ⟨rfl, less⟩)
  · refine List.pairwise_lt_range.imp fun nearer a first b second => ?_
    obtain ⟨i, _, rfl⟩ := List.mem_map.mp first
    obtain ⟨j, _, rfl⟩ := List.mem_map.mp second
    exact Or.inl nearer
  · intro a first b second
    obtain ⟨i, _, rfl⟩ := List.mem_map.mp first
    obtain ⟨climbs, _, named⟩ := List.mem_flatMap.mp second
    obtain ⟨j, _, rfl⟩ := List.mem_map.mp named
    trivial

theorem mem_spots_iff (package : String) {spot : Spot} :
    spot ∈ search.spots dir ↔ (spot.place? search package dir).isSome := by
  cases spot with
  | root i => simp [spots, Spot.place?]
  | above climbs i =>
    by_cases reached : climbs < dir.ancestors.length
    · simp [spots, Spot.place?, reached]
    · simp [spots, Spot.place?, reached]

/-- The candidates are the directories at the spots. -/
theorem map_some_candidates (search : PackageSearch) (package : String) (dir : Location) :
    (search.candidates package dir).map some = (search.spots dir).map (Spot.place? search package dir) := by
  have named (up : Option Location) : (List.range search.dirNames.length).map
      (fun i => up.bind fun up => search.dirNames[i]?.map fun name => (up.join name).join package) =
        search.dirNames.map fun name => up.map fun up => (up.join name).join package := by
    rw [map_range_getElem? fun name => up.bind fun up => name.map fun name => (up.join name).join package]
    exact List.map_congr_left fun _ _ => by cases up <;> rfl
  have roots := map_range_getElem? (Option.map (·.join package)) search.roots
  have above := map_range_getElem? (fun up => search.dirNames.map fun name => up.map fun up =>
    (up.join name).join package) dir.ancestors
  simp only [candidates, spots, List.map_append, List.map_flatMap, List.map_map, Function.comp_def, Spot.place?,
    named, roots, Option.map_some]
  rw [List.flatMap_def, List.flatMap_def, above]
  rfl

theorem find?_candidates (search : PackageSearch) (package : String) (dir : Location) (p : Location → Bool) :
    ((search.candidates package dir).find? p).map some =
      ((search.spots dir).find? fun spot => (spot.place? search package dir).any p).map
        (Spot.place? search package dir) := by
  have found := congrArg (List.find? (Option.any p)) (map_some_candidates search package dir)
  rwa [List.find?_map, List.find?_map] at found

/-- A directory of the package that exists, at a spot with none before it where it does. -/
def FirstInstalled (search : PackageSearch) (files : FileTree) (package : String) (dir l : Location) : Prop :=
  ∃ spot : Spot, spot.place? search package dir = some l ∧ files.isDir l = true ∧
    ∀ (sooner : Spot) (other : Location), sooner.Before spot →
      sooner.place? search package dir = some other → files.isDir other = false

/-- The directories at all spots in their order, one for each spot. -/
def AllTried (search : PackageSearch) (package : String) (dir : Location) (tried : List Location) : Prop :=
  ∃ spots : List Spot, spots.Pairwise Spot.Before ∧
    (∀ spot, spot ∈ spots ↔ (spot.place? search package dir).isSome) ∧
    tried.map some = spots.map (Spot.place? search package dir)

theorem allTried_iff {tried : List Location} :
    search.AllTried package dir tried ↔ tried = search.candidates package dir := by
  have own := map_some_candidates search package dir
  constructor
  · rintro ⟨spots, sorted, complete, same⟩
    obtain rfl : spots = search.spots dir :=
      eq_of_pairwise_of_mem_iff (fun _ _ => Spot.Before.asymm) sorted (pairwise_spots search dir) fun spot =>
        (complete spot).trans (mem_spots_iff package).symm
    exact (List.map_inj_right fun _ _ => Option.some.inj).mp (same.trans own.symm)
  · rintro rfl
    exact ⟨search.spots dir, pairwise_spots search dir, fun spot => mem_spots_iff package, own⟩

theorem find?_candidates_eq_some_iff {l : Location} :
    (search.candidates package dir).find? (files.isDir ·) = some l ↔
      search.FirstInstalled files package dir l := by
  have found := find?_candidates search package dir (files.isDir ·)
  have first {spot : Spot} := find?_eq_some_iff_of_pairwise (a := spot) (fun _ _ => Spot.Before.asymm)
    (p := fun spot => (spot.place? search package dir).any (files.isDir ·)) (pairwise_spots search dir)
  constructor
  · intro known
    rw [known, Option.map_some] at found
    obtain ⟨spot, stands, place⟩ := Option.map_eq_some_iff.mp found.symm
    obtain ⟨-, passes, fails⟩ := first.mp stands
    refine ⟨spot, place, by simpa [place] using passes, fun sooner other before there => ?_⟩
    have member : sooner ∈ search.spots dir := (mem_spots_iff package).mpr (there ▸ rfl)
    simpa [there] using fails sooner member before
  · rintro ⟨spot, place, installed, fails⟩
    have member : spot ∈ search.spots dir := (mem_spots_iff package).mpr (place ▸ rfl)
    have stands := first.mpr ⟨member, by simp [place, installed], fun sooner inside before => by
      obtain ⟨other, there⟩ := Option.isSome_iff_exists.mp ((mem_spots_iff package).mp inside)
      simp [there, fails sooner other before there]⟩
    rw [stands, Option.map_some, place] at found
    obtain ⟨other, known, same⟩ := Option.map_eq_some_iff.mp found
    rw [known, Option.some.inj same]

theorem mem_candidates_iff {l : Location} :
    l ∈ search.candidates package dir ↔ ∃ spot : Spot, spot.place? search package dir = some l := by
  have own : some l ∈ (search.candidates package dir).map some ↔ l ∈ search.candidates package dir := by simp
  rw [← own, map_some_candidates, List.mem_map]
  exact exists_congr fun spot => and_iff_right_of_imp fun place => (mem_spots_iff package).mpr (place ▸ rfl)

theorem find?_candidates_eq_none_iff :
    (search.candidates package dir).find? (files.isDir ·) = none ↔
      ∀ (spot : Spot) (l : Location), spot.place? search package dir = some l → files.isDir l = false := by
  rw [List.find?_eq_none]
  simp only [mem_candidates_iff, Bool.not_eq_true]
  exact ⟨fun fails spot l place => fails l ⟨spot, place⟩, fun fails l ⟨spot, place⟩ => fails spot l place⟩

theorem locate_eq_ok_iff {found : Location} :
    search.locate files package dir = .ok found ↔
      ∃ l, search.FirstInstalled files package dir l ∧ l.normalize = found := by
  simp only [← find?_candidates_eq_some_iff, locate]
  cases (search.candidates package dir).find? (files.isDir ·) <;> simp

theorem locate_eq_error_iff {tried : List Location} :
    search.locate files package dir = .error tried ↔
      (∀ (spot : Spot) (l : Location), spot.place? search package dir = some l → files.isDir l = false) ∧
        search.AllTried package dir tried := by
  rw [← find?_candidates_eq_none_iff, allTried_iff, locate]
  cases (search.candidates package dir).find? (files.isDir ·) <;> simp [eq_comm]

theorem exists_locate_iff :
    (∃ found, search.locate files package dir = .ok found) ↔
      ∃ (spot : Spot) (l : Location), spot.place? search package dir = some l ∧ files.isDir l = true := by
  constructor
  · rintro ⟨found, located⟩
    obtain ⟨l, ⟨spot, place, installed, -⟩, -⟩ := locate_eq_ok_iff.mp located
    exact ⟨spot, l, place, installed⟩
  · rintro ⟨spot, l, place, installed⟩
    cases located : search.locate files package dir with
    | ok found => exact ⟨found, rfl⟩
    | error tried =>
      have fails := (locate_eq_error_iff.mp located).1 spot l place
      rw [installed] at fails
      cases fails

/-- A package is looked for in the roots, then in the directory that is started from, and on from
there in each directory above it up to the root. It is found when some directory for it exists,
and then at the first of them; else all are reported in their order. -/
theorem locate_law (absolute : dir.isAbsolute = true) (search : PackageSearch) (files : FileTree)
    (package : String) :
    dir.ancestors.head? = some dir ∧
      (dir.ancestors.map Location.steps =
        (List.range dir.steps.length).map fun climbs => dir.steps.take (dir.steps.length - climbs)) ∧
      ((∃ found, search.locate files package dir = .ok found) ↔
        ∃ (spot : Spot) (l : Location), spot.place? search package dir = some l ∧ files.isDir l = true) ∧
      (∀ found, search.locate files package dir = .ok found ↔
        ∃ l, search.FirstInstalled files package dir l ∧ l.normalize = found) ∧
      ∀ tried, search.locate files package dir = .error tried ↔
        (∀ (spot : Spot) (l : Location), spot.place? search package dir = some l → files.isDir l = false) ∧
          search.AllTried package dir tried :=
  ⟨Location.head?_ancestors dir, Location.map_steps_ancestors absolute, exists_locate_iff,
    fun _ => locate_eq_ok_iff, fun _ => locate_eq_error_iff⟩

/-- The package once above, under the directory name that is tried first, and once nearer under
the other name. -/
def installedTwice : FileTree :=
  ⟨[(["ws"], .directory), (["ws", "app"], .directory), (["ws", "node_modules"], .directory),
    (["ws", "node_modules", "p"], .directory), (["ws", "app", "vendor"], .directory),
    (["ws", "app", "vendor", "p"], .directory)], []⟩

/-- The nearer one is found, and a package that is nowhere is looked for at seven spots. -/
theorem locate_nearer :
    let search : PackageSearch := ⟨["node_modules", "vendor"], [⟨"/opt"⟩]⟩
    let dir : Location := ⟨"/ws//app/"⟩
    dir.isAbsolute = true ∧
      (∃ l, search.FirstInstalled installedTwice "p" dir l ∧ l.normalize = ⟨"/ws/app/vendor/p"⟩) ∧
      search.locate installedTwice "p" dir = .ok ⟨"/ws/app/vendor/p"⟩ ∧
      search.AllTried "q" dir [⟨"/opt/q"⟩, ⟨"/ws//app/node_modules/q"⟩, ⟨"/ws//app/vendor/q"⟩,
        ⟨"/ws/node_modules/q"⟩, ⟨"/ws/vendor/q"⟩, ⟨"/node_modules/q"⟩, ⟨"/vendor/q"⟩] := by
  intro search dir
  have absolute : dir.isAbsolute = true := by decide
  have located : search.locate installedTwice "p" dir = .ok ⟨"/ws/app/vendor/p"⟩ :=
    eq_ok_of_toOption (by decide +kernel)
  obtain ⟨-, -, -, first, -⟩ := locate_law absolute search installedTwice "p"
  obtain ⟨-, -, -, -, missing⟩ := locate_law absolute search installedTwice "q"
  exact ⟨absolute, (first _).mp located, located, ((missing _).mp (eq_error_of_error? (by decide +kernel))).2⟩

end PackageSearch

end LayeredConfig
