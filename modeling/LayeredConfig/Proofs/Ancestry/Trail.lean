import LayeredConfig.Proofs.Ancestry.Containment
import LayeredConfig.Proofs.Ancestry.Visit
import LayeredConfig.Proofs.Document.Load
import LayeredConfig.Proofs.FileTree.Places
import Mathlib.Data.List.Chain

namespace LayeredConfig

open Location

/-- The steps of a place that a reference leads to are canonical, but for a dot before
them. -/
theorem settled_of_locateReference {search : PackageSearch} {files : FileTree} {reference : String}
    {referrer target : Location} (located : locateReference search files reference referrer = .ok target) :
    ∃ done, Settled done ∧ (target.steps = done.reverse ∨ target.steps = .here :: done.reverse) := by
  unfold locateReference at located
  dsimp only at located
  split at located
  · have canonical : ∃ l, target = normalize l := by
      cases located
      unfold absolutize
      split <;> exact ⟨_, rfl⟩
    obtain ⟨l, rfl⟩ := canonical
    rcases l.steps_normalize_cases with steps | ⟨_, steps⟩
    · exact ⟨_, l.settledSteps_settled, Or.inl steps⟩
    · exact ⟨[], .nil, Or.inr steps⟩
  · obtain ⟨r, found, _, relative, down, installed, rfl⟩ := PackageSearch.target_eq_ok located
    obtain ⟨root, _, rfl⟩ := PackageSearch.of_locate_eq_ok installed
    have below : (Location.normalize ⟨r.remainder⟩).text.toList.head? ≠ some '/' := by
      simpa [isAbsolute] using relative
    have spells := spelled_of_canonical (normalize_normalize _) relative
    have named : ∀ step ∈ (spelled (Location.normalize ⟨r.remainder⟩).text.toList).reverse,
        ∃ s, step = .name s ∧ IsName s := by
      intro step member
      rw [List.mem_reverse] at member
      refine (spelled_sound member).resolve_left ?_
      rintro rfl
      rw [spells, inner_normalize] at member
      exact up_not_mem_inner relative down member
    rw [steps_join below (Or.inl (text_normalize_ne _))]
    rcases (root.join r.package).steps_normalize_cases with steps | ⟨_, steps⟩
    · exact ⟨_, (settledSteps_settled (root.join r.package)).append_names named, Or.inl (by simp [steps])⟩
    · exact ⟨_, Settled.nil.append_names named, Or.inr (by simp [steps])⟩

/-- Where a reference leads is written in canonical form, but for a dot at the end. -/
theorem same_normalize_of_locateReference {search : PackageSearch} {files : FileTree} {reference : String}
    {referrer target : Location} (roots : ∀ root ∈ search.roots, root.isAbsolute = true)
    (absolute : referrer.isAbsolute = true)
    (located : locateReference search files reference referrer = .ok target) :
    target.same target.normalize = true := by
  have rooted := isAbsolute_of_locateReference roots absolute located
  obtain ⟨done, settled, steps | steps⟩ := settled_of_locateReference located
  · have settles : target.settledSteps = done := by rw [settledSteps, steps, settled.refold]
    rw [same_iff, steps_normalize_of_isAbsolute rooted, settles, steps]
  · rw [isAbsolute_iff_steps, steps] at rooted
    cases rooted

/-- Where a reference leads is the place in canonical form, unless it begins with a dot. -/
theorem same_normalize_iff {search : PackageSearch} {files x : FileTree} {reference : String}
    {referrer target : Location} (located : locateReference search files reference referrer = .ok target)
    (file : x.isFile target = true) : target.same target.normalize = true ↔ target.steps.head? ≠ some .here := by
  obtain ⟨done, settled, steps⟩ := settled_of_locateReference located
  have settles : target.settledSteps = done := by
    rcases steps with same | same <;> rw [settledSteps, same]
    · exact settled.refold
    · exact settled.refold
  have real : .here ∉ done.reverse := by
    rw [List.mem_reverse]
    exact settled.here_not_mem
  have some_ : target.settledSteps ≠ [] := by
    rintro none_
    obtain ⟨step, member, apart⟩ := FileTree.exists_step_of_isFile file
    rw [settles] at none_
    rcases steps with same | same <;> rw [same, none_] at member <;> simp_all
  rw [same_iff, steps_normalize some_, settles]
  rcases steps with same | same <;> rw [same]
  · simp only [true_iff]
    exact fun here => real (List.mem_of_mem_head? here)
  · simp

namespace Surroundings

/-- Visits leave all files and directories in their places. -/
theorem sameShape_visit (s : Surroundings) (fuel : Nat) (x : FileTree) (above : List Location)
    (reference : Option String) (place : Location) : x.SameShape (s.visit fuel x above reference place).files := by
  induction fuel generalizing x above reference place with
  | zero => exact .refl x
  | succ fuel ih =>
    have load := Document.sameShape_load s.policy s.now x place
    cases loaded : (Document.load s.policy s.now x place).result with
    | error fault =>
      rw [visit_of_load_error loaded]
      exact load
    | ok d =>
      have step : ∀ y, x.SameShape y → ∀ named ∈ d.parents,
          x.SameShape (s.visitParent fuel (above ++ [d.location]) d.location y named).files := by
        intro y kept named _
        unfold visitParent
        split
        · exact kept
        · exact kept.trans (ih y _ _ _)
      have run := (Outcome.inTurn_cases step load).1
      rw [visit_of_load_ok loaded]
      unfold Outcome.andThen
      split <;> exact run

theorem sameShape_visitParent (s : Surroundings) (fuel : Nat) (branch : List Location) (referrer : Location)
    (x : FileTree) (reference : String) : x.SameShape (s.visitParent fuel branch referrer x reference).files := by
  unfold visitParent
  split
  · exact .refl x
  · exact s.sameShape_visit fuel x _ _ _

theorem sameShape_ancestry (s : Surroundings) (t : FileTree) (root : Location) :
    t.SameShape (s.ancestry t root).files := by
  unfold ancestry
  dsimp only
  split
  · exact s.sameShape_visit _ t _ _ _
  · exact .refl t

/-- The references of the last document of a branch are resolved one after the other, each
with everything it leads to. The fuel is what the walk of an ancestry has left there. -/
def Resolves (s : Surroundings) (t : FileTree) (branch : List Location) (referrer : Location) (x : FileTree)
    (references : List String) (y : FileTree) : Prop :=
  ∃ results, Outcome.inTurn (s.visitParent (branchBound t - branch.length) branch referrer) x references =
    .done y results

/-- The document at a place is loaded below a branch, and its references before one of
them are resolved. -/
structure StandsAt (s : Surroundings) (t x : FileTree) (above : List Location) (place : Location) (d : Document)
    (reference : String) (y : FileTree) : Prop where
  loaded : (Document.load s.policy s.now x place).result = .ok d
  resolved : ∃ before after, d.parents = before ++ reference :: after ∧
    s.Resolves t (above ++ [d.location]) d.location (Document.load s.policy s.now x place).files before y

/-- The walk of an ancestry, below a branch and with files as they are by then, turns to a
place: to the first one, or to the parent that a reference gives. -/
inductive Enters (s : Surroundings) (t : FileTree) (root : Location) : List Location → FileTree → Location → Prop
  | start : Enters s t root [] t root.normalize
  | deeper {above : List Location} {x y : FileTree} {place target : Location} {d : Document} {reference : String} :
      Enters s t root above x place → s.StandsAt t x above place d reference y →
      s.parent y (above ++ [d.location]) d.location reference = .ok target →
      Enters s t root (above ++ [d.location]) y target

/-- The walk of an ancestry comes to a reference of the document at the end of a branch. All
references before it are resolved, of this document and of those above it. -/
def ComesTo (s : Surroundings) (t : FileTree) (root : Location) (chain : List Location) (d : Document)
    (reference : String) (y : FileTree) : Prop :=
  ∃ above x place, s.Enters t root above x place ∧ s.StandsAt t x above place d reference y ∧
    chain = above ++ [d.location]

/-- A reference that the walk comes to leads from its document to a place. -/
def Follows (s : Surroundings) (t : FileTree) (root l target : Location) : Prop :=
  ∃ chain d reference y, s.ComesTo t root chain d reference y ∧ d.location = l ∧
    locateReference s.search y reference l = .ok target

/-- Places without repetition from the first one of a walk, each of which leads to the next. -/
structure Trail (s : Surroundings) (t : FileTree) (root : Location) (chain : List Location) (last : Location) :
    Prop where
  starts : chain.head? = some root.normalize
  ends : chain.getLast? = some last
  distinct : chain.Nodup
  edges : chain.IsChain fun l m => ∃ target, s.Follows t root l target ∧ target.same m = true

/-- What holds of each branch that a walk enters: with the place it turns to it is a trail of
canonical places, and it names files. -/
structure Route (s : Surroundings) (t : FileTree) (root : Location) (above : List Location) (x : FileTree)
    (place : Location) : Prop where
  trail : s.Trail t root (above ++ [place.normalize]) place.normalize
  canonical : ∀ l ∈ above ++ [place.normalize], l.isAbsolute = true ∧ l.normalize = l
  files : ∀ l ∈ above, t.isFile l = true
  shape : t.SameShape x

variable {s : Surroundings} {t x y : FileTree} {root place target : Location} {above : List Location}
  {d : Document} {reference : String}

theorem Resolves.sameShape {branch : List Location} {referrer : Location} {references : List String}
    (resolves : s.Resolves t branch referrer x references y) : x.SameShape y := by
  obtain ⟨results, run⟩ := resolves
  have step : ∀ z, x.SameShape z → ∀ named ∈ references,
      x.SameShape (s.visitParent (branchBound t - branch.length) branch referrer z named).files :=
    fun z kept named _ => kept.trans (s.sameShape_visitParent _ branch referrer z named)
  have kept := (Outcome.inTurn_cases step (.refl x)).1
  rwa [run] at kept

theorem StandsAt.sameShape (stands : s.StandsAt t x above place d reference y) : x.SameShape y := by
  obtain ⟨_, _, _, resolves⟩ := stands.resolved
  exact (Document.sameShape_load _ _ _ _).trans resolves.sameShape

theorem Trail.append {chain : List Location} {last next : Location} (trail : s.Trail t root chain last)
    (fresh : next ∉ chain) (follows : s.Follows t root last target) (same : target.same next = true) :
    s.Trail t root (chain ++ [next]) next where
  starts := by rw [List.head?_append, trail.starts, Option.some_or]
  ends := List.getLast?_concat
  distinct := List.nodup_append.mpr ⟨trail.distinct, List.nodup_singleton next, by
    rintro l inside m last rfl
    exact fresh (List.mem_singleton.mp last ▸ inside)⟩
  edges := List.isChain_append.mpr ⟨trail.edges, .singleton next, by
    rintro l final m only
    rw [trail.ends] at final
    cases final
    cases only
    exact ⟨target, follows, same⟩⟩

/-- One step deeper a route stays a route. -/
theorem Route.deeper (roots : ∀ r ∈ s.search.roots, r.isAbsolute = true) (route : s.Route t root above x place)
    (enters : s.Enters t root above x place) (stands : s.StandsAt t x above place d reference y)
    (named : s.parent y (above ++ [d.location]) d.location reference = .ok target) :
    s.Route t root (above ++ [d.location]) y target := by
  have location := Document.location_of_load stands.loaded
  obtain ⟨located, fresh, _⟩ := parent_eq_ok named
  have follows : s.Follows t root d.location target :=
    ⟨_, d, reference, y, ⟨_, _, _, enters, stands, rfl⟩, rfl, located⟩
  rw [location] at located fresh follows ⊢
  have own := route.canonical place.normalize (by simp)
  have same := same_normalize_of_locateReference roots own.1 located
  have new : target.normalize ∉ above ++ [place.normalize] := by
    intro inside
    have known := List.any_eq_false.mp fresh _ inside
    rw [same_iff] at same known
    exact known same.symm
  have absolute := isAbsolute_normalize (isAbsolute_of_locateReference roots own.1 located)
  refine ⟨route.trail.append new follows same, fun l member => ?_, fun l member => ?_,
    route.shape.trans stands.sameShape⟩
  · rcases List.mem_append.mp member with before | last
    · exact route.canonical l before
    · exact List.mem_singleton.mp last ▸ ⟨absolute, target.normalize_normalize⟩
  · rcases List.mem_append.mp member with before | last
    · exact route.files l before
    · rw [List.mem_singleton.mp last, ← route.shape.isFile]
      exact Document.isFile_of_load stands.loaded

theorem Enters.route (roots : ∀ r ∈ s.search.roots, r.isAbsolute = true) (absolute : root.isAbsolute = true)
    (enters : s.Enters t root above x place) : s.Route t root above x place := by
  induction enters with
  | start =>
    have own := isAbsolute_normalize absolute
    have canonical := root.normalize_normalize
    refine ⟨⟨?_, ?_, ?_, ?_⟩, ?_, ?_, .refl t⟩ <;> simp [canonical, own]
  | deeper enters stands named ih => exact ih.deeper roots enters stands named

/-- The branch that ends with a document is a trail to it. -/
theorem ComesTo.trail {chain : List Location} (roots : ∀ r ∈ s.search.roots, r.isAbsolute = true)
    (absolute : root.isAbsolute = true) (comes : s.ComesTo t root chain d reference y) :
    s.Trail t root chain d.location ∧ t.SameShape y := by
  obtain ⟨above, x, place, enters, stands, rfl⟩ := comes
  have route := enters.route roots absolute
  rw [Document.location_of_load stands.loaded]
  exact ⟨route.trail, route.shape.trans stands.sameShape⟩

/-- A branch names files only, and each of them once. -/
theorem Route.length_lt (route : s.Route t root above x place) : above.length < branchBound t := by
  have distinct := (List.nodup_append.mp route.trail.distinct).1
  have short := FileTree.length_le_of_nodup distinct fun l member =>
    ⟨(route.canonical l (List.mem_append_left _ member)).2, route.files l member⟩
  unfold branchBound
  omega

end Surroundings

end LayeredConfig
