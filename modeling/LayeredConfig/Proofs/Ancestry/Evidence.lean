import LayeredConfig.Proofs.Ancestry.Cycle
import LayeredConfig.Proofs.Ancestry.Trail
import LayeredConfig.Proofs.Document.Failure

namespace LayeredConfig

namespace Surroundings

variable {s : Surroundings} {t x : FileTree} {root place referrer target : Location}
  {above branch chain : List Location} {reference : String}

/-- A parent that closes a cycle is on the branch. -/
theorem parent_eq_circular_iff :
    s.parent x branch referrer reference = .error (.circular chain target) ↔
      branch = chain ∧ locateReference s.search x reference referrer = .ok target ∧
        ∃ member ∈ chain, member.same target = true := by
  rcases s.parent_cases x branch referrer reference with
    ⟨fault, lost, same⟩ | ⟨found, located, ⟨back, same⟩ | ⟨fresh, _, same⟩ | ⟨fresh, _, same⟩⟩
  · obtain ⟨_, _, rfl⟩ := locateReference_eq_error lost
    simp [same, lost]
  · simp only [same, located, Except.error.injEq, Fault.circular.injEq, Except.ok.injEq]
    rw [List.any_eq_true] at back
    grind
  · simp only [same, located, Except.error.injEq, reduceCtorEq, Except.ok.injEq]
    rw [List.any_eq_false] at fresh
    grind
  · simp only [same, located, reduceCtorEq, Except.ok.injEq]
    rw [List.any_eq_false] at fresh
    grind

theorem parent_eq_missingTarget_iff {from_ : Option Location} :
    s.parent x branch referrer reference = .error (.missingTarget target from_ chain) ↔
      branch = chain ∧ some referrer = from_ ∧ locateReference s.search x reference referrer = .ok target ∧
        x.isFile target = false ∧ ∀ member ∈ chain, member.same target = false := by
  rcases s.parent_cases x branch referrer reference with
    ⟨fault, lost, same⟩ | ⟨found, located, ⟨back, same⟩ | ⟨fresh, missing, same⟩ | ⟨_, file, same⟩⟩
  · obtain ⟨_, _, rfl⟩ := locateReference_eq_error lost
    simp [same, lost]
  · simp only [same, located, Except.error.injEq, reduceCtorEq, Except.ok.injEq]
    rw [List.any_eq_true] at back
    grind
  · simp only [same, located, Except.error.injEq, Fault.missingTarget.injEq, Except.ok.injEq]
    rw [List.any_eq_false] at fresh
    grind
  · simp only [same, located, reduceCtorEq, Except.ok.injEq]
    grind

/-- A visit fails over a file that cannot be loaded, or at a reference that the walk comes
to. The fuel is no reason: it lasts for the longest branch. -/
theorem visit_eq_error (roots : ∀ r ∈ s.search.roots, r.isAbsolute = true) (absolute : root.isAbsolute = true)
    {fuel : Nat} {named : Option String} {fault : Fault} (enters : s.Enters t root above x place)
    (spent : fuel + above.length = branchBound t)
    (failed : (s.visit fuel x above named place).result = .error fault) :
    (∃ file, fault.OfFile file) ∨
      ∃ chain d reference y, s.ComesTo t root chain d reference y ∧
        s.parent y chain d.location reference = .error fault := by
  induction fuel generalizing above x place named with
  | zero =>
    have short := (enters.route roots absolute).length_lt
    omega
  | succ fuel ih =>
    cases loaded : (Document.load s.policy s.now x place).result with
    | error cause =>
      rw [visit_of_load_error loaded] at failed
      cases failed
      exact Or.inl ⟨_, Document.load_eq_error loaded⟩
    | ok d =>
      have left : fuel + (above ++ [d.location]).length = branchBound t := by
        rw [List.length_append, List.length_singleton]
        omega
      rw [visit_of_load_ok loaded, Nat.eq_sub_of_add_eq left] at failed
      cases run : (Outcome.inTurn
          (s.visitParent (branchBound t - (above ++ [d.location]).length) (above ++ [d.location]) d.location)
          (Document.load s.policy s.now x place).files d.parents).result with
      | ok parents =>
        rw [Outcome.andThen_of_ok run] at failed
        cases failed
      | error cause =>
        rw [Outcome.andThen_of_error run] at failed
        cases failed
        obtain ⟨before, reference, after, y, results, parents, resolved, stopped⟩ :=
          Outcome.inTurn_eq_error_iff.mp run
        have stands : s.StandsAt t x above place d reference y :=
          ⟨loaded, before, after, parents, results, resolved⟩
        cases found : s.parent y (above ++ [d.location]) d.location reference with
        | error cause =>
          rw [visitParent_of_parent_error found] at stopped
          cases stopped
          exact Or.inr ⟨_, d, reference, y, ⟨above, x, place, enters, stands, rfl⟩, found⟩
        | ok target =>
          rw [visitParent_of_parent found, ← Nat.eq_sub_of_add_eq left] at stopped
          exact ih (enters.deeper stands found) left stopped

/-- Where a reference fails that the walk stands at, so does the visit of its document. -/
theorem StandsAt.visit_eq_error {d : Document} {y : FileTree} {fault : Fault}
    (stands : s.StandsAt t x above place d reference y) (short : above.length < branchBound t)
    (failed : (s.visitParent (branchBound t - (above ++ [d.location]).length) (above ++ [d.location]) d.location y
      reference).result = .error fault) (named : Option String) :
    (s.visit (branchBound t - above.length) x above named place).result = .error fault := by
  obtain ⟨before, after, parents, results, resolved⟩ := stands.resolved
  have fuel : branchBound t - above.length = branchBound t - (above ++ [d.location]).length + 1 := by
    rw [List.length_append, List.length_singleton]
    omega
  have run := Outcome.inTurn_eq_error_iff.mpr ⟨before, reference, after, y, results, parents, resolved, failed⟩
  rw [fuel, visit_of_load_ok stands.loaded, Outcome.andThen_of_error run, Outcome.result_failed]

/-- A visit that the walk comes to and that fails is the end of the walk. -/
theorem Enters.ancestry_eq_error (roots : ∀ r ∈ s.search.roots, r.isAbsolute = true)
    (absolute : root.isAbsolute = true) {fault : Fault} (enters : s.Enters t root above x place)
    (file : t.isFile root.normalize = true)
    (failed : ∀ named, (s.visit (branchBound t - above.length) x above named place).result = .error fault) :
    (s.ancestry t root).result = .error fault := by
  induction enters with
  | start => simpa [ancestry, file] using failed none
  | @deeper above x y place target d reference enters stands found ih =>
    refine ih fun named => stands.visit_eq_error (enters.route roots absolute).length_lt ?_ named
    rw [visitParent_of_parent found]
    exact failed (some reference)

theorem Enters.isFile_root {d : Document} {y : FileTree} (enters : s.Enters t root above x place)
    (stands : s.StandsAt t x above place d reference y) : t.isFile root.normalize = true := by
  induction enters generalizing d reference y with
  | start =>
    have file := Document.isFile_of_load stands.loaded
    rwa [Location.normalize_normalize] at file
  | deeper _ above _ ih => exact ih above

/-- The walk of an ancestry fails for three reasons: there is no file at the first place, a
file cannot be loaded, or a reference that the walk comes to gives no parent. -/
theorem ancestry_eq_error (roots : ∀ r ∈ s.search.roots, r.isAbsolute = true) (absolute : root.isAbsolute = true)
    {fault : Fault} (failed : (s.ancestry t root).result = .error fault) :
    (t.isFile root.normalize = false ∧ fault = .missingTarget root.normalize none []) ∨
      (∃ file, fault.OfFile file) ∨ ∃ chain d reference y, s.ComesTo t root chain d reference y ∧
        s.parent y chain d.location reference = .error fault := by
  unfold ancestry at failed
  dsimp only at failed
  split at failed
  · exact Or.inr (visit_eq_error roots absolute .start rfl failed)
  · next missing =>
    cases failed
    exact Or.inl ⟨by simpa using missing, rfl⟩

theorem ComesTo.ancestry_eq_error (roots : ∀ r ∈ s.search.roots, r.isAbsolute = true)
    (absolute : root.isAbsolute = true) {d : Document} {y : FileTree} {fault : Fault}
    (comes : s.ComesTo t root chain d reference y)
    (failed : s.parent y chain d.location reference = .error fault) :
    (s.ancestry t root).result = .error fault := by
  obtain ⟨above, x, place, enters, stands, rfl⟩ := comes
  refine enters.ancestry_eq_error roots absolute (enters.isFile_root stands) fun named => ?_
  refine stands.visit_eq_error (enters.route roots absolute).length_lt ?_ named
  rw [visitParent_of_parent_error failed, Outcome.result_failed]

/-- A cycle and a missing file are reported with the branch that led there. The branch is a
trail from the first document: each of its documents names the next one, and none stands on
it twice. The last one has the reference which the walk came to, all before it resolved, and
which leads back into the branch, or to no file. In both cases the walk fails for no other
reason. -/
theorem ancestry_eq_error_iff_trail (roots : ∀ r ∈ s.search.roots, r.isAbsolute = true)
    (absolute : root.isAbsolute = true) :
    (∀ chain repeated, (s.ancestry t root).result = .error (.circular chain repeated) ↔
        ∃ d reference y, s.ComesTo t root chain d reference y ∧ s.Trail t root chain d.location ∧
          locateReference s.search y reference d.location = .ok repeated ∧
          ∃ member ∈ chain, member.same repeated = true) ∧
      (∀ target referrer chain, (s.ancestry t root).result = .error (.missingTarget target referrer chain) ↔
        t.isFile target = false ∧
          (referrer = none ∧ chain = [] ∧ target = root.normalize ∨
            ∃ d reference y, referrer = some d.location ∧ s.ComesTo t root chain d reference y ∧
              s.Trail t root chain d.location ∧ locateReference s.search y reference d.location = .ok target ∧
              ∀ member ∈ chain, member.same target = false)) := by
  refine ⟨fun chain repeated => ⟨fun circular => ?_, ?_⟩, fun target referrer chain => ⟨fun missing => ?_, ?_⟩⟩
  · rcases ancestry_eq_error roots absolute circular with
      ⟨_, other⟩ | ⟨_, other⟩ | ⟨_, d, reference, y, comes, stopped⟩
    · cases other
    · cases other
    · obtain ⟨rfl, located, back⟩ := parent_eq_circular_iff.mp stopped
      exact ⟨d, reference, y, comes, (comes.trail roots absolute).1, located, back⟩
  · rintro ⟨d, reference, y, comes, _, located, back⟩
    exact comes.ancestry_eq_error roots absolute (parent_eq_circular_iff.mpr ⟨rfl, located, back⟩)
  · rcases ancestry_eq_error roots absolute missing with
      ⟨none_, first⟩ | ⟨_, other⟩ | ⟨_, d, reference, y, comes, stopped⟩
    · cases first
      exact ⟨none_, Or.inl ⟨rfl, rfl, rfl⟩⟩
    · cases other
    · obtain ⟨rfl, rfl, located, none_, fresh⟩ := parent_eq_missingTarget_iff.mp stopped
      obtain ⟨trail, shape⟩ := comes.trail roots absolute
      exact ⟨shape.isFile target ▸ none_, Or.inr ⟨d, reference, y, rfl, comes, trail, located, fresh⟩⟩
  · rintro ⟨none_, ⟨rfl, rfl, rfl⟩ | ⟨d, reference, y, rfl, comes, _, located, fresh⟩⟩
    · simp [ancestry, none_]
    · have shape := (comes.trail roots absolute).2
      rw [← shape.isFile] at none_
      exact comes.ancestry_eq_error roots absolute
        (parent_eq_missingTarget_iff.mpr ⟨rfl, rfl, located, none_, fresh⟩)

/-- A document that names a good parent, and then one with a reference of its own. -/
def fork (reference : String) : FileTree :=
  ⟨[(["a"], .file (.text "$schema: ./s\nextends: [./b, ./c]")), (["b"], .file (.text "$schema: ./s")),
    (["c"], .file (.text ("$schema: ./s\nextends: [" ++ reference ++ "]")))], []⟩

set_option maxRecDepth 10000 in
theorem trail_of_fork :
    (∀ r ∈ plain.search.roots, r.isAbsolute = true) ∧ (⟨"/a"⟩ : Location).isAbsolute = true ∧
      (plain.ancestry (fork "./a") ⟨"/a"⟩).result = .error (.circular [⟨"/a"⟩, ⟨"/c"⟩] ⟨"/a"⟩) ∧
      plain.Trail (fork "./a") ⟨"/a"⟩ [⟨"/a"⟩, ⟨"/c"⟩] ⟨"/c"⟩ ∧
      (plain.ancestry (fork "./d") ⟨"/a"⟩).result =
        .error (.missingTarget ⟨"/d"⟩ (some ⟨"/c"⟩) [⟨"/a"⟩, ⟨"/c"⟩]) ∧
      plain.Trail (fork "./d") ⟨"/a"⟩ [⟨"/a"⟩, ⟨"/c"⟩] ⟨"/c"⟩ ∧ (fork "./d").isFile ⟨"/d"⟩ = false := by
  have roots : ∀ r ∈ plain.search.roots, r.isAbsolute = true := by decide
  have absolute : (⟨"/a"⟩ : Location).isAbsolute = true := by decide
  have circular : (plain.ancestry (fork "./a") ⟨"/a"⟩).result = .error (.circular [⟨"/a"⟩, ⟨"/c"⟩] ⟨"/a"⟩) :=
    eq_error_of_error? (by decide +kernel)
  have missing : (plain.ancestry (fork "./d") ⟨"/a"⟩).result =
      .error (.missingTarget ⟨"/d"⟩ (some ⟨"/c"⟩) [⟨"/a"⟩, ⟨"/c"⟩]) :=
    eq_error_of_error? (by decide +kernel)
  obtain ⟨d, _, _, _, loop, _⟩ := ((ancestry_eq_error_iff_trail roots absolute).1 _ _).mp circular
  obtain ⟨none_, ⟨_, other, _⟩ | ⟨e, _, _, named, _, gap, _⟩⟩ :=
    ((ancestry_eq_error_iff_trail roots absolute).2 _ _ _).mp missing
  · cases other
  · have last : d.location = ⟨"/c"⟩ := (Option.some.inj loop.ends).symm
    exact ⟨roots, absolute, circular, last ▸ loop, missing, Option.some.inj named ▸ gap, none_⟩

/-- Documents that name each other by a package in the current directory. The wrapper of the
last one goes when it is loaded once more. -/
def wrappedLoop : FileTree :=
  ⟨[(["a"], .file (.text "$schema: ./s\nextends: '@k/../p'")),
    (["p"], .file (.text "$schema: .//s\nextends: [./y, ./y]")),
    (["y"], .file (.text "config:\n  extends: '@k/../p'")),
    (["@k"], .directory)], []⟩

set_option maxRecDepth 10000 in
/-- Below a package root that is not absolute, a document may be repeated on its own branch:
it is not the same place as the target that names it, which begins with a dot. -/
theorem not_nodup_of_relative_root :
    ¬∀ (s : Surroundings) (t : FileTree) (root : Location) (chain : List Location) (repeated : Location),
      root.isAbsolute = true → (s.ancestry t root).result = .error (.circular chain repeated) → chain.Nodup := by
  intro distinct
  have twice := distinct ⟨⟨⟨"/s"⟩, false⟩, ⟨[], [⟨"."⟩]⟩, ⟨0, 0⟩⟩ wrappedLoop ⟨"/a"⟩
    [⟨"/a"⟩, ⟨"p"⟩, ⟨"y"⟩, ⟨"p"⟩] ⟨"y"⟩ (by decide) (eq_error_of_error? (by decide +kernel))
  exact absurd twice (by decide)

end Surroundings

end LayeredConfig
