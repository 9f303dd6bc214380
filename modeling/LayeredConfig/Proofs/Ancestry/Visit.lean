import LayeredConfig.Ancestry.Walk
import LayeredConfig.Proofs.Outcome

namespace LayeredConfig.Surroundings

/-- Loads a parent that a document names, below the branch that ends with the
document. -/
def visitParent (s : Surroundings) (fuel : Nat) (branch : List Location) (referrer : Location) (files : FileTree)
    (reference : String) : Outcome Ancestry :=
  match s.parent files branch referrer reference with
  | .error fault => .failed files fault
  | .ok target => s.visit fuel files branch (some reference) target

variable {s : Surroundings} {fuel : Nat} {files : FileTree} {above branch : List Location}
  {reference : Option String} {place referrer target : Location}

theorem visit_of_load_ok {d : Document} (loaded : (Document.load s.policy s.now files place).result = .ok d) :
    s.visit (fuel + 1) files above reference place =
      (Outcome.inTurn (s.visitParent fuel (above ++ [d.location]) d.location)
        (Document.load s.policy s.now files place).files d.parents).andThen fun files parents =>
        .done files ⟨.node d.location reference (parents.map Ancestry.lineage),
          parents.flatMap Ancestry.documents ++ [d]⟩ := by
  rw [visit, Outcome.andThen_of_ok loaded]
  rfl

theorem visit_of_load_error {fault : Fault}
    (failed : (Document.load s.policy s.now files place).result = .error fault) :
    s.visit (fuel + 1) files above reference place =
      .failed (Document.load s.policy s.now files place).files fault := by
  rw [visit, Outcome.andThen_of_error failed]

/-- A visit that succeeds has loaded the document and visited its parents. -/
theorem visit_eq_ok {a : Ancestry} (visited : (s.visit (fuel + 1) files above reference place).result = .ok a) :
    ∃ d parents, (Document.load s.policy s.now files place).result = .ok d ∧
      (Outcome.inTurn (s.visitParent fuel (above ++ [d.location]) d.location)
        (Document.load s.policy s.now files place).files d.parents).result = .ok parents ∧
      a = ⟨.node d.location reference (parents.map Ancestry.lineage),
        parents.flatMap Ancestry.documents ++ [d]⟩ := by
  cases loaded : (Document.load s.policy s.now files place).result with
  | error fault =>
    rw [visit_of_load_error loaded] at visited
    cases visited
  | ok d =>
    rw [visit_of_load_ok loaded] at visited
    obtain ⟨parents, done, made⟩ := Outcome.andThen_result_eq_ok.mp visited
    exact ⟨d, parents, rfl, done, (Except.ok.inj made).symm⟩

theorem parent_of_locate {reference : String}
    (located : locateReference s.search files reference referrer = .ok target)
    (file : files.isFile target = true) :
    s.parent files branch referrer reference =
      if branch.any (·.same target) then .error (.circular branch target) else .ok target := by
  simp [parent, located, file, bind, Except.bind]

/-- The place of a parent is found in one of four ways: the reference leads nowhere, back
into the branch, to no file, or to the parent. -/
theorem parent_cases (s : Surroundings) (files : FileTree) (branch : List Location) (referrer : Location)
    (reference : String) :
    (∃ fault, locateReference s.search files reference referrer = .error fault ∧
        s.parent files branch referrer reference = .error fault) ∨
      ∃ target, locateReference s.search files reference referrer = .ok target ∧
        (branch.any (·.same target) = true ∧
            s.parent files branch referrer reference = .error (.circular branch target) ∨
          branch.any (·.same target) = false ∧ files.isFile target = false ∧
            s.parent files branch referrer reference = .error (.missingTarget target (some referrer) branch) ∨
          branch.any (·.same target) = false ∧ files.isFile target = true ∧
            s.parent files branch referrer reference = .ok target) := by
  unfold parent
  cases locateReference s.search files reference referrer with
  | error fault => exact Or.inl ⟨fault, rfl, rfl⟩
  | ok target =>
    simp only [bind, Except.bind]
    refine Or.inr ⟨target, rfl, ?_⟩
    cases branch.any (·.same target) with
    | true => exact Or.inl ⟨rfl, rfl⟩
    | false => cases files.isFile target with
      | false => exact Or.inr (Or.inl ⟨rfl, rfl, rfl⟩)
      | true => exact Or.inr (Or.inr ⟨rfl, rfl, rfl⟩)

theorem parent_eq_ok {reference : String} (named : s.parent files branch referrer reference = .ok target) :
    locateReference s.search files reference referrer = .ok target ∧ branch.any (·.same target) = false ∧
      files.isFile target = true := by
  rcases s.parent_cases files branch referrer reference with
    ⟨_, _, other⟩ | ⟨found, located, ⟨_, other⟩ | ⟨_, _, other⟩ | ⟨fresh, file, same⟩⟩
  · rw [other] at named
    cases named
  · rw [other] at named
    cases named
  · rw [other] at named
    cases named
  · rw [same] at named
    cases named
    exact ⟨located, fresh, file⟩

theorem visitParent_of_parent {reference : String}
    (named : s.parent files branch referrer reference = .ok target) :
    s.visitParent fuel branch referrer files reference = s.visit fuel files branch (some reference) target := by
  unfold visitParent
  rw [named]

theorem visitParent_of_parent_error {reference : String} {fault : Fault}
    (failed : s.parent files branch referrer reference = .error fault) :
    s.visitParent fuel branch referrer files reference = .failed files fault := by
  unfold visitParent
  rw [failed]

/-- A parent that is visited was found first. -/
theorem visitParent_eq_ok {reference : String} {a : Ancestry}
    (visited : (s.visitParent fuel branch referrer files reference).result = .ok a) :
    ∃ target, s.parent files branch referrer reference = .ok target ∧
      (s.visit fuel files branch (some reference) target).result = .ok a := by
  unfold visitParent at visited
  cases named : s.parent files branch referrer reference with
  | error fault => simp [named, Outcome.failed] at visited
  | ok target => exact ⟨target, rfl, by simpa [named] using visited⟩

/-- An ancestry that is found is the visit of a file. -/
theorem ancestry_eq_ok {a : Ancestry} (resolved : (s.ancestry files place).result = .ok a) :
    files.isFile place.normalize = true ∧
      s.ancestry files place = s.visit (branchBound files) files [] none place.normalize := by
  unfold ancestry at resolved ⊢
  dsimp only at resolved ⊢
  split at resolved
  · next file => exact ⟨file, by rw [if_pos file]⟩
  · cases resolved

end LayeredConfig.Surroundings
