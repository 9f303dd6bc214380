import LayeredConfig.Proofs.Ancestry.Run
import LayeredConfig.Proofs.FileTree.Places
import Mathlib.Logic.Relation

namespace LayeredConfig.Surroundings

/-- The references that a document gives; none when it cannot be loaded. -/
def references (s : Surroundings) (files : FileTree) (place : Location) : List String :=
  match (Document.load s.policy s.now files place).result with
  | .ok d => d.parents
  | .error _ => []

/-- A document extends another when one of its references leads there. Documents
are known by their canonical places. -/
def Extends (s : Surroundings) (files : FileTree) (l m : Location) : Prop :=
  ∃ reference ∈ s.references files l, ∃ target,
    locateReference s.search files reference l = .ok target ∧ target.normalize = m

def Reaches (s : Surroundings) (files : FileTree) (root l : Location) : Prop :=
  Relation.ReflTransGen (s.Extends files) root.normalize l

/-- Files as loading documents that are reached may leave them. -/
inductive Reloaded (s : Surroundings) (files : FileTree) (root : Location) : FileTree → Prop
  | start : Reloaded s files root files
  | load {before : FileTree} {l : Location} : Reloaded s files root before → s.Reaches files root l →
      Reloaded s files root (Document.load s.policy s.now before l).files

/-- What is reached can be followed: each reference leads to a file, and each
document loads with the same references every time. -/
structure Steady (s : Surroundings) (files : FileTree) (root : Location) : Prop where
  located : ∀ l, s.Reaches files root l → ∀ reference ∈ s.references files l,
    ∃ target, locateReference s.search files reference l = .ok target ∧ files.isFile target = true
  loaded : ∀ l, s.Reaches files root l → ∀ before, s.Reloaded files root before →
    ∃ d, (Document.load s.policy s.now before l).result = .ok d ∧ d.parents = s.references files l

/-- Nothing that is reached reaches itself again. -/
def Acyclic (s : Surroundings) (files : FileTree) (root : Location) : Prop :=
  ∀ l, s.Reaches files root l → ¬ Relation.TransGen (s.Extends files) l l

/-- Documents without repetition, each of which extends the next place, at once or
through others. -/
structure IsBranch (s : Surroundings) (files : FileTree) (root : Location) (above : List Location)
    (next : Location) :
    Prop where
  distinct : above.Nodup
  canonical : ∀ l ∈ above, l.normalize = l
  reached : ∀ l ∈ above, s.Reaches files root l
  leads : ∀ l ∈ above, Relation.TransGen (s.Extends files) l next

variable {s : Surroundings} {files before : FileTree} {root place : Location}

theorem IsBranch.not_mem {above : List Location} {next : Location} (branch : s.IsBranch files root above next)
    (acyclic : s.Acyclic files root) : next ∉ above :=
  fun inside => acyclic next (branch.reached next inside) (branch.leads next inside)

theorem IsBranch.nodup_append {above : List Location} {next : Location} (branch : s.IsBranch files root above next)
    (acyclic : s.Acyclic files root) : (above ++ [next]).Nodup := by
  refine List.nodup_append.mpr ⟨branch.distinct, List.nodup_singleton next, fun l inside m last => ?_⟩
  rintro rfl
  exact branch.not_mem acyclic (List.mem_singleton.mp last ▸ inside)

theorem IsBranch.step {above : List Location} {l m : Location} (branch : s.IsBranch files root above l)
    (acyclic : s.Acyclic files root) (reaches : s.Reaches files root l) (canonical : l.normalize = l)
    (edge : s.Extends files l m) : s.IsBranch files root (above ++ [l]) m where
  distinct := branch.nodup_append acyclic
  canonical := by
    intro a member
    rcases List.mem_append.mp member with inside | last
    · exact branch.canonical a inside
    · exact List.mem_singleton.mp last ▸ canonical
  reached := by
    intro a member
    rcases List.mem_append.mp member with inside | last
    · exact branch.reached a inside
    · exact List.mem_singleton.mp last ▸ reaches
  leads := by
    intro a member
    rcases List.mem_append.mp member with inside | last
    · exact (branch.leads a inside).tail edge
    · exact List.mem_singleton.mp last ▸ .single edge

theorem Reloaded.sameShape (reloaded : s.Reloaded files root before) : files.SameShape before := by
  induction reloaded with
  | start => exact .refl files
  | load _ _ ih => exact ih.trans (Document.sameShape_load _ _ _ _)

theorem load_normalize (policy : Upkeep) (now : Instant) (files : FileTree) (place : Location) :
    Document.load policy now files place.normalize = Document.load policy now files place := by
  simp [Document.load]

namespace Steady

variable (steady : s.Steady files root)

include steady

theorem load_eq_ok (reaches : s.Reaches files root place.normalize) (reloaded : s.Reloaded files root before) :
    ∃ d, (Document.load s.policy s.now before place).result = .ok d ∧ d.location = place.normalize ∧
      d.parents = s.references files place.normalize ∧
      s.Reloaded files root (Document.load s.policy s.now before place).files := by
  obtain ⟨d, loaded, parents⟩ := steady.loaded _ reaches before reloaded
  have after := Reloaded.load reloaded reaches
  rw [load_normalize] at loaded after
  exact ⟨d, loaded, Document.location_of_load loaded, parents, after⟩

/-- What is reached is a file. -/
theorem isFile (reaches : s.Reaches files root place.normalize) : files.isFile place.normalize = true := by
  obtain ⟨d, loaded, _⟩ := steady.load_eq_ok reaches .start
  exact Document.isFile_of_load loaded

/-- A parent that a document names is one of the branch, and that is a cycle, or
it is visited. -/
theorem visitParent_cases (fuel : Nat) (branch : List Location) {l : Location} (reaches : s.Reaches files root l)
    (reloaded : s.Reloaded files root before) {named : String} (member : named ∈ s.references files l) :
    ∃ target, locateReference s.search files named l = .ok target ∧
      (branch.any (·.same target) = true ∧
          s.visitParent fuel branch l before named = .failed before (.circular branch target) ∨
        branch.any (·.same target) = false ∧
          s.visitParent fuel branch l before named = s.visit fuel before branch (some named) target) := by
  obtain ⟨target, located, file⟩ := steady.located l reaches named member
  have found : locateReference s.search before named l = .ok target := by
    rw [reloaded.sameShape.locateReference, located]
  have there : before.isFile target = true := by rw [reloaded.sameShape.isFile, file]
  refine ⟨target, located, ?_⟩
  unfold visitParent
  rw [parent_of_locate found there]
  cases repeats : branch.any (·.same target) with
  | true => exact Or.inl ⟨rfl, rfl⟩
  | false => exact Or.inr ⟨rfl, rfl⟩

/-- Visits keep the files such as loading leaves them, and the only fault they can
meet before their fuel is spent is a cycle. -/
theorem visit (fuel : Nat) {above : List Location} {reference : Option String}
    (reaches : s.Reaches files root place.normalize) (reloaded : s.Reloaded files root before) :
    s.Reloaded files root (s.visit fuel before above reference place).files ∧
      ∀ fault, (s.visit fuel before above reference place).result = .error fault →
        (∃ l, fault = .endless l) ∨ ∃ chain repeated, fault = .circular chain repeated := by
  induction fuel generalizing before above reference place with
  | zero => exact ⟨reloaded, fun _ spent => Or.inl ⟨place, (Except.error.inj spent).symm⟩⟩
  | succ fuel ih =>
    obtain ⟨d, loaded, location, parents, after⟩ := steady.load_eq_ok reaches reloaded
    rw [visit_of_load_ok loaded, location, parents]
    have work : ∀ u, s.Reloaded files root u → ∀ named ∈ s.references files place.normalize,
        s.Reloaded files root (s.visitParent fuel (above ++ [place.normalize]) place.normalize u named).files ∧
          ∀ fault, (s.visitParent fuel (above ++ [place.normalize]) place.normalize u named).result =
            .error fault → (∃ l, fault = .endless l) ∨ ∃ chain repeated, fault = .circular chain repeated := by
      intro u held named member
      obtain ⟨target, located, ⟨_, same⟩ | ⟨_, same⟩⟩ :=
        steady.visitParent_cases fuel (above ++ [place.normalize]) reaches held member
      · rw [same]
        exact ⟨held, fun _ circular => Or.inr ⟨_, target, (Except.error.inj circular).symm⟩⟩
      · rw [same]
        exact ih (reaches.tail ⟨named, member, target, located, rfl⟩) held
    obtain ⟨kept, ⟨results, done, _⟩ | ⟨named, member, u, fault, held, failed, stopped⟩⟩ :=
      Outcome.inTurn_cases (fun u held named member => (work u held named member).1) after
    · rw [Outcome.andThen_of_ok done, Outcome.files_done, Outcome.result_done]
      exact ⟨kept, nofun⟩
    · rw [Outcome.andThen_of_error stopped, Outcome.files_failed, Outcome.result_failed]
      refine ⟨kept, fun _ same => ?_⟩
      cases same
      exact (work u held named member).2 fault failed

theorem files_visitParent (fuel : Nat) (branch : List Location) {l : Location} (reaches : s.Reaches files root l)
    (reloaded : s.Reloaded files root before) {named : String} (member : named ∈ s.references files l) :
    s.Reloaded files root (s.visitParent fuel branch l before named).files := by
  obtain ⟨target, located, ⟨_, same⟩ | ⟨_, same⟩⟩ := steady.visitParent_cases fuel branch reaches reloaded member
  · rw [same]
    exact reloaded
  · rw [same]
    exact (steady.visit fuel (reaches.tail ⟨named, member, target, located, rfl⟩) reloaded).1

/-- A visit that succeeds has followed every way up from the document to its
end. -/
theorem acc_of_visit {fuel : Nat} {above : List Location} {reference : Option String} {a : Ancestry}
    (reaches : s.Reaches files root place.normalize) (reloaded : s.Reloaded files root before)
    (visited : (s.visit fuel before above reference place).result = .ok a) :
    Acc (fun m l => s.Extends files l m) place.normalize := by
  induction fuel generalizing before above reference place a with
  | zero => cases visited
  | succ fuel ih =>
    obtain ⟨d, results, loaded, done, _⟩ := visit_eq_ok visited
    obtain ⟨same, again, location, parents, after⟩ := steady.load_eq_ok reaches reloaded
    obtain rfl : d = same := Except.ok.inj (loaded.symm.trans again)
    rw [location, parents] at done
    refine Acc.intro _ fun m edge => ?_
    obtain ⟨named, member, target, located, rfl⟩ := edge
    have keep : ∀ u, s.Reloaded files root u → ∀ other ∈ s.references files place.normalize,
        s.Reloaded files root (s.visitParent fuel (above ++ [place.normalize]) place.normalize u other).files :=
      fun u held other inside => steady.files_visitParent fuel _ reaches held inside
    obtain ⟨_, ⟨_, _, each⟩ | ⟨_, _, _, fault, _, _, stopped⟩⟩ := Outcome.inTurn_cases keep after
    · obtain ⟨i, bound, rfl⟩ := List.mem_iff_getElem.mp member
      obtain ⟨u, held, ok⟩ := each.get bound (each.length_eq ▸ bound)
      obtain ⟨found, again, ⟨_, circular⟩ | ⟨_, visited⟩⟩ :=
        steady.visitParent_cases fuel (above ++ [place.normalize]) reaches held member
      · rw [List.get_eq_getElem, circular] at ok
        cases ok
      · obtain rfl : target = found := Except.ok.inj (located.symm.trans again)
        rw [List.get_eq_getElem, visited] at ok
        exact ih (reaches.tail ⟨_, member, target, located, rfl⟩) held ok
    · rw [done] at stopped
      cases stopped

/-- A branch names files only, and each of them once, so the bound on its length
leaves room for the next document. -/
theorem length_lt_branchBound (acyclic : s.Acyclic files root) {above : List Location}
    (reaches : s.Reaches files root place.normalize) (branch : s.IsBranch files root above place.normalize) :
    above.length < branchBound files := by
  have known : ∀ l ∈ above ++ [place.normalize], l.normalize = l ∧ files.isFile l = true := by
    intro l member
    rcases List.mem_append.mp member with inside | last
    · have same := branch.canonical l inside
      have reached := branch.reached l inside
      rw [← same] at reached
      exact ⟨same, same ▸ steady.isFile reached⟩
    · obtain rfl := List.mem_singleton.mp last
      exact ⟨place.normalize_normalize, steady.isFile reaches⟩
  have short := FileTree.length_le_of_nodup (branch.nodup_append acyclic) known
  rw [List.length_append, List.length_singleton] at short
  unfold branchBound
  omega

/-- Where nothing that is reached reaches itself again, visits come to an end
before the fuel does. -/
theorem visit_of_acyclic (acyclic : s.Acyclic files root) {fuel : Nat} {above : List Location}
    {reference : Option String} (reaches : s.Reaches files root place.normalize)
    (reloaded : s.Reloaded files root before) (branch : s.IsBranch files root above place.normalize)
    (enough : branchBound files ≤ fuel + above.length) :
    ∃ a, (s.visit fuel before above reference place).result = .ok a := by
  induction fuel generalizing before above reference place with
  | zero =>
    have short := steady.length_lt_branchBound acyclic reaches branch
    omega
  | succ fuel ih =>
    obtain ⟨d, loaded, location, parents, after⟩ := steady.load_eq_ok reaches reloaded
    rw [visit_of_load_ok loaded, location, parents]
    have keep : ∀ u, s.Reloaded files root u → ∀ other ∈ s.references files place.normalize,
        s.Reloaded files root (s.visitParent fuel (above ++ [place.normalize]) place.normalize u other).files :=
      fun u held other inside => steady.files_visitParent fuel _ reaches held inside
    obtain ⟨_, ⟨results, done, _⟩ | ⟨named, member, u, fault, held, failed, _⟩⟩ := Outcome.inTurn_cases keep after
    · rw [Outcome.andThen_of_ok done, Outcome.result_done]
      exact ⟨_, rfl⟩
    · obtain ⟨target, located, turn⟩ :=
        steady.visitParent_cases fuel (above ++ [place.normalize]) reaches held member
      have edge : s.Extends files place.normalize target.normalize := ⟨named, member, target, located, rfl⟩
      have longer := branch.step acyclic reaches place.normalize_normalize edge
      rcases turn with ⟨repeats, _⟩ | ⟨_, visited⟩
      · -- The branch would hold the target, which extends nothing that extends it.
        obtain ⟨l, inside, same⟩ := List.any_eq_true.mp repeats
        have again : l = target.normalize :=
          (longer.canonical l inside).symm.trans (Location.normalize_eq_of_same same)
        exact absurd (again ▸ inside) (longer.not_mem acyclic)
      · rw [visited] at failed
        obtain ⟨a, ok⟩ := ih (reaches.tail edge) held longer
          (by rw [List.length_append, List.length_singleton]; omega)
        rw [failed] at ok
        cases ok

end Steady

theorem Reaches.acc {l : Location} (reaches : s.Reaches files root l)
    (ended : Acc (fun m l => s.Extends files l m) root.normalize) : Acc (fun m l => s.Extends files l m) l := by
  induction reaches with
  | refl => exact ended
  | tail _ edge ih => exact ih.inv edge

/-- What comes to an end all ways does not come back. -/
theorem not_transGen_of_acc {α : Type} {r : α → α → Prop} {a : α} (ended : Acc (fun b a => r a b) a) :
    ¬Relation.TransGen r a a := by
  have above := ended.transGen
  induction above with
  | intro a _ ih =>
    intro cycle
    exact ih a (Relation.transGen_swap.mpr cycle) (ended.inv_of_transGen (Relation.transGen_swap.mpr cycle)) cycle

theorem reaches_root (s : Surroundings) (files : FileTree) (root : Location) :
    s.Reaches files root root.normalize.normalize := by
  rw [Location.normalize_normalize]
  exact .refl

theorem Reaches.normalize_eq {l : Location} (reaches : s.Reaches files root l) : l.normalize = l := by
  induction reaches with
  | refl => exact root.normalize_normalize
  | tail _ edge _ =>
    obtain ⟨_, _, target, _, rfl⟩ := edge
    exact target.normalize_normalize

/-- From an absolute place only absolute places are reached, all of them
canonical. -/
theorem Reaches.canonical {l : Location} (reaches : s.Reaches files root l)
    (roots : ∀ r ∈ s.search.roots, r.isAbsolute = true) (absolute : root.isAbsolute = true) :
    l.isAbsolute = true ∧ l.normalize = l := by
  refine ⟨?_, reaches.normalize_eq⟩
  induction reaches with
  | refl => exact Location.isAbsolute_normalize absolute
  | tail _ edge ih =>
    obtain ⟨reference, _, target, located, rfl⟩ := edge
    exact Location.isAbsolute_normalize (isAbsolute_of_locateReference roots ih located)

/-- Whether a document loads and leaves the files as they are, and its references
lead to files among the places. -/
def settledAt (s : Surroundings) (files : FileTree) (places : List Location) (l : Location) : Bool :=
  (Document.load s.policy s.now files l).files.entries == files.entries &&
    (Document.load s.policy s.now files l).files.here == files.here &&
    (Document.load s.policy s.now files l).result.toOption.isSome &&
    (s.references files l).all fun reference =>
      match locateReference s.search files reference l with
      | .ok target => files.isFile target && places.contains target.normalize
      | .error _ => false

section Settled

variable {places : List Location} {l : Location}

theorem files_load_of_settledAt (settled : s.settledAt files places l = true) :
    (Document.load s.policy s.now files l).files = files := by
  simp only [settledAt, Bool.and_eq_true, beq_iff_eq] at settled
  obtain ⟨⟨⟨entries, here⟩, _⟩, _⟩ := settled
  cases after : (Document.load s.policy s.now files l).files
  cases files
  simp_all

theorem load_of_settledAt (settled : s.settledAt files places l = true) :
    ∃ d, (Document.load s.policy s.now files l).result = .ok d ∧ d.parents = s.references files l := by
  simp only [settledAt, Bool.and_eq_true] at settled
  unfold references
  cases loaded : (Document.load s.policy s.now files l).result with
  | error fault => simp [loaded, Except.toOption] at settled
  | ok d => exact ⟨d, rfl, rfl⟩

theorem locate_of_settledAt (settled : s.settledAt files places l = true) {reference : String}
    (named : reference ∈ s.references files l) :
    ∃ target, locateReference s.search files reference l = .ok target ∧ files.isFile target = true ∧
      target.normalize ∈ places := by
  simp only [settledAt, Bool.and_eq_true, List.all_eq_true] at settled
  have leads := settled.2 reference named
  cases located : locateReference s.search files reference l with
  | error fault => simp [located] at leads
  | ok target => exact ⟨target, rfl, by simpa [located] using leads⟩

end Settled

/-- Documents that nothing has to be done to are steady. -/
theorem steady_of_settledAt (places : List Location) (start : root.normalize ∈ places)
    (settled : ∀ l ∈ places, s.settledAt files places l = true) : s.Steady files root := by
  have inside : ∀ l, s.Reaches files root l → l ∈ places := by
    intro l reached
    induction reached with
    | refl => exact start
    | @tail l _ _ edge ih =>
      obtain ⟨reference, named, target, located, rfl⟩ := edge
      obtain ⟨found, again, _, member⟩ := locate_of_settledAt (settled l ih) named
      rw [located] at again
      cases again
      exact member
  have same : ∀ before, s.Reloaded files root before → before = files := by
    intro before reloaded
    induction reloaded with
    | start => rfl
    | load _ reached ih => rw [ih, files_load_of_settledAt (settled _ (inside _ reached))]
  refine ⟨fun l reached reference named => ?_, fun l reached before reloaded => ?_⟩
  · obtain ⟨target, located, file, _⟩ := locate_of_settledAt (settled l (inside l reached)) named
    exact ⟨target, located, file⟩
  · rw [same before reloaded]
    exact load_of_settledAt (settled l (inside l reached))

/-- A diamond: the first document reaches the last one over two ways, and names it
by two spellings. -/
def diamond : FileTree :=
  ⟨[(["a"], .file (.text "$schema: ./s\nextends: [./b, /./c]")),
    (["b"], .file (.text "$schema: ./s\nextends: [../c]")), (["c"], .file (.text "$schema: ./s"))], []⟩

def plain : Surroundings :=
  ⟨⟨⟨"/s"⟩, false⟩, ⟨["modules"], [⟨"/lib"⟩]⟩, ⟨0, 0⟩⟩

end LayeredConfig.Surroundings
