import LayeredConfig.Proofs.Ancestry.Termination

namespace LayeredConfig.Surroundings

/-- A file that is reached extends another one. Files are known by where the places
lead, however these are written. -/
def ExtendsFile (s : Surroundings) (files : FileTree) (root : Location) (names others : List String) : Prop :=
  ∃ l m, s.Reaches files root l ∧ s.Extends files l m ∧ files.locate l = .ok names ∧ files.locate m = .ok others

/-- What a file extends does not depend on how the place is written at which it is
reached. -/
def SpelledAlike (s : Surroundings) (files : FileTree) (root : Location) : Prop :=
  ∀ l m, s.Reaches files root l → s.Reaches files root m → files.locate l = files.locate m →
    ∀ k, s.Extends files l k → ∃ other, s.Extends files m other ∧ files.locate k = files.locate other

variable {s : Surroundings} {files : FileTree} {root l m : Location} {names : List String} {turns : List Turn}
  {o : Outcome Ancestry} {a : Ancestry}

theorem SpelledAlike.acc (alike : s.SpelledAlike files root) (reaches : s.Reaches files root l)
    (located : files.locate l = .ok names) (ended : Acc (fun m l => s.Extends files l m) l) :
    Acc (fun others names => s.ExtendsFile files root names others) names := by
  induction ended generalizing names with
  | intro l _ ih =>
    refine Acc.intro _ fun others edge => ?_
    obtain ⟨m, k, reached, extends_, own, next⟩ := edge
    obtain ⟨other, again, same⟩ := alike m l reached reaches (own.trans located.symm) k extends_
    exact ih other again (reaches.tail again) (same ▸ next)

namespace Steady

variable (steady : s.Steady files root)

include steady

theorem locate (reaches : s.Reaches files root l) : ∃ names, files.locate l = .ok names := by
  have file : files.isFile l.normalize = true := steady.isFile (by rwa [reaches.normalize_eq])
  rw [reaches.normalize_eq] at file
  obtain ⟨names, _, located, _⟩ := FileTree.isFile_eq_true file
  exact ⟨names, located⟩

/-- A way over places is a way over the files there. -/
theorem transGen_extendsFile (reaches : s.Reaches files root l) (way : Relation.TransGen (s.Extends files) l m)
    {others : List String} (here : files.locate l = .ok names) (there : files.locate m = .ok others) :
    Relation.TransGen (s.ExtendsFile files root) names others := by
  induction way generalizing others with
  | single edge => exact .single ⟨_, _, reaches, edge, here, there⟩
  | tail before edge ih =>
    have reached := reaches.trans before.to_reflTransGen
    obtain ⟨between, located⟩ := steady.locate reached
    exact (ih located).tail ⟨_, _, reached, edge, located, there⟩

theorem acc_of_run (run : s.Runs files root turns o) (ok : o.result = .ok a) :
    Acc (fun m l => s.Extends files l m) root.normalize := by
  cases run with
  | missing => cases ok
  | found _ walk =>
    rw [← walk.visit_eq (Nat.le_refl _)] at ok
    have ended := steady.acc_of_visit (s.reaches_root files root) .start ok
    rwa [Location.normalize_normalize] at ended

theorem acyclic_of_run (run : s.Runs files root turns o) (ok : o.result = .ok a) : s.Acyclic files root :=
  fun _ reached => not_transGen_of_acc (reached.acc (steady.acc_of_run run ok))

/-- Where nothing that is reached reaches itself again, the ancestry is found. -/
theorem ancestry_of_acyclic (file : files.isFile root.normalize = true) (acyclic : s.Acyclic files root) :
    ∃ turns a, s.Runs files root turns (s.ancestry files root) ∧ (s.ancestry files root).result = .ok a := by
  have start : s.IsBranch files root [] root.normalize.normalize := ⟨.nil, by simp, by simp, by simp⟩
  obtain ⟨a, ok⟩ : ∃ a, (s.ancestry files root).result = .ok a := by
    rw [ancestry, if_pos file]
    exact steady.visit_of_acyclic acyclic (s.reaches_root files root) .start start (by simp)
  obtain ⟨turns, run⟩ := exists_run_of_ancestry (Outcome.not_spent_of_ok ok)
  exact ⟨turns, a, run, ok⟩

theorem exists_run_ok_iff (file : files.isFile root.normalize = true) :
    (∃ turns o a, s.Runs files root turns o ∧ o.result = .ok a) ↔ s.Acyclic files root := by
  constructor
  · rintro ⟨turns, o, a, run, ok⟩
    exact steady.acyclic_of_run run ok
  · intro acyclic
    obtain ⟨turns, a, run, ok⟩ := steady.ancestry_of_acyclic file acyclic
    exact ⟨turns, _, a, run, ok⟩

theorem exists_ancestry_ok_iff (file : files.isFile root.normalize = true) :
    (∃ a, (s.ancestry files root).result = .ok a) ↔ s.Acyclic files root := by
  constructor
  · rintro ⟨a, ok⟩
    obtain ⟨turns, run⟩ := exists_run_of_ancestry (Outcome.not_spent_of_ok ok)
    exact steady.acyclic_of_run run ok
  · intro acyclic
    obtain ⟨_, a, _, ok⟩ := steady.ancestry_of_acyclic file acyclic
    exact ⟨a, ok⟩

/-- A run that ends without documents has found a cycle, and there is one. -/
theorem circular_of_run (file : files.isFile root.normalize = true) (run : s.Runs files root turns o)
    {fault : Fault} (failed : o.result = .error fault) :
    (∃ chain repeated, fault = .circular chain repeated) ∧
      ∃ l, s.Reaches files root l ∧ Relation.TransGen (s.Extends files) l l := by
  constructor
  · cases run with
    | missing none_ => exact absurd file (by simp [none_])
    | found _ walk =>
      have ended := walk.not_spent
      rw [← walk.visit_eq (Nat.le_refl _)] at failed ended
      rcases (steady.visit _ (s.reaches_root files root) .start).2 fault failed with ⟨l, rfl⟩ | circular
      · exact absurd ⟨l, failed⟩ ended
      · exact circular
  · by_contra none_
    obtain ⟨_, a, other, ok⟩ := steady.ancestry_of_acyclic file fun l reached cycle => none_ ⟨l, reached, cycle⟩
    rw [← (run.unique other).2, failed] at ok
    cases ok

/-- Cycles over files are cycles over places, when a file extends the same at all its
places. -/
theorem acyclic_iff_of_alike (file : files.isFile root.normalize = true) (alike : s.SpelledAlike files root) :
    s.Acyclic files root ↔ ∀ names, ¬Relation.TransGen (s.ExtendsFile files root) names names := by
  constructor
  · intro acyclic names cycle
    obtain ⟨turns, a, run, ok⟩ := steady.ancestry_of_acyclic file acyclic
    obtain ⟨_, ⟨l, _, reaches, _, located, _⟩, _⟩ := Relation.TransGen.head'_iff.mp cycle
    exact not_transGen_of_acc (alike.acc reaches located (reaches.acc (steady.acc_of_run run ok))) cycle
  · intro none_ l reaches cycle
    obtain ⟨names, located⟩ := steady.locate reaches
    exact none_ names (steady.transGen_extendsFile reaches cycle located located)

section Absolute

variable (roots : ∀ r ∈ s.search.roots, r.isAbsolute = true) (absolute : root.isAbsolute = true)

include roots absolute

/-- From an absolute place with absolute package roots no file is reached at two
places. -/
theorem eq_of_locate (reaches : s.Reaches files root l) (other : s.Reaches files root m)
    (same : files.locate l = files.locate m) : l = m := by
  obtain ⟨names, located⟩ := steady.locate reaches
  exact FileTree.eq_of_locate (reaches.canonical roots absolute) (other.canonical roots absolute) located
    (same ▸ located)

theorem spelledAlike : s.SpelledAlike files root := by
  intro l m reaches other same k extends_
  rw [steady.eq_of_locate roots absolute reaches other same] at extends_
  exact ⟨k, extends_, rfl⟩

theorem exists_circular_iff (file : files.isFile root.normalize = true) :
    (∃ chain repeated, (s.ancestry files root).result = .error (.circular chain repeated)) ↔
      ∃ l, s.Reaches files root l ∧ Relation.TransGen (s.Extends files) l l := by
  obtain ⟨turns, run, _⟩ := exists_run (t := files) roots absolute
  constructor
  · rintro ⟨chain, repeated, circular⟩
    exact (steady.circular_of_run file run circular).2
  · rintro ⟨l, reached, cycle⟩
    cases ended : (s.ancestry files root).result with
    | ok a => exact absurd cycle ((steady.exists_ancestry_ok_iff file).mp ⟨a, ended⟩ l reached)
    | error fault =>
      obtain ⟨⟨chain, repeated, rfl⟩, _⟩ := steady.circular_of_run file run ended
      exact ⟨chain, repeated, rfl⟩

end Absolute

end Steady

/-- Cycles are found exactly. There is a run from a file that ends with documents if and
only if no document that is reached reaches itself again, and a run that ends without
documents reports a cycle that is there. Documents may be told apart by their files as
well, if what these extend does not depend on how a place is written. When the first
place and the package roots are absolute this is so, since each file is reached at one
place only, and there always is a run: a cycle is reported wherever there is one. -/
theorem ancestry_ok_iff_acyclic (s : Surroundings) (files : FileTree) (root : Location)
    (file : files.isFile root.normalize = true) (steady : s.Steady files root) :
    ((∃ turns o a, s.Runs files root turns o ∧ o.result = .ok a) ↔ s.Acyclic files root) ∧
      ((∃ a, (s.ancestry files root).result = .ok a) ↔ s.Acyclic files root) ∧
      (∀ turns o fault, s.Runs files root turns o → o.result = .error fault →
        (∃ chain repeated, fault = .circular chain repeated) ∧
          ∃ l, s.Reaches files root l ∧ Relation.TransGen (s.Extends files) l l) ∧
      (s.SpelledAlike files root →
        (s.Acyclic files root ↔ ∀ names, ¬Relation.TransGen (s.ExtendsFile files root) names names)) ∧
      (root.isAbsolute = true → (∀ r ∈ s.search.roots, r.isAbsolute = true) →
        (∃ turns, s.Runs files root turns (s.ancestry files root)) ∧
          ((∃ chain repeated, (s.ancestry files root).result = .error (.circular chain repeated)) ↔
            ∃ l, s.Reaches files root l ∧ Relation.TransGen (s.Extends files) l l) ∧
          s.SpelledAlike files root ∧
          ∀ l, s.Reaches files root l → l.isAbsolute = true ∧
            ∀ m names, s.Reaches files root m → files.locate l = .ok names → files.locate m = .ok names →
              l = m) := by
  refine ⟨steady.exists_run_ok_iff file, steady.exists_ancestry_ok_iff file,
    fun turns o fault run failed => steady.circular_of_run file run failed, steady.acyclic_iff_of_alike file,
    fun absolute roots => ?_⟩
  obtain ⟨turns, run, _⟩ := exists_run (t := files) roots absolute
  refine ⟨⟨turns, run⟩, steady.exists_circular_iff roots absolute file, steady.spelledAlike roots absolute,
    fun l reached => ⟨(reached.canonical roots absolute).1, fun m names other here there => ?_⟩⟩
  exact steady.eq_of_locate roots absolute reached other (here.trans there.symm)

set_option maxRecDepth 10000 in
theorem diamond_acyclic :
    diamond.isFile (Location.normalize ⟨"/d/../a"⟩) = true ∧ plain.Steady diamond ⟨"/d/../a"⟩ ∧
      (∃ turns o a, plain.Runs diamond ⟨"/d/../a"⟩ turns o ∧ o.result = .ok a) ∧
      plain.Acyclic diamond ⟨"/d/../a"⟩ ∧ plain.SpelledAlike diamond ⟨"/d/../a"⟩ := by
  have file : diamond.isFile (Location.normalize ⟨"/d/../a"⟩) = true := by decide +kernel
  have steady : plain.Steady diamond ⟨"/d/../a"⟩ :=
    steady_of_settledAt [⟨"/a"⟩, ⟨"/b"⟩, ⟨"/c"⟩] (by decide +kernel) (by decide +kernel)
  have succeeds : ((plain.ancestry diamond ⟨"/d/../a"⟩).result.toOption.any fun _ => true) = true := by
    decide +kernel
  obtain ⟨a, resolved, _⟩ := exists_of_toOption_any succeeds
  obtain ⟨ran, found, _, _, always⟩ := ancestry_ok_iff_acyclic plain diamond ⟨"/d/../a"⟩ file steady
  have acyclic : plain.Acyclic diamond ⟨"/d/../a"⟩ := found.mp ⟨a, resolved⟩
  obtain ⟨_, _, alike, _⟩ := always (by decide) (by decide)
  exact ⟨file, steady, ran.mpr acyclic, acyclic, alike⟩

end LayeredConfig.Surroundings
