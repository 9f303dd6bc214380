import LayeredConfig.Proofs.Ancestry.Package
import LayeredConfig.Proofs.Ancestry.Visit
import LayeredConfig.Proofs.Document.Rest

namespace LayeredConfig

open Document (AtRest KeepsKeys calm)

/-- The ancestry as loads find it that leave all files alone. -/
def Ancestry.calm (a : Ancestry) : Ancestry :=
  ⟨a.lineage, a.documents.map Document.calm⟩

namespace Surroundings

/-- The same surroundings at another time. -/
def atTime (s : Surroundings) (now : Instant) : Surroundings :=
  { s with now := now }

/-- What was written for the document reads back, filling its placeholders keeps
its keys, and all of these are entity keys. -/
structure Sound (s : Surroundings) (t : FileTree) (d : Document) : Prop where
  faithful : d.refreshed = true → ∀ text own, t.read d.location = .ok text →
    Document.fieldsOf d.location text = .ok own →
    ReadsBack (.object (Document.upkeep s.policy d.location.dir s.now.toMillis own))
  keeps : KeepsKeys d.location d.rawText
  plain : foreignKey? d = none

/-- Each place reads as at the start, or holds a document at rest. -/
structure Calming (s : Surroundings) (t x : FileTree) : Prop where
  shape : t.SameShape x
  dirs : t.SameDirs x
  held : ∀ l : Location, l.isAbsolute = true ∧ l.normalize = l →
    x.read l = t.read l ∨ ∃ d, d.location = l ∧ AtRest s.policy d ∧ x.read l = .ok d.rawText

/-- What loading documents in turn leaves behind: they are all at rest, and those
that were stay so. -/
structure Leaves (s : Surroundings) (t x y : FileTree) (documents : List Document) : Prop where
  calming : s.Calming t y
  kept : ∀ d : Document, d.location.isAbsolute = true ∧ d.location.normalize = d.location → AtRest s.policy d →
    x.read d.location = .ok d.rawText → y.read d.location = .ok d.rawText
  rest : ∀ d ∈ documents, (d.location.isAbsolute = true ∧ d.location.normalize = d.location) ∧
    AtRest s.policy d ∧ y.read d.location = .ok d.rawText

variable {s : Surroundings} {t x y z v : FileTree} {documents others : List Document} {d : Document}
  {place : Location} {a : Ancestry}

theorem calming_refl (s : Surroundings) (t : FileTree) : s.Calming t t :=
  ⟨.refl t, .refl t, fun _ _ => Or.inl rfl⟩

theorem Calming.leaves_nil (calming : s.Calming t x) : s.Leaves t x x [] :=
  ⟨calming, fun _ _ _ held => held, by simp⟩

theorem Leaves.append (first : s.Leaves t x y documents) (second : s.Leaves t y z others) :
    s.Leaves t x z (documents ++ others) := by
  refine ⟨second.calming, fun d anchored rest held => ?_, fun d member => ?_⟩
  · exact second.kept d anchored rest (first.kept d anchored rest held)
  · rcases List.mem_append.mp member with early | late
    · obtain ⟨anchored, rest, held⟩ := first.rest d early
      exact ⟨anchored, rest, second.kept d anchored rest held⟩
    · exact second.rest d late

theorem Leaves.of_mem (leaves : s.Leaves t x y documents) (inside : ∀ d ∈ others, d ∈ documents) :
    s.Leaves t x y others :=
  ⟨leaves.calming, leaves.kept, fun d member => leaves.rest d (inside d member)⟩

/-- A loaded document is at rest: what its file held was brought up to date, or was
at rest already. -/
theorem Calming.leaves_load (calming : s.Calming t x) (absolute : place.isAbsolute = true)
    (loaded : (Document.load s.policy s.now x place).result = .ok d) (sound : s.Sound t d) :
    s.Leaves t x (Document.load s.policy s.now x place).files [d] := by
  have location := Document.location_of_load loaded
  have anchored : place.normalize.isAbsolute = true ∧ place.normalize.normalize = place.normalize :=
    ⟨Location.isAbsolute_normalize absolute, place.normalize_normalize⟩
  have rests : AtRest s.policy d ∧
      (Document.load s.policy s.now x place).files.read d.location = .ok d.rawText := by
    rcases calming.held place.normalize anchored with untouched | ⟨found, same, rest, held⟩
    · obtain ⟨text, own, stored, known⟩ := Document.read_of_load loaded
      refine Document.atRest_of_load loaded stored known (fun refreshed => ?_) sound.keeps sound.plain
      have faithful := sound.faithful refreshed text own
      rw [location, ← untouched] at faithful
      exact faithful stored known
    · rw [← same] at held
      have left := rest.load_eq held same.symm s.now
      rw [left, Outcome.result_done] at loaded
      obtain rfl := Except.ok.inj loaded
      rw [left]
      exact ⟨rest.calm, held⟩
  have other : ∀ l : Location, l.isAbsolute = true ∧ l.normalize = l → place.normalize ≠ l →
      (Document.load s.policy s.now x place).files.read l = x.read l :=
    fun l known apart => Document.read_load_of_ne anchored.1 known apart
  refine ⟨⟨calming.shape.trans (Document.sameShape_load _ _ _ _),
    calming.dirs.trans (Document.sameDirs_load _ _ _ _), fun l known => ?_⟩,
    fun e known rest held => ?_, fun e member => ?_⟩
  · by_cases same : place.normalize = l
    · exact Or.inr ⟨d, location.trans same, rests.1, by rw [← same, ← location]; exact rests.2⟩
    · rw [other l known same]
      exact calming.held l known
  · by_cases same : place.normalize = e.location
    · rw [rest.load_eq held same s.now]
      exact held
    · rw [other e.location known same]
      exact held
  · rw [List.mem_singleton.mp member]
    exact ⟨location ▸ anchored, rests⟩

theorem Calming.leaves_inTurn {work : FileTree → String → Outcome Ancestry}
    (step : ∀ x r p, s.Calming t x → (work x r).result = .ok p → (∀ d ∈ p.documents, s.Sound t d) →
      s.Leaves t x (work x r).files p.documents)
    {references : List String} {results : List Ancestry} (calming : s.Calming t x)
    (done : (Outcome.inTurn work x references).result = .ok results)
    (sound : ∀ p ∈ results, ∀ d ∈ p.documents, s.Sound t d) :
    s.Leaves t x (Outcome.inTurn work x references).files (results.flatMap Ancestry.documents) := by
  induction references generalizing x results with
  | nil =>
    cases done
    exact calming.leaves_nil
  | cons reference rest ih =>
    obtain ⟨p, more, worked, later, rfl, files⟩ := Outcome.inTurn_cons done
    have first := step x reference p calming worked (sound p List.mem_cons_self)
    have second := ih first.calming later fun q member => sound q (List.mem_cons_of_mem _ member)
    rw [files, List.flatMap_cons]
    exact first.append second

/-- All documents of an ancestry are at rest once it was visited. -/
theorem Calming.leaves_visit (roots : ∀ root ∈ s.search.roots, root.isAbsolute = true) {fuel : Nat}
    {above : List Location} {reference : Option String} (calming : s.Calming t x)
    (absolute : place.isAbsolute = true) (visited : (s.visit fuel x above reference place).result = .ok a)
    (sound : ∀ d ∈ a.documents, s.Sound t d) :
    s.Leaves t x (s.visit fuel x above reference place).files a.documents := by
  induction fuel generalizing x above reference place a with
  | zero => cases visited
  | succ fuel ih =>
    obtain ⟨d, parents, loaded, done, rfl⟩ := visit_eq_ok visited
    have own := calming.leaves_load absolute loaded (sound d (by simp))
    have there : d.location.isAbsolute = true := (own.rest d (by simp)).1.1
    have step : ∀ x r p, s.Calming t x →
        (s.visitParent fuel (above ++ [d.location]) d.location x r).result = .ok p →
        (∀ e ∈ p.documents, s.Sound t e) →
        s.Leaves t x (s.visitParent fuel (above ++ [d.location]) d.location x r).files p.documents := by
      intro x r p calming worked sound
      obtain ⟨target, named, visited⟩ := visitParent_eq_ok worked
      rw [visitParent_of_parent named]
      exact ih calming (isAbsolute_of_locateReference roots there (parent_eq_ok named).1) visited sound
    have above_ := own.calming.leaves_inTurn step done fun p member e inside =>
      sound e (List.mem_append_left _ (List.mem_flatMap.mpr ⟨p, member, inside⟩))
    rw [visit_of_load_ok loaded, Outcome.andThen_of_ok done, Outcome.files_done]
    exact (own.append above_).of_mem fun e member => by simpa [or_comm] using member

theorem inTurn_again {work again : FileTree → String → Outcome Ancestry}
    (step : ∀ x r p, s.Calming t x → (work x r).result = .ok p → (∀ d ∈ p.documents, s.Sound t d) →
      s.Leaves t x (work x r).files p.documents ∧
        ((∀ d ∈ p.documents, v.read d.location = .ok d.rawText) → again v r = .done v p.calm))
    {references : List String} {results : List Ancestry} (calming : s.Calming t x)
    (done : (Outcome.inTurn work x references).result = .ok results)
    (sound : ∀ p ∈ results, ∀ d ∈ p.documents, s.Sound t d)
    (held : ∀ p ∈ results, ∀ d ∈ p.documents, v.read d.location = .ok d.rawText) :
    Outcome.inTurn again v references = .done v (results.map Ancestry.calm) := by
  induction references generalizing x results with
  | nil =>
    cases done
    rfl
  | cons reference rest ih =>
    obtain ⟨p, more, worked, later, rfl, _⟩ := Outcome.inTurn_cons done
    obtain ⟨first, same⟩ := step x reference p calming worked (sound p List.mem_cons_self)
    have second := ih first.calming later (fun q member => sound q (List.mem_cons_of_mem _ member))
      fun q member => held q (List.mem_cons_of_mem _ member)
    rw [Outcome.inTurn, same (held p List.mem_cons_self), Outcome.andThen_done, second, Outcome.andThen_done]
    rfl

/-- A visit of files in which all documents of an ancestry are at rest finds it
again, at any time and with more fuel, and leaves the files alone. -/
theorem visit_again (roots : ∀ root ∈ s.search.roots, root.isAbsolute = true) (later : Instant)
    (grown : t.SameDirs v) {fuel more : Nat} (enough : fuel ≤ more) {above : List Location}
    {reference : Option String} (calming : s.Calming t x) (absolute : place.isAbsolute = true)
    (visited : (s.visit fuel x above reference place).result = .ok a) (sound : ∀ d ∈ a.documents, s.Sound t d)
    (held : ∀ d ∈ a.documents, v.read d.location = .ok d.rawText) :
    (s.atTime later).visit more v above reference place = .done v a.calm := by
  induction fuel generalizing x above reference place a more with
  | zero => cases visited
  | succ fuel ih =>
    obtain ⟨more, rfl⟩ : ∃ n, more = n + 1 := ⟨more - 1, by omega⟩
    obtain ⟨d, parents, loaded, done, rfl⟩ := visit_eq_ok visited
    have own := calming.leaves_load absolute loaded (sound d (by simp))
    obtain ⟨⟨there, _⟩, rest, _⟩ := own.rest d (by simp)
    have location := Document.location_of_load loaded
    have reload : Document.load (s.atTime later).policy (s.atTime later).now v place = .done v d.calm :=
      rest.load_eq (held d (by simp)) location.symm later
    have step : ∀ x r p, s.Calming t x →
        (s.visitParent fuel (above ++ [d.location]) d.location x r).result = .ok p →
        (∀ e ∈ p.documents, s.Sound t e) →
        s.Leaves t x (s.visitParent fuel (above ++ [d.location]) d.location x r).files p.documents ∧
          ((∀ e ∈ p.documents, v.read e.location = .ok e.rawText) →
            (s.atTime later).visitParent more (above ++ [d.location]) d.location v r =
              .done v p.calm) := by
      intro x r p calming worked sound
      obtain ⟨target, named, visited⟩ := visitParent_eq_ok worked
      obtain ⟨located, fresh, file⟩ := parent_eq_ok named
      have from_ := isAbsolute_of_locateReference roots there located
      rw [visitParent_of_parent named]
      refine ⟨calming.leaves_visit roots from_ visited sound, fun held => ?_⟩
      have found : locateReference s.search v r d.location = .ok target := by
        rw [grown.locateReference, ← calming.dirs.locateReference, located]
      have kept : v.isFile target = true := by
        rw [calming.shape.isFile] at file
        exact grown.isFile file
      have parent : (s.atTime later).parent v (above ++ [d.location]) d.location r =
          .ok target := by
        rw [parent_of_locate (s := s.atTime later) found kept, fresh]
        rfl
      rw [visitParent_of_parent parent]
      exact ih (by omega) calming from_ visited sound held
    have inside : ∀ p ∈ parents, ∀ e ∈ p.documents, e ∈ parents.flatMap Ancestry.documents ++ [d] :=
      fun p member e known => List.mem_append_left _ (List.mem_flatMap.mpr ⟨p, member, known⟩)
    have again := inTurn_again step own.calming done (fun p member e known => sound e (inside p member e known))
      fun p member e known => held e (inside p member e known)
    rw [visit_of_load_ok (by rw [reload, Outcome.result_done]), reload, Outcome.files_done]
    change Outcome.andThen (Outcome.inTurn ((s.atTime later).visitParent more (above ++ [d.location]) d.location) v
      d.parents) _ = _
    rw [again, Outcome.andThen_done]
    simp [Ancestry.calm, Document.calm, List.map_flatMap, List.flatMap_map, Function.comp_def]

variable {root : Location}

theorem leaves_ancestry (roots : ∀ root ∈ s.search.roots, root.isAbsolute = true)
    (absolute : root.isAbsolute = true) (resolved : (s.ancestry t root).result = .ok a)
    (sound : ∀ d ∈ a.documents, s.Sound t d) :
    s.Leaves t t (s.ancestry t root).files a.documents := by
  obtain ⟨_, visit⟩ := ancestry_eq_ok resolved
  rw [visit] at resolved ⊢
  exact (calming_refl s t).leaves_visit roots (Location.isAbsolute_normalize absolute) resolved sound

/-- Where all documents of an ancestry are at rest, it is found again at any time,
and the files are left alone. -/
theorem ancestry_again (roots : ∀ root ∈ s.search.roots, root.isAbsolute = true)
    (absolute : root.isAbsolute = true) (resolved : (s.ancestry t root).result = .ok a)
    (sound : ∀ d ∈ a.documents, s.Sound t d) (grown : t.SameDirs v)
    (held : ∀ d ∈ a.documents, v.read d.location = .ok d.rawText) (later : Instant) :
    (s.atTime later).ancestry v root = .done v a.calm := by
  obtain ⟨file, visit⟩ := ancestry_eq_ok resolved
  rw [visit] at resolved
  have enough : branchBound t ≤ branchBound v := by
    have size := Nat.mul_le_mul_left (FileTree.longestPlace + 3) grown.size
    unfold branchBound
    omega
  unfold ancestry
  dsimp only
  rw [if_pos (grown.isFile file)]
  exact visit_again roots later grown enough (calming_refl s t)
    (Location.isAbsolute_normalize absolute) resolved sound
    held

end Surroundings

end LayeredConfig
