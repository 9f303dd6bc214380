import LayeredConfig.Proofs.Ancestry.Termination
import LayeredConfig.Proofs.Document.Probe
import LayeredConfig.Proofs.FileTree.Canonical

namespace LayeredConfig

/-- A search is the same under two tests that agree on what is looked at: all before the first
that passes, and that one. -/
theorem find?_congr {α : Type} {p q : α → Bool} {items : List α}
    (same : ∀ a ∈ items.takeWhile (!p ·) ++ (items.find? p).toList, q a = p a) :
    items.find? q = items.find? p := by
  induction items with
  | nil => rfl
  | cons a rest ih =>
    cases passes : p a with
    | true =>
      have own : q a = true := (same a (by simp [passes])).trans passes
      simp [own, passes]
    | false =>
      have own : q a = false := (same a (by simp [passes])).trans passes
      have later : rest.find? q = rest.find? p := by
        refine ih fun b member => same b ?_
        simpa [passes] using Or.inr (List.mem_append.mp member)
      simp [own, passes, later]

namespace PackageSearch

/-- The directories that are tried for a package: the candidates up to the first that exists. -/
def tried (search : PackageSearch) (files : FileTree) (package : String) (dir : Location) : List Location :=
  let all := search.candidates package dir
  all.takeWhile (!files.isDir ·) ++ (all.find? (files.isDir ·)).toList

/-- The directories that are tried for a reference into a package; none if it is no such
reference or leads out of the package. -/
def triedFor (search : PackageSearch) (files : FileTree) (reference : String) (dir : Location) : List Location :=
  match PackageReference.ofText? reference with
  | none => []
  | some ⟨package, remainder⟩ =>
    let inside := Location.normalize ⟨remainder⟩
    if remainder = "" ∨ inside.isAbsolute ∨ inside.steps.head? = some .up then []
    else search.tried files package dir

variable {search : PackageSearch} {x y : FileTree} {reference package : String} {dir referrer : Location}

theorem locate_congr (same : ∀ l ∈ search.tried x package dir, y.isDir l = x.isDir l) :
    search.locate y package dir = search.locate x package dir := by
  unfold locate
  dsimp only
  rw [find?_congr same]

theorem target_congr (same : ∀ l ∈ search.triedFor x reference dir, y.isDir l = x.isDir l) :
    search.target y reference dir referrer = search.target x reference dir referrer := by
  unfold target
  cases cut : PackageReference.ofText? reference with
  | none => rfl
  | some r =>
    obtain ⟨package, remainder⟩ := r
    simp only [triedFor, cut] at same
    dsimp only
    by_cases empty : remainder = ""
    · rw [if_pos empty, if_pos empty]
    · rw [if_neg empty, if_neg empty]
      split
      · rfl
      · next inside =>
        rw [if_neg (by simpa [empty] using inside)] at same
        rw [locate_congr same]

end PackageSearch

/-- What is asked to find where a reference leads. -/
def referenceProbes (search : PackageSearch) (files : FileTree) (reference : String) (referrer : Location) :
    List Probe :=
  if reference.toList.head? = some '.' || (Location.mk reference).isAbsolute then []
  else (search.triedFor files reference referrer.dir).map .directory

theorem locateReference_congr {search : PackageSearch} {x y : FileTree} {reference : String} {referrer : Location}
    (agree : ∀ p ∈ referenceProbes search x reference referrer, p.Agrees x y) :
    locateReference search y reference referrer = locateReference search x reference referrer := by
  unfold locateReference
  dsimp only
  split
  · rfl
  · next packaged =>
    refine PackageSearch.target_congr fun l member => agree (.directory l) ?_
    rw [referenceProbes, if_neg packaged]
    exact List.mem_map_of_mem member

/-- What work in turn asks, each piece of work on the files the one before left, up to the
first fault. -/
def Outcome.asked {α β γ : Type} (work : FileTree → α → Outcome β) (ask : FileTree → α → List γ) :
    FileTree → List α → List γ
  | _, [] => []
  | files, a :: rest =>
    ask files a ++ (work files a).result.toOption.elim [] fun _ => asked work ask (work files a).files rest

namespace Surroundings

/-- What is asked to find a parent: where the reference leads, and whether there is a file
unless the place is one of the branch. -/
def parentProbes (s : Surroundings) (files : FileTree) (branch : List Location) (referrer : Location)
    (reference : String) : List Probe :=
  referenceProbes s.search files reference referrer ++
    (locateReference s.search files reference referrer).toOption.elim [] fun target =>
      if branch.any (·.same target) then [] else [.file target]

/-- What a visit asks: the text of the document, then what its parents ask in turn. -/
def visitProbes (s : Surroundings) (fuel : Nat) (files : FileTree) (above : List Location) (place : Location) :
    List Probe :=
  match fuel with
  | 0 => []
  | fuel + 1 =>
    .text place.normalize :: (Document.load s.policy s.now files place).result.toOption.elim [] fun d =>
      let branch := above ++ [d.location]
      let ask (files : FileTree) (named : String) : List Probe :=
        s.parentProbes files branch d.location named ++
          (s.parent files branch d.location named).toOption.elim [] (visitProbes s fuel files branch)
      Outcome.asked (s.visitParent fuel branch d.location) ask (Document.load s.policy s.now files place).files
        d.parents

/-- What the visit of a parent asks, to find it and below it. -/
def visitParentProbes (s : Surroundings) (fuel : Nat) (branch : List Location) (referrer : Location)
    (files : FileTree) (reference : String) : List Probe :=
  s.parentProbes files branch referrer reference ++
    (s.parent files branch referrer reference).toOption.elim [] (s.visitProbes fuel files branch)

/-- What the ancestry of the document at a place asks. -/
def ancestryProbes (s : Surroundings) (files : FileTree) (place : Location) : List Probe :=
  .file place.normalize ::
    if files.isFile place.normalize then s.visitProbes (branchBound files) files [] place.normalize else []

end Surroundings

namespace Outcome

variable {α β : Type} {work other : FileTree → α → Outcome β} {ask : FileTree → α → List Probe}

theorem asked_of_error {a : α} {rest : List α} {x : FileTree} {fault : Fault}
    (failed : (work x a).result = .error fault) : asked work ask x (a :: rest) = ask x a := by
  simp [asked, failed, Except.toOption]

theorem asked_of_ok {a : α} {rest : List α} {x : FileTree} {b : β} (worked : (work x a).result = .ok b) :
    asked work ask x (a :: rest) = ask x a ++ asked work ask (work x a).files rest := by
  simp [asked, worked, Except.toOption]

theorem placed_of_mem_asked (placed : ∀ x a, ∀ p ∈ ask x a, p.Placed) {items : List α} {x : FileTree} {p : Probe}
    (member : p ∈ asked work ask x items) : p.Placed := by
  induction items generalizing x with
  | nil => cases member
  | cons a rest ih =>
    rcases List.mem_append.mp member with own | later
    · exact placed x a p own
    · obtain ⟨_, _, inside⟩ := mem_toOption_elim.mp later
      exact ih inside

/-- Work in turn is mirrored when each piece of work is. -/
theorem inTurn_mirrors {KeepT KeepU : FileTree → Prop} (stepT : ∀ x a, KeepT x → KeepT (work x a).files)
    (stepU : ∀ y a, KeepU y → KeepU (other y a).files) (placed : ∀ x a, ∀ p ∈ ask x a, p.Placed)
    (each : ∀ x y a, KeepT x → KeepU y → (∀ p ∈ ask x a, p.Agrees x y) → Mirrors x y (work x a) (other y a))
    {items : List α} {x y : FileTree} (startT : KeepT x) (startU : KeepU y)
    (agree : ∀ p ∈ asked work ask x items, p.Agrees x y) :
    Mirrors x y (inTurn work x items) (inTurn other y items) := by
  induction items generalizing x y with
  | nil => exact .done x y []
  | cons a rest ih =>
    have first := each x y a startT startU fun p member => agree p (List.mem_append_left _ member)
    rw [inTurn, inTurn]
    refine first.andThen fun b worked => ?_
    have later : ∀ p ∈ asked work ask (work x a).files rest, p.Agrees (work x a).files (other y a).files := by
      intro p member
      exact first.keeps p (placed_of_mem_asked placed member)
        (agree p (asked_of_ok worked ▸ List.mem_append_right _ member))
    exact (ih (stepT x a startT) (stepU y a startU) later).andThen fun bs _ => .done _ _ _

end Outcome

namespace Surroundings

variable {s : Surroundings} {fuel : Nat} {t u x y : FileTree} {above branch : List Location}
  {reference : Option String} {place referrer : Location} {named : String} {d : Document}

theorem visitProbes_of_load_error {fault : Fault}
    (failed : (Document.load s.policy s.now x place).result = .error fault) :
    s.visitProbes (fuel + 1) x above place = [.text place.normalize] := by
  rw [visitProbes, failed]
  rfl

theorem visitProbes_of_load_ok (loaded : (Document.load s.policy s.now x place).result = .ok d) :
    s.visitProbes (fuel + 1) x above place = .text place.normalize ::
      Outcome.asked (s.visitParent fuel (above ++ [d.location]) d.location)
        (s.visitParentProbes fuel (above ++ [d.location]) d.location) (Document.load s.policy s.now x place).files
        d.parents := by
  rw [visitProbes, loaded]
  rfl

theorem text_mem_visitProbes : .text place.normalize ∈ s.visitProbes (fuel + 1) x above place := by
  rw [visitProbes]
  exact List.mem_cons_self

/-- To find a parent no text is asked for. -/
theorem text?_of_mem_parentProbes {p : Probe} (member : p ∈ s.parentProbes x branch referrer named) :
    p.text? = none := by
  rcases List.mem_append.mp member with tried | file
  · unfold referenceProbes at tried
    split at tried
    · cases tried
    · obtain ⟨l, _, rfl⟩ := List.mem_map.mp tried
      rfl
  · obtain ⟨target, _, asked⟩ := mem_toOption_elim.mp file
    split at asked
    · cases asked
    · rw [List.mem_singleton.mp asked]
      rfl

theorem placed_of_mem_visitParentProbes (roots : ∀ r ∈ s.search.roots, r.isAbsolute = true)
    (absolute : referrer.isAbsolute = true)
    (deeper : ∀ target : Location, target.isAbsolute = true → ∀ p ∈ s.visitProbes fuel x branch target, p.Placed)
    {p : Probe} (member : p ∈ s.visitParentProbes fuel branch referrer x named) : p.Placed := by
  rcases List.mem_append.mp member with finding | below
  · exact .of_text? (text?_of_mem_parentProbes finding)
  · obtain ⟨target, found, inside⟩ := mem_toOption_elim.mp below
    exact deeper target (isAbsolute_of_locateReference roots absolute (parent_eq_ok found).1) p inside

theorem placed_of_mem_visitProbes (roots : ∀ r ∈ s.search.roots, r.isAbsolute = true)
    (absolute : place.isAbsolute = true) {p : Probe} (member : p ∈ s.visitProbes fuel x above place) :
    p.Placed := by
  induction fuel generalizing x above place p with
  | zero => cases member
  | succ fuel ih =>
    have own : (Probe.text place.normalize).Placed :=
      ⟨Location.isAbsolute_normalize absolute, place.normalize_normalize⟩
    cases loaded : (Document.load s.policy s.now x place).result with
    | error fault =>
      rw [visitProbes_of_load_error loaded] at member
      rwa [List.mem_singleton.mp member]
    | ok d =>
      rw [visitProbes_of_load_ok loaded] at member
      rcases List.mem_cons.mp member with rfl | asked
      · exact own
      · have anchored : d.location.isAbsolute = true := Document.location_of_load loaded ▸ own.1
        refine Outcome.placed_of_mem_asked (fun y named q inside => ?_) asked
        exact placed_of_mem_visitParentProbes roots anchored (fun target rooted q below => ih rooted below) inside

/-- A parent is found the same where the questions about it have the same answers. -/
theorem parent_congr (agree : ∀ p ∈ s.parentProbes x branch referrer named, p.Agrees x y) :
    s.parent y branch referrer named = s.parent x branch referrer named := by
  have leads := locateReference_congr fun p member => agree p (List.mem_append_left _ member)
  unfold parent
  rw [leads]
  cases located : locateReference s.search x named referrer with
  | error fault => rfl
  | ok target =>
    simp only [bind, Except.bind]
    split
    · rfl
    · next fresh =>
      have file : y.isFile target = x.isFile target := by
        refine agree (.file target) (List.mem_append_right _ (mem_toOption_elim.mpr ⟨target, located, ?_⟩))
        rw [if_neg fresh]
        exact List.mem_singleton_self _
      rw [file]

/-- The place of a fresh turn is a file also in canonical form, so that its document is loaded
alike where its text is the same. -/
theorem Turn.Fresh.load_mirrors (freshT : Turn.Fresh t ⟨above, place⟩) (freshU : Turn.Fresh u ⟨above, place⟩)
    (shapeT : t.SameShape x) (shapeU : u.SameShape y) (own : (Probe.text place.normalize).Agrees x y) :
    Outcome.Mirrors x y (Document.load s.policy s.now x place) (Document.load s.policy s.now y place) := by
  have last : place ∈ (Turn.mk above place).branch := by simp [Turn.branch]
  obtain ⟨absolute, canonical⟩ := freshT.canonical place last
  have fileT := FileTree.isFile_normalize absolute canonical (freshT.files place last)
  have fileU := FileTree.isFile_normalize absolute canonical (freshU.files place last)
  exact Document.load_mirrors absolute ((shapeT.isFile _).trans fileT) ((shapeU.isFile _).trans fileU) own

/-- The visit of a parent is mirrored when the visit below it is. -/
theorem visitParent_mirrors {n m : Nat} (agree : ∀ p ∈ s.visitParentProbes n branch referrer x named, p.Agrees x y)
    (deeper : ∀ target, s.parent x branch referrer named = .ok target →
      s.parent y branch referrer named = .ok target → (∀ p ∈ s.visitProbes n x branch target, p.Agrees x y) →
      Outcome.Mirrors x y (s.visit n x branch (some named) target) (s.visit m y branch (some named) target)) :
    Outcome.Mirrors x y (s.visitParent n branch referrer x named) (s.visitParent m branch referrer y named) := by
  have same := parent_congr fun p member => agree p (List.mem_append_left _ member)
  cases found : s.parent x branch referrer named with
  | error fault =>
    rw [visitParent_of_parent_error found, visitParent_of_parent_error (same.trans found)]
    exact .failed x y fault
  | ok target =>
    rw [visitParent_of_parent found, visitParent_of_parent (same.trans found)]
    refine deeper target found (same.trans found) fun p member => agree p ?_
    exact List.mem_append_right _ (mem_toOption_elim.mpr ⟨target, found, member⟩)

/-- A visit on two trees that agree on all it asks on the first. There is fuel left on both,
since a fresh branch leaves room for one more place. -/
theorem visit_mirrors (roots : ∀ r ∈ s.search.roots, r.isAbsolute = true) {n m : Nat}
    (leftT : n + above.length = branchBound t) (leftU : m + above.length = branchBound u)
    (freshT : Turn.Fresh t ⟨above, place⟩) (freshU : Turn.Fresh u ⟨above, place⟩) (shapeT : t.SameShape x)
    (shapeU : u.SameShape y) (agree : ∀ p ∈ s.visitProbes n x above place, p.Agrees x y) :
    Outcome.Mirrors x y (s.visit n x above reference place) (s.visit m y above reference place) := by
  induction n generalizing m x y above reference place with
  | zero => exact absurd (by simpa using leftT) freshT.length_ne
  | succ n ih =>
    cases m with
    | zero => exact absurd (by simpa using leftU) freshU.length_ne
    | succ m =>
      have load := freshT.load_mirrors (s := s) freshU shapeT shapeU (agree _ text_mem_visitProbes)
      rw [visit, visit]
      refine load.andThen fun d loaded => ?_
      rw [visitProbes_of_load_ok loaded] at agree
      have anchored : d.location.isAbsolute = true := by
        rw [Document.location_of_load loaded]
        exact Location.isAbsolute_normalize (freshT.canonical place (by simp [Turn.branch])).1
      have deeper : above.length + 1 = (above ++ [d.location]).length := by simp
      have placed : ∀ z named, ∀ p ∈ s.visitParentProbes n (above ++ [d.location]) d.location z named, p.Placed :=
        fun z named p member => placed_of_mem_visitParentProbes roots anchored
          (fun target rooted q below => placed_of_mem_visitProbes roots rooted below) member
      have each : ∀ z w named, t.SameShape z → u.SameShape w →
          (∀ p ∈ s.visitParentProbes n (above ++ [d.location]) d.location z named, p.Agrees z w) →
          Outcome.Mirrors z w (s.visitParent n (above ++ [d.location]) d.location z named)
            (s.visitParent m (above ++ [d.location]) d.location w named) :=
        fun z w named keptT keptU agree => visitParent_mirrors agree fun target found again below =>
          ih (by omega) (by omega) (freshT.deeper roots shapeT keptT loaded found)
            (freshU.deeper roots shapeU keptU (load.result.trans loaded) again) keptT keptU below
      have parents := Outcome.inTurn_mirrors (fun z named kept =>
        kept.trans (s.sameShape_visitParent n _ _ z named))
        (fun z named kept => kept.trans (s.sameShape_visitParent m _ _ z named)) placed each
        (shapeT.trans (Document.sameShape_load s.policy s.now x place))
        (shapeU.trans (Document.sameShape_load s.policy s.now y place))
        fun p member => load.keeps p (Outcome.placed_of_mem_asked placed member)
          (agree p (List.mem_cons_of_mem _ member))
      exact parents.andThen fun _ _ => .done _ _ _

theorem ancestry_mirrors (roots : ∀ r ∈ s.search.roots, r.isAbsolute = true) (absolute : place.isAbsolute = true)
    (agree : ∀ p ∈ s.ancestryProbes t place, p.Agrees t u) :
    Outcome.Mirrors t u (s.ancestry t place) (s.ancestry u place) := by
  have file : u.isFile place.normalize = t.isFile place.normalize := agree (.file _) List.mem_cons_self
  unfold ancestry
  dsimp only
  rw [file]
  split
  · next found =>
    rw [ancestryProbes, if_pos found] at agree
    exact visit_mirrors roots rfl rfl (Turn.fresh_root absolute found)
      (Turn.fresh_root absolute (file.trans found))
      (.refl t) (.refl u) fun p member => agree p (List.mem_cons_of_mem _ member)
  · exact .failed t u _

theorem placed_of_mem_ancestryProbes (roots : ∀ r ∈ s.search.roots, r.isAbsolute = true)
    (absolute : place.isAbsolute = true) {p : Probe} (member : p ∈ s.ancestryProbes t place) : p.Placed := by
  rcases List.mem_cons.mp member with rfl | visited
  · trivial
  · split at visited
    · exact placed_of_mem_visitProbes roots (Location.isAbsolute_normalize absolute) visited
    · cases visited

/-- The places whose texts are asked for when turns are taken: those of the documents loaded. -/
def Turn.texts (turns : List Turn) : List Location :=
  turns.map fun turn => turn.place.normalize

theorem texts_parentProbes : (s.parentProbes x branch referrer named).filterMap Probe.text? = [] :=
  List.filterMap_eq_nil_iff.mpr fun _ => text?_of_mem_parentProbes

theorem texts_visitParentProbes {target : Location} (found : s.parent x branch referrer named = .ok target) :
    (s.visitParentProbes fuel branch referrer x named).filterMap Probe.text? =
      (s.visitProbes fuel x branch target).filterMap Probe.text? := by
  rw [visitParentProbes, List.filterMap_append, texts_parentProbes, found]
  rfl

theorem Walk.eq_visit (roots : ∀ r ∈ s.search.roots, r.isAbsolute = true)
    (left : fuel + above.length = branchBound t) (fresh : Turn.Fresh t ⟨above, place⟩) (shape : t.SameShape x)
    {turns : List Turn} {o : Outcome Ancestry} (walk : s.Walk x above reference place turns o) :
    o = s.visit fuel x above reference place := by
  obtain ⟨others, own, _⟩ := exists_walk roots left fresh shape
  exact (walk.unique own).2

theorem WalkAll.texts {branch : List Location}
    (each : ∀ y, t.SameShape y → ∀ named target, s.parent y branch referrer named = .ok target →
      ∀ turns o, s.Walk y branch (some named) target turns o →
        o = s.visit fuel y branch (some named) target ∧
          (s.visitProbes fuel y branch target).filterMap Probe.text? = Turn.texts turns)
    {references : List String} (shape : t.SameShape x) {turns : List Turn} {o : Outcome (List Ancestry)}
    (walk : s.WalkAll x branch referrer references turns o) :
    (Outcome.asked (s.visitParent fuel branch referrer) (s.visitParentProbes fuel branch referrer) x
      references).filterMap Probe.text? = Turn.texts turns := by
  induction references generalizing x turns o with
  | nil =>
    cases walk
    rfl
  | cons named rest ih =>
    cases walk with
    | refused refused =>
      rw [Outcome.asked_of_error (by rw [visitParent_of_parent_error refused]; rfl), visitParentProbes,
        List.filterMap_append, texts_parentProbes, refused]
      rfl
    | failed found walk stopped =>
      obtain ⟨rfl, texts⟩ := each x shape named _ found _ _ walk
      rw [Outcome.asked_of_error (by rw [visitParent_of_parent found]; exact stopped),
        texts_visitParentProbes found, texts]
    | next found walk ok more =>
      obtain ⟨rfl, texts⟩ := each x shape named _ found _ _ walk
      have later := ih (shape.trans (s.sameShape_visit fuel x branch _ _)) more
      rw [Outcome.asked_of_ok (by rw [visitParent_of_parent found]; exact ok), List.filterMap_append,
        texts_visitParentProbes found, texts, visitParent_of_parent found, later,
        Turn.texts, Turn.texts, Turn.texts, List.map_append]

/-- The texts that a visit asks for are those of the documents its walk loads. -/
theorem Walk.texts (roots : ∀ r ∈ s.search.roots, r.isAbsolute = true)
    (left : fuel + above.length = branchBound t) (fresh : Turn.Fresh t ⟨above, place⟩) (shape : t.SameShape x)
    {turns : List Turn} {o : Outcome Ancestry} (walk : s.Walk x above reference place turns o) :
    (s.visitProbes fuel x above place).filterMap Probe.text? = Turn.texts turns := by
  induction fuel generalizing x above reference place turns o with
  | zero => exact absurd (by simpa using left) fresh.length_ne
  | succ fuel ih =>
    cases walk with
    | unloaded failed =>
      rw [visitProbes_of_load_error failed]
      rfl
    | @loaded _ _ _ _ d _ _ loaded walk =>
      have room : fuel + (above ++ [d.location]).length = branchBound t := by
        rw [List.length_append, List.length_singleton]
        omega
      have parents := walk.texts (fun y kept named target found turns o walk =>
        have deeper := fresh.deeper roots shape kept loaded found
        ⟨walk.eq_visit roots room deeper kept, ih room deeper kept walk⟩)
        (shape.trans (Document.sameShape_load s.policy s.now x place))
      rw [visitProbes_of_load_ok loaded]
      exact congrArg (place.normalize :: ·) parents

/-- An ancestry asks for the texts of the documents that its run loads, in this order. -/
theorem Runs.texts (roots : ∀ r ∈ s.search.roots, r.isAbsolute = true) (absolute : place.isAbsolute = true)
    {turns : List Turn} {o : Outcome Ancestry} (run : s.Runs t place turns o) :
    (s.ancestryProbes t place).filterMap Probe.text? = Turn.texts turns := by
  rw [ancestryProbes, List.filterMap_cons_none rfl]
  cases run with
  | missing none_ =>
    rw [if_neg (by simp [none_])]
    rfl
  | found file walk =>
    rw [if_pos file]
    exact walk.texts roots rfl (Turn.fresh_root absolute file) (.refl t)

end Surroundings

end LayeredConfig
