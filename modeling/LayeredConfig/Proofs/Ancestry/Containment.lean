import LayeredConfig.Proofs.Ancestry.Package
import LayeredConfig.Proofs.Ancestry.PackageName
import LayeredConfig.Proofs.Location.Descent
import LayeredConfig.Proofs.Outcome

namespace LayeredConfig

open Location

namespace PackageReference

/-- The segments that name the package of a reference. -/
def segments (reference : String) : List String :=
  ((pieces '/' reference.toList).take (nameLength reference)).map String.ofList

variable {reference : String} {r : PackageReference}

theorem of_ofText?_eq_some (cut : ofText? reference = some r) :
    r.package.toList = joinWith '/' ((segments reference).map String.toList) ∧
      (∀ s ∈ segments reference, s ≠ "" ∧ '/' ∉ s.toList) ∧
      (segments reference).length = nameLength reference := by
  obtain ⟨name, behind, parts, length, rfl⟩ := ofText?_eq_some cut
  have taken : segments reference = name.map String.ofList := by
    rw [segments, parts, List.take_left' length]
  rw [taken]
  refine ⟨by simp [Function.comp_def], ?_, by rw [List.length_map, length]⟩
  intro s member
  obtain ⟨part, known, rfl⟩ := List.mem_map.mp member
  have own := ne_nil_of_mem_name cut parts length known
  have free := not_mem_of_mem_pieces (parts ▸ List.mem_append_left behind known)
  exact ⟨by simpa using own, by simpa using free⟩

theorem pieces_package (cut : ofText? reference = some r) :
    pieces '/' r.package.toList = (segments reference).map String.toList := by
  obtain ⟨package, named, count⟩ := of_ofText?_eq_some cut
  rw [package, pieces_joinWith]
  · intro none_
    rw [List.map_eq_nil_iff.mp none_, nameLength] at count
    split at count <;> cases count
  · intro part member
    obtain ⟨s, known, rfl⟩ := List.mem_map.mp member
    exact (named s known).2

theorem head?_of_pieces {cs part : List Char} {c : Char} (cut : (pieces '/' cs).head? = some (c :: part)) :
    cs.head? = some c := by
  obtain ⟨rest, parts⟩ := List.head?_eq_some_iff.mp cut
  have joined := joinWith_pieces '/' cs
  rw [parts] at joined
  rw [← joined]
  cases rest <;> rfl

/-- A reference opens with the first segment of the name of its package. -/
theorem segments_cases (cut : ofText? reference = some r) :
    ∃ first, first ≠ "" ∧ first.toList.head? = reference.toList.head? ∧
      (segments reference = [first] ∨
        ∃ second, second ≠ "" ∧ reference.toList.head? = some '@' ∧ segments reference = [first, second]) := by
  obtain ⟨-, named, count⟩ := of_ofText?_eq_some cut
  have opens : ∀ part, (pieces '/' reference.toList).head? = some part → String.ofList part ≠ "" →
      (String.ofList part).toList.head? = reference.toList.head? := by
    intro part front some_
    cases part with
    | nil => exact absurd rfl some_
    | cons c more => simp [head?_of_pieces front]
  unfold segments at named count ⊢
  generalize parts : pieces '/' reference.toList = cut_ at opens named count ⊢
  by_cases at_ : reference.toList.head? = some '@'
  · simp only [nameLength, at_, if_true] at named count ⊢
    match cut_, named, count, opens with
    | first :: second :: rest, named, _, opens =>
      have own := (named (String.ofList first) (by simp)).1
      have other := (named (String.ofList second) (by simp)).1
      exact ⟨String.ofList first, own, at_ ▸ opens first rfl own,
        Or.inr ⟨String.ofList second, other, trivial, rfl⟩⟩
  · simp only [nameLength, at_, if_false] at named count ⊢
    match cut_, named, count, opens with
    | first :: rest, named, _, opens =>
      have own := (named (String.ofList first) (by simp)).1
      exact ⟨String.ofList first, own, opens first rfl own, Or.inl rfl⟩

theorem opening_package (cut : ofText? reference = some r) (packaged : reference.toList.head? ≠ some '.') :
    opening r.package.toList = [] := by
  obtain ⟨first, some_, head, parts⟩ := segments_cases cut
  have front : (pieces '/' r.package.toList).head? = some first.toList := by
    rw [pieces_package cut]
    rcases parts with one | ⟨second, _, _, two⟩
    · rw [one]
      rfl
    · rw [two]
      rfl
  have noSlash : r.package.toList.head? ≠ some '/' := by
    intro slash
    obtain ⟨rest, written⟩ := List.head?_eq_some_iff.mp slash
    rw [written, pieces, if_pos rfl, List.head?_cons, Option.some.injEq] at front
    exact some_ (String.toList_inj.mp front.symm)
  have noDot : first.toList ≠ ['.'] := by
    intro same
    rw [same] at head
    exact packaged head.symm
  simp [opening, noSlash, front, noDot]

/-- Only the second segment of the name of a package may be dots. -/
theorem spelled_package (cut : ofText? reference = some r) (packaged : reference.toList.head? ≠ some '.') :
    ∃ first, first ≠ "." ∧ first ≠ ".." ∧
      ((segments reference = [first] ∧ spelled r.package.toList = [.name first]) ∨
        ∃ second, segments reference = [first, second] ∧
          ((second = "." ∧ spelled r.package.toList = [.name first]) ∨
            (second = ".." ∧ spelled r.package.toList = [.name first, .up]) ∨
            (second ≠ "." ∧ second ≠ ".." ∧ spelled r.package.toList = [.name first, .name second]))) := by
  obtain ⟨first, some_, head, parts⟩ := segments_cases cut
  have noDot : ∀ tail, first.toList ≠ '.' :: tail := by
    intro tail same
    rw [same] at head
    exact packaged head.symm
  have notHere : first ≠ "." := fun same => noDot [] (by rw [same]; rfl)
  have notUp : first ≠ ".." := fun same => noDot ['.'] (by rw [same]; rfl)
  have own := partSteps_of_name some_ notHere notUp
  refine ⟨first, notHere, notUp, ?_⟩
  rw [spelled_eq_flatMap, pieces_package cut]
  rcases parts with one | ⟨second, filled, _, two⟩
  · exact Or.inl ⟨one, by simp [one, own]⟩
  · refine Or.inr ⟨second, two, ?_⟩
    have both : ((segments reference).map String.toList).flatMap partSteps =
        .name first :: partSteps second.toList := by
      simp [two, own]
    rw [both]
    by_cases here : second = "."
    · subst here
      exact Or.inl ⟨rfl, rfl⟩
    · by_cases up : second = ".."
      · subst up
        exact Or.inr (Or.inl ⟨rfl, rfl⟩)
      · exact Or.inr (Or.inr ⟨here, up, by rw [partSteps_of_name filled here up]⟩)

theorem relative_package (cut : ofText? reference = some r) (packaged : reference.toList.head? ≠ some '.') :
    r.package.toList.head? ≠ some '/' := by
  intro slash
  have start := opening_package cut packaged
  simp [opening, slash] at start

theorem inner_package (cut : ofText? reference = some r) (packaged : reference.toList.head? ≠ some '.') :
    inner ⟨r.package⟩ = ((spelled r.package.toList).foldl settle []).reverse := by
  rw [inner_eq, settledSteps_of_relative (relative_package cut packaged)]

theorem up_not_mem_inner_package (cut : ofText? reference = some r)
    (packaged : reference.toList.head? ≠ some '.') :
    .up ∉ inner ⟨r.package⟩ := by
  rw [inner_package cut packaged]
  obtain ⟨first, _, _, ⟨_, one⟩ | ⟨second, _, ⟨_, one⟩ | ⟨_, back⟩ | ⟨_, _, two⟩⟩⟩ := spelled_package cut packaged
  · simp [one, settle]
  · simp [one, settle]
  · simp [back, settle]
  · simp [two, settle]

theorem inner_package_of_no_dots (cut : ofText? reference = some r) (packaged : reference.toList.head? ≠ some '.')
    (noHere : "." ∉ segments reference) (noUp : ".." ∉ segments reference) :
    inner ⟨r.package⟩ = (segments reference).map .name := by
  rw [inner_package cut packaged]
  obtain ⟨first, _, _, ⟨own, one⟩ | ⟨second, own, ⟨rfl, _⟩ | ⟨rfl, _⟩ | ⟨_, _, two⟩⟩⟩ :=
    spelled_package cut packaged
  · simp [own, one, settle]
  · simp [own] at noHere
  · simp [own] at noUp
  · simp [own, two, settle]

end PackageReference

namespace PackageSearch

variable {search : PackageSearch} {files : FileTree} {reference : String} {dir referrer target : Location}

/-- The target is a holder of packages, then the name of the package and the way
inside it, each with its own dots settled. -/
theorem settledSteps_target (roots : ∀ root ∈ search.roots, root.isAbsolute = true)
    (absolute : dir.isAbsolute = true) (packaged : reference.toList.head? ≠ some '.')
    (located : search.target files reference dir referrer = .ok target) :
    ∃ r, PackageReference.ofText? reference = some r ∧ .up ∉ inner ⟨r.remainder⟩ ∧
      ∃ root ∈ search.holders dir,
        target.settledSteps.reverse = root.settledSteps.reverse ++ inner ⟨r.package⟩ ++ inner ⟨r.remainder⟩ := by
  obtain ⟨r, found, cut, relative, down, installed, rfl⟩ := target_eq_ok located
  obtain ⟨root, member, rfl⟩ := of_locate_eq_ok installed
  have rooted := isAbsolute_of_mem_holders roots absolute member
  have named := settledSteps_join rooted (PackageReference.relative_package cut packaged)
    (PackageReference.up_not_mem_inner_package cut packaged)
  have inside := up_not_mem_inner relative down
  have below : (Location.normalize ⟨r.remainder⟩).text.toList.head? ≠ some '/' := by
    simpa [isAbsolute] using relative
  have whole := settledSteps_join (isAbsolute_normalize (isAbsolute_join rooted r.package)) below
    (by simpa using inside : .up ∉ inner (Location.normalize ⟨r.remainder⟩))
  refine ⟨r, cut, inside, root, member, ?_⟩
  have way : inner ⟨(Location.normalize ⟨r.remainder⟩).text⟩ = inner ⟨r.remainder⟩ := inner_normalize ⟨r.remainder⟩
  rw [whole, settledSteps_normalize, named, way]
  simp

end PackageSearch

/-- Below one of the holders of packages, the named package, then the way inside it. -/
def StaysInPackage (search : PackageSearch) (reference : String) (dir target : Location) : Prop :=
  ∃ r, PackageReference.ofText? reference = some r ∧ .up ∉ inner ⟨r.remainder⟩ ∧
    ∃ root ∈ search.holders dir, target.normalize.steps =
      root.normalize.steps ++ (PackageReference.segments reference).map .name ++ inner ⟨r.remainder⟩

/-- A reference into a package stays below a holder of packages. It stays in the
package exactly when the name of the package has no dots for a segment. -/
theorem locateReference_staysInPackage_iff {search : PackageSearch} {files : FileTree} {reference : String}
    {referrer target : Location} (roots : ∀ root ∈ search.roots, root.isAbsolute = true)
    (absolute : referrer.isAbsolute = true) (packaged : reference.toList.head? ≠ some '.')
    (relative : isAbsolute ⟨reference⟩ = false)
    (located : locateReference search files reference referrer = .ok target) :
    (∃ r, PackageReference.ofText? reference = some r ∧ .up ∉ inner ⟨r.package⟩ ++ inner ⟨r.remainder⟩ ∧
      ∃ root ∈ search.holders referrer.dir,
        target.normalize.steps = root.normalize.steps ++ (inner ⟨r.package⟩ ++ inner ⟨r.remainder⟩)) ∧
      (StaysInPackage search reference referrer.dir target ↔
        "." ∉ PackageReference.segments reference ∧ ".." ∉ PackageReference.segments reference) := by
  have inPackage : search.target files reference referrer.dir referrer = .ok target := by
    unfold locateReference at located
    simpa [packaged, relative] using located
  have dir := isAbsolute_dir absolute
  obtain ⟨r, cut, inside, root, member, steps⟩ := PackageSearch.settledSteps_target roots dir packaged inPackage
  have own := steps_normalize_of_isAbsolute (PackageSearch.isAbsolute_of_target roots dir inPackage)
  have above := steps_normalize_of_isAbsolute (PackageSearch.isAbsolute_of_mem_holders roots dir member)
  have below := PackageReference.up_not_mem_inner_package cut packaged
  refine ⟨⟨r, cut, by simp [below, inside], root, member, by rw [own, above, steps, List.append_assoc]⟩, ?_, ?_⟩
  · -- a canonical place has no dots for names
    rintro ⟨_, _, _, _, _, named⟩
    have valid : ∀ s ∈ PackageReference.segments reference, IsName s := by
      intro s known
      refine target.settledSteps_settled.isName (List.mem_reverse.mp ?_)
      rw [← own, named]
      simp [known]
    exact ⟨fun here => not_isName_here (valid "." here), fun up => not_isName_up (valid ".." up)⟩
  · rintro ⟨noHere, noUp⟩
    have name := PackageReference.inner_package_of_no_dots cut packaged noHere noUp
    exact ⟨r, cut, inside, root, member, by rw [own, above, steps, name]⟩

/-- A scoped package in a directory of the workspace. -/
def scopedPackage : FileTree :=
  ⟨[(["ws"], .directory), (["ws", "node_modules"], .directory), (["ws", "node_modules", "@acme"], .directory),
    (["ws", "node_modules", "@acme", "config"], .directory)], []⟩

theorem staysInPackage_inner_up :
    locateReference ⟨["node_modules"], []⟩ scopedPackage "@acme/config/parts/../base.yaml" ⟨"/ws/a.yaml"⟩ =
        .ok ⟨"/ws/node_modules/@acme/config/base.yaml"⟩ ∧
      StaysInPackage ⟨["node_modules"], []⟩ "@acme/config/parts/../base.yaml" (dir ⟨"/ws/a.yaml"⟩)
        ⟨"/ws/node_modules/@acme/config/base.yaml"⟩ := by
  have located : locateReference ⟨["node_modules"], []⟩ scopedPackage "@acme/config/parts/../base.yaml"
      ⟨"/ws/a.yaml"⟩ = .ok ⟨"/ws/node_modules/@acme/config/base.yaml"⟩ :=
    eq_ok_of_toOption (by decide +kernel)
  have law := locateReference_staysInPackage_iff (by simp) (by decide) (by decide) (by decide) located
  exact ⟨located, law.2.mpr (by decide)⟩

theorem not_staysInPackage_up_for_name :
    ¬∀ (search : PackageSearch) (files : FileTree) (reference : String) (referrer target : Location),
      (∀ root ∈ search.roots, root.isAbsolute = true) → referrer.isAbsolute = true →
      reference.toList.head? ≠ some '.' → isAbsolute ⟨reference⟩ = false →
      locateReference search files reference referrer = .ok target →
      StaysInPackage search reference referrer.dir target := by
  intro claim
  obtain ⟨_, _, _, root, _, steps⟩ := claim ⟨["node_modules"], []⟩ scopedPackage "@acme/../secret/leak.yaml"
    ⟨"/ws/a.yaml"⟩ ⟨"/ws/node_modules/secret/leak.yaml"⟩ (by simp) (by decide) (by decide) (by decide)
    (eq_ok_of_toOption (by decide +kernel))
  have second : .name ".." ∈ (PackageReference.segments "@acme/../secret/leak.yaml").map Step.name := by decide
  have kept : .name ".." ∈ (Location.normalize ⟨"/ws/node_modules/secret/leak.yaml"⟩).steps := by
    rw [steps]
    simp [second]
  exact absurd kept (by decide)

end LayeredConfig
