import LayeredConfig.Ancestry.Package
import LayeredConfig.Proofs.Location.Absolute

namespace LayeredConfig

namespace PackageSearch

/-- The directories that hold packages, in the order they are tried. -/
def holders (search : PackageSearch) (dir : Location) : List Location :=
  search.roots ++ dir.ancestors.flatMap fun above => search.dirNames.map (above.join ·)

theorem candidates_eq (search : PackageSearch) (package : String) (dir : Location) :
    search.candidates package dir = (search.holders dir).map (·.join package) := by
  simp [candidates, holders, List.map_flatMap, Function.comp_def]

variable {search : PackageSearch} {files : FileTree} {reference : String} {dir referrer target : Location}

theorem target_eq_ok (located : search.target files reference dir referrer = .ok target) :
    ∃ r found, PackageReference.ofText? reference = some r ∧
      (Location.normalize ⟨r.remainder⟩).isAbsolute = false ∧
        (Location.normalize ⟨r.remainder⟩).steps.head? ≠ some .up ∧
      search.locate files r.package dir = .ok found ∧
        target = found.join (Location.normalize ⟨r.remainder⟩).text := by
  unfold PackageSearch.target at located
  cases cut : PackageReference.ofText? reference with
  | none => simp [cut] at located
  | some r =>
    simp only [cut] at located
    split at located
    · cases located
    · split at located
      · cases located
      · next inside =>
        cases installed : search.locate files r.package dir with
        | error tried => simp [installed] at located
        | ok found =>
          simp only [installed, Except.ok.injEq] at located
          rw [not_or, Bool.not_eq_true] at inside
          exact ⟨r, found, rfl, inside.1, inside.2, installed, located.symm⟩

theorem isAbsolute_of_mem_holders (roots : ∀ root ∈ search.roots, root.isAbsolute = true)
    (absolute : dir.isAbsolute = true) {root : Location} (member : root ∈ search.holders dir) :
    root.isAbsolute = true := by
  rcases List.mem_append.mp member with own | above
  · exact roots root own
  · obtain ⟨higher, inside, named⟩ := List.mem_flatMap.mp above
    obtain ⟨name, _, rfl⟩ := List.mem_map.mp named
    exact Location.isAbsolute_join (Location.isAbsolute_of_mem_ancestorsWithin absolute inside) name

theorem of_locate_eq_ok {package : String} {found : Location}
    (located : search.locate files package dir = .ok found) :
    ∃ root ∈ search.holders dir, found = (root.join package).normalize := by
  unfold locate at located
  rw [candidates_eq] at located
  dsimp only at located
  split at located
  · next candidate first =>
    obtain ⟨root, member, rfl⟩ := List.mem_map.mp (List.mem_of_find?_eq_some first)
    cases located
    exact ⟨root, member, rfl⟩
  · cases located

theorem isAbsolute_of_target (roots : ∀ root ∈ search.roots, root.isAbsolute = true)
    (absolute : dir.isAbsolute = true) (located : search.target files reference dir referrer = .ok target) :
    target.isAbsolute = true := by
  obtain ⟨r, found, _, _, _, installed, rfl⟩ := target_eq_ok located
  obtain ⟨root, member, rfl⟩ := of_locate_eq_ok installed
  have above := isAbsolute_of_mem_holders roots absolute member
  exact Location.isAbsolute_join (Location.isAbsolute_normalize (Location.isAbsolute_join above r.package)) _

end PackageSearch

/-- References of a document with an absolute place lead to absolute places. -/
theorem isAbsolute_of_locateReference {search : PackageSearch} {files : FileTree} {reference : String}
    {referrer target : Location} (roots : ∀ root ∈ search.roots, root.isAbsolute = true)
    (absolute : referrer.isAbsolute = true)
    (located : locateReference search files reference referrer = .ok target) :
    target.isAbsolute = true := by
  unfold locateReference at located
  dsimp only at located
  split at located
  · cases located
    exact Location.isAbsolute_absolutize (Location.isAbsolute_dir absolute) _
  · exact PackageSearch.isAbsolute_of_target roots (Location.isAbsolute_dir absolute) located

/-- A reference that leads nowhere is reported with its document. -/
theorem locateReference_eq_error {search : PackageSearch} {files : FileTree} {reference : String}
    {referrer : Location} {fault : Fault}
    (failed : locateReference search files reference referrer = .error fault) :
    ∃ cause tried, fault = .badReference reference referrer cause tried := by
  unfold locateReference at failed
  dsimp only at failed
  split at failed
  · cases failed
  · unfold PackageSearch.target at failed
    dsimp only at failed
    split at failed
    · cases failed
      exact ⟨_, _, rfl⟩
    · split at failed
      · cases failed
        exact ⟨_, _, rfl⟩
      · split at failed
        · cases failed
          exact ⟨_, _, rfl⟩
        · split at failed
          · cases failed
          · cases failed
            exact ⟨_, _, rfl⟩

end LayeredConfig
