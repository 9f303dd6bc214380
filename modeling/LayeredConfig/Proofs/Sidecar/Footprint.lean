import LayeredConfig.Proofs.FileTree.Sound
import LayeredConfig.Proofs.Sidecar.Emission

namespace LayeredConfig

namespace FileTree

/-- More directories, in places where nothing was. -/
structure MoreDirs (t u : FileTree) : Prop where
  here : u.here = t.here
  entry : ∀ names, u.entry? names = t.entry? names ∨ t.entry? names = none ∧ u.entry? names = some .directory

variable {t u v : FileTree} {l : Location}

theorem MoreDirs.refl (t : FileTree) : t.MoreDirs t :=
  ⟨rfl, fun _ => Or.inl rfl⟩

theorem MoreDirs.trans (first : t.MoreDirs u) (second : u.MoreDirs v) : t.MoreDirs v := by
  refine ⟨second.here.trans first.here, fun names => ?_⟩
  rcases second.entry names with kept | ⟨missing, made⟩
  · rw [kept]
    exact first.entry names
  · rcases first.entry names with same | ⟨_, directory⟩
    · exact Or.inr ⟨same.symm.trans missing, made⟩
    · rw [directory] at missing
      cases missing

theorem moreDirs_of_makeDir (made : t.makeDir l = .ok u) : t.MoreDirs u := by
  obtain ⟨names, _, _, named, fresh, _, rfl⟩ := makeDir_eq_ok made
  refine ⟨rfl, fun other => ?_⟩
  by_cases same : other = names
  · subst same
    exact Or.inr ⟨fresh, entry?_put_self t named _⟩
  · exact Or.inl (entry?_put_of_ne t same _)

/-- Making directories makes nothing else, also when it fails on the way. -/
theorem moreDirs_makeDirsWithin (fuel : Nat) (t : FileTree) (l : Location) :
    t.MoreDirs (t.makeDirsWithin fuel l).1 :=
  keeps_makeDirsWithin (fun more made => more.trans (moreDirs_of_makeDir made)) fuel (.refl t) l

end FileTree

namespace SidecarStore

variable {s : SidecarStore} {now : Instant} {x : FileTree} {docs : List Document}

/-- A sidecar is written, or the files are left alone. -/
theorem files_write_cases (s : SidecarStore) (now : Instant) (x : FileTree) (d : Document) :
    (s.write now x d).files = x ∨
      ∃ body, x.write (s.place d.location) body = .ok (s.write now x d).files := by
  unfold SidecarStore.write
  dsimp only
  split
  · next wrote => exact Or.inr ⟨_, wrote⟩
  · exact Or.inl rfl

/-- What writing sidecars may have changed by some time: nothing, or the sidecars of some of
the documents. -/
structure Written (s : SidecarStore) (docs : List Document) (x y : FileTree) : Prop where
  dirs : x.SameDirs y
  entry : ∀ names, y.entry? names = x.entry? names ∨ ∃ d ∈ docs, y.locate (s.place d.location) = .ok names

theorem Written.write {y : FileTree} {d : Document} (written : s.Written docs x y) (member : d ∈ docs) :
    s.Written docs x (s.write now y d).files := by
  rcases files_write_cases s now y d with same | ⟨body, wrote⟩
  · rw [same]
    exact written
  · have one := FileTree.sameDirs_of_write wrote
    obtain ⟨own, located, _, _, after⟩ := FileTree.write_eq_ok wrote
    refine ⟨written.dirs.trans one, fun names => ?_⟩
    by_cases here : names = own
    · subst here
      exact Or.inr ⟨d, member, (one.locate_eq_ok _ _).mpr located⟩
    · have kept : FileTree.entry? (s.write now y d).files names = y.entry? names := by
        rw [after]
        exact FileTree.entry?_put_of_ne y here _
      rcases written.entry names with same | ⟨e, known, there⟩
      · exact Or.inl (kept.trans same)
      · exact Or.inr ⟨e, known, (one.locate_eq_ok _ _).mpr there⟩

/-- Emission makes directories and then writes sidecars, also when it fails on the way. -/
theorem written_emit (s : SidecarStore) (now : Instant) (x : FileTree) (docs : List Document) :
    ∃ y, x.MoreDirs y ∧ s.Written docs y (s.emit now x docs).files := by
  have dirs : x.MoreDirs (x.makeDirs s.dir).1 := FileTree.moreDirs_makeDirsWithin _ x s.dir
  have start (y : FileTree) : s.Written docs y y := ⟨.refl y, fun _ => Or.inl rfl⟩
  unfold emit
  split
  · next y cause made =>
    rw [made] at dirs
    exact ⟨y, dirs, start y⟩
  · next y made =>
    rw [made] at dirs
    have keep : ∀ z, s.Written docs y z → ∀ d ∈ firstByPlace docs, s.Written docs y (s.write now z d).files :=
      fun z written d member => written.write (mem_of_mem_firstByPlace member)
    exact ⟨y, dirs, (Outcome.inTurn_cases keep (start y)).1⟩

/-- No file goes when sidecars are emitted. -/
theorem exists_file_emit {names : List String} {body : Body} (file : x.entry? names = some (.file body)) :
    ∃ after, FileTree.entry? (s.emit now x docs).files names = some (.file after) := by
  obtain ⟨y, dirs, written⟩ := s.written_emit now x docs
  rcases dirs.entry names with same | ⟨missing, _⟩
  · exact written.dirs.file (same.trans file)
  · rw [missing] at file
    cases file

/-- A file that emission changes or makes is a sidecar of one of the documents. -/
theorem entry?_emit_of_file {names : List String} {body : Body}
    (file : FileTree.entry? (s.emit now x docs).files names = some (.file body)) :
    x.entry? names = some (.file body) ∨
      ∃ d ∈ docs, (s.emit now x docs).files.locate (s.place d.location) = .ok names := by
  obtain ⟨y, dirs, written⟩ := s.written_emit now x docs
  rcases written.entry names with same | ⟨d, member, there⟩
  · rcases dirs.entry names with kept | ⟨_, made⟩
    · exact Or.inl (kept.symm.trans (same.symm.trans file))
    · rw [same, made] at file
      cases file
  · exact Or.inr ⟨d, member, there⟩

end SidecarStore

end LayeredConfig
