import LayeredConfig.Proofs.FileTree.Frame

namespace LayeredConfig.FileTree

theorem length_le_put {κ α : Type} [DecidableEq κ] (key : κ) (value : α) (entries : List (κ × α)) :
    entries.length ≤ (put key value entries).length := by
  induction entries with
  | nil => simp [put]
  | cons entry rest ih =>
    rw [put]
    split
    · simp
    · simpa using ih

theorem isDirAt_iff {t : FileTree} {names : List String} :
    t.isDirAt names = true ↔ t.entry? names = some .directory := by
  simp [isDirAt]

section SameDirectories

variable {t u : FileTree} (dirs : ∀ names, u.entry? names = some .directory ↔ t.entry? names = some .directory)

include dirs

/-- Where a way leads depends on the directories alone. -/
theorem walk_eq_ok_of_dirs (dir : List String) (parts : List (List Char)) (names : List String) :
    u.walk dir parts = .ok names ↔ t.walk dir parts = .ok names := by
  induction parts generalizing dir with
  | nil => rfl
  | cons part rest ih =>
    have same := dirs dir
    by_cases directory : t.entry? dir = some .directory
    · have after := same.mpr directory
      simp only [FileTree.walk, directory, after]
      split
      · exact ih dir
      · split
        · exact ih dir.dropLast
        · split
          · rfl
          · exact ih _
    · have blocked : ∀ v : FileTree, v.entry? dir ≠ some .directory → v.walk dir (part :: rest) ≠ .ok names := by
        intro v other walked
        rw [FileTree.walk] at walked
        split at walked
        · cases walked
        · cases walked
        · next found => exact other found
      have before := blocked t directory
      have later := blocked u (mt same.mp directory)
      exact iff_of_false later before

theorem locate_eq_ok_of_dirs (here : u.here = t.here) (l : Location) (names : List String) :
    u.locate l = .ok names ↔ t.locate l = .ok names := by
  unfold FileTree.locate FileTree.follow
  cases checkPlace l with
  | error fault => rfl
  | ok checked =>
    simp only [bind, Except.bind, here]
    exact walk_eq_ok_of_dirs dirs _ _ _

end SameDirectories

/-- The same directories, and every file is still a file. There may be more
files. -/
structure SameDirs (t u : FileTree) : Prop where
  here : u.here = t.here
  dir : ∀ names, u.entry? names = some .directory ↔ t.entry? names = some .directory
  file : ∀ {names body}, t.entry? names = some (.file body) → ∃ after, u.entry? names = some (.file after)
  size : t.entries.length ≤ u.entries.length

namespace SameDirs

theorem refl (t : FileTree) : t.SameDirs t :=
  ⟨rfl, fun _ => Iff.rfl, fun found => ⟨_, found⟩, Nat.le_refl _⟩

theorem trans {t u v : FileTree} (first : t.SameDirs u) (second : u.SameDirs v) : t.SameDirs v := by
  refine ⟨second.here.trans first.here, fun names => (second.dir names).trans (first.dir names), ?_,
    Nat.le_trans first.size second.size⟩
  intro names body before
  obtain ⟨between, kept⟩ := first.file before
  exact second.file kept

variable {t u : FileTree} (grown : t.SameDirs u)

include grown

theorem locate_eq_ok (l : Location) (names : List String) : u.locate l = .ok names ↔ t.locate l = .ok names :=
  locate_eq_ok_of_dirs grown.dir grown.here l names

theorem isDirAt (names : List String) : u.isDirAt names = t.isDirAt names := by
  rw [Bool.eq_iff_iff, isDirAt_iff, isDirAt_iff]
  exact grown.dir names

theorem isDir (l : Location) : u.isDir l = t.isDir l := by
  have same := grown.locate_eq_ok l
  unfold FileTree.isDir
  cases before : t.locate l with
  | ok names =>
    rw [(same names).mpr before]
    exact grown.isDirAt names
  | error fault =>
    cases after : u.locate l with
    | ok names => simp [before, after] at same
    | error other => rfl

theorem isFile {l : Location} (file : t.isFile l = true) : u.isFile l = true := by
  obtain ⟨names, body, located, found⟩ := isFile_eq_true file
  obtain ⟨after, kept⟩ := grown.file found
  exact isFile_of_entry? ((grown.locate_eq_ok l names).mpr located) kept

theorem locateReference (search : PackageSearch) (reference : String) (referrer : Location) :
    LayeredConfig.locateReference search u reference referrer =
      LayeredConfig.locateReference search t reference referrer :=
  locateReference_of_isDir grown.isDir search reference referrer

end SameDirs

theorem sameDirs_of_write {t u : FileTree} {l : Location} {body : Body} (write : t.write l body = .ok u) :
    t.SameDirs u := by
  obtain ⟨names, _, named, inner, rfl⟩ := write_eq_ok write
  refine ⟨rfl, fun other => ?_, ?_, length_le_put _ _ _⟩
  · by_cases same : other = names
    · subst same
      simp [ entry?_put_self t named, inner]
    · rw [ entry?_put_of_ne t same]
  · intro other old before
    by_cases same : other = names
    · subst same
      exact ⟨body, entry?_put_self t named _⟩
    · exact ⟨old, by rw [ entry?_put_of_ne t same, before]⟩

/-- A file holds what was written to it last, be it new or not. -/
theorem read_of_write {t u : FileTree} {l : Location} {text : String} (write : t.write l (.text text) = .ok u) :
    u.read l = .ok text := by
  have place := (sameDirs_of_write write).locate_eq_ok l
  obtain ⟨names, located, named, _, rfl⟩ := write_eq_ok write
  unfold FileTree.read
  rw [(place names).mpr located]
  simp [bind, Except.bind, entry?_put_self t named]

theorem read_of_locate {t : FileTree} {l : Location} {names : List String} (located : t.locate l = .ok names) :
    t.read l = match t.entry? names with
      | none => .error .notFound
      | some .directory => .error .isDirectory
      | some (.file (.bytes _)) => .error .notText
      | some (.file (.text s)) => .ok s := by
  unfold FileTree.read
  rw [located]
  rfl

/-- A file holds a text, or it cannot be read because it holds none. -/
theorem read_of_isFile {t : FileTree} {l : Location} (file : t.isFile l = true) :
    (∃ text, t.read l = .ok text) ∨ t.read l = .error .notText := by
  obtain ⟨names, body, located, found⟩ := isFile_eq_true file
  rw [read_of_locate located, found]
  cases body with
  | text s => exact Or.inl ⟨s, rfl⟩
  | bytes bs => exact Or.inr rfl

theorem read_eq_of_toOption {t u : FileTree} {l : Location} (left : t.isFile l = true)
    (right : u.isFile l = true) (same : (u.read l).toOption = (t.read l).toOption) : u.read l = t.read l := by
  rcases read_of_isFile left with ⟨text, own⟩ | own <;> rcases read_of_isFile right with ⟨other, read⟩ | read <;>
    simp_all [Except.toOption]

/-- A write leaves what every other place reads. -/
theorem read_write_of_ne {t u : FileTree} {l m : Location} {names : List String} {body : Body}
    (write : t.write l body = .ok u) (located : t.locate m = .ok names) (apart : t.locate l ≠ .ok names) :
    u.read m = t.read m := by
  have place := ((sameDirs_of_write write).locate_eq_ok m names).mpr located
  obtain ⟨others, there, _, _, rfl⟩ := write_eq_ok write
  have other : names ≠ others := by
    rintro rfl
    exact apart there
  rw [read_of_locate place, read_of_locate located, entry?_put_of_ne t other]

end LayeredConfig.FileTree
