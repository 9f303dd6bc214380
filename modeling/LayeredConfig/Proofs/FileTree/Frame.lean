import LayeredConfig.Ancestry.Package

namespace LayeredConfig

def Entry.isDirectory : Entry → Bool
  | .directory => true
  | .file _ => false

namespace FileTree

/-- Where a reference leads depends on the directories alone. -/
theorem locateReference_of_isDir {t u : FileTree} (same : ∀ l, u.isDir l = t.isDir l) (search : PackageSearch)
    (reference : String) (referrer : Location) :
    locateReference search u reference referrer = locateReference search t reference referrer := by
  have isDir : u.isDir = t.isDir := funext same
  simp [locateReference, PackageSearch.target, PackageSearch.locate, isDir]

/-- The same directories and files, whatever the files hold. -/
structure SameShape (t u : FileTree) : Prop where
  here : u.here = t.here
  kind : ∀ names, (u.entry? names).map Entry.isDirectory = (t.entry? names).map Entry.isDirectory

namespace SameShape

theorem refl (t : FileTree) : t.SameShape t :=
  ⟨rfl, fun _ => rfl⟩

theorem trans {t u v : FileTree} (first : t.SameShape u) (second : u.SameShape v) : t.SameShape v :=
  ⟨second.here.trans first.here, fun names => (second.kind names).trans (first.kind names)⟩

variable {t u : FileTree} (shape : t.SameShape u)

include shape

theorem walk (dir : List String) (parts : List (List Char)) : u.walk dir parts = t.walk dir parts := by
  induction parts generalizing dir with
  | nil => rfl
  | cons part rest ih =>
    have kind := shape.kind dir
    cases before : t.entry? dir with
    | none =>
      have after : u.entry? dir = none := by simpa [before] using kind
      simp [FileTree.walk, before, after]
    | some entry =>
      obtain ⟨other, after, same⟩ := Option.map_eq_some_iff.mp (kind.trans (by rw [before, Option.map_some]))
      cases entry <;> cases other <;> simp_all [FileTree.walk, Entry.isDirectory]

theorem locate (l : Location) : u.locate l = t.locate l := by
  simp [FileTree.locate, FileTree.follow, shape.here, shape.walk]

theorem isFile (l : Location) : u.isFile l = t.isFile l := by
  unfold FileTree.isFile
  rw [shape.locate]
  cases t.locate l with
  | error fault => rfl
  | ok names =>
    have kind := shape.kind names
    cases before : t.entry? names with
    | none =>
      have after : u.entry? names = none := by simpa [before] using kind
      simp [before, after]
    | some entry =>
      obtain ⟨other, after, same⟩ := Option.map_eq_some_iff.mp (kind.trans (by rw [before, Option.map_some]))
      cases entry <;> cases other <;> simp_all [Entry.isDirectory]

theorem isDirAt (names : List String) : u.isDirAt names = t.isDirAt names := by
  have kind := shape.kind names
  unfold FileTree.isDirAt
  cases before : t.entry? names with
  | none =>
    have after : u.entry? names = none := by simpa [before] using kind
    simp [after]
  | some entry =>
    obtain ⟨other, after, same⟩ := Option.map_eq_some_iff.mp (kind.trans (by rw [before, Option.map_some]))
    rw [after]
    cases entry <;> cases other <;> first | rfl | cases same

theorem isDir (l : Location) : u.isDir l = t.isDir l := by
  unfold FileTree.isDir
  rw [shape.locate]
  cases t.locate l with
  | error fault => rfl
  | ok names => exact shape.isDirAt names

theorem locateReference (search : PackageSearch) (reference : String) (referrer : Location) :
    locateReference search u reference referrer = locateReference search t reference referrer :=
  locateReference_of_isDir shape.isDir search reference referrer

theorem exists_file {names : List String} {body : Body} (file : t.entry? names = some (.file body)) :
    ∃ after, u.entry? names = some (.file after) := by
  have kind := shape.kind names
  rw [file, Option.map_some] at kind
  obtain ⟨entry, found, same⟩ := Option.map_eq_some_iff.mp kind
  cases entry with
  | directory => cases same
  | file after => exact ⟨after, found⟩

end SameShape

theorem isFile_eq_true {t : FileTree} {l : Location} (file : t.isFile l = true) :
    ∃ names body, t.locate l = .ok names ∧ t.entry? names = some (.file body) := by
  unfold isFile at file
  cases located : t.locate l with
  | error fault => simp [located] at file
  | ok names =>
    simp only [located] at file
    cases found : t.entry? names with
    | none => simp [found] at file
    | some entry =>
      cases entry with
      | directory => simp [found] at file
      | file body => exact ⟨names, body, rfl, found⟩

theorem isFile_of_entry? {t : FileTree} {l : Location} {names : List String} {body : Body}
    (located : t.locate l = .ok names) (found : t.entry? names = some (.file body)) : t.isFile l = true := by
  simp [isFile, located, found]

/-- A text can be read only from a file. -/
theorem isFile_of_read {t : FileTree} {l : Location} {text : String} (read : t.read l = .ok text) :
    t.isFile l = true := by
  unfold FileTree.read at read
  unfold isFile
  cases place : t.locate l with
  | error fault => simp [place, bind, Except.bind] at read
  | ok names =>
    simp only [place, bind, Except.bind] at read
    cases found : t.entry? names with
    | none => simp [found] at read
    | some entry => cases entry <;> simp_all

/-- All that a write can do: a file is put where the place leads. -/
theorem write_eq_ok {t u : FileTree} {l : Location} {body : Body} (write : t.write l body = .ok u) :
    ∃ names, t.locate l = .ok names ∧ names ≠ [] ∧ t.entry? names ≠ some .directory ∧
      u = { t with entries := put names (.file body) t.entries } := by
  unfold FileTree.write at write
  cases place : t.locate l with
  | error fault => simp [place, bind, Except.bind] at write
  | ok names =>
    simp only [place, bind, Except.bind] at write
    have inner : t.entry? names ≠ some .directory := by
      intro directory
      simp [directory] at write
    have named : names ≠ [] := by
      rintro rfl
      exact inner rfl
    refine ⟨names, rfl, named, inner, ?_⟩
    split at write
    · cases write
    · cases write
      rfl
    · split at write
      · cases write
        rfl
      · cases write
      · cases write

theorem entry?_put_self (t : FileTree) {names : List String} (named : names ≠ []) (e : Entry) :
    FileTree.entry? { t with entries := put names e t.entries } names = some e := by
  cases names with
  | nil => exact absurd rfl named
  | cons first rest => simp [ entry?]

theorem entry?_put_of_ne (t : FileTree) {names other : List String} (apart : other ≠ names) (e : Entry) :
    FileTree.entry? { t with entries := put names e t.entries } other = t.entry? other := by
  cases other with
  | nil => rfl
  | cons first rest => simp only [ entry?, lookup_put_of_ne apart]

/-- Writing to a file that exists changes what it holds and nothing else. -/
theorem sameShape_of_write {t u : FileTree} {l : Location} {body : Body} (file : t.isFile l = true)
    (write : t.write l body = .ok u) : t.SameShape u := by
  obtain ⟨names, located, named, _, rfl⟩ := write_eq_ok write
  obtain ⟨others, old, there, found⟩ := isFile_eq_true file
  obtain rfl : names = others := Except.ok.inj (located.symm.trans there)
  refine ⟨rfl, fun other => ?_⟩
  by_cases same : other = names
  · subst same
    rw [ entry?_put_self t named, found]
    rfl
  · rw [ entry?_put_of_ne t same]

/-- A file that exists can be written to. -/
theorem exists_write {t : FileTree} {l : Location} (file : t.isFile l = true) (body : Body) :
    ∃ u, t.write l body = .ok u := by
  obtain ⟨names, old, located, found⟩ := isFile_eq_true file
  simp [FileTree.write, located, found, bind, Except.bind]

end FileTree

end LayeredConfig
