import LayeredConfig.Proofs.Document.Rest
import LayeredConfig.Proofs.Sidecar.Emission

namespace LayeredConfig

namespace Location

theorem unslashed_of_getLast?_ne {l : Location} (last : l.text.toList.getLast? ≠ some '/') : l.unslashed = l := by
  unfold unslashed
  cases text : l.text.toList.reverse with
  | nil =>
    have empty : l.text = "" := String.toList_eq_nil_iff.mp (List.reverse_eq_nil_iff.mp text)
    simp [empty]
  | cons c back =>
    have ends : l.text.toList.getLast? = some c := by rw [List.getLast?_eq_head?_reverse, text, List.head?_cons]
    have apart : c ≠ '/' := by
      rintro rfl
      exact last ends
    have kept : (c :: back).dropWhile (· = '/') = c :: back := by simp [apart]
    have whole : (c :: back).reverse = l.text.toList := by rw [← text, List.reverse_reverse]
    rw [kept]
    dsimp only
    rw [whole, String.ofList_toList]

/-- A canonical place has no slash at its end, save for the root. -/
theorem unslashed_of_canonical {l : Location} (absolute : l.isAbsolute = true) (canonical : l.normalize = l) :
    l.unslashed = l := by
  obtain ⟨names, valid, own⟩ := steps_of_canonical absolute canonical
  have written : l.text.toList = '/' :: joinWith '/' (partsOf (climb 0 names)) := by
    have form : l.settledSteps.reverse = .root :: climb 0 names := by
      rw [← steps_normalize_of_isAbsolute absolute, canonical, own]
      rfl
    rw [← text_ofSteps_absolute names, ← form, ← normalize_eq, canonical]
  cases names with
  | nil =>
    have root : l.text = "/" := String.toList_inj.mp written
    simp [unslashed, root]
    rw [← root]
  | cons first rest =>
    have sound : ∀ part ∈ partsOf (climb 0 (first :: rest)), '/' ∉ part ∧ idle part = false := by
      intro part member
      obtain ⟨step, inside, rfl⟩ := List.mem_map.mp member
      exact ⟨(climb_sound valid inside).1, (climb_sound valid inside).2.1⟩
    have cut : pieces '/' l.text.toList = [] :: partsOf (climb 0 (first :: rest)) := by
      rw [written, pieces, if_pos rfl, pieces_joinWith]
      · simp [partsOf, climb]
      · exact fun part member => (sound part member).1
    refine unslashed_of_getLast?_ne fun slash => ?_
    -- behind a last slash there would be an empty part
    obtain ⟨front, ends⟩ := List.getLast?_eq_some_iff.mp slash
    rw [ends, pieces_append_sep] at cut
    have tail := congrArg List.getLast? cut
    rw [List.getLast?_append] at tail
    have member : [] ∈ partsOf (climb 0 (first :: rest)) := by
      refine List.mem_of_getLast? ?_
      simpa [pieces, partsOf, climb, List.getLast?_cons] using tail.symm
    exact absurd (sound [] member).2 (by decide)

end Location

namespace FileTree

/-- The file is directly inside the directory. -/
def HoldsDirectly (t : FileTree) (dir file : Location) : Prop :=
  ∃ names name, t.locate dir = .ok names ∧ t.locate file = .ok (names ++ [name])

theorem SameDirs.holdsDirectly {t u : FileTree} (grown : t.SameDirs u) {dir file : Location}
    (inside : u.HoldsDirectly dir file) : t.HoldsDirectly dir file := by
  obtain ⟨names, name, above, located⟩ := inside
  exact ⟨names, name, (grown.locate_eq_ok _ _).mp above, (grown.locate_eq_ok _ _).mp located⟩

theorem isDir_iff {t : FileTree} {l : Location} :
    t.isDir l = true ↔ ∃ names, t.locate l = .ok names ∧ t.entry? names = some .directory := by
  unfold isDir
  cases t.locate l with
  | error fault => simp
  | ok names => simp [isDirAt_iff]

/-- Making a directory that exists changes nothing. -/
theorem makeDirs_of_isDir {t : FileTree} {l : Location} (absolute : l.isAbsolute = true)
    (canonical : l.normalize = l) (directory : t.isDir l = true) : t.makeDirs l = (t, none) := by
  obtain ⟨names, located, found⟩ := isDir_iff.mp directory
  have exists_ : t.makeDir l = .error .alreadyExists := by
    unfold locate at located
    unfold makeDir
    rw [Location.unslashed_of_canonical absolute canonical]
    cases checked : checkPlace l with
    | error fault => simp [checked, bind, Except.bind] at located
    | ok u =>
      simp only [checked, bind, Except.bind] at located ⊢
      simp [located, found]
  have filled := Location.text_ne_of_isAbsolute absolute
  simp [makeDirs, makeDirsWithin, filled, exists_, directory]

end FileTree

namespace SidecarStore

variable {s : SidecarStore} {now : Instant} {files t u : FileTree} {docs : List Document} {places : List Location}
  (anchored : s.dir.isAbsolute = true ∧ s.dir.normalize = s.dir) (directory : t.isDir s.dir = true)

theorem firstByPlace_map_calm (docs : List Document) :
    firstByPlace (docs.map Document.calm) = (firstByPlace docs).map Document.calm := by
  induction docs with
  | nil => rfl
  | cons d rest ih =>
    rw [List.map_cons, firstByPlace, firstByPlace, ih, List.map_cons, List.filter_map]
    rfl

theorem isFile_of_inTurn_write (done : (Outcome.inTurn (s.write now) files docs).result = .ok places)
    {d : Document} (member : d ∈ docs) :
    (Outcome.inTurn (s.write now) files docs).files.isFile (s.place d.location) = true := by
  induction docs generalizing files places with
  | nil => cases member
  | cons first rest ih =>
    obtain ⟨place, others, wrote, more, rfl, after⟩ := Outcome.inTurn_cons done
    rw [after]
    rcases List.mem_cons.mp member with rfl | inside
    · have file := FileTree.isFile_of_read (FileTree.read_of_write (write_eq_ok wrote).2)
      exact (inTurn_write more).2.1.isFile file
    · exact ih more inside

/-- Sidecars that exist can be written again. -/
theorem exists_inTurn_write (existing : ∀ d ∈ docs, files.isFile (s.place d.location) = true) :
    (Outcome.inTurn (s.write now) files docs).result = .ok (docs.map (s.place ·.location)) := by
  induction docs generalizing files with
  | nil => rfl
  | cons first rest ih =>
    obtain ⟨u, wrote⟩ := FileTree.exists_write (existing first List.mem_cons_self)
      (.text (Json.printIndented (s.describe now first).toValue))
    have one : s.write now files first = .done u (s.place first.location) := by
      unfold SidecarStore.write
      dsimp only
      rw [wrote]
    have remaining : ∀ d ∈ rest, u.isFile (s.place d.location) = true := fun d member =>
      (FileTree.sameDirs_of_write wrote).isFile (existing d (List.mem_cons_of_mem _ member))
    have later := ih remaining
    rw [Outcome.inTurn, one, Outcome.andThen_done, Outcome.andThen_of_ok later]
    rfl

/-- What is not directly in the directory of the sidecars is none of them. -/
theorem locate_place_ne_of_outside {l document : Location} {names : List String} (directory : t.isDir s.dir = true)
    (outside : ¬t.HoldsDirectly s.dir l) (located : t.locate l = .ok names) :
    t.locate (s.place document) ≠ .ok names := by
  intro same
  obtain ⟨above, there, _⟩ := FileTree.isDir_iff.mp directory
  have way := (FileTree.locate_eq_ok same).2
  rw [steps_place, List.foldl_append, ← (FileTree.locate_eq_ok there).2] at way
  exact outside ⟨above, _, there, by rw [located, way]; rfl⟩

include anchored directory

theorem emit_eq (now : Instant) (docs : List Document) :
    s.emit now t docs = Outcome.inTurn (s.write now) t (firstByPlace docs) := by
  unfold emit
  rw [FileTree.makeDirs_of_isDir anchored.1 anchored.2 directory]

/-- Sidecars in a directory that exists add files to it alone. -/
theorem emit_leaves (done : (s.emit now t docs).result = .ok places) :
    t.SameDirs (s.emit now t docs).files ∧
      ∀ l text, t.read l = .ok text → ¬t.HoldsDirectly s.dir l → (s.emit now t docs).files.read l = .ok text := by
  rw [emit_eq anchored directory] at done ⊢
  obtain ⟨_, grown, frame⟩ := inTurn_write done
  refine ⟨grown, fun l text read outside => ?_⟩
  obtain ⟨names, _, located, _⟩ := FileTree.isFile_eq_true (FileTree.isFile_of_read read)
  rw [frame l names located fun x _ => locate_place_ne_of_outside directory outside located]
  exact read

/-- Sidecars that were written can be written again, wherever no file was lost. -/
theorem emit_again (done : (s.emit now t docs).result = .ok places) (later : Instant) :
    (s.emit later (s.emit now t docs).files (docs.map Document.calm)).result = .ok places := by
  have grown := (emit_leaves anchored directory done).1
  have again : (s.emit now t docs).files.isDir s.dir = true := by rw [grown.isDir, directory]
  rw [emit_eq anchored again, firstByPlace_map_calm]
  rw [emit_eq anchored directory] at done ⊢
  have listed := (inTurn_write done).1
  have existing : ∀ d ∈ (firstByPlace docs).map Document.calm,
      (Outcome.inTurn (s.write now) t (firstByPlace docs)).files.isFile (s.place d.location) = true := by
    intro d member
    obtain ⟨first, known, rfl⟩ := List.mem_map.mp member
    rw [Document.location_calm]
    exact isFile_of_inTurn_write done known
  have places_ : ((firstByPlace docs).map Document.calm).map (s.place ·.location) =
      (firstByPlace docs).map (s.place ·.location) := by
    simp only [List.map_map, Function.comp_def, Document.location_calm]
  rw [exists_inTurn_write existing, places_, listed]

end SidecarStore

end LayeredConfig
