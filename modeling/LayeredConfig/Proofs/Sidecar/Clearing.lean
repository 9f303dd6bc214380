import LayeredConfig.Proofs.Sidecar.Footprint

namespace LayeredConfig

namespace Location

theorem join_text_ne (base : Location) {text : String} (filled : text ≠ "") : (base.join text).text ≠ "" := by
  unfold join
  split
  · exact filled
  · split <;> simp [filled]

theorem text_ne_of_mem_steps {l : Location} {step : Step} (member : step ∈ l.steps) : Step.text step ≠ "" := by
  rw [steps_eq] at member
  rcases List.mem_append.mp member with start | inside
  · unfold opening at start
    split at start
    · rw [List.mem_singleton.mp start]
      decide
    · split at start
      · rw [List.mem_singleton.mp start]
        decide
      · cases start
  · rcases spelled_sound inside with rfl | ⟨s, rfl, own⟩
    · decide
    · rintro rfl
      exact absurd own.2.1 (by decide)

/-- The way from a base is empty only to the base itself. -/
theorem same_of_relativeTo {l base : Location} (empty : (l.relativeTo base).text = "") : l.same base = true := by
  rw [relativeTo] at empty
  rw [same_iff]
  obtain ⟨-, shared⟩ := sharedSteps_spec l.steps base.steps
  generalize sharedSteps l.steps base.steps = n at empty shared
  have none_ : List.replicate (base.steps.length - n) Step.up ++ l.steps.drop n = [] := by
    by_contra some_
    obtain ⟨front, last, whole⟩ := (List.eq_nil_or_concat _).resolve_left some_
    have own : Step.text last ≠ "" := by
      have member : last ∈ List.replicate (base.steps.length - n) Step.up ++ l.steps.drop n := by simp [whole]
      rcases List.mem_append.mp member with up | step
      · rw [List.eq_of_mem_replicate up]
        decide
      · exact text_ne_of_mem_steps (List.mem_of_mem_drop step)
    rw [whole, List.concat_eq_append, List.foldl_append] at empty
    exact join_text_ne _ own empty
  obtain ⟨up, down⟩ := List.append_eq_nil_iff.mp none_
  have left : l.steps.length ≤ n := List.drop_eq_nil_iff.mp down
  have right : base.steps.length ≤ n := by simpa [Nat.sub_eq_zero_iff_le] using up
  rwa [List.take_of_length_le left, List.take_of_length_le right] at shared

/-- A name alone has one step. -/
theorem steps_of_isName {name : String} (own : IsName name) : steps ⟨name⟩ = [.name name] := by
  have sound : ∀ part ∈ [name.toList], '/' ∉ part ∧ idle part = false := by simp [own.1, own.2.1]
  have plain := opening_joinWith sound
  have spells := spelled_joinWith sound
  rw [joinWith] at plain spells
  rw [steps_eq, plain, spells]
  simp [stepOf, own.2.2]

/-- What stands behind the last dot is the extension, where something stands in front of it. -/
theorem extension?_of_isName {stem ending : String} (own : IsName (stem ++ "." ++ ending)) (filled : stem ≠ "")
    (plain : '.' ∉ ending.toList) : extension? ⟨stem ++ "." ++ ending⟩ = some ending := by
  have named : fileName? ⟨stem ++ "." ++ ending⟩ = some (stem ++ "." ++ ending) := by
    simp [fileName?, steps_of_isName own]
  have written : (stem ++ "." ++ ending).toList = stem.toList ++ '.' :: ending.toList := by simp
  have front : stem.toList ≠ [] := fun none_ => filled (String.toList_eq_nil_iff.mp none_)
  have some_ : 0 < (pieces '.' stem.toList).length := List.length_pos_iff.mpr (pieces_ne_nil _ _)
  rw [extension?, named, Option.bind_some, written, pieces_append_sep, pieces_of_not_mem plain]
  have several : ¬((pieces '.' stem.toList).length + 1 < 2) := by omega
  simp [joinWith_pieces, front, several]

end Location

namespace SidecarStore

variable {s : SidecarStore} {now : Instant} {files : FileTree} {docs : List Document} {document : Location}

theorem relPath_ne_empty (apart : document.same s.workspace = false) : s.relPath document ≠ "" := by
  intro empty
  have text : (document.relativeTo s.workspace).text = "" := by
    rw [relPath, Location.slashed, String.ofList_eq_empty_iff, List.map_eq_nil_iff] at empty
    exact String.toList_eq_nil_iff.mp empty
  rw [Location.same_of_relativeTo text] at apart
  cases apart

/-- A sidecar is known as one by its name unless it is that of the workspace itself. -/
theorem extension?_sidecarName (apart : document.same s.workspace = false) :
    Location.extension? ⟨sidecarName (s.relPath document)⟩ = some "json" := by
  have own := isName_sidecarName (s.relPath document)
  have filled :
      String.ofList ((s.relPath document).toList.map fun c => if c = '/' ∨ c = '\\' then '~' else c) ≠ "" := by
    rw [Ne, String.ofList_eq_empty_iff, List.map_eq_nil_iff]
    exact fun none_ => relPath_ne_empty apart (String.toList_eq_nil_iff.mp none_)
  have written : sidecarName (s.relPath document) = String.ofList
      ((s.relPath document).toList.map fun c => if c = '/' ∨ c = '\\' then '~' else c) ++ "." ++ "json" := by
    rw [sidecarName, String.append_assoc]
    rfl
  rw [written] at own ⊢
  exact Location.extension?_of_isName own filled (by decide)

/-- A regular file directly in the directory of the sidecars whose extension is that of a sidecar. -/
structure Holds (s : SidecarStore) (files : FileTree) (above : List String) (name : String) : Prop where
  dir : files.locate s.dir = .ok above
  isDir : files.entry? above = some .directory
  file : ∃ body, files.entry? (above ++ [name]) = some (.file body)
  extension : Location.extension? ⟨name⟩ = some "json"

/-- Whether the place of a name in the directory is short enough to be looked up. -/
def Fits (s : SidecarStore) (name : String) : Prop :=
  (s.dir.join name).text.utf8ByteSize ≤ FileTree.longestPlace

section Clear

variable {t u : FileTree} {above : List String} {name : String} {found : List String}

theorem filled_of_locate (located : t.locate s.dir = .ok above) : s.dir.text ≠ "" :=
  (FileTree.checkPlace_eq_ok_iff.mp (FileTree.locate_eq_ok_iff.mp located).1).1

theorem Holds.entryName (sound : t.Sound) (held : s.Holds t above name) : EntryName name := by
  obtain ⟨body, file⟩ := held.file
  have known := FileTree.mem_keysOf_of_found (by simp) file
  exact sound.named _ (List.mem_cons_of_mem _ known) name (by simp)

/-- In a directory with a place of no unusual length all fits. -/
theorem Holds.fits (sound : t.Sound) (held : s.Holds t above name)
    (room : s.dir.text.utf8ByteSize + 256 ≤ FileTree.longestPlace) : s.Fits name := by
  have own := held.entryName sound
  have short := own.short
  have relative : name.toList.head? ≠ some '/' := fun slash => own.isName.1 (List.mem_of_head? slash)
  obtain ⟨between, _, _, text, clean, _⟩ :=
    Location.join_form relative (filled_of_locate held.dir) own.isName.1
  rw [Fits, text, String.utf8ByteSize_append, String.utf8ByteSize_append]
  have gap : between.utf8ByteSize ≤ 1 := by rcases clean with rfl | rfl <;> decide
  omega

/-- A file that is held goes if its place can be looked up. -/
theorem removeOne_of_fits (sound : t.Sound) (held : s.Holds t above name) (fits : s.Fits name) :
    s.removeOne t name = .done (t.pruned [above ++ [name]]) () := by
  obtain ⟨body, file⟩ := held.file
  have located : t.locate (s.dir.join name) = .ok (above ++ [name]) :=
    (FileTree.locate_join_eq_ok (filled_of_locate held.dir) (held.entryName sound)).mpr
      ⟨fits, above, held.dir, held.isDir, rfl⟩
  have deleted : t.delete (s.dir.join name) = .ok (t.pruned [above ++ [name]]) :=
    FileTree.delete_eq_ok.mpr ⟨_, body, located, file, rfl⟩
  simp only [removeOne, deleted]

/-- A place that is too long stops the work. -/
theorem removeOne_of_long (sound : t.Sound) (held : s.Holds t above name) (long : ¬s.Fits name) :
    s.removeOne t name = .failed t (.access (s.dir.join name) .nameTooLong) := by
  have own := held.entryName sound
  obtain ⟨filled, textual, -⟩ := FileTree.checkPlace_eq_ok_iff.mp (FileTree.locate_eq_ok_iff.mp held.dir).1
  have checked : FileTree.checkPlace (s.dir.join name) = .error .nameTooLong := by
    have named : (s.dir.join name).text ≠ "" := by
      refine Location.join_text_ne _ ?_
      rintro rfl
      exact absurd own.isName.2.1 (by decide)
    have free := mt (FileTree.zero_mem_join_iff filled own).mp textual
    rw [FileTree.checkPlace, if_neg named, if_neg (by simpa using free), if_pos (Nat.lt_of_not_le long)]
  have stopped : t.delete (s.dir.join name) = .error .nameTooLong := by
    simp [FileTree.delete, FileTree.locate, checked, bind, Except.bind]
  simp only [removeOne, stopped]

/-- What is held once files are gone is what was held and is not gone. -/
theorem holds_pruned_iff {gone : List (List String)} (files : t.AreFiles gone) :
    s.Holds (t.pruned gone) above name ↔ s.Holds t above name ∧ above ++ [name] ∉ gone := by
  constructor
  · rintro ⟨dir, isDir, ⟨body, file⟩, extension⟩
    rw [FileTree.entry?_pruned files.root] at file
    split at file
    · cases file
    · next kept =>
      have directory := (FileTree.entry?_pruned_directory files above).mp isDir
      exact ⟨⟨(FileTree.locate_pruned files).mp dir, directory, ⟨body, file⟩, extension⟩, kept⟩
  · rintro ⟨⟨dir, isDir, ⟨body, file⟩, extension⟩, kept⟩
    refine ⟨(FileTree.locate_pruned files).mpr dir, (FileTree.entry?_pruned_directory files above).mpr isDir,
      ⟨body, ?_⟩, extension⟩
    rw [FileTree.entry?_pruned files.root, if_neg kept, file]

/-- Files that are held go in turn, up to the first whose place is too long. -/
theorem inTurn_removeOne (sound : t.Sound) (distinct : found.Nodup) (held : ∀ name ∈ found, s.Holds t above name) :
    ∃ gone ⊆ found, (Outcome.inTurn s.removeOne t found).files = t.pruned (gone.map fun name => above ++ [name]) ∧
      (gone = found ∧ (∀ name ∈ found, s.Fits name) ∧
          (Outcome.inTurn s.removeOne t found).result = .ok (found.map fun _ => ()) ∨
        ∃ name ∈ found, ¬s.Fits name ∧
          (Outcome.inTurn s.removeOne t found).result = .error (.access (s.dir.join name) .nameTooLong)) := by
  induction found generalizing t with
  | nil => exact ⟨[], List.Subset.refl _, t.pruned_nil.symm, Or.inl ⟨rfl, by simp, rfl⟩⟩
  | cons first rest ih =>
    obtain ⟨own, others⟩ := List.forall_mem_cons.mp held
    obtain ⟨fresh, later⟩ := List.nodup_cons.mp distinct
    by_cases fits : s.Fits first
    · have one := removeOne_of_fits sound own fits
      have file : t.AreFiles [above ++ [first]] := by simpa [FileTree.AreFiles] using own.file
      have left : ∀ name ∈ rest, s.Holds (t.pruned [above ++ [first]]) above name := by
        intro name member
        refine (holds_pruned_iff file).mpr ⟨others name member, ?_⟩
        rw [List.mem_singleton, List.append_right_inj, List.cons.injEq]
        rintro ⟨rfl, -⟩
        exact fresh member
      obtain ⟨gone, within, files, ended⟩ := ih (sound.pruned file) later left
      rw [FileTree.pruned_pruned] at files
      rw [Outcome.inTurn, one, Outcome.andThen_done]
      refine ⟨first :: gone, List.cons_subset_cons first within, ?_, ?_⟩
      · rw [Outcome.files_andThen_done, files]
        rfl
      · rcases ended with ⟨rfl, short, ok⟩ | ⟨name, member, long, stopped⟩
        · rw [Outcome.andThen_of_ok ok]
          exact Or.inl ⟨rfl, List.forall_mem_cons.mpr ⟨fits, short⟩, rfl⟩
        · rw [Outcome.andThen_of_error stopped]
          exact Or.inr ⟨name, List.mem_cons_of_mem _ member, long, rfl⟩
    · rw [Outcome.inTurn, removeOne_of_long sound own fits]
      exact ⟨[], List.nil_subset _, t.pruned_nil.symm, Or.inr ⟨first, List.mem_cons_self, fits, rfl⟩⟩

/-- What clearing comes to, with the names of all files that are held and of those that went. Either all of them
went and were counted, or the place of one of them is too long. -/
structure Cleared (s : SidecarStore) (t : FileTree) (held gone : List (List String)) : Prop where
  distinct : held.Nodup
  mem_iff : ∀ names, names ∈ held ↔ ∃ above name, names = above ++ [name] ∧ s.Holds t above name
  within : gone ⊆ held
  files : (s.clear t).files = t.pruned gone
  ended :
    (gone = held ∧ (∀ above name, s.Holds t above name → s.Fits name) ∧ (s.clear t).result = .ok held.length) ∨
      ∃ above name, s.Holds t above name ∧ ¬s.Fits name ∧
        (s.clear t).result = .error (.access (s.dir.join name) .nameTooLong)

theorem Cleared.areFiles {held gone : List (List String)} (cleared : s.Cleared t held gone) : t.AreFiles gone := by
  intro names member
  obtain ⟨above, name, rfl, own⟩ := (cleared.mem_iff names).mp (cleared.within member)
  exact own.file

/-- Without a file that is held, nothing is cleared. -/
theorem cleared_of_none (none_ : ∀ above name, ¬s.Holds t above name) (same : s.clear t = .done t 0) :
    s.Cleared t [] [] where
  distinct := List.nodup_nil
  mem_iff := by simp [none_]
  within := List.Subset.refl _
  files := by rw [same, t.pruned_nil, Outcome.files_done]
  ended := Or.inl ⟨rfl, fun above name held => absurd held (none_ above name), by rw [same]; rfl⟩

theorem exists_cleared (s : SidecarStore) (sound : t.Sound) : ∃ held gone, s.Cleared t held gone := by
  cases located : t.locate s.dir with
  | error fault =>
    refine ⟨[], [], cleared_of_none (fun above name held => ?_) (by simp [clear, located])⟩
    rw [held.dir] at located
    cases located
  | ok above =>
    by_cases directory : t.entry? above = some .directory
    · have listed (name : String) :
          name ∈ (t.filesIn above).filter isSidecarName ↔ s.Holds t above name := by
        rw [List.mem_filter, sound.mem_filesIn]
        exact ⟨fun ⟨file, named⟩ => ⟨located, directory, file, of_decide_eq_true named⟩,
          fun held => ⟨held.file, decide_eq_true held.extension⟩⟩
      have run : s.clear t = (Outcome.inTurn s.removeOne t ((t.filesIn above).filter isSidecarName)).andThen
          fun files removed => .done files removed.length := by
        simp [clear, located, FileTree.isDirAt_iff.mpr directory]
      have distinct := (sound.nodup_filesIn above).filter isSidecarName
      generalize (t.filesIn above).filter isSidecarName = found at listed run distinct
      obtain ⟨gone, within, files, ended⟩ := inTurn_removeOne sound distinct fun name member =>
        (listed name).mp member
      have only {dir : List String} {name : String} (held : s.Holds t dir name) : dir = above ∧ name ∈ found := by
        obtain rfl := Except.ok.inj (held.dir.symm.trans located)
        exact ⟨rfl, (listed name).mpr held⟩
      refine ⟨found.map fun name => above ++ [name], gone.map fun name => above ++ [name], ?_, ?_, ?_, ?_, ?_⟩
      · exact distinct.map fun a b same => by simpa using same
      · intro names
        rw [List.mem_map]
        constructor
        · rintro ⟨name, member, rfl⟩
          exact ⟨above, name, rfl, (listed name).mp member⟩
        · rintro ⟨dir, name, rfl, held⟩
          obtain ⟨rfl, member⟩ := only held
          exact ⟨name, member, rfl⟩
      · exact List.map_subset _ within
      · rw [run, Outcome.files_andThen_done, files]
      · rcases ended with ⟨rfl, short, ok⟩ | ⟨name, member, long, stopped⟩
        · refine Or.inl ⟨rfl, fun dir name held => short name (only held).2, ?_⟩
          rw [run, Outcome.andThen_of_ok ok, Outcome.result_done, List.length_map, List.length_map]
        · refine Or.inr ⟨above, name, (listed name).mp member, long, ?_⟩
          rw [run, Outcome.andThen_of_error stopped, Outcome.result_failed]
    · refine ⟨[], [], cleared_of_none (fun dir name held => ?_) ?_⟩
      · rw [Except.ok.inj (held.dir.symm.trans located)] at held
        exact directory held.isDir
      · simp [clear, located, mt FileTree.isDirAt_iff.mp directory]

/-- Where all places are short enough, all that is held goes. -/
theorem exists_cleared_all (s : SidecarStore) (sound : t.Sound)
    (short : ∀ above name, s.Holds t above name → s.Fits name) :
    ∃ held, s.Cleared t held held ∧ (s.clear t).result = .ok held.length := by
  obtain ⟨held, gone, cleared⟩ := s.exists_cleared sound
  rcases cleared.ended with ⟨rfl, -, ok⟩ | ⟨above, name, own, long, -⟩
  · exact ⟨gone, cleared, ok⟩
  · exact absurd (short above name own) long

theorem clear_of_none (sound : t.Sound) (none_ : ∀ above name, ¬s.Holds t above name) : s.clear t = .done t 0 := by
  obtain ⟨held, cleared, ok⟩ := s.exists_cleared_all sound fun above name own => absurd own (none_ above name)
  have empty : held = [] := List.eq_nil_iff_forall_not_mem.mpr fun names member => by
    obtain ⟨above, name, -, own⟩ := (cleared.mem_iff names).mp member
    exact none_ above name own
  have same := cleared.files
  rw [empty, t.pruned_nil] at same
  rw [empty] at ok
  cases run : s.clear t with
  | mk files result =>
    rw [run] at same ok
    subst same
    subst ok
    rfl

/-- The name of a sidecar that can be looked up is the last on the way to it. -/
theorem holds_of_locate_place (filled : s.dir.text ≠ "") (sound : t.Sound) {names : List String}
    (located : t.locate (s.place document) = .ok names) :
    s.Fits (sidecarName (s.relPath document)) ∧ ∃ above, t.locate s.dir = .ok above ∧
      t.entry? above = some .directory ∧ names = above ++ [sidecarName (s.relPath document)] := by
  have last : sidecarName (s.relPath document) ∈ names := by
    have way := (FileTree.locate_eq_ok located).2
    rw [steps_place, List.foldl_append] at way
    rw [way]
    exact List.mem_append_right _ List.mem_cons_self
  exact (FileTree.locate_join_eq_ok filled (sound.locate located _ last)).mp located

theorem Cleared.load {held : List (List String)} (cleared : s.Cleared t held held) (filled : s.dir.text ≠ "")
    (sound : t.Sound) (apart : document.same s.workspace = false) :
    s.load (s.clear t).files document = .ok none := by
  have gone : (s.clear t).files.isFile (s.place document) = false := by
    rw [Bool.eq_false_iff]
    intro file
    rw [cleared.files] at file
    obtain ⟨names, body, located, found⟩ := FileTree.isFile_eq_true file
    obtain ⟨-, above, dir, isDir, rfl⟩ := holds_of_locate_place filled (sound.pruned cleared.areFiles) located
    obtain ⟨before, kept⟩ := (holds_pruned_iff cleared.areFiles).mp
      ⟨dir, isDir, ⟨body, found⟩, extension?_sidecarName apart⟩
    exact kept ((cleared.mem_iff _).mpr ⟨above, _, rfl, before⟩)
  rw [SidecarStore.load, gone]
  rfl

theorem sound_emit (sound : files.Sound) : (s.emit now files docs).files.Sound := by
  have keep : ∀ x : FileTree, x.Sound → ∀ d ∈ firstByPlace docs, (s.write now x d).files.Sound := by
    intro x before d _
    rcases files_write_cases s now x d with same | ⟨body, wrote⟩
    · rw [same]
      exact before
    · exact before.write wrote
  have made := sound.makeDirs s.dir
  unfold emit
  split
  · next x cause run =>
    rw [run] at made
    exact made
  · next x run =>
    rw [run] at made
    exact (Outcome.inTurn_cases keep made).1

/-- The place of a sidecar that was written is short enough. -/
theorem fits_or_old (sound : files.Sound) (held : s.Holds (s.emit now files docs).files above name) :
    s.Fits name ∨ ∃ body, files.entry? (above ++ [name]) = some (.file body) := by
  obtain ⟨body, file⟩ := held.file
  rcases entry?_emit_of_file file with old | ⟨d, -, located⟩
  · exact Or.inr ⟨body, old⟩
  · obtain ⟨fits, _, _, _, same⟩ := holds_of_locate_place (filled_of_locate held.dir) (sound_emit sound) located
    obtain rfl : name = sidecarName (s.relPath d.location) := by
      have last := congrArg List.getLast? same
      simpa using last
    exact Or.inl fits

/-- Clearing takes away the files of sidecars in the directory and nothing else, and a second time does nothing.
None of the documents that sidecars were emitted for has one then, also where that failed on the way. -/
theorem clear_undoes_emit (s : SidecarStore) (sound : files.Sound) :
    ((∀ above name, s.Holds files above name → s.Fits name) →
      (∃ held : List (List String), held.Nodup ∧
        (∀ names, names ∈ held ↔ ∃ above name, names = above ++ [name] ∧ s.Holds files above name) ∧
        (s.clear files).result = .ok held.length ∧ (s.clear files).files.here = files.here ∧
        ∀ names, FileTree.entry? (s.clear files).files names = if names ∈ held then none else files.entry? names) ∧
      s.clear (s.clear files).files = .done (s.clear files).files 0) ∧
    (s.dir.text ≠ "" → ∀ now docs, (∀ d ∈ docs, d.location.same s.workspace = false) →
      (∀ above name body, files.entry? (above ++ [name]) = some (.file body) →
        s.Holds (s.emit now files docs).files above name → s.Fits name) →
      (∃ n, (s.clear (s.emit now files docs).files).result = .ok n) ∧
        ∀ d ∈ docs, s.load (s.clear (s.emit now files docs).files).files d.location = .ok none) := by
  constructor
  · intro short
    obtain ⟨held, cleared, ok⟩ := s.exists_cleared_all sound short
    have gone := cleared.areFiles
    refine ⟨⟨held, cleared.distinct, cleared.mem_iff, ok, by rw [cleared.files]; rfl, fun names => ?_⟩, ?_⟩
    · rw [cleared.files, FileTree.entry?_pruned gone.root]
    · rw [cleared.files]
      refine clear_of_none (sound.pruned gone) fun above name own => ?_
      obtain ⟨before, kept⟩ := (holds_pruned_iff gone).mp own
      exact kept ((cleared.mem_iff _).mpr ⟨above, name, rfl, before⟩)
  · intro filled now docs apart short
    have after : (s.emit now files docs).files.Sound := sound_emit sound
    obtain ⟨held, cleared, ok⟩ := s.exists_cleared_all after fun above name own => by
      rcases fits_or_old sound own with fits | ⟨body, old⟩
      · exact fits
      · exact short above name body old own
    exact ⟨⟨_, ok⟩, fun d member => cleared.load filled after (apart d member)⟩

/-- A directory beside others that holds a file with the extension of a sidecar and one without. -/
def cachedBefore : FileTree where
  entries := [(["ws"], .directory), (["ws", "cache"], .directory),
    (["ws", "cache", "old.json"], .file (.text "1")), (["ws", "cache", "notes.txt"], .file (.text "2")),
    (["ws", "cache", "deep.json"], .directory), (["ws", "other.json"], .file (.text "3"))]
  here := ["ws"]

theorem sound_cachedBefore : cachedBefore.Sound := by
  decide +kernel

theorem clear_undoes_emit_cached :
    (∀ above name, cached.Holds cachedBefore above name → cached.Fits name) ∧
      cached.clear (cached.clear cachedBefore).files = .done (cached.clear cachedBefore).files 0 ∧
      (∀ d ∈ [inDirectory], d.location.same cached.workspace = false) ∧
      (∃ n, (cached.clear (cached.emit ⟨0, 0⟩ cachedBefore [inDirectory]).files).result = .ok n) ∧
      cached.load (cached.clear (cached.emit ⟨0, 0⟩ cachedBefore [inDirectory]).files).files inDirectory.location =
        .ok none := by
  have room : cached.dir.text.utf8ByteSize + 256 ≤ FileTree.longestPlace := by decide +kernel
  have apart : ∀ d ∈ [inDirectory], d.location.same cached.workspace = false := by decide +kernel
  have short : ∀ above name, cached.Holds cachedBefore above name → cached.Fits name :=
    fun _ _ held => held.fits sound_cachedBefore room
  obtain ⟨cleared, emitted⟩ := clear_undoes_emit cached sound_cachedBefore
  obtain ⟨again, gone⟩ := emitted (by decide) ⟨0, 0⟩ [inDirectory] apart
    fun _ _ _ _ held => held.fits (sound_emit sound_cachedBefore) room
  exact ⟨short, (cleared short).2, apart, again, gone _ List.mem_cons_self⟩

end Clear

/-- A directory that is written as nothing: sidecars go to the current directory. -/
def unnamedStore : SidecarStore :=
  ⟨⟨"/ws"⟩, ⟨""⟩⟩

/-- A directory that is written with slashes at its end, one and some more. -/
def slashedDir (more : Nat) : Location :=
  ⟨String.ofList ("/ws".toList ++ '/' :: List.replicate more '/')⟩

def slashedHolds : FileTree :=
  ⟨[(["ws"], .directory), (["ws", "a.json"], .file (.text ""))], []⟩

section Slashed

variable {more : Nat}

theorem toList_slashedDir (more : Nat) :
    (slashedDir more).text.toList = "/ws".toList ++ '/' :: List.replicate more '/' :=
  String.toList_ofList

theorem utf8ByteSize_slashedDir (more : Nat) : (slashedDir more).text.utf8ByteSize = more + 4 := by
  have slashes : (String.ofList (List.replicate more '/')).utf8ByteSize = more := by
    induction more with
    | zero => rfl
    | succ more ih =>
      rw [List.replicate_succ, utf8ByteSize_ofList_cons, ih, Nat.add_comm]
      rfl
  have front : (String.ofList "/ws".toList).utf8ByteSize = 3 := by decide +kernel
  rw [slashedDir, String.ofList_append, String.utf8ByteSize_append, utf8ByteSize_ofList_cons, slashes, front]
  have one : '/'.utf8Size = 1 := rfl
  omega

theorem pieces_slashes (more : Nat) : pieces '/' (List.replicate more '/') = List.replicate (more + 1) [] := by
  induction more with
  | zero => rfl
  | succ more ih => rw [List.replicate_succ, pieces, if_pos rfl, ih, ← List.replicate_succ]

theorem locate_slashedDir (short : more + 4 ≤ FileTree.longestPlace) :
    slashedHolds.locate (slashedDir more) = .ok ["ws"] := by
  have text := toList_slashedDir more
  have filled : (slashedDir more).text ≠ "" := by
    rw [Ne, ← String.toList_eq_nil_iff, text]
    simp
  have textual : '\x00' ∉ (slashedDir more).text.toList := by
    rw [text]
    simp
  have absolute : (slashedDir more).isAbsolute = true := by simp [Location.isAbsolute, text]
  have idle : ∀ part ∈ List.replicate (more + 1) [], Location.idle part = true :=
    fun part member => List.eq_of_mem_replicate member ▸ rfl
  refine FileTree.locate_eq_ok_iff.mpr ⟨FileTree.checkPlace_eq_ok_iff.mpr ⟨filled, textual, ?_⟩, ?_⟩
  · rw [utf8ByteSize_slashedDir]
    exact short
  · rw [absolute, text, pieces_append_sep, pieces_slashes, if_pos rfl, FileTree.walk_append_eq_ok]
    exact ⟨["ws"], eq_ok_of_toOption (by decide +kernel),
      ((FileTree.walk_idle_iff idle).mpr ⟨rfl, by decide +kernel⟩).1⟩

/-- The directory can be looked up, and the file in it cannot. -/
def slashedStore : SidecarStore :=
  ⟨⟨"/ws"⟩, slashedDir 4091⟩

theorem holds_slashedStore : slashedStore.Holds slashedHolds ["ws"] "a.json" where
  dir := locate_slashedDir (Nat.le_refl _)
  isDir := by decide +kernel
  file := ⟨.text "", by decide +kernel⟩
  extension := by decide +kernel

theorem not_fits_slashedStore : ¬slashedStore.Fits "a.json" := by
  have free : '/' ∉ "a.json".toList := by decide
  have relative : "a.json".toList.head? ≠ some '/' := by decide
  obtain ⟨between, _, _, text, -⟩ := Location.join_form relative (filled_of_locate holds_slashedStore.dir) free
  have name : "a.json".utf8ByteSize = 6 := by decide +kernel
  have whole : slashedStore.dir.text.utf8ByteSize = FileTree.longestPlace := utf8ByteSize_slashedDir 4091
  rw [Fits, text, String.utf8ByteSize_append, String.utf8ByteSize_append, whole, name]
  omega

end Slashed

theorem not_clear_undoes_emit :
    (¬∀ (s : SidecarStore) (now : Instant) (files : FileTree) (docs : List Document) (places : List Location),
      files.Sound → (∀ d ∈ docs, d.location.same s.workspace = false) →
        (s.emit now files docs).result = .ok places →
          ∀ d ∈ docs, s.load (s.clear (s.emit now files docs).files).files d.location = .ok none) ∧
      ¬∀ (s : SidecarStore) (files : FileTree), files.Sound → ∃ n, (s.clear files).result = .ok n := by
  constructor
  · intro claim
    have done : (unnamedStore.emit ⟨0, 0⟩ workspaceOnly [inDirectory]).result = .ok [⟨"a~b.yaml.json"⟩] :=
      eq_ok_of_toOption (by decide +kernel)
    have none_ := claim unnamedStore ⟨0, 0⟩ workspaceOnly [inDirectory] _ (by decide +kernel)
      (by decide +kernel) done
      inDirectory List.mem_cons_self
    have faithful : ∀ x ∈ firstByPlace [inDirectory], (unnamedStore.describe ⟨0, 0⟩ x).ReadsBack := by
      intro x member
      rw [List.mem_singleton.mp (mem_of_mem_firstByPlace member)]
      exact readsBack_inDirectory
    have plain : ∀ x ∈ [inDirectory], Plain x.location := by
      intro x member
      rw [List.mem_singleton.mp member]
      exact ⟨by decide +kernel, by decide +kernel⟩
    obtain ⟨_, law, apart⟩ := emit_loads_iff_namesApart done faithful
    obtain ⟨first, -, loaded⟩ := (law.mpr (apart rfl plain)).2 inDirectory List.mem_cons_self
    have kept (x : FileTree) : (unnamedStore.clear x).files = x := rfl
    rw [kept, loaded] at none_
    cases none_
  · intro claim
    have sound : slashedHolds.Sound := by decide +kernel
    obtain ⟨n, ok⟩ := claim slashedStore slashedHolds sound
    obtain ⟨held, gone, cleared⟩ := slashedStore.exists_cleared sound
    rcases cleared.ended with ⟨-, short, -⟩ | ⟨above, name, -, -, stopped⟩
    · exact not_fits_slashedStore (short _ _ holds_slashedStore)
    · rw [ok] at stopped
      cases stopped

end SidecarStore

end LayeredConfig
