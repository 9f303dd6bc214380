import LayeredConfig.Proofs.FileTree.Growth
import LayeredConfig.Proofs.FileTree.Places
import LayeredConfig.Proofs.Location.Relative
import LayeredConfig.Proofs.Outcome
import LayeredConfig.Proofs.Value.Equality
import LayeredConfig.Sidecar.Store

namespace LayeredConfig

/-- What is printed for the sidecar reads as the sidecar. -/
def Sidecar.ReadsBack (x : Sidecar) : Prop :=
  (Json.readSelected? Sidecar.parts (Json.printIndented x.toValue)).bind Sidecar.ofValue? = some x

deriving instance DecidableEq for SidecarEntity

deriving instance DecidableEq for Sidecar

/-- Read letter by letter, without a text in between. -/
theorem Sidecar.readsBack_iff {x : Sidecar} : x.ReadsBack ↔
    ((Json.value? Sidecar.parts (2 * (Json.indented 0 x.toValue).length + 2) Json.maxDepth
        (Json.indented 0 x.toValue)).bind fun read =>
      if (Json.skipSpace read.2).isEmpty then Sidecar.ofValue? read.1 else none) = some x := by
  unfold ReadsBack Json.readSelected? Json.printIndented
  rw [String.toList_ofList]
  dsimp only
  cases read : Json.value? Sidecar.parts (2 * (Json.indented 0 x.toValue).length + 2) Json.maxDepth
    (Json.indented 0 x.toValue) with
  | none => rfl
  | some both =>
    obtain ⟨value, rest⟩ := both
    by_cases whole : Json.skipSpace rest = [] <;> simp [whole]

theorem isName_sidecarName (relPath : String) : Location.IsName (sidecarName relPath) := by
  have written : (sidecarName relPath).toList =
      relPath.toList.map (fun c => if c = '/' ∨ c = '\\' then '~' else c) ++ ['.', 'j', 's', 'o', 'n'] := by
    simp [sidecarName]
  refine ⟨?_, ?_, ?_⟩
  · rw [written]
    intro slash
    rcases List.mem_append.mp slash with inside | ending
    · obtain ⟨c, _, made⟩ := List.mem_map.mp inside
      by_cases mark : c = '/' ∨ c = '\\'
      · simp [mark] at made
      · exact mark (Or.inl (by simpa [mark] using made))
    · simp at ending
  · have long : 5 ≤ (sidecarName relPath).toList.length := by simp [written]
    unfold Location.idle
    cases text : (sidecarName relPath).toList with
    | nil => simp [text] at long
    | cons c rest =>
      have more : rest ≠ [] := by
        rintro rfl
        simp [text] at long
      simp [more]
  · intro dots
    have long : 5 ≤ (sidecarName relPath).toList.length := by simp [written]
    simp [dots] at long

namespace SidecarStore

variable {s : SidecarStore} {now : Instant} {files t : FileTree} {docs : List Document} {d : Document}
  {a b : Location}

theorem steps_place (s : SidecarStore) (document : Location) :
    (s.place document).steps = s.dir.steps ++ [.name (sidecarName (s.relPath document))] := by
  obtain ⟨free, busy, up⟩ := isName_sidecarName (s.relPath document)
  have sound : ∀ part ∈ [(sidecarName (s.relPath document)).toList], '/' ∉ part ∧ Location.idle part = false := by
    simp [free, busy]
  have plain := Location.opening_joinWith sound
  have spells := Location.spelled_joinWith sound
  rw [place, Location.steps_join (fun slash => free (List.mem_of_head? slash)) (Or.inr plain)]
  simpa [Location.stepOf, up, joinWith] using spells

/-- The sidecars of two documents have one place when they have one name. -/
theorem same_place_iff : (s.place a).same (s.place b) = true ↔
    sidecarName (s.relPath a) = sidecarName (s.relPath b) := by
  rw [Location.same_iff, steps_place, steps_place]
  simp

theorem relPath_of_same (same : a.same b = true) : s.relPath a = s.relPath b := by
  rw [relPath, relPath, Location.relativeTo, Location.relativeTo, Location.same_iff.mp same]

theorem place_of_same (same : a.same b = true) : s.place a = s.place b := by
  rw [place, place, relPath_of_same same]

/-- Sidecars with different names are different files. -/
theorem locate_place_ne (apart : sidecarName (s.relPath a) ≠ sidecarName (s.relPath b)) {names : List String}
    (located : t.locate (s.place a) = .ok names) : t.locate (s.place b) ≠ .ok names := by
  intro other
  have left := (FileTree.locate_eq_ok located).2
  have right := (FileTree.locate_eq_ok other).2
  rw [steps_place, List.foldl_append] at left right
  have last := congrArg List.getLast? (left.symm.trans right)
  exact apart (by simpa [Step.move] using last)

theorem mem_of_mem_firstByPlace (member : d ∈ firstByPlace docs) : d ∈ docs := by
  induction docs with
  | nil => cases member
  | cons first rest ih =>
    rcases List.mem_cons.mp member with rfl | later
    · exact List.mem_cons_self
    · exact List.mem_cons_of_mem _ (ih (List.mem_filter.mp later).1)

theorem firstByPlace_pairwise (docs : List Document) :
    (firstByPlace docs).Pairwise fun x y => y.location.same x.location = false := by
  induction docs with
  | nil => exact .nil
  | cons first rest ih =>
    refine .cons (fun later member => ?_) (ih.filter _)
    simpa using (List.mem_filter.mp member).2

theorem mem_firstByPlace_of_find? {place : Location} (found : docs.find? (·.location.same place) = some d) :
    d ∈ firstByPlace docs := by
  induction docs with
  | nil => cases found
  | cons first rest ih =>
    by_cases here : first.location.same place = true
    · rw [List.find?_cons, here] at found
      cases found
      exact List.mem_cons_self
    · rw [List.find?_cons, Bool.eq_false_iff.mpr here] at found
      change rest.find? (fun x => x.location.same place) = some d at found
      have own : d.location.same place = true :=
        List.find?_some (p := fun x : Document => x.location.same place) found
      have apart : d.location.same first.location = false := by
        rw [Bool.eq_false_iff]
        intro same
        exact here (Location.same_iff.mpr ((Location.same_iff.mp same).symm.trans (Location.same_iff.mp own)))
      exact List.mem_cons_of_mem _ (List.mem_filter.mpr ⟨ih found, by simp [apart]⟩)

theorem exists_find?_same (member : d ∈ docs) : ∃ first,
    docs.find? (·.location.same d.location) = some first ∧ first.location.same d.location = true := by
  have some_ : (docs.find? (·.location.same d.location)).isSome = true := by
    rw [List.find?_isSome]
    exact ⟨d, member, Location.same_iff.mpr rfl⟩
  obtain ⟨first, found⟩ := Option.isSome_iff_exists.mp some_
  exact ⟨first, found, List.find?_some (p := fun x : Document => x.location.same d.location) found⟩

theorem write_eq_ok {place : Location} (done : (s.write now files d).result = .ok place) :
    place = s.place d.location ∧
      files.write (s.place d.location) (.text (Json.printIndented (s.describe now d).toValue)) =
        .ok (s.write now files d).files := by
  unfold SidecarStore.write at done ⊢
  dsimp only at done ⊢
  split at done
  · next after wrote =>
    rw [wrote]
    exact ⟨(Except.ok.inj done).symm, rfl⟩
  · cases done

/-- What writing sidecars in turn leaves behind: it adds files alone, and what is
no sidecar of these documents reads as before. -/
theorem inTurn_write {places : List Location}
    (done : (Outcome.inTurn (s.write now) files docs).result = .ok places) :
    places = docs.map (s.place ·.location) ∧
      files.SameDirs (Outcome.inTurn (s.write now) files docs).files ∧
      ∀ l names, files.locate l = .ok names → (∀ x ∈ docs, files.locate (s.place x.location) ≠ .ok names) →
        (Outcome.inTurn (s.write now) files docs).files.read l = files.read l := by
  induction docs generalizing files places with
  | nil =>
    cases done
    exact ⟨rfl, .refl files, fun _ _ _ _ => rfl⟩
  | cons first rest ih =>
    obtain ⟨place, others, wrote, more, rfl, after⟩ := Outcome.inTurn_cons done
    obtain ⟨own, wrote⟩ := write_eq_ok wrote
    obtain ⟨later, grown, frame⟩ := ih more
    have one := FileTree.sameDirs_of_write wrote
    rw [after]
    refine ⟨by rw [own, later, List.map_cons], one.trans grown, ?_⟩
    intro l names located apart
    have kept := FileTree.read_write_of_ne wrote located (apart first List.mem_cons_self)
    rw [← kept]
    refine frame l names ((one.locate_eq_ok l names).mpr located) ?_
    intro x member there
    exact apart x (List.mem_cons_of_mem _ member) ((one.locate_eq_ok _ names).mp there)

/-- Sidecars with names of their own hold, in the end, what was written for each. -/
theorem read_of_inTurn_write {places : List Location}
    (done : (Outcome.inTurn (s.write now) files docs).result = .ok places)
    (apart : docs.Pairwise fun x y => sidecarName (s.relPath x.location) ≠ sidecarName (s.relPath y.location))
    (member : d ∈ docs) :
    (Outcome.inTurn (s.write now) files docs).files.read (s.place d.location) =
      .ok (Json.printIndented (s.describe now d).toValue) := by
  induction docs generalizing files places with
  | nil => cases member
  | cons first rest ih =>
    obtain ⟨place, others, wrote, more, rfl, after⟩ := Outcome.inTurn_cons done
    obtain ⟨own, later⟩ := List.pairwise_cons.mp apart
    rw [after]
    rcases List.mem_cons.mp member with rfl | inside
    · have wrote := (write_eq_ok wrote).2
      obtain ⟨names, located, -, -, -⟩ := FileTree.write_eq_ok wrote
      have held := ((FileTree.sameDirs_of_write wrote).locate_eq_ok _ names).mpr located
      rw [(inTurn_write more).2.2 _ names held fun x known => locate_place_ne (own x known) held]
      exact FileTree.read_of_write wrote
    · exact ih more later inside

/-- Documents in different places have sidecars of different names. -/
def NamesApart (s : SidecarStore) (docs : List Document) : Prop :=
  ∀ x ∈ docs, ∀ y ∈ docs, sidecarName (s.relPath x.location) = sidecarName (s.relPath y.location) →
    x.location.same y.location = true

theorem namesApart_iff : s.NamesApart docs ↔
    ((firstByPlace docs).map fun x => sidecarName (s.relPath x.location)).Nodup := by
  constructor
  · intro apart
    rw [List.Nodup, List.pairwise_map]
    refine (firstByPlace_pairwise docs).imp_of_mem ?_
    intro x y left right differ same
    have known := apart y (mem_of_mem_firstByPlace right) x (mem_of_mem_firstByPlace left) same.symm
    rw [known] at differ
    cases differ
  · intro distinct x left y right same
    obtain ⟨first, found, atX⟩ := exists_find?_same left
    obtain ⟨second, other, atY⟩ := exists_find?_same right
    have names : sidecarName (s.relPath first.location) = sidecarName (s.relPath second.location) := by
      rw [relPath_of_same atX, relPath_of_same atY, same]
    have one := List.inj_on_of_nodup_map distinct (mem_firstByPlace_of_find? found)
      (mem_firstByPlace_of_find? other)
      names
    rw [one] at atX
    rw [Location.same_iff] at atX atY ⊢
    exact atX.symm.trans atY

/-- An absolute canonical place that names no tilde and no backslash. -/
def Plain (l : Location) : Prop :=
  (l.isAbsolute = true ∧ l.normalize = l) ∧ '~' ∉ l.text.toList ∧ '\\' ∉ l.text.toList

/-- Slashes become tildes, so where no tildes are, nothing is lost. -/
theorem eq_of_sidecarName_eq {r q : String} (left : '~' ∉ r.toList ∧ '\\' ∉ r.toList)
    (right : '~' ∉ q.toList ∧ '\\' ∉ q.toList) (same : sidecarName r = sidecarName q) : r = q := by
  have back : ∀ p : String, '~' ∉ p.toList ∧ '\\' ∉ p.toList →
      (p.toList.map fun c => if c = '/' ∨ c = '\\' then '~' else c).map (fun c => if c = '~' then '/' else c) =
        p.toList := by
    intro p clean
    rw [List.map_map]
    refine (List.map_congr_left ?_).trans (List.map_id _)
    intro c member
    have noTilde : c ≠ '~' := fun tilde => clean.1 (tilde ▸ member)
    have noBackslash : c ≠ '\\' := fun slash => clean.2 (slash ▸ member)
    by_cases slash : c = '/' <;> simp [slash, noTilde, noBackslash]
  unfold sidecarName at same
  rw [String.append_left_inj, String.ofList_inj] at same
  rw [← String.toList_inj, ← back r left, ← back q right, same]

theorem namesApart_of_plain (anchored : s.workspace.isAbsolute = true) (plain : ∀ x ∈ docs, Plain x.location) :
    s.NamesApart docs := by
  have clean : ∀ x ∈ docs, '~' ∉ (s.relPath x.location).toList ∧ '\\' ∉ (s.relPath x.location).toList ∧
      s.relPath x.location = (x.location.relativeTo s.workspace).text := by
    intro x member
    obtain ⟨_, noTilde, noBackslash⟩ := plain x member
    have written : ∀ c ∈ (x.location.relativeTo s.workspace).text.toList, c ≠ '\\' ∧ c ≠ '~' := by
      intro c inside
      rcases Location.mem_of_mem_relativeTo inside with own | rfl | rfl
      · exact ⟨fun slash => noBackslash (slash ▸ own), fun tilde => noTilde (tilde ▸ own)⟩
      · decide
      · decide
    have slashed : s.relPath x.location = (x.location.relativeTo s.workspace).text :=
      Location.slashed_of_not_mem fun slash => (written _ slash).1 rfl
    rw [slashed]
    exact ⟨fun tilde => (written _ tilde).2 rfl, fun slash => (written _ slash).1 rfl, rfl⟩
  intro x left y right same
  obtain ⟨noTilde, noBackslash, own⟩ := clean x left
  obtain ⟨noTilde', noBackslash', other⟩ := clean y right
  have rel := eq_of_sidecarName_eq ⟨noTilde, noBackslash⟩ ⟨noTilde', noBackslash'⟩ same
  rw [own, other] at rel
  have place := Location.eq_of_relativeTo_eq (plain x left).1 (plain y right).1 anchored (congrArg Location.mk rel)
  exact Location.same_iff.mpr (congrArg Location.steps place)

theorem emit_eq_ok {places : List Location} (done : (s.emit now files docs).result = .ok places) :
    ∃ before, (Outcome.inTurn (s.write now) before (firstByPlace docs)).result = .ok places ∧
      s.emit now files docs = Outcome.inTurn (s.write now) before (firstByPlace docs) := by
  unfold emit at done ⊢
  cases made : files.makeDirs s.dir with
  | mk before fault =>
    cases fault with
    | none => exact ⟨before, by simpa [made] using done, rfl⟩
    | some cause => simp [made, Outcome.failed] at done

theorem load_of_read {x : Sidecar} (read : t.read (s.place a) = .ok (Json.printIndented x.toValue))
    (faithful : x.ReadsBack) : s.load t a = .ok (some x) := by
  have file := FileTree.isFile_of_read read
  unfold Sidecar.ReadsBack at faithful
  simp [load, file, read, faithful]

/-- Each document has one sidecar of its own that loads as what describes it,
exactly when no two of them share the name of a sidecar. -/
theorem emit_loads_iff_namesApart {places : List Location} (done : (s.emit now files docs).result = .ok places)
    (faithful : ∀ x ∈ firstByPlace docs, (s.describe now x).ReadsBack) :
    places = (firstByPlace docs).map (s.place ·.location) ∧
      ((places.Pairwise fun p q => p.same q = false) ∧
          (∀ x ∈ docs, ∃ first, docs.find? (·.location.same x.location) = some first ∧
            s.load (s.emit now files docs).files x.location = .ok (some (s.describe now first))) ↔
        s.NamesApart docs) ∧
      (s.workspace.isAbsolute = true → (∀ x ∈ docs, Plain x.location) → s.NamesApart docs) := by
  obtain ⟨before, wrote, run⟩ := emit_eq_ok done
  have listed := (inTurn_write wrote).1
  have once : (places.Pairwise fun p q => p.same q = false) ↔ s.NamesApart docs := by
    rw [listed, namesApart_iff, List.Nodup, List.pairwise_map, List.pairwise_map]
    refine List.Pairwise.iff ?_
    intro x y
    rw [Bool.eq_false_iff, Ne, Ne, same_place_iff]
  refine ⟨listed, ⟨fun kept => once.mp kept.1, fun apart => ⟨once.mpr apart, ?_⟩⟩, namesApart_of_plain⟩
  have names := namesApart_iff.mp apart
  rw [List.Nodup, List.pairwise_map] at names
  intro x member
  obtain ⟨first, found, own⟩ := exists_find?_same member
  have kept := mem_firstByPlace_of_find? found
  have held := read_of_inTurn_write wrote names kept
  rw [place_of_same own, ← run] at held
  exact ⟨first, found, load_of_read held (faithful first kept)⟩

def cached : SidecarStore :=
  ⟨⟨"/ws"⟩, ⟨"/ws/cache"⟩⟩

def inDirectory : Document :=
  ⟨⟨"/ws/a/b.yaml"⟩, [("#A", .number (.int 1))], [], "'#A': 1\n", false⟩

/-- A document whose name has a tilde where the other has a slash. -/
def withTilde : Document :=
  ⟨⟨"/ws/a~b.yaml"⟩, [("#B", .number (.int 2))], [], "'#B': 2\n", false⟩

theorem readsBack_inDirectory : (cached.describe ⟨0, 0⟩ inDirectory).ReadsBack :=
  Sidecar.readsBack_iff.mpr (by decide +kernel)

theorem readsBack_withTilde : (cached.describe ⟨0, 0⟩ withTilde).ReadsBack :=
  Sidecar.readsBack_iff.mpr (by decide +kernel)

/-- The document a second time, with other entities. -/
def inDirectoryAgain : Document :=
  { inDirectory with entities := [] }

def workspaceOnly : FileTree :=
  ⟨[(["ws"], .directory)], []⟩

theorem emit_loads_first :
    (cached.emit ⟨0, 0⟩ workspaceOnly [inDirectory, inDirectoryAgain]).result = .ok [⟨"/ws/cache/a~b.yaml.json"⟩] ∧
      ∃ first, [inDirectory, inDirectoryAgain].find? (·.location.same inDirectoryAgain.location) = some first ∧
        cached.load (cached.emit ⟨0, 0⟩ workspaceOnly [inDirectory, inDirectoryAgain]).files
          inDirectoryAgain.location = .ok (some (cached.describe ⟨0, 0⟩ first)) := by
  have done : (cached.emit ⟨0, 0⟩ workspaceOnly [inDirectory, inDirectoryAgain]).result =
      .ok [⟨"/ws/cache/a~b.yaml.json"⟩] := eq_ok_of_toOption (by decide +kernel)
  have faithful : ∀ x ∈ firstByPlace [inDirectory, inDirectoryAgain], (cached.describe ⟨0, 0⟩ x).ReadsBack := by
    intro x member
    have one : firstByPlace [inDirectory, inDirectoryAgain] = [inDirectory] := rfl
    rw [one, List.mem_singleton] at member
    rw [member]
    exact readsBack_inDirectory
  have plain : ∀ x ∈ [inDirectory, inDirectoryAgain], Plain x.location := by
    intro x member
    have place : x.location = ⟨"/ws/a/b.yaml"⟩ := by
      rcases List.mem_cons.mp member with rfl | again
      · rfl
      · rw [List.mem_singleton.mp again]
        rfl
    rw [place]
    exact ⟨by decide +kernel, by decide +kernel⟩
  obtain ⟨_, law, apart⟩ := emit_loads_iff_namesApart done faithful
  exact ⟨done, (law.mpr (apart rfl plain)).2 inDirectoryAgain (by simp)⟩

theorem not_emit_loads_tilde :
    ¬∀ (s : SidecarStore) (now : Instant) (files : FileTree) (docs : List Document) (places : List Location),
      (s.emit now files docs).result = .ok places → (∀ x ∈ docs, (s.describe now x).ReadsBack) →
      (places.Pairwise fun p q => p.same q = false) ∧
        ∀ x ∈ docs, ∃ first, docs.find? (·.location.same x.location) = some first ∧
          s.load (s.emit now files docs).files x.location = .ok (some (s.describe now first)) := by
  intro claim
  have faithful : ∀ x ∈ [inDirectory, withTilde], (cached.describe ⟨0, 0⟩ x).ReadsBack := by
    intro x member
    rcases List.mem_cons.mp member with rfl | other
    · exact readsBack_inDirectory
    · rw [List.mem_singleton.mp other]
      exact readsBack_withTilde
  obtain ⟨once, -⟩ := claim cached ⟨0, 0⟩ workspaceOnly [inDirectory, withTilde]
    [⟨"/ws/cache/a~b.yaml.json"⟩, ⟨"/ws/cache/a~b.yaml.json"⟩] (eq_ok_of_toOption (by decide +kernel)) faithful
  exact absurd once (by decide)

end SidecarStore

end LayeredConfig
