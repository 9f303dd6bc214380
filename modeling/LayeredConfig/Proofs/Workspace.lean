import LayeredConfig.Proofs.Ancestry.Retrace
import LayeredConfig.Proofs.Combined.Calm
import LayeredConfig.Proofs.Sidecar.Repeat
import LayeredConfig.Workspace

namespace LayeredConfig

open Document (AtRest KeepsKeys calm)

theorem Location.absolutize_canonical {base : Location} (absolute : base.isAbsolute = true) (l : Location) :
    (l.absolutize base).isAbsolute = true ∧ (l.absolutize base).normalize = l.absolutize base := by
  refine ⟨isAbsolute_absolutize absolute l, ?_⟩
  unfold absolutize
  split <;> exact normalize_normalize _

namespace Workspace

theorem isAbsolute_root_openAt (files : FileTree) (place : Location) (settings : Settings) :
    (openAt files place settings).root.isAbsolute = true := by
  have current : files.current.isAbsolute = true := by
    simp [FileTree.current, Location.isAbsolute]
  exact Location.isAbsolute_absolutize current place

def surroundings (w : Workspace) (now : Instant) : Surroundings :=
  ⟨w.upkeep, w.search, now⟩

/-- The sidecars that a resolution writes, if it writes any. -/
def emitted (w : Workspace) (now : Instant) (files : FileTree) (documents : List Document) :
    Outcome (List Location) :=
  if w.settings.emitCache then w.sidecarStore.emit now files documents else .done files []

variable {w : Workspace} {now later : Instant} {t u : FileTree} {place : Location} {a : Ancestry}

theorem isAbsolute_of_mem_roots (absolute : w.root.isAbsolute = true) (now : Instant) :
    ∀ root ∈ (w.surroundings now).search.roots, root.isAbsolute = true := by
  intro root member
  obtain ⟨p, _, rfl⟩ := List.mem_map.mp member
  exact Location.isAbsolute_absolutize absolute _

theorem resolve_of_ancestry {configuration : Configuration}
    (found : ((w.surroundings now).ancestry t (place.absolutize w.root)).result = .ok a)
    (combined : w.combine a = .ok configuration) :
    w.resolve now t place =
      (w.emitted now ((w.surroundings now).ancestry t (place.absolutize w.root)).files a.documents).andThen
        fun files sidecars =>
          .done files ⟨configuration, a.lineage, entitySources a.documents, a.documents, sidecars⟩ := by
  unfold resolve
  change Outcome.andThen ((w.surroundings now).ancestry t (place.absolutize w.root)) _ = _
  rw [Outcome.andThen_of_ok found]
  dsimp only
  rw [combined]
  rfl

theorem resolve_of_ancestry_error {fault : Fault}
    (failed : ((w.surroundings now).ancestry t (place.absolutize w.root)).result = .error fault) :
    w.resolve now t place = .failed ((w.surroundings now).ancestry t (place.absolutize w.root)).files fault := by
  unfold resolve
  change Outcome.andThen ((w.surroundings now).ancestry t (place.absolutize w.root)) _ = _
  rw [Outcome.andThen_of_error failed]

theorem resolve_of_combine_error {fault : Fault}
    (found : ((w.surroundings now).ancestry t (place.absolutize w.root)).result = .ok a)
    (failed : w.combine a = .error fault) :
    w.resolve now t place = .failed ((w.surroundings now).ancestry t (place.absolutize w.root)).files fault := by
  unfold resolve
  change Outcome.andThen ((w.surroundings now).ancestry t (place.absolutize w.root)) _ = _
  rw [Outcome.andThen_of_ok found]
  dsimp only
  rw [failed]

/-- A resolution that succeeds has found an ancestry, combined it and written its
sidecars. -/
theorem resolve_eq_ok {r : Resolution} (resolved : (w.resolve now t place).result = .ok r) :
    ∃ a, ((w.surroundings now).ancestry t (place.absolutize w.root)).result = .ok a ∧
      w.combine a = .ok r.configuration ∧
      (w.emitted now ((w.surroundings now).ancestry t (place.absolutize w.root)).files a.documents).result =
        .ok r.sidecars ∧
      r = ⟨r.configuration, a.lineage, entitySources a.documents, a.documents, r.sidecars⟩ ∧
      (w.resolve now t place).files =
        (w.emitted now ((w.surroundings now).ancestry t (place.absolutize w.root)).files a.documents).files := by
  cases found : ((w.surroundings now).ancestry t (place.absolutize w.root)).result with
  | error fault =>
    rw [resolve_of_ancestry_error found] at resolved
    cases resolved
  | ok a =>
    cases combined : w.combine a with
    | error fault =>
      rw [resolve_of_combine_error found combined] at resolved
      cases resolved
    | ok configuration =>
      rw [resolve_of_ancestry found combined] at resolved ⊢
      obtain ⟨sidecars, wrote, made⟩ := Outcome.andThen_result_eq_ok.mp resolved
      rw [Outcome.andThen_of_ok wrote]
      obtain rfl := Except.ok.inj made
      exact ⟨a, rfl, combined, wrote, rfl, rfl⟩

theorem combine_calm (w : Workspace) (a : Ancestry) : w.combine a.calm = w.combine a := by
  unfold combine
  simp only [Ancestry.calm, mergeDocuments_map_calm, compile_map_calm]

theorem foreignKey?_of_combine {configuration : Configuration} (combined : w.combine a = .ok configuration) :
    ∀ d ∈ a.documents, foreignKey? d = none := by
  obtain ⟨merged, merge, _⟩ := bind_eq_ok.mp combined
  exact foreignKey?_of_mergeDocuments merge

/-- Sidecars outside of which all documents are leave these alone, and can be
written again. -/
theorem emitted_again (absolute : w.root.isAbsolute = true) {documents : List Document} {sidecars : List Location}
    (wrote : (w.emitted now t documents).result = .ok sidecars)
    (outside : w.settings.emitCache = true → t.isDir w.sidecarStore.dir = true ∧
      ∀ d ∈ documents, ¬t.HoldsDirectly w.sidecarStore.dir d.location)
    (held : ∀ d ∈ documents, t.read d.location = .ok d.rawText) (later : Instant) :
    t.SameDirs (w.emitted now t documents).files ∧
      (∀ d ∈ documents, (w.emitted now t documents).files.read d.location = .ok d.rawText) ∧
      (w.emitted later (w.emitted now t documents).files (documents.map calm)).result = .ok sidecars ∧
      (∀ d ∈ documents,
        (w.emitted later (w.emitted now t documents).files (documents.map calm)).files.read d.location =
          .ok d.rawText) ∧
      (w.settings.emitCache = false →
        (w.emitted later (w.emitted now t documents).files (documents.map calm)).files =
          (w.emitted now t documents).files) := by
  have anchored : w.sidecarStore.dir.isAbsolute = true ∧ w.sidecarStore.dir.normalize = w.sidecarStore.dir :=
    Location.absolutize_canonical absolute _
  unfold emitted at wrote ⊢
  by_cases emits : w.settings.emitCache = true
  · simp only [emits, if_true] at wrote ⊢
    obtain ⟨directory, apart⟩ := outside emits
    obtain ⟨grown, frame⟩ := SidecarStore.emit_leaves anchored directory wrote
    have again := SidecarStore.emit_again anchored directory wrote later
    have directory' : (w.sidecarStore.emit now t documents).files.isDir w.sidecarStore.dir = true := by
      rw [grown.isDir, directory]
    have frame' := (SidecarStore.emit_leaves anchored directory' again).2
    have kept : ∀ d ∈ documents, (w.sidecarStore.emit now t documents).files.read d.location = .ok d.rawText :=
      fun d member => frame d.location d.rawText (held d member) (apart d member)
    have apart' : ∀ d ∈ documents, ¬(w.sidecarStore.emit now t documents).files.HoldsDirectly w.sidecarStore.dir
        d.location :=
      fun d member inside => apart d member (grown.holdsDirectly inside)
    exact ⟨grown, kept, again,
      fun d member => frame' d.location d.rawText (kept d member) (apart' d member), by simp⟩
  · simp only [Bool.not_eq_true] at emits
    simp only [emits, Bool.false_eq_true, if_false] at wrote ⊢
    have none_ : sidecars = [] := (Except.ok.inj wrote).symm
    subst none_
    exact ⟨.refl t, held, rfl, held, fun _ => rfl⟩

/-- A workspace that was resolved resolves the same at any later time, and no
document is written. -/
theorem resolve_again {start : FileTree} {dir : Location} {settings : Settings} {r : Resolution}
    (resolved : ((openAt start dir settings).resolve now t place).result = .ok r)
    (outside : settings.emitCache = true →
      t.isDir (settings.cacheLocation (openAt start dir settings).root) = true ∧
        ∀ d ∈ r.documents, ¬t.HoldsDirectly (settings.cacheLocation (openAt start dir settings).root) d.location)
    (faithful : ∀ d ∈ r.documents, d.refreshed = true → ∀ text own, t.read d.location = .ok text →
      Document.fieldsOf d.location text = .ok own →
      ReadsBack (.object (Document.upkeep (openAt start dir settings).upkeep d.location.dir now.toMillis own)))
    (keeps : ∀ d ∈ r.documents, KeepsKeys d.location d.rawText) (later : Instant) :
    let first := (openAt start dir settings).resolve now t place
    let second := (openAt start dir settings).resolve later first.files place
    second.result = .ok { r with documents := r.documents.map calm } ∧
      (∀ d ∈ r.documents, first.files.read d.location = .ok d.rawText ∧
        second.files.read d.location = .ok d.rawText) ∧
      (settings.emitCache = false → second.files = first.files) := by
  have absolute := isAbsolute_root_openAt start dir settings
  have shared : (openAt start dir settings).settings = settings := rfl
  generalize openAt start dir settings = w at *
  subst shared
  obtain ⟨a, found, combined, wrote, made, files⟩ := resolve_eq_ok resolved
  have documents : r.documents = a.documents := by rw [made]
  rw [documents] at outside faithful keeps ⊢
  dsimp only
  have roots := isAbsolute_of_mem_roots absolute now
  have from_ := Location.isAbsolute_absolutize absolute place
  have plain := foreignKey?_of_combine combined
  have sound : ∀ d ∈ a.documents, (w.surroundings now).Sound t d :=
    fun d member => ⟨faithful d member, keeps d member, plain d member⟩
  have leaves := Surroundings.leaves_ancestry roots from_ found sound
  have held : ∀ d ∈ a.documents,
      ((w.surroundings now).ancestry t (place.absolutize w.root)).files.read d.location = .ok d.rawText :=
    fun d member => (leaves.rest d member).2.2
  have grown := leaves.calming.dirs
  have outside' : w.settings.emitCache = true →
      ((w.surroundings now).ancestry t (place.absolutize w.root)).files.isDir w.sidecarStore.dir = true ∧
        ∀ d ∈ a.documents, ¬((w.surroundings now).ancestry t (place.absolutize w.root)).files.HoldsDirectly
          w.sidecarStore.dir d.location := by
    intro emits
    obtain ⟨directory, apart⟩ := outside emits
    exact ⟨(grown.isDir _).trans directory, fun d member inside => apart d member (grown.holdsDirectly inside)⟩
  obtain ⟨more, kept, wrote', kept', left⟩ := emitted_again absolute wrote outside' held later
  rw [← files] at more kept wrote' kept' left
  have again := Surroundings.ancestry_again roots from_ found sound (grown.trans more) kept later
  have found' : ((w.surroundings later).ancestry (w.resolve now t place).files (place.absolutize w.root)) =
      .done (w.resolve now t place).files a.calm := again
  have result : ((w.surroundings later).ancestry (w.resolve now t place).files (place.absolutize w.root)).result =
      .ok a.calm := by
    rw [found', Outcome.result_done]
  have second := resolve_of_ancestry result ((combine_calm w a).trans combined)
  rw [found', Outcome.files_done] at second
  change _ = (w.emitted later (w.resolve now t place).files (a.documents.map calm)).andThen _ at second
  rw [Outcome.andThen_of_ok wrote'] at second
  rw [second, made]
  refine ⟨?_, fun d member => ⟨kept d member, kept' d member⟩, left⟩
  simp only [Outcome.result_done, Ancestry.calm, entitySources_map_calm]

/-- A document that another one extends twice, and a directory for sidecars. -/
def extendedTwice : FileTree :=
  ⟨[(["w"], .directory), (["w", "c"], .directory), (["w", "b"], .file (.text "'#B': y\n")),
    (["w", "a"], .file (.text "extends: [./b, ./b]\n'#A': x\n"))], []⟩

def withSidecars : Settings :=
  { Settings.builtin with schemaPath := "s", cacheDir := "c", moduleDirs := [], stamping := false }

def extendedTwiceDocuments : List Document :=
  [⟨⟨"/w/b"⟩, [("#B", .string "y")], [], "$schema: ./s\n'#B': y\n", true⟩,
    ⟨⟨"/w/b"⟩, [("#B", .string "y")], [], "$schema: ./s\n'#B': y\n", false⟩,
    ⟨⟨"/w/a"⟩, [("#A", .string "x")], ["./b", "./b"], "$schema: ./s\nextends:\n- ./b\n- ./b\n'#A': x\n", true⟩]

deriving instance DecidableEq for Document

set_option maxRecDepth 10000 in
theorem extendedTwice_resolves :
    ((openAt extendedTwice ⟨"/w"⟩ withSidecars).resolve ⟨0, 0⟩ extendedTwice ⟨"a"⟩).result.toOption.any
      (·.documents == extendedTwiceDocuments) = true := by
  decide +kernel

theorem not_holdsDirectly_of_locate {t : FileTree} {dir file : Location} {above names : List String}
    (directory : t.locate dir = .ok above) (located : t.locate file = .ok names) (apart : names.dropLast ≠ above) :
    ¬t.HoldsDirectly dir file := by
  rintro ⟨others, name, there, inside⟩
  obtain rfl := Except.ok.inj (there.symm.trans directory)
  obtain rfl := Except.ok.inj (inside.symm.trans located)
  simp at apart

theorem readsBack_of_known {t : FileTree} {policy : Upkeep} {now : String} {file : Location} (text : String)
    (own : Fields) (read : t.read file = .ok text) (known : Document.fieldsOf file text = .ok own)
    (back : ReadsBack (.object (Document.upkeep policy file.dir now own))) :
    ∀ text own, t.read file = .ok text → Document.fieldsOf file text = .ok own →
      ReadsBack (.object (Document.upkeep policy file.dir now own)) := by
  intro text' own' read' known'
  obtain rfl := Except.ok.inj (read.symm.trans read')
  obtain rfl := Except.ok.inj (known.symm.trans known')
  exact back

set_option maxRecDepth 10000 in
theorem resolve_again_extendedTwice :
    ∃ r, ((openAt extendedTwice ⟨"/w"⟩ withSidecars).resolve ⟨0, 0⟩ extendedTwice ⟨"a"⟩).result = .ok r ∧
      r.documents.map Document.refreshed = [true, false, true] ∧
      ((openAt extendedTwice ⟨"/w"⟩ withSidecars).resolve ⟨7, 0⟩
          ((openAt extendedTwice ⟨"/w"⟩ withSidecars).resolve ⟨0, 0⟩ extendedTwice ⟨"a"⟩).files ⟨"a"⟩).result =
        .ok { r with documents := r.documents.map calm } := by
  obtain ⟨r, resolved, same⟩ := exists_of_toOption_any extendedTwice_resolves
  have documents : r.documents = extendedTwiceDocuments := eq_of_beq same
  have places : ∀ d ∈ r.documents, d.location = ⟨"/w/b"⟩ ∨ d.location = ⟨"/w/a"⟩ := by
    rw [documents]
    decide
  have keeps : ∀ d ∈ r.documents, KeepsKeys d.location d.rawText := by
    have filled : ∀ d ∈ extendedTwiceDocuments, fillPlaceholders d.rawText d.location.dir = d.rawText := by
      decide +kernel
    intro d member own other known again key
    rw [filled d (documents ▸ member)] at again
    rw [Except.ok.inj (known.symm.trans again)]
  have outside : withSidecars.emitCache = true →
      extendedTwice.isDir (withSidecars.cacheLocation (openAt extendedTwice ⟨"/w"⟩ withSidecars).root) = true ∧
        ∀ d ∈ r.documents, ¬extendedTwice.HoldsDirectly
          (withSidecars.cacheLocation (openAt extendedTwice ⟨"/w"⟩ withSidecars).root) d.location := by
    have above :
        extendedTwice.locate (withSidecars.cacheLocation (openAt extendedTwice ⟨"/w"⟩ withSidecars).root) =
          .ok ["w", "c"] :=
      eq_ok_of_toOption (by decide +kernel)
    have atB : extendedTwice.locate ⟨"/w/b"⟩ = .ok ["w", "b"] := eq_ok_of_toOption (by decide +kernel)
    have atA : extendedTwice.locate ⟨"/w/a"⟩ = .ok ["w", "a"] := eq_ok_of_toOption (by decide +kernel)
    refine fun _ => ⟨by decide +kernel, fun d member => ?_⟩
    rcases places d member with there | there
    · rw [there]
      exact not_holdsDirectly_of_locate above atB (by decide)
    · rw [there]
      exact not_holdsDirectly_of_locate above atA (by decide)
  have faithful : ∀ d ∈ r.documents, d.refreshed = true → ∀ text own, extendedTwice.read d.location = .ok text →
      Document.fieldsOf d.location text = .ok own →
      ReadsBack (.object (Document.upkeep (openAt extendedTwice ⟨"/w"⟩ withSidecars).upkeep d.location.dir
        (Instant.toMillis ⟨0, 0⟩) own)) := by
    intro d member _
    rcases places d member with there | there
    · rw [there]
      exact readsBack_of_known "'#B': y\n" [("#B", .string "y")]
        (eq_ok_of_toOption (by decide +kernel)) (eq_ok_of_toOption (by decide +kernel))
        ((Option.any_eq_true _ _).mp (by decide +kernel))
    · rw [there]
      exact readsBack_of_known "extends: [./b, ./b]\n'#A': x\n"
        [("extends", .array [.string "./b", .string "./b"]), ("#A", .string "x")]
        (eq_ok_of_toOption (by decide +kernel)) (eq_ok_of_toOption (by decide +kernel))
        ((Option.any_eq_true _ _).mp (by decide +kernel))
  exact ⟨r, resolved, by rw [documents]; rfl, (resolve_again resolved outside faithful keeps ⟨7, 0⟩).1⟩

end Workspace

end LayeredConfig
