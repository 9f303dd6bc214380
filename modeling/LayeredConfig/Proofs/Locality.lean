import LayeredConfig.Proofs.Ancestry.Probe
import LayeredConfig.Proofs.Workspace

namespace LayeredConfig.Workspace

/-- What a resolution that writes no sidecars asks of the files. -/
def probes (w : Workspace) (now : Instant) (files : FileTree) (place : Location) : List Probe :=
  (w.surroundings now).ancestryProbes files (place.absolutize w.root)

variable {w : Workspace} {now : Instant} {t u : FileTree} {place : Location}

theorem placed_of_mem_probes (absolute : w.root.isAbsolute = true) {p : Probe}
    (member : p ∈ w.probes now t place) :
    p.Placed :=
  Surroundings.placed_of_mem_ancestryProbes (isAbsolute_of_mem_roots absolute now)
    (Location.isAbsolute_absolutize absolute place) member

theorem resolve_mirrors (absolute : w.root.isAbsolute = true) (quiet : w.settings.emitCache = false)
    (agree : ∀ p ∈ w.probes now t place, p.Agrees t u) :
    Outcome.Mirrors t u (w.resolve now t place) (w.resolve now u place) := by
  have ancestry := Surroundings.ancestry_mirrors (isAbsolute_of_mem_roots absolute now)
    (Location.isAbsolute_absolutize absolute place) agree
  unfold resolve
  refine ancestry.andThen fun a _ => ?_
  cases w.combine a with
  | error fault => exact .failed _ _ fault
  | ok configuration =>
    simp only [quiet, Bool.false_eq_true, if_false, Outcome.andThen_done]
    exact .done _ _ _

/-- A resolution without sidecars depends on nothing but the answers to what it asks: what the
documents hold that it loads, whether there is a file where a document should be, and whether
there is a directory where a package may be. On two trees that give these answers alike it
comes to the same end, and it leaves the same texts in the documents it loads. -/
theorem resolve_depends_on_probes {start : FileTree} {dir : Location} {settings : Settings}
    (quiet : settings.emitCache = false)
    (agree : ∀ p ∈ (openAt start dir settings).probes now t place, p.Agrees t u) :
    let w := openAt start dir settings
    (w.resolve now u place).result = (w.resolve now t place).result ∧
      (∀ l, .text l ∈ w.probes now t place →
        ((w.resolve now u place).files.read l).toOption = ((w.resolve now t place).files.read l).toOption) ∧
      ∃ turns, (w.surroundings now).Runs t (place.absolutize w.root) turns
          ((w.surroundings now).ancestry t (place.absolutize w.root)) ∧
        (w.probes now t place).filterMap Probe.text? = Surroundings.Turn.texts turns := by
  have absolute := isAbsolute_root_openAt start dir settings
  have roots := isAbsolute_of_mem_roots absolute now
  have from_ := Location.isAbsolute_absolutize absolute place
  have mirrors := resolve_mirrors absolute quiet agree
  obtain ⟨turns, run, _⟩ := Surroundings.exists_run (t := t) roots from_
  refine ⟨mirrors.result, fun l asked => ?_, turns, run, run.texts roots from_⟩
  exact mirrors.keeps (.text l) (placed_of_mem_probes absolute asked) (agree _ asked)

/-- A document that extends one of a package. -/
def packaged : FileTree :=
  ⟨[(["w"], .directory), (["w", "a"], .file (.text "extends: p/b\n'#A': x\n")), (["w", "m"], .directory),
    (["w", "m", "p"], .directory), (["w", "m", "p", "b"], .file (.text "'#B': y\n"))], []⟩

/-- The same documents in another order, among others, and a package of the same name further
up. -/
def packagedElsewhere : FileTree :=
  ⟨[(["w", "m", "p", "b"], .file (.text "'#B': y\n")), (["m"], .directory), (["m", "p"], .directory),
    (["w"], .directory), (["w", "c"], .file (.bytes [255])), (["w", "m"], .directory),
    (["w", "m", "p"], .directory), (["w", "m", "p", "e"], .file (.text "'#E': z\n")),
    (["w", "a"], .file (.text "extends: p/b\n'#A': x\n"))], ["m"]⟩

def withoutSidecars : Settings :=
  { Settings.builtin with schemaPath := "s", emitCache := false, moduleDirs := ["m"], stamping := false }

set_option maxRecDepth 10000 in
theorem resolve_depends_on_probes_packaged :
    let w := openAt packaged ⟨"/w"⟩ withoutSidecars
    w.probes ⟨0, 0⟩ packaged ⟨"a"⟩ =
        [.file ⟨"/w/a"⟩, .text ⟨"/w/a"⟩, .directory ⟨"/w/m/p"⟩, .file ⟨"/w/m/p/b"⟩, .text ⟨"/w/m/p/b"⟩] ∧
      (∃ r, (w.resolve ⟨0, 0⟩ packaged ⟨"a"⟩).result = .ok r ∧
        (w.resolve ⟨0, 0⟩ packagedElsewhere ⟨"a"⟩).result = .ok r) ∧
      (w.resolve ⟨0, 0⟩ packagedElsewhere ⟨"a"⟩).files.read ⟨"/w/m/p/b"⟩ = .ok "$schema: ../../s\n'#B': y\n" := by
  have asked : (openAt packaged ⟨"/w"⟩ withoutSidecars).probes ⟨0, 0⟩ packaged ⟨"a"⟩ =
      [.file ⟨"/w/a"⟩, .text ⟨"/w/a"⟩, .directory ⟨"/w/m/p"⟩, .file ⟨"/w/m/p/b"⟩, .text ⟨"/w/m/p/b"⟩] := by
    decide +kernel
  have agree : ∀ p ∈ (openAt packaged ⟨"/w"⟩ withoutSidecars).probes ⟨0, 0⟩ packaged ⟨"a"⟩,
      p.Agrees packaged packagedElsewhere := by
    rw [asked]
    decide +kernel
  have found : ((openAt packaged ⟨"/w"⟩ withoutSidecars).resolve ⟨0, 0⟩ packaged ⟨"a"⟩).result.toOption.any
      (fun _ => true) = true := by
    decide +kernel
  have held : (((openAt packaged ⟨"/w"⟩ withoutSidecars).resolve ⟨0, 0⟩ packaged ⟨"a"⟩).files.read
      ⟨"/w/m/p/b"⟩).toOption = some "$schema: ../../s\n'#B': y\n" := by
    decide +kernel
  have quiet : withoutSidecars.emitCache = false := rfl
  obtain ⟨result, texts, _⟩ := resolve_depends_on_probes quiet agree
  obtain ⟨r, resolved, _⟩ := exists_of_toOption_any found
  have text := texts ⟨"/w/m/p/b"⟩ (by rw [asked]; decide)
  exact ⟨asked, ⟨r, resolved, result.trans resolved⟩, eq_ok_of_toOption (text.trans held)⟩

end LayeredConfig.Workspace
