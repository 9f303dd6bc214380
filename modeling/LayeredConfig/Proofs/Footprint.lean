import LayeredConfig.Proofs.Ancestry.Termination
import LayeredConfig.Proofs.Document.Footprint
import LayeredConfig.Proofs.Sidecar.Footprint
import LayeredConfig.Proofs.Workspace

namespace LayeredConfig

open Document
open Relation (TransGen)
open SidecarStore (entry?_emit_of_file exists_file_emit)
open Surroundings (exists_run sameShape_ancestry)

namespace Surroundings

variable {s : Surroundings}

mutual

/-- A walk changes files by loading the documents of its turns, and by nothing else. -/
theorem Walk.files_eq {x : FileTree} {above : List Location} {reference : Option String} {place : Location}
    {turns : List Turn} {o : Outcome Ancestry} :
    s.Walk x above reference place turns o → o.files = loads s.policy s.now x (turns.map Turn.place)
  | .unloaded _ => rfl
  | .loaded _ walk => by
    rw [Outcome.files_andThen_done, walk.files_eq, List.map_cons]
    rfl

theorem WalkAll.files_eq {x : FileTree} {branch : List Location} {referrer : Location} {references : List String}
    {turns : List Turn} {o : Outcome (List Ancestry)} :
    s.WalkAll x branch referrer references turns o → o.files = loads s.policy s.now x (turns.map Turn.place)
  | .nil => rfl
  | .refused _ => rfl
  | .failed _ walk _ => walk.files_eq
  | .next _ walk _ rest => by
    rw [Outcome.files_andThen_done, rest.files_eq, walk.files_eq, List.map_append, loads_append]

end

theorem Runs.files_eq {t : FileTree} {root : Location} {turns : List Turn} {o : Outcome Ancestry}
    (run : s.Runs t root turns o) : o.files = loads s.policy s.now t (turns.map Turn.place) := by
  cases run with
  | missing => rfl
  | found _ walk => exact walk.files_eq

/-- A run leaves every entry as it is, save for the files of the documents it reads. -/
theorem Runs.entry?_cases {t : FileTree} {root : Location} {turns : List Turn} {o : Outcome Ancestry}
    (run : s.Runs t root turns o) (fresh : ∀ turn ∈ turns, turn.Fresh t) (names : List String) :
    o.files.entry? names = t.entry? names ∨
      ∃ turn ∈ turns, Passed s.policy s.now t o.files names turn.place := by
  have absolute : ∀ place ∈ turns.map Turn.place, place.isAbsolute = true := by
    intro place member
    obtain ⟨turn, inside, rfl⟩ := List.mem_map.mp member
    exact ((fresh turn inside).canonical turn.place (by simp [Turn.branch])).1
  rw [run.files_eq]
  rcases entry?_loads absolute names with same | ⟨place, member, passed⟩
  · exact Or.inl same
  · obtain ⟨turn, inside, rfl⟩ := List.mem_map.mp member
    exact Or.inr ⟨turn, inside, passed⟩

end Surroundings

namespace Workspace

variable {w : Workspace} {now : Instant} {t : FileTree} {place : Location} {a : Ancestry}

/-- All stages before the sidecars succeed, with the documents of an ancestry, and sidecars
are asked for. -/
structure Emits (w : Workspace) (now : Instant) (t : FileTree) (place : Location) (a : Ancestry) : Prop where
  asked : w.settings.emitCache = true
  found : ((w.surroundings now).ancestry t (place.absolutize w.root)).result = .ok a
  combined : ∃ configuration, w.combine a = .ok configuration

/-- A resolution changes files by following references and then, when it comes so far, by
emitting sidecars. -/
theorem files_resolve_cases (w : Workspace) (now : Instant) (t : FileTree) (place : Location) :
    (∀ a, ¬w.Emits now t place a) ∧
        (w.resolve now t place).files = ((w.surroundings now).ancestry t (place.absolutize w.root)).files ∨
      ∃ a, w.Emits now t place a ∧ (w.resolve now t place).files =
        (w.sidecarStore.emit now ((w.surroundings now).ancestry t (place.absolutize w.root)).files
          a.documents).files := by
  cases found : ((w.surroundings now).ancestry t (place.absolutize w.root)).result with
  | error fault =>
    refine Or.inl ⟨fun a emits => ?_, by rw [resolve_of_ancestry_error found, Outcome.files_failed]⟩
    have other := emits.found
    rw [found] at other
    cases other
  | ok a =>
    cases combined : w.combine a with
    | error fault =>
      refine Or.inl ⟨fun b emits => ?_, by rw [resolve_of_combine_error found combined, Outcome.files_failed]⟩
      obtain rfl : a = b := Except.ok.inj (found.symm.trans emits.found)
      obtain ⟨configuration, other⟩ := emits.combined
      rw [combined] at other
      cases other
    | ok configuration =>
      rw [resolve_of_ancestry found combined, Outcome.files_andThen_done, emitted]
      by_cases asked : w.settings.emitCache = true
      · rw [if_pos asked]
        exact Or.inr ⟨a, ⟨asked, found, configuration, combined⟩, rfl⟩
      · rw [if_neg asked]
        exact Or.inl ⟨fun _ emits => asked emits.asked, by rw [Outcome.files_done]⟩

/-- A resolution touches what it owns, whatever it gives. It reads the documents of one run
that follows references. No file goes; unless sidecars are emitted, which is the last stage,
nothing is made; and a file that is changed or made is the sidecar of a document, or it is a
document of the run and its text has gone through passes that bring it up to date. Where
what a pass writes reads back, these passes are passes over the fields that the file had. -/
theorem resolve_touches_its_own (start t : FileTree) (dir place : Location) (settings : Settings) (now : Instant) :
    let w := openAt start dir settings
    let u := (w.resolve now t place).files
    ∃ turns, (w.surroundings now).Runs t (place.absolutize w.root) turns
        ((w.surroundings now).ancestry t (place.absolutize w.root)) ∧
      (∀ names body, t.entry? names = some (.file body) → ∃ after, u.entry? names = some (.file after)) ∧
      ((∀ a, ¬w.Emits now t place a) → t.SameShape u) ∧
      ∀ names body, u.entry? names = some (.file body) → t.entry? names ≠ some (.file body) →
        (∃ a, w.Emits now t place a ∧ ∃ d ∈ a.documents, u.locate (w.sidecarStore.place d.location) = .ok names) ∨
          ∃ turn ∈ turns, t.locate turn.place.normalize = .ok names ∧
            ∃ text after own, t.entry? names = some (.file (.text text)) ∧ body = .text after ∧
              TransGen (Pass w.upkeep now.toMillis turn.place.normalize) text after ∧
              fieldsOf turn.place.normalize text = .ok own ∧
              (ReadsPasses w.upkeep now.toMillis turn.place.normalize.dir own →
                ∃ n, after = Yaml.print (upkept w.upkeep now.toMillis turn.place.normalize.dir (n + 1) own)) := by
  have absolute := isAbsolute_root_openAt start dir settings
  generalize openAt start dir settings = w at absolute ⊢
  dsimp only
  obtain ⟨turns, run, fresh⟩ := exists_run (t := t) (isAbsolute_of_mem_roots absolute now)
    (Location.isAbsolute_absolutize absolute place)
  have shape : t.SameShape ((w.surroundings now).ancestry t (place.absolutize w.root)).files :=
    sameShape_ancestry _ _ _
  have documents : ∀ names body,
      FileTree.entry? ((w.surroundings now).ancestry t (place.absolutize w.root)).files names = some (.file body) →
      t.entry? names ≠ some (.file body) →
      ∃ turn ∈ turns, Passed w.upkeep now t ((w.surroundings now).ancestry t (place.absolutize w.root)).files names
        turn.place := by
    intro names body file changed
    rcases run.entry?_cases fresh names with same | passed
    · exact absurd (same.symm.trans file) changed
    · exact passed
  refine ⟨turns, run, ?_⟩
  rcases files_resolve_cases w now t place with ⟨quiet, same⟩ | ⟨a, emits, same⟩ <;> rw [same]
  · refine ⟨fun names body file => shape.exists_file file, fun _ => shape, fun names body file changed => ?_⟩
    obtain ⟨turn, inside, passed⟩ := documents names body file changed
    exact Or.inr ⟨turn, inside, passed.exists_upkept file⟩
  · refine ⟨fun names body file => ?_, fun quiet => absurd emits (quiet a), fun names body file changed => ?_⟩
    · obtain ⟨between, kept⟩ := shape.exists_file file
      exact exists_file_emit kept
    · rcases entry?_emit_of_file file with kept | sidecar
      · obtain ⟨turn, inside, passed⟩ := documents names body kept changed
        exact Or.inr ⟨turn, inside, passed.exists_upkept kept⟩
      · exact Or.inl ⟨a, emits, sidecar⟩

set_option maxRecDepth 10000 in
theorem resolve_touches_extendedTwice :
    let w := openAt extendedTwice ⟨"/w"⟩ { withSidecars with emitCache := false }
    extendedTwice.entry? ["w", "b"] = some (.file (.text "'#B': y\n")) ∧
      ∃ n, FileTree.entry? (w.resolve ⟨0, 0⟩ extendedTwice ⟨"a"⟩).files ["w", "b"] = some (.file (.text
        (Yaml.print (upkept w.upkeep (Instant.toMillis ⟨0, 0⟩) ⟨"/w"⟩ (n + 1) [("#B", .string "y")])))) := by
  intro w
  have absolute : w.root.isAbsolute = true := isAbsolute_root_openAt extendedTwice ⟨"/w"⟩ _
  have held : extendedTwice.entry? ["w", "b"] = some (.file (.text "'#B': y\n")) := rfl
  have wrote : FileTree.entry? (w.resolve ⟨0, 0⟩ extendedTwice ⟨"a"⟩).files ["w", "b"] =
      some (.file (.text "$schema: ./s\n'#B': y\n")) := by
    decide +kernel
  have located : extendedTwice.locate ⟨"/w/b"⟩ = .ok ["w", "b"] := eq_ok_of_toOption (by decide +kernel)
  have known : fieldsOf ⟨"/w/b"⟩ "'#B': y\n" = .ok [("#B", .string "y")] := eq_ok_of_toOption (by decide +kernel)
  have once : Document.upkeep w.upkeep (Location.dir ⟨"/w/b"⟩) (Instant.toMillis ⟨0, 0⟩) [("#B", .string "y")] =
      [("$schema", .string "./s"), ("#B", .string "y")] := by
    decide +kernel
  have passes : ReadsPasses w.upkeep (Instant.toMillis ⟨0, 0⟩) (Location.dir ⟨"/w/b"⟩) [("#B", .string "y")] :=
    readsPasses_of_rest once (by decide +kernel) (by decide +kernel)
  obtain ⟨turns, run, _, _, changes⟩ := resolve_touches_its_own extendedTwice extendedTwice ⟨"/w"⟩ ⟨"a"⟩
    { withSidecars with emitCache := false } ⟨0, 0⟩
  refine ⟨held, ?_⟩
  rcases changes _ _ wrote (by rw [held]; decide) with
    ⟨_, emits, _⟩ | ⟨turn, member, there, text, after, own, was, is_, _, fields, upkept⟩
  · exact absurd emits.asked (by decide)
  · -- the turns are those of the run whose places are known to be absolute
    obtain ⟨others, again, fresh⟩ := exists_run (t := extendedTwice) (isAbsolute_of_mem_roots absolute ⟨0, 0⟩)
      (Location.isAbsolute_absolutize absolute ⟨"a"⟩)
    rw [(run.unique again).1] at member
    have canonical := ((fresh turn member).canonical turn.place (by simp [Surroundings.Turn.branch])).1
    have place : turn.place.normalize = ⟨"/w/b"⟩ := FileTree.eq_of_locate
      ⟨Location.isAbsolute_normalize canonical, turn.place.normalize_normalize⟩ ⟨by decide, by decide +kernel⟩
      there located
    rw [held] at was
    cases was
    rw [place, known] at fields
    cases fields
    rw [place] at upkept
    obtain ⟨n, same⟩ := upkept passes
    exact ⟨n, by rw [wrote, is_, same]; rfl⟩

end Workspace

end LayeredConfig
