import LayeredConfig.Document.Load
import LayeredConfig.Proofs.FileTree.Frame
import LayeredConfig.Proofs.Location.Canonical
import LayeredConfig.Proofs.Yaml.WellFormed

namespace LayeredConfig.Document

/-- No mapping of the document has a key twice. -/
def WellFormed (d : Document) : Prop :=
  (Value.object d.entities).WellFormed

theorem stored_eq_ok {t : FileTree} {file : Location} {text : String} {value : Value}
    (stored : stored t file = .ok (text, value)) : t.read file = .ok text ∧ parse file text = .ok value := by
  unfold Document.stored at stored
  cases read : t.read file with
  | error cause => simp [read] at stored
  | ok content =>
    simp only [read] at stored
    cases parsed : parse file content with
    | error fault => simp [parsed, Except.map] at stored
    | ok v =>
      simp only [parsed, Except.map, Except.ok.injEq, Prod.mk.injEq] at stored
      obtain ⟨rfl, rfl⟩ := stored
      exact ⟨rfl, parsed⟩

/-- All that bringing a file up to date can do: it fails and leaves the files
alone; it finds nothing to change; or the text of the document brought up to
date takes the place of what the file held. -/
theorem refresh_cases (policy : Upkeep) (now : String) (t : FileTree) (file : Location) :
    (∃ fault, refresh policy now t file = .failed t fault) ∨
      ∃ text value fields, t.read file = .ok text ∧ parse file text = .ok value ∧
        topFields file value = .ok fields ∧
          ((Value.object (upkeep policy file.dir now fields)).alike value = true ∧
            refresh policy now t file = .done t (text, false) ∨
          (Value.object (upkeep policy file.dir now fields)).alike value = false ∧
            ∃ u, t.write file (.text (Yaml.print (.object (upkeep policy file.dir now fields)))) = .ok u ∧
              refresh policy now t file =
                .done u (Yaml.print (.object (upkeep policy file.dir now fields)), true)) := by
  unfold refresh
  cases kept : stored t file with
  | error fault => exact Or.inl ⟨fault, rfl⟩
  | ok both =>
    obtain ⟨text, value⟩ := both
    obtain ⟨read, parsed⟩ := stored_eq_ok kept
    cases top : topFields file value with
    | error fault => exact Or.inl ⟨fault, by simp [bind, Except.bind, top]⟩
    | ok fields =>
      simp only [bind, Except.bind, top]
      cases same : (Value.object (upkeep policy file.dir now fields)).alike value with
      | true => exact Or.inr ⟨text, value, fields, read, parsed, top, Or.inl ⟨same, by simp⟩⟩
      | false =>
        cases written : t.write file (.text (Yaml.print (.object (upkeep policy file.dir now fields)))) with
        | error cause => exact Or.inl ⟨.access file cause, by simp [save, written]⟩
        | ok u =>
          exact Or.inr ⟨text, value, fields, read, parsed, top,
            Or.inr ⟨same, u, written, by simp [save, written]⟩⟩

/-- Loading a document leaves the files alone or writes the file of the document. -/
theorem files_load_cases (policy : Upkeep) (now : Instant) (t : FileTree) (place : Location) :
    (load policy now t place).files = t ∨
      ∃ body, t.isFile place.normalize = true ∧
        t.write place.normalize body = .ok (load policy now t place).files := by
  have files : (load policy now t place).files = (refresh policy now.toMillis t place.normalize).files := rfl
  rw [files]
  rcases refresh_cases policy now.toMillis t place.normalize with
    ⟨fault, failed⟩ | ⟨text, value, fields, read, _, _, ⟨_, kept⟩ | ⟨_, u, written, saved⟩⟩
  · exact Or.inl (congrArg Outcome.files failed)
  · exact Or.inl (congrArg Outcome.files kept)
  · rw [saved]
    exact Or.inr ⟨_, FileTree.isFile_of_read read, written⟩

/-- Loading a document leaves all files and directories in their places. -/
theorem sameShape_load (policy : Upkeep) (now : Instant) (t : FileTree) (place : Location) :
    t.SameShape (load policy now t place).files := by
  rcases files_load_cases policy now t place with same | ⟨body, file, written⟩
  · rw [same]
    exact .refl t
  · exact FileTree.sameShape_of_write file written

/-- What a loaded document is made of. -/
theorem ofText_eq_ok {file : Location} {text : String} {refreshed : Bool} {d : Document}
    (made : ofText file text refreshed = .ok d) :
    ∃ value fields, parse file (fillPlaceholders text file.dir) = .ok value ∧ topFields file value = .ok fields ∧
      parentsOf file fields = .ok d.parents ∧
      d = ⟨file, without extendsKey (without schemaKey fields), d.parents, text, refreshed⟩ := by
  unfold ofText at made
  cases parsed : parse file (fillPlaceholders text file.dir) with
  | error fault => simp [parsed, bind, Except.bind] at made
  | ok value =>
    cases top : topFields file value with
    | error fault => simp [parsed, top, bind, Except.bind] at made
    | ok fields =>
      cases named : parentsOf file fields with
      | error fault => simp [parsed, top, named, bind, Except.bind] at made
      | ok parents =>
        simp only [parsed, top, named, bind, Except.bind, Except.ok.injEq] at made
        exact ⟨value, fields, rfl, top, by rw [← made]; exact named, by rw [← made]⟩

theorem load_eq_ok {policy : Upkeep} {now : Instant} {t : FileTree} {place : Location} {d : Document}
    (loaded : (load policy now t place).result = .ok d) :
    ∃ text refreshed, (refresh policy now.toMillis t place.normalize).result = .ok (text, refreshed) ∧
      ofText place.normalize text refreshed = .ok d := by
  unfold load at loaded
  simp only [Outcome.andCheck] at loaded
  cases refreshed : (refresh policy now.toMillis t place.normalize).result with
  | error fault => simp [refreshed, Except.bind] at loaded
  | ok both => exact ⟨both.1, both.2, rfl, by simpa [refreshed, Except.bind] using loaded⟩

theorem location_of_load {policy : Upkeep} {now : Instant} {t : FileTree} {place : Location} {d : Document}
    (loaded : (load policy now t place).result = .ok d) : d.location = place.normalize := by
  obtain ⟨text, refreshed, _, made⟩ := load_eq_ok loaded
  obtain ⟨value, fields, _, _, _, same⟩ := ofText_eq_ok made
  rw [same]

/-- Only files are loaded. -/
theorem isFile_of_load {policy : Upkeep} {now : Instant} {t : FileTree} {place : Location} {d : Document}
    (loaded : (load policy now t place).result = .ok d) : t.isFile place.normalize = true := by
  obtain ⟨text, refreshed, fresh, _⟩ := load_eq_ok loaded
  rcases refresh_cases policy now.toMillis t place.normalize with ⟨fault, failed⟩ | ⟨_, _, _, read, _⟩
  · simp [failed, Outcome.failed] at fresh
  · exact FileTree.isFile_of_read read

theorem wellFormed_of_parse {file : Location} {text : String} {v : Value} (parsed : parse file text = .ok v) :
    v.WellFormed := by
  unfold parse at parsed
  cases read : Yaml.read? text with
  | none => simp [read] at parsed
  | some w =>
    simp only [read, Except.ok.injEq] at parsed
    exact parsed ▸ Yaml.wellFormed_of_read? read

theorem wellFormed_of_topFields {file : Location} {v : Value} {fields : Fields} (wellFormed : v.WellFormed)
    (top : topFields file v = .ok fields) : (Value.object fields).WellFormed := by
  cases v with
  | object own =>
    cases top
    exact wellFormed
  | null =>
    cases top
    exact Value.wellFormed_nil
  | _ => cases top

theorem wellFormed_of_load {policy : Upkeep} {now : Instant} {t : FileTree} {place : Location} {d : Document}
    (loaded : (load policy now t place).result = .ok d) : d.WellFormed := by
  obtain ⟨text, refreshed, _, made⟩ := load_eq_ok loaded
  obtain ⟨value, fields, parsed, top, _, same⟩ := ofText_eq_ok made
  rw [same]
  exact ((wellFormed_of_topFields (wellFormed_of_parse parsed) top).without schemaKey).without extendsKey

end LayeredConfig.Document
