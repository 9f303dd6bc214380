import LayeredConfig.Proofs.Clock
import LayeredConfig.Proofs.Document.Load
import LayeredConfig.Proofs.Document.Placeholder
import LayeredConfig.Proofs.Outcome

namespace LayeredConfig

theorem Instant.fillPlaceholders_toMillis {dir : Location} (absolute : dir.isAbsolute = true) (now : Instant) :
    fillPlaceholders now.toMillis dir = now.toMillis := by
  refine fillPlaceholders_of_plain absolute (fun brace => ?_) (fun parenthesis => ?_)
  · exact absurd (Instant.mem_toMillis brace) (by decide)
  · exact absurd (Instant.mem_toMillis parenthesis) (by decide)

namespace Document

/-- The fields that the text of a file stands for. -/
def fieldsOf (file : Location) (text : String) : Except Fault Fields :=
  (parse file text).bind (topFields file)

/-- What a document keeps of its fields. -/
def stripped (fields : Fields) : Fields :=
  without extendsKey (without schemaKey fields)

/-- Fields that make equal documents of a file: the order of fields does not
count. -/
def SameDocument (file : Location) (a b : Fields) : Prop :=
  (Value.object (stripped a)).alike (.object (stripped b)) = true ∧ parentsOf file a = parentsOf file b

/-- The document has the entities and the parents that the fields have. -/
def Shows (d : Document) (fields : Fields) : Prop :=
  (Value.object d.entities).alike (.object (stripped fields)) = true ∧
    parentsOf d.location fields = .ok d.parents

theorem wellFormed_of_fieldsOf {file : Location} {text : String} {fields : Fields}
    (known : fieldsOf file text = .ok fields) : (Value.object fields).WellFormed := by
  unfold fieldsOf at known
  cases parsed : parse file text with
  | error fault => simp [parsed, Except.bind] at known
  | ok v => exact wellFormed_of_topFields (wellFormed_of_parse parsed) (by simpa [parsed, Except.bind] using known)

/-- Nothing but the schema reference may differ. -/
theorem sameDocument_congr {file : Location} {a b c d : Fields} (left : without schemaKey a = without schemaKey b)
    (right : without schemaKey c = without schemaKey d) : SameDocument file a c ↔ SameDocument file b d := by
  have parents {x y : Fields} (same : without schemaKey x = without schemaKey y) :
      parentsOf file x = parentsOf file y := by
    have apart : extendsKey ≠ schemaKey := by decide
    unfold parentsOf
    rw [← lookup_without_of_ne apart x, ← lookup_without_of_ne apart y, same]
  unfold SameDocument stripped
  rw [left, right, parents left, parents right]

theorem sameDocument_refl (file : Location) {fields : Fields} (wellFormed : (Value.object fields).WellFormed) :
    SameDocument file fields fields :=
  ⟨Value.alike_refl _ ((wellFormed.without schemaKey).without extendsKey), rfl⟩

theorem object_of_alike {file : Location} {v : Value} {own upgraded : Fields} (top : topFields file v = .ok own)
    (alike : (Value.object upgraded).alike v = true) : (Value.object upgraded).alike (.object own) = true := by
  cases v with
  | object fields =>
    cases top
    exact alike
  | null => simp [Value.alike] at alike
  | _ => cases top

/-- All about a loaded document: its text is that of the file, or the document of
the file brought up to date, and the document is what this text stands for with
its placeholders filled. -/
theorem load_eq_ok_fields {policy : Upkeep} {now : Instant} {t : FileTree} {place : Location} {text : String}
    {d : Document} (loaded : (load policy now t place).result = .ok d)
    (stored : t.read place.normalize = .ok text) :
    ∃ own read, fieldsOf d.location text = .ok own ∧
      fieldsOf d.location (fillPlaceholders d.rawText d.dir) = .ok read ∧
      d.rawText = (if d.refreshed then Yaml.print (.object (upkeep policy d.dir now.toMillis own)) else text) ∧
      (d.refreshed = false → upkeep policy d.dir now.toMillis own = own) ∧
      d.entities = stripped read ∧ parentsOf d.location read = .ok d.parents := by
  obtain ⟨raw, refreshed, fresh, made⟩ := load_eq_ok loaded
  obtain ⟨value, read, parsed, top, parents, same⟩ := ofText_eq_ok made
  have location : d.location = place.normalize := by rw [same]
  have rawText : d.rawText = raw := by rw [same]
  have flag : d.refreshed = refreshed := by rw [same]
  have entities : d.entities = stripped read := by rw [same]; rfl
  have back : fieldsOf d.location (fillPlaceholders d.rawText d.dir) = .ok read := by
    rw [rawText, Document.dir, location, fieldsOf, parsed]
    exact top
  rcases refresh_cases policy now.toMillis t place.normalize with
    ⟨fault, failed⟩ | ⟨content, v, own, found, meant, fields, turn⟩
  · rw [failed] at fresh
    cases fresh
  · obtain rfl : content = text := Except.ok.inj (found.symm.trans stored)
    have first : fieldsOf d.location content = .ok own := by
      rw [location, fieldsOf, meant]
      exact fields
    rw [location] at first back ⊢
    rw [Document.dir, location] at back ⊢
    rcases turn with ⟨alike, kept⟩ | ⟨_, u, _, saved⟩
    · rw [kept] at fresh
      cases fresh
      refine ⟨own, read, first, back, by rw [rawText, flag]; rfl, fun _ => ?_, entities, parents⟩
      exact upkeep_eq_of_alike (wellFormed_of_topFields (wellFormed_of_parse meant) fields)
        (object_of_alike fields alike)
    · rw [saved, Outcome.result_done] at fresh
      obtain ⟨rfl, rfl⟩ := Prod.mk.inj (Except.ok.inj fresh)
      exact ⟨own, read, first, back, by rw [rawText, flag]; rfl, by simp [flag], entities, parents⟩

/-- What is loaded is what one gets by filling the placeholders first and bringing
the fields up to date then, exactly when the text that the file is left with makes
the same document once its placeholders are filled. Where filling the placeholders
of the first text amounts to filling those of its fields, that is so exactly when
nothing was written, or what was written reads as the fields brought up to date,
their placeholders filled. Where what was written reads so, it is so exactly when
filling those of the text makes the same document as filling those of its fields. -/
theorem shows_filled_upkeep_iff {policy : Upkeep} {now : Instant} {t : FileTree} {place : Location} {text : String}
    {d : Document} {fields : Fields} (loaded : (load policy now t place).result = .ok d)
    (stored : t.read place.normalize = .ok text)
    (filled : fieldsOf d.location (fillPlaceholders text d.dir) = .ok fields) :
    ∃ own read, fieldsOf d.location text = .ok own ∧
      fieldsOf d.location (fillPlaceholders d.rawText d.dir) = .ok read ∧
      d.rawText = (if d.refreshed then Yaml.print (.object (upkeep policy d.dir now.toMillis own)) else text) ∧
      (d.Shows (upkeep policy d.dir now.toMillis fields) ↔
        SameDocument d.location read (upkeep policy d.dir now.toMillis fields)) ∧
      (d.dir.isAbsolute = true → fields = mapTextFields (fillPlaceholders · d.dir) own →
        (d.Shows (upkeep policy d.dir now.toMillis fields) ↔
          d.refreshed = false ∨ SameDocument d.location read
            (mapTextFields (fillPlaceholders · d.dir) (upkeep policy d.dir now.toMillis own)))) ∧
      (d.dir.isAbsolute = true →
        without schemaKey read = without schemaKey
          (mapTextFields (fillPlaceholders · d.dir) (upkeep policy d.dir now.toMillis own)) →
        (d.Shows (upkeep policy d.dir now.toMillis fields) ↔ SameDocument d.location
          (upkeep policy d.dir now.toMillis (mapTextFields (fillPlaceholders · d.dir) own))
          (upkeep policy d.dir now.toMillis fields))) := by
  obtain ⟨own, read, first, back, raw, unchanged, entities, parents⟩ := load_eq_ok_fields loaded stored
  have shows (x : Fields) : d.Shows x ↔ SameDocument d.location read x := by
    unfold Shows SameDocument
    rw [entities, parents]
    exact and_congr_right fun _ => eq_comm
  have late (absolute : d.dir.isAbsolute = true) :
      without schemaKey (upkeep policy d.dir now.toMillis (mapTextFields (fillPlaceholders · d.dir) own)) =
        without schemaKey (mapTextFields (fillPlaceholders · d.dir) (upkeep policy d.dir now.toMillis own)) :=
    without_upkeep_mapTextFields (keepsNames_fillPlaceholders absolute) policy d.dir
      (Instant.fillPlaceholders_toMillis absolute now) own
  refine ⟨own, read, first, back, raw, shows _, fun absolute inside => ?_, fun absolute faithful => ?_⟩
  · have filledLate : d.Shows (upkeep policy d.dir now.toMillis fields) ↔ SameDocument d.location read
        (mapTextFields (fillPlaceholders · d.dir) (upkeep policy d.dir now.toMillis own)) := by
      rw [shows, inside]
      exact sameDocument_congr rfl (late absolute)
    refine ⟨fun shown => Or.inr (filledLate.mp shown), ?_⟩
    rintro (kept | same)
    · have again : read = fields := by
        rw [raw, kept] at back
        exact Except.ok.inj (back.symm.trans filled)
      rw [filledLate, unchanged kept, ← inside, ← again]
      exact sameDocument_refl d.location (wellFormed_of_fieldsOf back)
    · exact filledLate.mpr same
  · rw [shows]
    exact sameDocument_congr (faithful.trans (late absolute).symm) rfl

/-- A tree with one document in a directory. -/
def oneDocument (text : String) : FileTree :=
  ⟨[(["d"], .directory), (["d", "a"], .file (.text text))], []⟩

def unstamped : Upkeep :=
  ⟨⟨"/s"⟩, false⟩

set_option maxRecDepth 10000 in
/-- A placeholder in a quoted scalar is filled as it should be, though the file is
written first. -/
theorem shows_quoted_placeholder :
    ∃ d fields, (load unstamped ⟨0, 0⟩ (oneDocument "'#A': '{__dirname}/x'") ⟨"/d/a"⟩).result = .ok d ∧
      d.refreshed = true ∧ fieldsOf d.location (fillPlaceholders "'#A': '{__dirname}/x'" d.dir) = .ok fields ∧
      d.Shows (upkeep unstamped d.dir (Instant.toMillis ⟨0, 0⟩) fields) := by
  have loads : ((load unstamped ⟨0, 0⟩ (oneDocument "'#A': '{__dirname}/x'") ⟨"/d/a"⟩).result.toOption.any fun d =>
      d.refreshed && d.location == ⟨"/d/a"⟩ && d.rawText == "$schema: ../s\n'#A': '{__dirname}/x'\n") = true := by
    decide +kernel
  have stored : (oneDocument "'#A': '{__dirname}/x'").read (Location.normalize ⟨"/d/a"⟩) =
      .ok "'#A': '{__dirname}/x'" :=
    eq_ok_of_toOption (by decide +kernel)
  have own : fieldsOf ⟨"/d/a"⟩ "'#A': '{__dirname}/x'" = .ok [("#A", .string "{__dirname}/x")] :=
    eq_ok_of_toOption (by decide +kernel)
  have filled : fieldsOf ⟨"/d/a"⟩ (fillPlaceholders "'#A': '{__dirname}/x'" (Location.dir ⟨"/d/a"⟩)) =
      .ok [("#A", .string "/d/x")] :=
    eq_ok_of_toOption (by decide +kernel)
  have written : fieldsOf ⟨"/d/a"⟩
      (fillPlaceholders "$schema: ../s\n'#A': '{__dirname}/x'\n" (Location.dir ⟨"/d/a"⟩)) =
      .ok [("$schema", .string "../s"), ("#A", .string "/d/x")] :=
    eq_ok_of_toOption (by decide +kernel)
  obtain ⟨d, loaded, shape⟩ := exists_of_toOption_any loads
  simp only [Bool.and_eq_true, beq_iff_eq] at shape
  obtain ⟨⟨refreshed, location⟩, raw⟩ := shape
  have dir : d.dir = Location.dir ⟨"/d/a"⟩ := by rw [Document.dir, location]
  rw [← location] at filled written
  obtain ⟨first, read, known, back, _, _, inside, _⟩ := shows_filled_upkeep_iff loaded stored filled
  rw [location, own, Except.ok.injEq] at known
  rw [raw, Document.dir, written, Except.ok.injEq] at back
  subst known back
  have absolute : d.dir.isAbsolute = true := by rw [dir]; decide +kernel
  have fills : [("#A", Value.string "/d/x")] =
      mapTextFields (fillPlaceholders · d.dir) [("#A", .string "{__dirname}/x")] := by rw [dir]; decide +kernel
  have same : SameDocument d.location [("$schema", .string "../s"), ("#A", .string "/d/x")]
      (mapTextFields (fillPlaceholders · d.dir)
        (upkeep unstamped d.dir (Instant.toMillis ⟨0, 0⟩) [("#A", .string "{__dirname}/x")])) := by
    have upgraded : mapTextFields (fillPlaceholders · d.dir)
        (upkeep unstamped d.dir (Instant.toMillis ⟨0, 0⟩) [("#A", .string "{__dirname}/x")]) =
        [("$schema", .string "../s"), ("#A", .string "/d/x")] := by rw [dir]; decide +kernel
    rw [upgraded]
    exact sameDocument_refl d.location (wellFormed_of_fieldsOf written)
  exact ⟨d, _, loaded, refreshed, filled, (inside absolute fills).mpr (Or.inr same)⟩

set_option maxRecDepth 10000 in
/-- That what is loaded is always the document with its placeholders filled first
is not so: a placeholder that stands as a scalar of its own reads as a mapping,
and is written as one. -/
theorem not_shows_bare_placeholder :
    ¬∀ (policy : Upkeep) (now : Instant) (t : FileTree) (place : Location) (text : String) (d : Document)
        (fields : Fields), (load policy now t place).result = .ok d → t.read place.normalize = .ok text →
      fieldsOf d.location (fillPlaceholders text d.dir) = .ok fields →
      d.Shows (upkeep policy d.dir now.toMillis fields) := by
  intro claim
  have loads : ((load unstamped ⟨0, 0⟩ (oneDocument "'#A': {__dirname}") ⟨"/d/a"⟩).result.toOption.any fun d =>
      d.location == ⟨"/d/a"⟩ && d.entities == [("#A", .object [("__dirname", .null)])]) = true := by
    decide +kernel
  have stored : (oneDocument "'#A': {__dirname}").read (Location.normalize ⟨"/d/a"⟩) = .ok "'#A': {__dirname}" :=
    eq_ok_of_toOption (by decide +kernel)
  have filled : fieldsOf ⟨"/d/a"⟩ (fillPlaceholders "'#A': {__dirname}" (Location.dir ⟨"/d/a"⟩)) =
      .ok [("#A", .string "/d")] :=
    eq_ok_of_toOption (by decide +kernel)
  obtain ⟨d, loaded, shape⟩ := exists_of_toOption_any loads
  simp only [Bool.and_eq_true, beq_iff_eq] at shape
  obtain ⟨location, entities⟩ := shape
  rw [← location] at filled
  have shown := (claim unstamped ⟨0, 0⟩ _ ⟨"/d/a"⟩ _ d _ loaded stored filled).1
  rw [entities, Document.dir, location] at shown
  exact absurd shown (by decide +kernel)

end Document

end LayeredConfig
