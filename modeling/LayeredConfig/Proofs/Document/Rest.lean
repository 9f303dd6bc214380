import LayeredConfig.Combined.Merge
import LayeredConfig.Proofs.Document.Repeat
import LayeredConfig.Proofs.FileTree.Places

namespace LayeredConfig.Document

/-- Filling the placeholders of the text changes no top-level key. -/
def KeepsKeys (file : Location) (text : String) : Prop :=
  ∀ own filled, fieldsOf file text = .ok own → fieldsOf file (fillPlaceholders text file.dir) = .ok filled →
    ∀ key, key ∈ keysOf own ↔ key ∈ keysOf filled

/-- The document as a load finds it that leaves its file alone. -/
def calm (d : Document) : Document :=
  { d with refreshed := false }

@[simp] theorem location_calm (d : Document) : d.calm.location = d.location :=
  rfl

/-- The text of the document is that of a current document, and makes it. -/
structure AtRest (policy : Upkeep) (d : Document) : Prop where
  current : ∃ fields, fieldsOf d.location d.rawText = .ok fields ∧ Current policy d.location.dir fields
  made : ofText d.location d.rawText d.refreshed = .ok d

variable {policy : Upkeep} {now later : Instant} {t : FileTree} {place : Location} {d : Document}

theorem AtRest.calm (rest : AtRest policy d) : AtRest policy d.calm :=
  ⟨rest.current, ofText_refreshed rest.made false⟩

/-- A file that holds a document at rest loads as it, and is left alone. -/
theorem AtRest.load_eq (rest : AtRest policy d) (held : t.read d.location = .ok d.rawText)
    (same : place.normalize = d.location) (later : Instant) : load policy later t place = .done t d.calm := by
  obtain ⟨fields, known, current⟩ := rest.current
  rw [← same] at held known current
  have made := ofText_refreshed rest.made false
  rw [load_of_current held known current, same, made]
  rfl

theorem read_of_load (loaded : (load policy now t place).result = .ok d) :
    ∃ text own, t.read place.normalize = .ok text ∧ fieldsOf place.normalize text = .ok own := by
  obtain ⟨raw, refreshed, fresh, _⟩ := load_eq_ok loaded
  rcases refresh_cases policy now.toMillis t place.normalize with
    ⟨fault, failed⟩ | ⟨text, value, fields, read, parsed, top, _⟩
  · rw [failed] at fresh
    cases fresh
  · exact ⟨text, fields, read, fieldsOf_eq_ok.mpr ⟨value, parsed, top⟩⟩

theorem mem_keysOf_of_alike {as bs : Fields} (alike : (Value.object as).alike (.object bs) = true) {key : String}
    (member : key ∈ keysOf as) : key ∈ keysOf bs := by
  obtain ⟨field, inside, rfl⟩ := List.mem_map.mp member
  obtain ⟨w, found, _⟩ := (Value.alike_object_iff.mp alike).2 field inside
  exact List.mem_map.mpr ⟨_, mem_of_lookup found, rfl⟩

/-- A document of which every top-level key is an entity key does not nest again. -/
theorem not_nestsAgain_of_foreignKey? {policy : Upkeep} {dir : Location} {now : String} {own again : Fields}
    (wellFormed : (Value.object own).WellFormed)
    (alike : (Value.object (upkeep policy dir now own)).alike (.object again) = true)
    (back : fieldsOf d.location d.rawText = .ok again) (made : ofText d.location d.rawText d.refreshed = .ok d)
    (keeps : KeepsKeys d.location d.rawText) (plain : foreignKey? d = none) : ¬NestsAgain own := by
  have apart : nestingKey ≠ schemaKey := by decide
  have other : nestingKey ≠ extendsKey := by decide
  intro nests
  have shapeless : nested? (upkeep policy dir now own) = none ↔ ¬NestsAgain own :=
    nested?_upkeep_eq_none_iff wellFormed
  obtain ⟨inner, shape⟩ := Option.ne_none_iff_exists'.mp (mt shapeless.mp (not_not.mpr nests))
  have nested : nestingKey ∈ keysOf again :=
    mem_keysOf_of_alike alike (List.mem_map.mpr ⟨_, mem_of_lookup (nested?_eq_some shape).1, rfl⟩)
  obtain ⟨value, fields, parsed, top, _, same⟩ := ofText_eq_ok made
  have filled := (keeps again fields back (fieldsOf_eq_ok.mpr ⟨value, parsed, top⟩) nestingKey).mp nested
  have entity : nestingKey ∈ keysOf d.entities := by
    obtain ⟨field, inside, key⟩ := List.mem_map.mp filled
    rw [same]
    refine List.mem_map.mpr ⟨field, List.mem_filter.mpr ⟨List.mem_filter.mpr ⟨inside, ?_⟩, ?_⟩, key⟩
    · simpa [key] using apart
    · simpa [key] using other
  have sharp := List.find?_eq_none.mp plain nestingKey entity
  exact sharp (by decide)

/-- A document that a load brought up to date, or found so, is at rest. -/
theorem atRest_of_load {text : String} {own : Fields} (loaded : (load policy now t place).result = .ok d)
    (stored : t.read place.normalize = .ok text) (known : fieldsOf place.normalize text = .ok own)
    (faithful : d.refreshed = true → ReadsBack (.object (upkeep policy place.normalize.dir now.toMillis own)))
    (keeps : KeepsKeys d.location d.rawText) (plain : foreignKey? d = none) :
    AtRest policy d ∧ (load policy now t place).files.read d.location = .ok d.rawText := by
  obtain ⟨again, back, alike⟩ := fieldsOf_rawText loaded stored known faithful
  obtain ⟨held, made, -⟩ := load_leaves loaded stored known
  have wellFormed := wellFormed_of_fieldsOf known
  rw [← location_of_load loaded] at back alike held made
  have single := not_nestsAgain_of_foreignKey? wellFormed alike back made keeps plain
  have current : Current policy d.location.dir (upkeep policy d.location.dir now.toMillis own) :=
    current_upkeep_iff.mpr ((nested?_upkeep_eq_none_iff wellFormed).mpr single)
  exact ⟨⟨⟨again, back, current.of_alike (wellFormed.upkeep _ _ _) (wellFormed_of_fieldsOf back) alike⟩,
    made⟩, held⟩

theorem sameDirs_load (policy : Upkeep) (now : Instant) (t : FileTree) (place : Location) :
    t.SameDirs (load policy now t place).files := by
  rcases files_load_cases policy now t place with same | ⟨body, _, written⟩
  · rw [same]
    exact .refl t
  · exact FileTree.sameDirs_of_write written

/-- Loading one document leaves what every other place reads. -/
theorem read_load_of_ne {l : Location} (loaded : place.normalize.isAbsolute = true)
    (other : l.isAbsolute = true ∧ l.normalize = l) (apart : place.normalize ≠ l) :
    (load policy now t place).files.read l = t.read l := by
  rcases files_load_cases policy now t place with same | ⟨body, _, written⟩
  · rw [same]
  · cases located : t.locate l with
    | error fault =>
      have same := ((sameShape_load policy now t place).locate l).trans located
      simp [FileTree.read, located, same, bind, Except.bind]
    | ok names =>
      refine FileTree.read_write_of_ne written located fun there => apart ?_
      exact FileTree.eq_of_locate ⟨loaded, place.normalize_normalize⟩ other there located

end LayeredConfig.Document
