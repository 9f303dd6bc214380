import LayeredConfig.Proofs.Document.Current
import LayeredConfig.Proofs.Document.Transparency
import LayeredConfig.Proofs.FileTree.Growth

namespace LayeredConfig

/-- What is printed for the value reads as an equal value. -/
def ReadsBack (v : Value) : Prop :=
  ∃ w, Yaml.read? (Yaml.print v) = some w ∧ v.alike w = true

namespace Document

theorem fieldsOf_eq_ok {file : Location} {text : String} {fields : Fields} :
    fieldsOf file text = .ok fields ↔ ∃ value, parse file text = .ok value ∧ topFields file value = .ok fields :=
  bind_eq_ok

theorem refresh_eq {t : FileTree} {file : Location} {text : String} {value : Value} {fields : Fields}
    (read : t.read file = .ok text) (parsed : parse file text = .ok value)
    (top : topFields file value = .ok fields) (policy : Upkeep) (now : String) :
    refresh policy now t file =
      if (Value.object (upkeep policy file.dir now fields)).alike value then .done t (text, false)
      else (save t file (.object (upkeep policy file.dir now fields))).andThen fun files text =>
        .done files (text, true) := by
  simp [refresh, stored, read, parsed, top, bind, Except.bind, Except.map]

theorem ofText_refreshed {file : Location} {text : String} {refreshed : Bool} {d : Document}
    (made : ofText file text refreshed = .ok d) (other : Bool) :
    ofText file text other = .ok { d with refreshed := other } := by
  obtain ⟨value, fields, parsed, top, parents, same⟩ := ofText_eq_ok made
  simp only [ofText, parsed, top, parents, bind, Except.bind]
  rw [same]

theorem eq_object_of_lookup {file : Location} {value : Value} {fields : Fields} {key : String} {v : Value}
    (top : topFields file value = .ok fields) (found : fields.lookup key = some v) : value = .object fields := by
  cases value with
  | object own =>
    cases top
    rfl
  | null =>
    cases top
    cases found
  | _ => cases top

/-- A file with a current document is loaded as it stands, and left alone. -/
theorem load_of_current {policy : Upkeep} {t : FileTree} {place : Location} {text : String} {fields : Fields}
    (read : t.read place.normalize = .ok text) (known : fieldsOf place.normalize text = .ok fields)
    (current : Current policy place.normalize.dir fields) (now : Instant) :
    load policy now t place = ⟨t, ofText place.normalize text false⟩ := by
  have wellFormed := wellFormed_of_fieldsOf known
  have schema := (reshape?_eq_none_iff.mp current.shaped).1
  obtain ⟨value, parsed, top⟩ := fieldsOf_eq_ok.mp known
  obtain rfl := eq_object_of_lookup top schema
  have fresh : refresh policy now.toMillis t place.normalize = .done t (text, false) := by
    rw [refresh_eq read parsed top, current.upkeep_eq, if_pos (Value.alike_refl _ wellFormed)]
  simp [load, fresh, Outcome.andCheck, Outcome.done, Except.bind]

/-- A loaded document is what its file holds afterwards; the file was left alone or
holds the document brought up to date. -/
theorem load_leaves {policy : Upkeep} {now : Instant} {t : FileTree} {place : Location} {text : String}
    {own : Fields} {d : Document} (loaded : (load policy now t place).result = .ok d)
    (stored : t.read place.normalize = .ok text) (known : fieldsOf place.normalize text = .ok own) :
    (load policy now t place).files.read place.normalize = .ok d.rawText ∧
      ofText place.normalize d.rawText d.refreshed = .ok d ∧
      (d.refreshed = false ∧ d.rawText = text ∧ upkeep policy place.normalize.dir now.toMillis own = own ∨
        d.refreshed = true ∧
          d.rawText = Yaml.print (.object (upkeep policy place.normalize.dir now.toMillis own))) := by
  obtain ⟨raw, refreshed, fresh, made⟩ := load_eq_ok loaded
  obtain ⟨_, _, _, _, _, same⟩ := ofText_eq_ok made
  have rawText : d.rawText = raw := by rw [same]
  have flag : d.refreshed = refreshed := by rw [same]
  have files : (load policy now t place).files = (refresh policy now.toMillis t place.normalize).files := rfl
  rw [files, rawText, flag]
  rcases refresh_cases policy now.toMillis t place.normalize with
    ⟨fault, failed⟩ | ⟨content, value, fields, found, parsed, top, turn⟩
  · rw [failed] at fresh
    cases fresh
  · obtain rfl : content = text := Except.ok.inj (found.symm.trans stored)
    have same : fieldsOf place.normalize content = .ok fields := fieldsOf_eq_ok.mpr ⟨value, parsed, top⟩
    obtain rfl : fields = own := Except.ok.inj (same.symm.trans known)
    rcases turn with ⟨alike, kept⟩ | ⟨_, u, wrote, saved⟩
    · rw [kept, Outcome.result_done] at fresh
      obtain ⟨rfl, rfl⟩ := Prod.mk.inj (Except.ok.inj fresh)
      rw [kept, Outcome.files_done]
      have unchanged := upkeep_eq_of_alike (wellFormed_of_fieldsOf known) (object_of_alike top alike)
      exact ⟨stored, made, Or.inl ⟨rfl, rfl, unchanged⟩⟩
    · rw [saved, Outcome.result_done] at fresh
      obtain ⟨rfl, rfl⟩ := Prod.mk.inj (Except.ok.inj fresh)
      rw [saved, Outcome.files_done]
      exact ⟨FileTree.read_of_write wrote, made, Or.inr ⟨rfl, rfl⟩⟩

/-- What the file holds after a load reads as fields equal to those brought up to
date. -/
theorem fieldsOf_rawText {policy : Upkeep} {now : Instant} {t : FileTree} {place : Location} {text : String}
    {own : Fields} {d : Document} (loaded : (load policy now t place).result = .ok d)
    (stored : t.read place.normalize = .ok text) (known : fieldsOf place.normalize text = .ok own)
    (faithful : d.refreshed = true → ReadsBack (.object (upkeep policy place.normalize.dir now.toMillis own))) :
    ∃ again, fieldsOf place.normalize d.rawText = .ok again ∧
      (Value.object (upkeep policy place.normalize.dir now.toMillis own)).alike (.object again) = true := by
  rcases (load_leaves loaded stored known).2.2 with ⟨_, kept, unchanged⟩ | ⟨refreshed, printed⟩
  · rw [kept, unchanged]
    exact ⟨own, known, Value.alike_refl _ (wellFormed_of_fieldsOf known)⟩
  · obtain ⟨w, read, alike⟩ := faithful refreshed
    cases w with
    | object again =>
      have parsed : parse place.normalize d.rawText = .ok (.object again) := by
        rw [parse, printed, read]
      exact ⟨again, fieldsOf_eq_ok.mpr ⟨_, parsed, rfl⟩, alike⟩
    | _ => simp [Value.alike] at alike

/-- Where what was written reads back, a second load at any time gives the same
document and leaves the file alone, unless bringing the document into shape left one
nested mapping again; then every second load that succeeds writes the file. -/
theorem load_again_iff {policy : Upkeep} {now : Instant} {t : FileTree} {place : Location} {text : String}
    {own : Fields} {d : Document} (loaded : (load policy now t place).result = .ok d)
    (stored : t.read place.normalize = .ok text) (known : fieldsOf place.normalize text = .ok own)
    (faithful : d.refreshed = true → ReadsBack (.object (upkeep policy place.normalize.dir now.toMillis own)))
    (later : Instant) :
    (load policy later (load policy now t place).files place =
        .done (load policy now t place).files { d with refreshed := false } ↔ ¬NestsAgain own) ∧
      (NestsAgain own → ∀ again, (load policy later (load policy now t place).files place).result = .ok again →
        again.refreshed = true) := by
  obtain ⟨again, back, alike⟩ := fieldsOf_rawText loaded stored known faithful
  obtain ⟨held, made, -⟩ := load_leaves loaded stored known
  have wellFormed := wellFormed_of_fieldsOf known
  have upgraded := wellFormed.upkeep policy place.normalize.dir now.toMillis
  have other := wellFormed_of_fieldsOf back
  have nests : nested? (upkeep policy place.normalize.dir now.toMillis own) = none ↔ ¬NestsAgain own :=
    nested?_upkeep_eq_none_iff wellFormed
  have written : NestsAgain own → ∀ second,
      (load policy later (load policy now t place).files place).result = .ok second → second.refreshed = true := by
    intro nested second reloaded
    -- what the file holds has the older shape again, so it cannot be left alone
    obtain ⟨inner, shape⟩ := Option.ne_none_iff_exists'.mp (mt nests.mp (not_not.mpr nested))
    obtain ⟨below, found⟩ := nested?_of_alike (Value.wellFormed_object.mp upgraded).1 alike shape
    have schema := lookup_schemaKey_upkeep policy place.normalize.dir now.toMillis own
    obtain ⟨reference, marked, _⟩ := (Value.alike_object_iff.mp alike).2 _ (mem_of_lookup schema)
    rcases (load_leaves reloaded held back).2.2 with ⟨_, _, unchanged⟩ | ⟨refreshed, _⟩
    · have present := Option.isSome_iff_exists.mpr ⟨reference, marked⟩
      exact absurd unchanged (upkeep_ne_of_nested (Value.wellFormed_object.mp other).1 present found)
    · exact refreshed
  refine ⟨⟨fun same nested => ?_, fun single => ?_⟩, written⟩
  · have refreshed := written nested { d with refreshed := false } (by rw [same, Outcome.result_done])
    cases refreshed
  · have current := (current_upkeep_iff.mpr (nests.mpr single)).of_alike upgraded other alike
    rw [load_of_current held back current, ofText_refreshed made]
    rfl

def stampingUpkeep : Upkeep :=
  ⟨⟨"/s"⟩, true⟩

set_option maxRecDepth 10000 in
/-- An entity nested in the older shape, without stamps: the second load, at a later
time, leaves it as the first one hoisted and stamped it. -/
theorem load_again_hoisted :
    ∃ d, (load stampingUpkeep ⟨0, 0⟩ (oneDocument "$schema: old\nconfig:\n  '#A':\n") ⟨"/d/a"⟩).result = .ok d ∧
      d.refreshed = true ∧
      let files := (load stampingUpkeep ⟨0, 0⟩ (oneDocument "$schema: old\nconfig:\n  '#A':\n") ⟨"/d/a"⟩).files
      load stampingUpkeep ⟨7, 0⟩ files ⟨"/d/a"⟩ = .done files { d with refreshed := false } := by
  have loads : ((load stampingUpkeep ⟨0, 0⟩ (oneDocument "$schema: old\nconfig:\n  '#A':\n")
      ⟨"/d/a"⟩).result.toOption.any (·.refreshed)) = true := by
    decide +kernel
  have stored : (oneDocument "$schema: old\nconfig:\n  '#A':\n").read (Location.normalize ⟨"/d/a"⟩) =
      .ok "$schema: old\nconfig:\n  '#A':\n" :=
    eq_ok_of_toOption (by decide +kernel)
  have known : fieldsOf (Location.normalize ⟨"/d/a"⟩) "$schema: old\nconfig:\n  '#A':\n" =
      .ok [("$schema", .string "old"), ("config", .object [("#A", .null)])] :=
    eq_ok_of_toOption (by decide +kernel)
  have faithful : ReadsBack (.object
      (upkeep stampingUpkeep (Location.normalize ⟨"/d/a"⟩).dir (Instant.toMillis ⟨0, 0⟩)
        [("$schema", .string "old"), ("config", .object [("#A", .null)])])) :=
    (Option.any_eq_true _ _).mp (by decide +kernel)
  have single : ¬NestsAgain [("$schema", .string "old"), ("config", .object [("#A", .null)])] := by
    rintro ⟨inner, left⟩
    have shape : without schemaKey (unwrapped [("$schema", .string "old"), ("config", .object [("#A", .null)])]) =
        [("#A", .null)] := by
      decide +kernel
    simp [shape, nestingKey] at left
  obtain ⟨d, loaded, refreshed⟩ := exists_of_toOption_any loads
  exact ⟨d, loaded, refreshed, (load_again_iff loaded stored known (fun _ => faithful) ⟨7, 0⟩).1.mpr single⟩

set_option maxRecDepth 10000 in
/-- That a second load never finds anything to do is not so: a document without
schema reference that is one nested mapping gets the reference first, and then has
the older shape. -/
theorem not_load_again_wrapped :
    ¬∀ (policy : Upkeep) (now later : Instant) (t : FileTree) (place : Location) (text : String) (own : Fields)
        (d : Document), (load policy now t place).result = .ok d → t.read place.normalize = .ok text →
      fieldsOf place.normalize text = .ok own →
      ReadsBack (.object (upkeep policy place.normalize.dir now.toMillis own)) →
      load policy later (load policy now t place).files place =
        .done (load policy now t place).files { d with refreshed := false } := by
  intro claim
  have loads : ((load unstamped ⟨0, 0⟩ (oneDocument "config:\n  '#A': x\n") ⟨"/d/a"⟩).result.toOption.any
      (·.refreshed)) = true := by
    decide +kernel
  have stored : (oneDocument "config:\n  '#A': x\n").read (Location.normalize ⟨"/d/a"⟩) =
      .ok "config:\n  '#A': x\n" :=
    eq_ok_of_toOption (by decide +kernel)
  have known : fieldsOf (Location.normalize ⟨"/d/a"⟩) "config:\n  '#A': x\n" =
      .ok [("config", .object [("#A", .string "x")])] :=
    eq_ok_of_toOption (by decide +kernel)
  have faithful : ReadsBack (.object (upkeep unstamped (Location.normalize ⟨"/d/a"⟩).dir (Instant.toMillis ⟨0, 0⟩)
      [("config", .object [("#A", .string "x")])])) :=
    (Option.any_eq_true _ _).mp (by decide +kernel)
  have second : ((load unstamped ⟨0, 0⟩ (load unstamped ⟨0, 0⟩ (oneDocument "config:\n  '#A': x\n") ⟨"/d/a"⟩).files
      ⟨"/d/a"⟩).result.toOption.any (·.refreshed)) = true := by
    decide +kernel
  obtain ⟨d, loaded, refreshed⟩ := exists_of_toOption_any loads
  rw [claim unstamped ⟨0, 0⟩ ⟨0, 0⟩ _ ⟨"/d/a"⟩ _ _ d loaded stored known faithful] at second
  cases second

end Document

end LayeredConfig
