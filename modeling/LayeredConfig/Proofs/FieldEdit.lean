import LayeredConfig.Proofs.Document.Effect
import LayeredConfig.Proofs.Edit
import LayeredConfig.Proofs.FileTree.Places

namespace LayeredConfig

/-- What a place reads, its canonical form reads if it leads somewhere. -/
theorem FileTree.read_normalize {t : FileTree} {l : Location} {names : List String} {text : String}
    (read : t.read l = .ok text) (canonical : t.locate l.normalize = .ok names) :
    t.read l.normalize = .ok text := by
  obtain ⟨own, located, _⟩ := entry?_of_read read
  obtain rfl := locate_normalize located canonical
  rwa [read_of_locate canonical, ← read_of_locate located]

theorem isSome_lookup_setAt {fields : Fields} {key : String} (known : (fields.lookup key).isSome)
    (path : List String) (value : Value) : ((setAt fields path value).lookup key).isSome := by
  rw [Option.isSome_iff_exists, ← mem_keysOf_iff] at known ⊢
  exact keysOf_subset_setAt fields path value known

/-- A mapping keeps its stamps when a value is set in it, be it one of them. -/
theorem Stamped.setAt {key : String} {inner : Fields} (stamped : Stamped (key, .object inner)) (path : List String)
    (value : Value) : Stamped (key, .object (setAt inner path value)) := by
  intro entity
  -- what is set may be a stamp itself, so that only its key is kept
  refine ⟨by simp, fun below same => ?_⟩
  obtain rfl := Value.object.inj same
  obtain ⟨created, updated⟩ := (stamped entity).2 inner rfl
  exact ⟨isSome_lookup_setAt created path value, isSome_lookup_setAt updated path value⟩

section Current

variable {policy : Upkeep} {dir : Location} {fields inner : Fields} {entity : String} {path : List String}

/-- A current document stays current when a value is set below one of its entities. -/
theorem Current.setAt (current : Current policy dir fields) (entityKey : isEntityKey entity = true)
    (mapping : fields.lookup entity = some (.object inner)) (nonempty : path ≠ []) (value : Value) :
    Current policy dir (setAt fields (entity :: path) value) := by
  have changed : LayeredConfig.setAt fields (entity :: path) value =
      put entity (.object (LayeredConfig.setAt inner path value)) fields := by
    cases path with
    | nil => exact absurd rfl nonempty
    | cons key rest => simp [LayeredConfig.setAt, mapping, fieldsOrNone]
  have apart : schemaKey ≠ entity := by
    rintro rfl
    cases entityKey
  have kept : entity ∈ keysOf (LayeredConfig.setAt fields (entity :: path) value) :=
    keysOf_subset_setAt fields _ value (mem_keysOf_iff.mpr ⟨_, mapping⟩)
  refine ⟨reshape?_eq_none_iff.mpr ⟨?_, nested?_of_entity entityKey kept⟩, fun stamping field member => ?_⟩
  · rw [lookup_setAt_of_ne apart]
    exact (reshape?_eq_none_iff.mp current.shaped).1
  · rw [changed] at member
    rcases mem_of_mem_put member with rfl | old
    · exact (current.stamped stamping _ (mem_of_lookup mapping)).setAt path value
    · exact current.stamped stamping field old

end Current

namespace Document

variable {policy : Upkeep} {now : Instant} {t : FileTree} {place file : Location} {text : String} {fields : Fields}

/-- What fields a text has does not depend on the file it is in. -/
theorem fieldsOf_elsewhere (known : fieldsOf file text = .ok fields) (other : Location) :
    fieldsOf other text = .ok fields := by
  obtain ⟨value, parsed, top⟩ := fieldsOf_eq_ok.mp known
  refine fieldsOf_eq_ok.mpr ⟨value, ?_, ?_⟩
  · unfold parse at parsed ⊢
    cases back : Yaml.read? text <;> simp_all
  · cases value <;> first | exact top | cases top

/-- A file with fields is written unless they are current. -/
theorem rewrites_iff (read : t.read place.normalize = .ok text)
    (known : fieldsOf place.normalize text = .ok fields) :
    Rewrites policy now t place ↔ ¬Current policy place.normalize.dir fields := by
  have wellFormed := wellFormed_of_fieldsOf known
  obtain ⟨value, parsed, top⟩ := fieldsOf_eq_ok.mp known
  unfold Rewrites
  rw [refresh_eq read parsed top]
  cases alike : (Value.object (upkeep policy place.normalize.dir now.toMillis fields)).alike value with
  | true =>
    have unchanged := upkeep_eq_of_alike wellFormed (object_of_alike top alike)
    refine iff_of_false ?_ (not_not.mpr (current_of_upkeep_eq wellFormed.keysOf_nodup unchanged))
    rintro ⟨u, raw, kept⟩
    rw [if_pos rfl] at kept
    cases kept
  | false =>
    let raw := Yaml.print (.object (upkeep policy place.normalize.dir now.toMillis fields))
    obtain ⟨u, wrote⟩ := FileTree.exists_write (FileTree.isFile_of_read read) (.text raw)
    refine iff_of_true ⟨u, raw, by simp [save, raw, wrote]⟩ fun current => ?_
    obtain rfl := eq_object_of_lookup top (reshape?_eq_none_iff.mp current.shaped).1
    rw [current.upkeep_eq, Value.alike_refl _ wellFormed] at alike
    cases alike

end Document

namespace Edit

variable {policy : Upkeep} {now : Instant} {t : FileTree} {file : Location} {fields inner : Fields}
  {entity : String} {path : List String} {value : Value} {onlyIfAbsent : Bool} {result : EditResult}

/-- Only a file whose canonical place leads somewhere is written by a load. -/
theorem exists_locate_of_rewrites (writes : Document.Rewrites policy now t file) :
    ∃ names, t.locate file.normalize = .ok names := by
  obtain ⟨text, _, _, read, _⟩ := Document.load_of_rewrites writes
  obtain ⟨names, located, _⟩ := FileTree.entry?_of_read read
  exact ⟨names, located⟩

/-- A file with fields, read as it is written, is loaded from its canonical place. -/
theorem rewrites_iff_of_fieldsOf {names : List String} (known : fieldsOf t file = .ok fields)
    (located : t.locate file.normalize = .ok names) :
    Document.Rewrites policy now t file ↔ ¬Current policy file.normalize.dir fields := by
  obtain ⟨text, read, held⟩ := fieldsOf_eq_ok.mp known
  exact Document.rewrites_iff (FileTree.read_normalize read located) (Document.fieldsOf_elsewhere held _)

theorem exists_fieldsOf_of_set (done : (set t file path value onlyIfAbsent).result = .ok result) :
    checkPath file path = .ok () ∧ ∃ fields, fieldsOf t file = .ok fields := by
  cases checked : (checkPath file path).bind fun _ => fieldsOf t file with
  | error fault =>
    rw [set_of_error checked] at done
    cases done
  | ok fields =>
    obtain ⟨_, allowed, known⟩ := bind_eq_ok.mp checked
    exact ⟨allowed, fields, known⟩

theorem sameShape_set (allowed : checkPath file path = .ok ()) (known : fieldsOf t file = .ok fields)
    (value : Value) (onlyIfAbsent : Bool) : t.SameShape (set t file path value onlyIfAbsent).files := by
  rcases set_cases allowed known value onlyIfAbsent with ⟨result, _, stays⟩ | ⟨_, u, wrote, stored⟩
  · rw [stays, Outcome.files_done]
    exact .refl t
  · obtain ⟨text, read, _⟩ := fieldsOf_eq_ok.mp known
    rw [stored, Outcome.files_done]
    exact FileTree.sameShape_of_write (FileTree.isFile_of_read read) wrote

/-- What a document holds after a value was set below one of its entities is current if
the document was. -/
theorem exists_current_of_set {dir : Location} (entityKey : isEntityKey entity = true) (nonempty : path ≠ [])
    (wellFormed : value.WellFormed) (allowed : checkPath file (entity :: path) = .ok ())
    (known : fieldsOf t file = .ok fields) (mapping : fields.lookup entity = some (.object inner))
    (current : Current policy dir fields)
    (faithful : (set t file (entity :: path) value onlyIfAbsent).result = .ok .written →
      ReadsBack (.object (setAt fields (entity :: path) value))) :
    ∃ again, fieldsOf (set t file (entity :: path) value onlyIfAbsent).files file = .ok again ∧
      Current policy dir again := by
  rcases set_cases allowed known value onlyIfAbsent with ⟨result, _, stays⟩ | ⟨_, u, wrote, stored⟩
  · rw [stays, Outcome.files_done]
    exact ⟨fields, known, current⟩
  · have readsBack := faithful (by rw [stored, Outcome.result_done])
    obtain ⟨again, held, alike⟩ := fieldsOf_of_write known wrote readsBack
    have changed : (Value.object (setAt fields (entity :: path) value)).WellFormed :=
      (wellFormed_of_fieldsOf known).setAt wellFormed _
    rw [stored, Outcome.files_done]
    exact ⟨again, held,
      (current.setAt entityKey mapping nonempty value).of_alike changed (wellFormed_of_fieldsOf held) alike⟩

/-- Setting a value below an entity that is a mapping does not give a load anything to
write: when none would write the file before, none at any later time does so after. -/
theorem set_below_entity_rests (entityKey : isEntityKey entity = true)
    (mapping : get t file [entity] = .ok (some (.object inner))) (nonempty : path ≠ [])
    (wellFormed : value.WellFormed) (rests : ¬Document.Rewrites policy now t file)
    (done : (set t file (entity :: path) value onlyIfAbsent).result = .ok result)
    (faithful : result = .written → ∀ fields, fieldsOf t file = .ok fields →
      ReadsBack (.object (setAt fields (entity :: path) value)))
    (later : Instant) :
    let files := (set t file (entity :: path) value onlyIfAbsent).files
    ¬Document.Rewrites policy later files file ∧ (Document.load policy later files file).files = files ∧
      ∀ d, (Document.load policy later files file).result = .ok d → d.refreshed = false := by
  intro files
  obtain ⟨allowed, fields, known⟩ := exists_fieldsOf_of_set done
  obtain ⟨own, same, found⟩ := get_eq_ok.mp mapping
  obtain rfl : own = fields := Except.ok.inj (same.symm.trans known)
  have stored : own.lookup entity = some (.object inner) := by simpa [valueAt?, Value.at?] using found
  have readsBack : (set t file (entity :: path) value onlyIfAbsent).result = .ok .written →
      ReadsBack (.object (setAt own (entity :: path) value)) := fun written =>
    faithful (Except.ok.inj (done.symm.trans written)) own known
  have still : ¬Document.Rewrites policy later files file := by
    intro writes
    -- the edit goes to the place as it is written, the load to its canonical form
    obtain ⟨names, after⟩ := exists_locate_of_rewrites writes
    have before : t.locate file.normalize = .ok names :=
      ((sameShape_set allowed known value onlyIfAbsent).locate _).symm.trans after
    have current : Current policy file.normalize.dir own :=
      not_not.mp fun other => rests ((rewrites_iff_of_fieldsOf known before).mpr other)
    obtain ⟨again, held, stays⟩ :=
      exists_current_of_set entityKey nonempty wellFormed allowed known stored current readsBack
    exact (rewrites_iff_of_fieldsOf held after).mp writes stays
  obtain ⟨kept, loaded⟩ := Document.load_of_not_rewrites still
  exact ⟨still, kept, fun d made => (loaded d made).1⟩

def stampedEntity : FileTree :=
  Document.oneDocument "$schema: ../s\n'#A':\n  createdAt: x\n  updatedAt: y\n"

def stampedFields : Fields :=
  [("$schema", .string "../s"), ("#A", .object [("createdAt", .string "x"), ("updatedAt", .string "y")])]

set_option maxRecDepth 10000 in
/-- A value set below a stamp, which gives place to a mapping: the entity still has both
stamps, and the file is left alone. -/
theorem set_below_stamp_rests :
    let path := ["#A", "createdAt", "by"]
    let value := Value.string "me"
    ¬Document.Rewrites Document.stampingUpkeep ⟨0, 0⟩ stampedEntity ⟨"/d/a"⟩ ∧
      (set stampedEntity ⟨"/d/a"⟩ path value true).result = .ok .written ∧
      let files := (set stampedEntity ⟨"/d/a"⟩ path value true).files
      ¬Document.Rewrites Document.stampingUpkeep ⟨7, 0⟩ files ⟨"/d/a"⟩ ∧
        (Document.load Document.stampingUpkeep ⟨7, 0⟩ files ⟨"/d/a"⟩).files = files := by
  intro path value
  have known : fieldsOf stampedEntity ⟨"/d/a"⟩ = .ok stampedFields := eq_ok_of_toOption (by decide +kernel)
  have mapping : get stampedEntity ⟨"/d/a"⟩ ["#A"] =
      .ok (some (.object [("createdAt", .string "x"), ("updatedAt", .string "y")])) :=
    get_eq_ok.mpr ⟨_, known, rfl⟩
  have untouched : (Document.refresh Document.stampingUpkeep (Instant.toMillis ⟨0, 0⟩) stampedEntity
      (Location.normalize ⟨"/d/a"⟩)).result.toOption.any (!·.2) = true := by
    decide +kernel
  have rests : ¬Document.Rewrites Document.stampingUpkeep ⟨0, 0⟩ stampedEntity ⟨"/d/a"⟩ := by
    rintro ⟨u, text, writes⟩
    rw [writes] at untouched
    cases untouched
  have done : (set stampedEntity ⟨"/d/a"⟩ path value true).result = .ok .written :=
    eq_ok_of_toOption (by decide +kernel)
  have readsBack : ReadsBack (.object (setAt stampedFields path value)) :=
    (Option.any_eq_true _ _).mp (by decide +kernel)
  obtain ⟨still, kept, _⟩ := set_below_entity_rests (by decide) mapping (by simp)
    (show value.WellFormed by simp [value, Value.WellFormed]) rests done
    (fun _ fields read => by
      rw [known, Except.ok.injEq] at read
      exact read ▸ readsBack)
    ⟨7, 0⟩
  exact ⟨rests, done, still, kept⟩

end Edit

end LayeredConfig
