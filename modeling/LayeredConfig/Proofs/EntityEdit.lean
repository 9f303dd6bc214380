import LayeredConfig.Proofs.Document.Failure
import LayeredConfig.Proofs.Edit

namespace LayeredConfig.Edit

/-- An entity with a value set at a path inside it. The empty path is the entity itself;
an entity that is missing or no object gives place to an object. -/
def entityWith (stored : Option Value) (path : List String) (value : Value) : Value :=
  match path with
  | [] => value
  | _ :: _ => .object (setAt (fieldsOrNone stored) path value)

/-- The path names keys of a document that can be read, and the value there is not this
one. -/
def Changes (t : FileTree) (file : Location) (path : List String) (value : Value) : Prop :=
  "" ∉ path ∧ ∃ previous, get t file path = .ok previous ∧ ∀ old, previous = some old → old.alike value = false

theorem lookup_setAt_cons (fields : Fields) (entity : String) (path : List String) (value : Value) :
    (setAt fields (entity :: path) value).lookup entity = some (entityWith (fields.lookup entity) path value) := by
  cases path with
  | nil => simp [setAt, entityWith]
  | cons key rest => simp [setAt, entityWith]

theorem at?_entityWith (stored : Option Value) (path : List String) (value : Value) :
    (entityWith stored path value).at? path = some value := by
  cases path with
  | nil => rfl
  | cons key rest => rw [entityWith, Value.at?_object (by simp), valueAt?_setAt_self (by simp)]

theorem valueAt?_singleton (fields : Fields) (key : String) : valueAt? fields [key] = fields.lookup key := by
  simp [valueAt?, Value.at?]

variable {t u : FileTree} {file : Location} {entity : String} {path : List String} {value : Value}
  {fields : Fields} {validate : String → Value → List Issue}

theorem checkPath_eq_ok (nonempty : path ≠ []) : checkPath file path = .ok () ↔ "" ∉ path := by
  simp [checkPath, nonempty]

theorem checkPath_eq_error {fault : Fault} (refused : checkPath file path = .error fault) :
    fault = .emptyPath file := by
  unfold checkPath at refused
  split at refused
  · cases refused
    rfl
  · cases refused

theorem fieldsOf_eq_error {fault : Fault} (failed : fieldsOf t file = .error fault) : fault.OfFile file := by
  rcases bind_eq_error.mp failed with unread | ⟨⟨_, v⟩, _, topless⟩
  · exact Document.stored_eq_error unread
  · exact Document.topFields_eq_error topless

theorem Changes.exists_fieldsOf (changes : Changes t file path value) :
    ∃ fields, fieldsOf t file = .ok fields := by
  obtain ⟨_, _, held, _⟩ := changes
  obtain ⟨fields, known, _⟩ := get_eq_ok.mp held
  exact ⟨fields, known⟩

/-- A value changes where it is not settled before the file is written. -/
theorem changes_iff (known : fieldsOf t file = .ok fields) :
    Changes t file path value ↔ "" ∉ path ∧ settled? fields path value false = none := by
  have held : get t file path = .ok (valueAt? fields path) := get_eq_ok.mpr ⟨fields, known, rfl⟩
  simp [Changes, held, settled?_eq_none_iff]

theorem eq_unchanged_of_settled? {result : EditResult} (settled : settled? fields path value false = some result) :
    result = .unchanged := by
  obtain ⟨_, _, ⟨keeps, _⟩ | ⟨_, _, same⟩⟩ := settled?_eq_some_iff.mp settled
  · cases keeps
  · exact same

/-- All that setting a value inside an entity of a document can do: the path or the file
is refused; the value is there already; or the validator is asked about the entity with
the value set, and the document is written if it has no objection. -/
theorem setInEntity_cases (validate : String → Value → List Issue) (t : FileTree) (file : Location)
    (entity : String) (path : List String) (value : Value) :
    (∃ fault, (fault = .emptyPath file ∨ fault.OfFile file) ∧ ¬ Changes t file (entity :: path) value ∧
        setInEntity validate t file entity path value = ⟨.failed t fault, []⟩) ∨
      (¬ Changes t file (entity :: path) value ∧
        setInEntity validate t file entity path value = ⟨.done t .unchanged, []⟩) ∨
      ∃ fields, fieldsOf t file = .ok fields ∧ Changes t file (entity :: path) value ∧
        let proposed := entityWith (fields.lookup entity) path value
        (validate entity proposed ≠ [] ∧ setInEntity validate t file entity path value =
            ⟨.failed t (.rejected entity file (validate entity proposed)), [(entity, proposed)]⟩) ∨
          validate entity proposed = [] ∧
            ∃ u, t.write file (.text (Yaml.print (.object (setAt fields (entity :: path) value)))) = .ok u ∧
              setInEntity validate t file entity path value = ⟨.done u .written, [(entity, proposed)]⟩ := by
  unfold setInEntity
  dsimp only
  cases allowed : checkPath file (entity :: path) with
  | error fault =>
    refine Or.inl ⟨fault, Or.inl (checkPath_eq_error allowed), fun changes => ?_, rfl⟩
    rw [(checkPath_eq_ok (List.cons_ne_nil _ _)).mpr changes.1] at allowed
    cases allowed
  | ok _ =>
    have named : "" ∉ entity :: path := (checkPath_eq_ok (List.cons_ne_nil _ _)).mp allowed
    cases known : fieldsOf t file with
    | error fault =>
      refine Or.inl ⟨fault, Or.inr (fieldsOf_eq_error known), fun changes => ?_, rfl⟩
      obtain ⟨fields, read⟩ := changes.exists_fieldsOf
      rw [known] at read
      cases read
    | ok fields =>
      simp only [Except.bind]
      cases settled : settled? fields (entity :: path) value false with
      | some result =>
        obtain rfl := eq_unchanged_of_settled? settled
        exact Or.inr (Or.inl ⟨by simp [changes_iff known, settled], rfl⟩)
      | none =>
        refine Or.inr (Or.inr ⟨fields, rfl, (changes_iff known).mpr ⟨named, settled⟩, ?_⟩)
        simp only [lookup_setAt_cons, Option.getD_some]
        cases issues : validate entity (entityWith (fields.lookup entity) path value) with
        | cons issue rest => exact Or.inl ⟨by simp, rfl⟩
        | nil =>
          obtain ⟨u, wrote⟩ := exists_write_of_fieldsOf known
            (.text (Yaml.print (.object (setAt fields (entity :: path) value))))
          exact Or.inr ⟨rfl, u, wrote, by simp [Document.save, wrote]⟩

/-- The entity that is read after a write is the one that was put to the validator. -/
theorem get_entity_of_write (wellFormed : value.WellFormed) (known : fieldsOf t file = .ok fields)
    (wrote : t.write file (.text (Yaml.print (.object (setAt fields (entity :: path) value)))) = .ok u)
    (faithful : ReadsBack (.object (setAt fields (entity :: path) value))) :
    ∃ found, get u file [entity] = .ok (some found) ∧
      found.alike (entityWith (fields.lookup entity) path value) = true := by
  have proposed : valueAt? (setAt fields (entity :: path) value) [entity] =
      some (entityWith (fields.lookup entity) path value) := by
    rw [valueAt?_singleton, lookup_setAt_cons]
  obtain ⟨again, held, alike⟩ := fieldsOf_of_write known wrote faithful
  obtain ⟨found, reached, same⟩ := valueAt?_of_alike alike proposed
  have asked := ((wellFormed_of_fieldsOf known).setAt wellFormed (entity :: path)).valueAt? proposed
  have own := (wellFormed_of_fieldsOf held).valueAt? reached
  exact ⟨found, get_eq_ok.mpr ⟨again, held, reached⟩, Value.alike_symm _ _ asked own same⟩

/-- A validator is asked once, about the stored entity with the value set, where the
document can be read and the value at a path of proper keys changes, and is not asked
in all other cases. What it has no objection to is written, and is the entity that is
read afterwards; its objections are the fault, all of them and in order; and the files
stay as they are unless the result is that something was written. -/
theorem setInEntity_asks_and_writes (validate : String → Value → List Issue) (wellFormed : value.WellFormed)
    (faithful : (setInEntity validate t file entity path value).outcome.result = .ok .written →
      ∀ fields, fieldsOf t file = .ok fields → ReadsBack (.object (setAt fields (entity :: path) value))) :
    let after := setInEntity validate t file entity path value
    (Changes t file (entity :: path) value → ∃ stored, get t file [entity] = .ok stored ∧
        after.consulted = [(entity, entityWith stored path value)] ∧
        (entityWith stored path value).at? path = some value) ∧
      (¬ Changes t file (entity :: path) value → after.consulted = []) ∧
      (after.outcome.result = .ok .written ↔
        ∃ proposed, after.consulted = [(entity, proposed)] ∧ validate entity proposed = []) ∧
      (after.outcome.result = .ok .written → ∀ proposed, after.consulted = [(entity, proposed)] →
        ∃ found, get after.outcome.files file [entity] = .ok (some found) ∧ found.alike proposed = true) ∧
      (after.outcome.result ≠ .ok .written → after.outcome.files = t) ∧
      (∀ e f issues, after.outcome.result = .error (.rejected e f issues) ↔ e = entity ∧ f = file ∧ issues ≠ [] ∧
        ∃ proposed, after.consulted = [(entity, proposed)] ∧ validate entity proposed = issues) := by
  intro after
  rcases setInEntity_cases validate t file entity path value with
    ⟨fault, kind, same, run⟩ | ⟨same, run⟩ | ⟨fields, known, changes, ⟨objects, run⟩ | ⟨accepts, u, wrote, run⟩⟩
  · obtain run : after = ⟨.failed t fault, []⟩ := run
    have other : ∀ e f issues, fault ≠ .rejected e f issues := by
      rintro e f issues rfl
      rcases kind with path_ | of_
      · cases path_
      · cases of_
    simp [run, same, other]
  · obtain run : after = ⟨.done t .unchanged, []⟩ := run
    simp [run, same]
  · obtain run : after = ⟨.failed t (.rejected entity file _), [(entity, _)]⟩ := run
    have stored : get t file [entity] = .ok (fields.lookup entity) :=
      get_eq_ok.mpr ⟨fields, known, valueAt?_singleton fields entity⟩
    rw [run]
    refine ⟨fun _ => ⟨_, stored, rfl, at?_entityWith _ path value⟩, fun same => absurd changes same, ?_, nofun,
      fun _ => rfl, fun e f issues => ?_⟩
    · simp [objects]
    · simp only [Outcome.result_failed, Except.error.injEq, Fault.rejected.injEq, List.cons.injEq, Prod.mk.injEq,
        true_and, and_true]
      constructor
      · rintro ⟨rfl, rfl, rfl⟩
        exact ⟨rfl, rfl, objects, _, rfl, rfl⟩
      · rintro ⟨rfl, rfl, _, proposed, rfl, rfl⟩
        exact ⟨rfl, rfl, rfl⟩
  · have written : (setInEntity validate t file entity path value).outcome.result = .ok .written := by
      rw [run, Outcome.result_done]
    obtain ⟨found, again, alike⟩ := get_entity_of_write wellFormed known wrote (faithful written fields known)
    obtain run : after = ⟨.done u .written, [(entity, _)]⟩ := run
    have stored : get t file [entity] = .ok (fields.lookup entity) :=
      get_eq_ok.mpr ⟨fields, known, valueAt?_singleton fields entity⟩
    rw [run]
    refine ⟨fun _ => ⟨_, stored, rfl, at?_entityWith _ path value⟩, fun same => absurd changes same,
      ⟨fun _ => ⟨_, rfl, accepts⟩, fun _ => rfl⟩, ?_, fun other => absurd rfl other, ?_⟩
    · intro _ proposed asked
      simp only [List.cons.injEq, Prod.mk.injEq, true_and, and_true] at asked
      exact asked ▸ ⟨found, again, alike⟩
    · simp only [Outcome.result_done, List.cons.injEq, Prod.mk.injEq, true_and, and_true]
      rintro e f issues
      constructor
      · nofun
      · rintro ⟨_, _, some_, proposed, rfl, rfl⟩
        exact absurd accepts some_

/-- Objects to an entity without a name that is a text. -/
def wantsName (entity : String) (proposed : Value) : List Issue :=
  match proposed.at? ["name"] with
  | some (.string _) => []
  | _ => [⟨entity ++ ".name", "is missing"⟩]

set_option maxRecDepth 10000 in
/-- A name set in an entity that is a text so far, which gives place to an object: the
validator is asked about that object, and it is what the file holds afterwards. -/
theorem name_asked_and_written :
    (Value.string "b").WellFormed ∧
      let after := setInEntity wantsName (Document.oneDocument "'#A': x") ⟨"/d/a"⟩ "#A" ["name"] (.string "b")
      after.outcome.result = .ok .written ∧
        after.consulted = [("#A", .object [("name", .string "b")])] ∧
        ∃ found, get after.outcome.files ⟨"/d/a"⟩ ["#A"] = .ok (some found) ∧
          found.alike (.object [("name", .string "b")]) = true := by
  have wellFormed : (Value.string "b").WellFormed := by simp [Value.WellFormed]
  have known : fieldsOf (Document.oneDocument "'#A': x") ⟨"/d/a"⟩ = .ok [("#A", .string "x")] :=
    eq_ok_of_toOption (by decide +kernel)
  have faithful : ReadsBack (.object (setAt [("#A", .string "x")] ["#A", "name"] (.string "b"))) :=
    (Option.any_eq_true _ _).mp (by decide +kernel)
  have changes : Changes (Document.oneDocument "'#A': x") ⟨"/d/a"⟩ ["#A", "name"] (.string "b") :=
    ⟨by decide, none, get_eq_ok.mpr ⟨_, known, rfl⟩, nofun⟩
  obtain ⟨asks, _, accepted, persists, _, _⟩ := setInEntity_asks_and_writes wantsName wellFormed
    (fun _ fields read => by
      rw [known, Except.ok.injEq] at read
      exact read ▸ faithful)
  obtain ⟨stored, held, asked, _⟩ := asks changes
  obtain rfl : some (.string "x") = stored :=
    Except.ok.inj ((get_eq_ok.mpr ⟨_, known, rfl⟩ : get _ _ ["#A"] = _).symm.trans held)
  have wrote := accepted.mpr ⟨_, asked, rfl⟩
  exact ⟨wellFormed, wrote, asked, persists wrote _ asked⟩

end LayeredConfig.Edit
