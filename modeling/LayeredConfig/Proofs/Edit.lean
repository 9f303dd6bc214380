import LayeredConfig.Edit
import LayeredConfig.Proofs.Document.Repeat
import LayeredConfig.Proofs.Value.KeyPath

namespace LayeredConfig.Edit

variable {t u : FileTree} {file : Location} {path : List String} {value : Value} {fields : Fields}

theorem fieldsOf_eq_ok :
    fieldsOf t file = .ok fields ↔ ∃ text, t.read file = .ok text ∧ Document.fieldsOf file text = .ok fields := by
  unfold fieldsOf
  rw [bind_eq_ok]
  constructor
  · intro known
    obtain ⟨⟨text, stored⟩, held, top⟩ := known
    obtain ⟨read, parsed⟩ := Document.stored_eq_ok held
    exact ⟨text, read, Document.fieldsOf_eq_ok.mpr ⟨stored, parsed, top⟩⟩
  · intro known
    obtain ⟨text, read, held⟩ := known
    obtain ⟨stored, parsed, top⟩ := Document.fieldsOf_eq_ok.mp held
    exact ⟨(text, stored), by simp [Document.stored, read, parsed, Except.map], top⟩

theorem wellFormed_of_fieldsOf (known : fieldsOf t file = .ok fields) : (Value.object fields).WellFormed := by
  obtain ⟨text, _, held⟩ := fieldsOf_eq_ok.mp known
  exact Document.wellFormed_of_fieldsOf held

theorem get_eq_ok {found : Option Value} :
    get t file path = .ok found ↔ ∃ fields, fieldsOf t file = .ok fields ∧ valueAt? fields path = found :=
  map_eq_ok

theorem checkPath_of_named (nonempty : path ≠ []) (named : "" ∉ path) : checkPath file path = .ok () := by
  simp [checkPath, nonempty, named]

theorem settled?_eq_none_iff {onlyIfAbsent : Bool} :
    settled? fields path value onlyIfAbsent = none ↔
      ∀ old, valueAt? fields path = some old → onlyIfAbsent = false ∧ old.alike value = false := by
  unfold settled?
  cases valueAt? fields path with
  | none => simp
  | some old =>
    cases onlyIfAbsent with
    | true => simp
    | false => cases same : old.alike value <;> simp [same]

theorem settled?_eq_some_iff {onlyIfAbsent : Bool} {result : EditResult} :
    settled? fields path value onlyIfAbsent = some result ↔
      ∃ old, valueAt? fields path = some old ∧
        (onlyIfAbsent = true ∧ result = .alreadyPresent ∨
          onlyIfAbsent = false ∧ old.alike value = true ∧ result = .unchanged) := by
  unfold settled?
  cases valueAt? fields path with
  | none => simp
  | some old =>
    cases onlyIfAbsent with
    | true => cases result <;> simp
    | false => cases same : old.alike value <;> cases result <;> simp [same]

/-- A file that holds a document can be written to. -/
theorem exists_write_of_fieldsOf (known : fieldsOf t file = .ok fields) (body : Body) :
    ∃ u, t.write file body = .ok u := by
  obtain ⟨text, read, _⟩ := fieldsOf_eq_ok.mp known
  exact FileTree.exists_write (FileTree.isFile_of_read read) body

/-- A path without keys or with an empty one, and a file that holds no document, are
refused. -/
theorem set_of_error {fault : Fault} {onlyIfAbsent : Bool}
    (refused : ((checkPath file path).bind fun _ => fieldsOf t file) = .error fault) :
    set t file path value onlyIfAbsent = .failed t fault := by
  rw [set, refused]

/-- All that setting a value in a document can do: it leaves the files alone, or the
document with the value set takes the place of what the file held. -/
theorem set_cases (allowed : checkPath file path = .ok ()) (known : fieldsOf t file = .ok fields) (value : Value)
    (onlyIfAbsent : Bool) :
    (∃ result, settled? fields path value onlyIfAbsent = some result ∧
        set t file path value onlyIfAbsent = .done t result) ∨
      settled? fields path value onlyIfAbsent = none ∧
        ∃ u, t.write file (.text (Yaml.print (.object (setAt fields path value)))) = .ok u ∧
          set t file path value onlyIfAbsent = .done u .written := by
  unfold set
  simp only [allowed, Except.bind, known]
  cases settled : settled? fields path value onlyIfAbsent with
  | some result => exact Or.inl ⟨result, rfl, rfl⟩
  | none =>
    obtain ⟨u, wrote⟩ := exists_write_of_fieldsOf known (.text (Yaml.print (.object (setAt fields path value))))
    exact Or.inr ⟨rfl, u, wrote, by simp [Document.save, wrote]⟩

/-- What was written is the document that is read next. -/
theorem fieldsOf_of_write {changed : Fields} (known : fieldsOf t file = .ok fields)
    (wrote : t.write file (.text (Yaml.print (.object changed))) = .ok u)
    (faithful : ReadsBack (.object changed)) :
    ∃ again, fieldsOf u file = .ok again ∧ (Value.object changed).alike (.object again) = true := by
  obtain ⟨text, read, _⟩ := fieldsOf_eq_ok.mp known
  have held := FileTree.read_of_write wrote
  obtain ⟨w, back, alike⟩ := faithful
  cases w with
  | object again =>
    have parsed : Document.parse file (Yaml.print (.object changed)) = .ok (.object again) := by
      rw [Document.parse, back]
    exact ⟨again, fieldsOf_eq_ok.mpr ⟨_, held, Document.fieldsOf_eq_ok.mpr ⟨_, parsed, rfl⟩⟩, alike⟩
  | _ => simp [Value.alike] at alike

theorem get_of_write (nonempty : path ≠ []) (wellFormed : value.WellFormed) (known : fieldsOf t file = .ok fields)
    (wrote : t.write file (.text (Yaml.print (.object (setAt fields path value)))) = .ok u)
    (faithful : ReadsBack (.object (setAt fields path value))) :
    ∃ found, get u file path = .ok (some found) ∧ found.alike value = true := by
  obtain ⟨again, held, alike⟩ := fieldsOf_of_write known wrote faithful
  obtain ⟨found, reached, same⟩ := valueAt?_of_alike alike (valueAt?_setAt_self nonempty fields value)
  have own := (wellFormed_of_fieldsOf held).valueAt? reached
  exact ⟨found, get_eq_ok.mpr ⟨again, held, reached⟩, Value.alike_symm _ _ wellFormed own same⟩

/-- A value that is there already is not set again. -/
theorem set_of_get {found : Value} (allowed : checkPath file path = .ok ())
    (held : get t file path = .ok (some found)) (alike : found.alike value = true) :
    set t file path value false = .done t .unchanged := by
  obtain ⟨fields, known, reached⟩ := get_eq_ok.mp held
  have settled : settled? fields path value false = some .unchanged :=
    settled?_eq_some_iff.mpr ⟨found, reached, Or.inr ⟨rfl, alike, rfl⟩⟩
  rcases set_cases allowed known value false with ⟨result, same, stays⟩ | ⟨open_, _⟩
  · rw [settled] at same
    rw [stays, Option.some.inj same]
  · rw [settled] at open_
    cases open_

/-- A value can be set wherever the file holds a document. It is written only where
no value or another one was, in all other cases the files stay as they are; and
what was set, or found equal, is what is read at the path afterwards, so that
setting it once more changes nothing. -/
theorem get_set_and_set_again (nonempty : path ≠ []) (named : "" ∉ path) (wellFormed : value.WellFormed)
    (onlyIfAbsent : Bool)
    (faithful : (set t file path value onlyIfAbsent).result = .ok .written →
      ∀ fields, fieldsOf t file = .ok fields → ReadsBack (.object (setAt fields path value))) :
    let after := set t file path value onlyIfAbsent
    (after.result = .ok .written ∨ after.result = .ok .unchanged →
        ∃ found, get after.files file path = .ok (some found) ∧ found.alike value = true) ∧
      (after.result = .ok .written ↔ ∃ previous, get t file path = .ok previous ∧
        ∀ old, previous = some old → onlyIfAbsent = false ∧ old.alike value = false) ∧
      (after.result ≠ .ok .written → after.files = t) ∧
      ((∃ result, after.result = .ok result) ↔ ∃ previous, get t file path = .ok previous) ∧
      (onlyIfAbsent = false → (∃ result, after.result = .ok result) →
        set after.files file path value false = .done after.files .unchanged) := by
  intro after
  have allowed : checkPath file path = .ok () := checkPath_of_named nonempty named
  cases known : fieldsOf t file with
  | error fault =>
    have failed : after = .failed t fault := set_of_error (by rw [allowed, Except.bind, known])
    have unread : ∀ previous, get t file path ≠ .ok previous := by
      intro previous held
      obtain ⟨fields, read, _⟩ := get_eq_ok.mp held
      rw [known] at read
      cases read
    simp [failed, unread]
  | ok fields =>
    have before : get t file path = .ok (valueAt? fields path) := get_eq_ok.mpr ⟨fields, known, rfl⟩
    rcases set_cases allowed known value onlyIfAbsent with ⟨result, settled, stays⟩ | ⟨settled, u, wrote, stored⟩
    · have same : after = .done t result := stays
      obtain ⟨old, reached, turn⟩ := settled?_eq_some_iff.mp settled
      rw [reached] at before
      rw [same]
      simp only [Outcome.result_done, Outcome.files_done, Except.ok.injEq]
      rcases turn with ⟨keeps, rfl⟩ | ⟨sets, alike, rfl⟩
      · simp [before, keeps]
      · simp [before, sets, alike, set_of_get allowed before alike]
    · have same : after = .done u .written := stored
      have written : after.result = .ok .written := by rw [same, Outcome.result_done]
      obtain ⟨found, again, alike⟩ := get_of_write nonempty wellFormed known wrote (faithful written fields known)
      have free := settled?_eq_none_iff.mp settled
      rw [same, Outcome.result_done, Outcome.files_done]
      refine ⟨fun _ => ⟨found, again, alike⟩, ?_, fun other => absurd rfl other, ?_, ?_⟩
      · exact ⟨fun _ => ⟨_, before, free⟩, fun _ => rfl⟩
      · exact ⟨fun _ => ⟨_, before⟩, fun _ => ⟨_, rfl⟩⟩
      · exact fun _ _ => set_of_get allowed again alike

def twoFields : Value :=
  .object [("y", .number (.int 1)), ("x", .string "")]

set_option maxRecDepth 10000 in
/-- A mapping set below a text, which gives place to an object on the way: it is
written, read back, and not written again. -/
theorem set_again_below_text :
    ["#A", "b"] ≠ [] ∧ "" ∉ ["#A", "b"] ∧ twoFields.WellFormed ∧
      let after := set (Document.oneDocument "'#A': x") ⟨"/d/a"⟩ ["#A", "b"] twoFields false
      after.result = .ok .written ∧
        (∃ found, get after.files ⟨"/d/a"⟩ ["#A", "b"] = .ok (some found) ∧ found.alike twoFields = true) ∧
        set after.files ⟨"/d/a"⟩ ["#A", "b"] twoFields false = .done after.files .unchanged := by
  have nonempty : ["#A", "b"] ≠ [] := by simp
  have named : "" ∉ ["#A", "b"] := by decide
  have wellFormed : twoFields.WellFormed := by
    simp [twoFields, Value.WellFormed, Value.WellFormedFields, keysOf]
  have known : fieldsOf (Document.oneDocument "'#A': x") ⟨"/d/a"⟩ = .ok [("#A", .string "x")] :=
    eq_ok_of_toOption (by decide +kernel)
  have faithful : ReadsBack (.object (setAt [("#A", .string "x")] ["#A", "b"] twoFields)) :=
    (Option.any_eq_true _ _).mp (by decide +kernel)
  have held : get (Document.oneDocument "'#A': x") ⟨"/d/a"⟩ ["#A", "b"] = .ok none :=
    get_eq_ok.mpr ⟨_, known, rfl⟩
  obtain ⟨stores, written, _, _, again⟩ := get_set_and_set_again nonempty named wellFormed false
    (fun _ fields read => by
      rw [known, Except.ok.injEq] at read
      exact read ▸ faithful)
  have wrote := written.mpr ⟨none, held, nofun⟩
  exact ⟨nonempty, named, wellFormed, wrote, stores (Or.inl wrote), again rfl ⟨_, wrote⟩⟩

end LayeredConfig.Edit
