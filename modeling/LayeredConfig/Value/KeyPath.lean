import LayeredConfig.Value.Basic

namespace LayeredConfig

/-- The value reached through objects by a list of keys; none when a key is
missing or a value on the way is no object. -/
def Value.at? (v : Value) : List String → Option Value
  | [] => some v
  | key :: rest =>
    match v with
    | .object fields => (fields.lookup key).bind (·.at? rest)
    | _ => none

/-- The value at a path of one key or more below a list of fields. -/
def valueAt? (fields : Fields) : List String → Option Value
  | [] => none
  | key :: rest => (fields.lookup key).bind (·.at? rest)

/-- The fields of an object; no fields for any other value or none. -/
def fieldsOrNone : Option Value → Fields
  | some (.object fields) => fields
  | _ => []

/-- Puts a value at a path of one key or more. Missing objects on the way are
made, and other values on the way give place to objects. -/
def setAt (fields : Fields) (path : List String) (value : Value) : Fields :=
  match path with
  | [] => fields
  | [key] => put key value fields
  | key :: rest => put key (.object (setAt (fieldsOrNone (fields.lookup key)) rest value)) fields

/-- Walking the path through the fields reaches a missing key. A path that
runs into a value which is no object is not absent. -/
inductive AbsentAt : Fields → List String → Prop
  | missing {fields : Fields} {key : String} {rest : List String} :
      fields.lookup key = none → AbsentAt fields (key :: rest)
  | deeper {fields inner : Fields} {key : String} {rest : List String} :
      fields.lookup key = some (.object inner) → AbsentAt inner rest → AbsentAt fields (key :: rest)

/-- A missing path has no value. -/
theorem AbsentAt.valueAt?_eq_none {fields : Fields} {path : List String} (absent : AbsentAt fields path) :
    valueAt? fields path = none := by
  induction absent with
  | missing none_ => simp [valueAt?, none_]
  | @deeper fields inner key rest found absent ih =>
    cases absent <;> simp_all [valueAt?, Value.at?]

theorem absentAt_cons {fields : Fields} {key : String} {rest : List String} :
    AbsentAt fields (key :: rest) ↔
      (fields.lookup key).elim True fun v => v.fields?.elim False fun inner => AbsentAt inner rest := by
  constructor
  · rintro (missing | ⟨found, absent⟩)
    · simp [missing]
    · simpa [found, Value.fields?] using absent
  · intro absent
    cases found : fields.lookup key with
    | none => exact .missing found
    | some v =>
      cases v with
      | object inner => exact .deeper found (by simpa [found, Value.fields?] using absent)
      | _ => simp [found, Value.fields?] at absent

instance decidableAbsentAt : (fields : Fields) → (path : List String) → Decidable (AbsentAt fields path)
  | _, [] => isFalse nofun
  | fields, key :: rest =>
    match found : (fields.lookup key).map Value.fields? with
    | none => isTrue (.missing (Option.map_eq_none_iff.mp found))
    | some none => isFalse fun absent => by
      obtain ⟨v, known, leaf⟩ := Option.map_eq_some_iff.mp found
      simp [absentAt_cons, known, leaf] at absent
    | some (some inner) =>
      have below : AbsentAt fields (key :: rest) ↔ AbsentAt inner rest := by
        obtain ⟨v, known, object⟩ := Option.map_eq_some_iff.mp found
        simp [absentAt_cons, known, object]
      match decidableAbsentAt inner rest with
      | isTrue absent => isTrue (below.mpr absent)
      | isFalse present => isFalse (mt below.mp present)

theorem valueAt?_setAt_self {path : List String} (nonempty : path ≠ []) (fields : Fields) (value : Value) :
    valueAt? (setAt fields path value) path = some value := by
  induction path generalizing fields with
  | nil => exact absurd rfl nonempty
  | cons key rest ih =>
    cases rest with
    | nil => simp [setAt, valueAt?, Value.at?]
    | cons next more =>
      have inner := ih (by simp) (fieldsOrNone (fields.lookup key))
      simpa [setAt, valueAt?, Value.at?] using inner

end LayeredConfig
