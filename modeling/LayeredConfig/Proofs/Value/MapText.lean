import LayeredConfig.Proofs.Value.Equality

namespace LayeredConfig

mutual

/-- The value with every text changed, keys included. -/
def Value.mapText (f : String → String) : Value → Value
  | .string s => .string (f s)
  | .array items => .array (mapTextItems f items)
  | .object fields => .object (mapTextFields f fields)
  | other => other

def mapTextItems (f : String → String) : List Value → List Value
  | [] => []
  | item :: rest => item.mapText f :: mapTextItems f rest

def mapTextFields (f : String → String) : List (String × Value) → Fields
  | [] => []
  | (key, v) :: rest => (f key, v.mapText f) :: mapTextFields f rest

end

theorem mapTextFields_eq_map (f : String → String) (fields : Fields) :
    mapTextFields f fields = fields.map fun field => (f field.1, field.2.mapText f) := by
  induction fields with
  | nil => rfl
  | cons field rest ih => rw [mapTextFields, ih, List.map_cons]

theorem fields?_mapText (f : String → String) (v : Value) :
    (v.mapText f).fields? = v.fields?.map (mapTextFields f) := by
  cases v <;> simp [Value.mapText, Value.fields?]

/-- A key that a change of texts leaves alone and that no other key becomes. -/
def KeepsKey (f : String → String) (key : String) : Prop :=
  ∀ other, f other = key ↔ other = key

section Kept

variable {f : String → String} {key : String} (kept : KeepsKey f key)

include kept

theorem KeepsKey.self : f key = key :=
  (kept key).mpr rfl

theorem lookup_mapTextFields (fields : Fields) :
    (mapTextFields f fields).lookup key = (fields.lookup key).map (·.mapText f) := by
  induction fields with
  | nil => rfl
  | cons field rest ih =>
    obtain ⟨name, v⟩ := field
    rw [mapTextFields, List.lookup_cons, List.lookup_cons]
    by_cases same : name = key
    · subst same
      simp [kept.self]
    · have before : (key == name) = false := by simpa using Ne.symm same
      have after : (key == f name) = false := by
        rw [beq_eq_false_iff_ne]
        intro again
        exact same ((kept name).mp again.symm)
      rw [before, after]
      exact ih

theorem mapTextFields_put (v : Value) (fields : Fields) :
    mapTextFields f (put key v fields) = put key (v.mapText f) (mapTextFields f fields) := by
  induction fields with
  | nil => simp [put, mapTextFields, kept.self]
  | cons field rest ih =>
    obtain ⟨name, first⟩ := field
    by_cases same : name = key
    · subst same
      simp [put, mapTextFields, kept.self]
    · have apart : ¬f name = key := fun again => same ((kept name).mp again)
      simp [put, mapTextFields, same, apart, ih]

theorem mapTextFields_without (fields : Fields) :
    mapTextFields f (without key fields) = without key (mapTextFields f fields) := by
  induction fields with
  | nil => rfl
  | cons field rest ih =>
    obtain ⟨name, first⟩ := field
    rw [mapTextFields, without_cons, without_cons]
    by_cases same : name = key
    · rw [if_pos same, if_pos ((kept name).mpr same), ih]
    · rw [if_neg same, if_neg fun again => same ((kept name).mp again), mapTextFields, ih]

end Kept

end LayeredConfig
