import LayeredConfig.Document.Load
import LayeredConfig.Proofs.Document.Stamp
import LayeredConfig.Proofs.Value.MapText

namespace LayeredConfig

/-- A change of texts that leaves the keys with a meaning alone and makes no
other key one of them. -/
structure KeepsNames (f : String → String) : Prop where
  schema : KeepsKey f schemaKey
  nesting : KeepsKey f nestingKey
  parents : KeepsKey f extendsKey
  created : KeepsKey f createdKey
  updated : KeepsKey f updatedKey
  entity : ∀ key, isEntityKey (f key) = isEntityKey key

/-- The fields that a document has in its current shape, save for the schema
reference. -/
def unwrapped (doc : Fields) : Fields :=
  if (doc.lookup schemaKey).isSome then (nested? doc).getD doc else doc

theorem without_withSchemaFirst (body : Fields) (expected : String) :
    without schemaKey (withSchemaFirst body expected) = without schemaKey body := by
  rw [withSchemaFirst, without_cons, if_pos rfl, without_without_self]

theorem without_reshaped (doc : Fields) (expected : String) :
    without schemaKey (reshaped doc expected) = without schemaKey (unwrapped doc) := by
  unfold reshaped reshape? unwrapped
  cases schema : doc.lookup schemaKey with
  | none => simp [without_withSchemaFirst]
  | some reference =>
    cases inner : nested? doc with
    | some fields => simp [without_withSchemaFirst]
    | none =>
      by_cases same : reference.string? = some expected
      · simp [same]
      · simp [same, without_put_self]

section MapText

variable {f : String → String} (keeps : KeepsNames f)

include keeps

theorem nested?_mapTextFields (doc : Fields) :
    nested? (mapTextFields f doc) = (nested? doc).map (mapTextFields f) := by
  have all : (mapTextFields f doc).all (fun e => e.1 = schemaKey || e.1 = nestingKey) =
      doc.all fun e => e.1 = schemaKey || e.1 = nestingKey := by
    rw [mapTextFields_eq_map, List.all_map]
    congr 1
    funext field
    simp [keeps.schema field.1, keeps.nesting field.1]
  unfold nested?
  rw [all, lookup_mapTextFields keeps.nesting]
  split
  · cases doc.lookup nestingKey with
    | none => rfl
    | some v => exact fields?_mapText f v
  · rfl

theorem unwrapped_mapTextFields (doc : Fields) :
    unwrapped (mapTextFields f doc) = mapTextFields f (unwrapped doc) := by
  unfold unwrapped
  rw [lookup_mapTextFields keeps.schema, nested?_mapTextFields keeps, Option.isSome_map]
  split
  · cases nested? doc <;> rfl
  · rfl

theorem stampFields_mapTextFields {now : String} (time : f now = now) (entity : Fields) :
    (stampFields now (mapTextFields f entity)).1 = mapTextFields f (stampFields now entity).1 := by
  unfold stampFields
  rw [lookup_mapTextFields keeps.created, lookup_mapTextFields keeps.updated]
  cases entity.lookup createdKey <;> cases entity.lookup updatedKey <;>
    simp [mapTextFields_put keeps.created, mapTextFields_put keeps.updated, Value.mapText, time]

theorem stampField_mapText {now : String} (time : f now = now) (field : String × Value) :
    (stampField now (f field.1, field.2.mapText f)).1 =
      (f (stampField now field).1.1, (stampField now field).1.2.mapText f) := by
  obtain ⟨key, v⟩ := field
  unfold stampField
  rw [keeps.entity key]
  split
  · cases v with
    | null =>
      have fresh := stampFields_mapTextFields keeps time []
      simpa [Value.mapText, mapTextFields] using fresh
    | object entity => simp [Value.mapText, stampFields_mapTextFields keeps time entity]
    | _ => simp [Value.mapText]
  · rfl

theorem stampAll_mapTextFields {now : String} (time : f now = now) (doc : Fields) :
    (stampAll now (mapTextFields f doc)).1 = mapTextFields f (stampAll now doc).1 := by
  rw [stampAll_eq_map, stampAll_eq_map, mapTextFields_eq_map, mapTextFields_eq_map, List.map_map, List.map_map]
  exact List.map_congr_left fun field _ => stampField_mapText keeps time field

/-- Save for the schema reference, it makes no difference whether texts are changed
before a document is brought up to date or after. -/
theorem without_upkeep_mapTextFields (policy : Upkeep) (dir : Location) {now : String} (time : f now = now)
    (doc : Fields) :
    without schemaKey (Document.upkeep policy dir now (mapTextFields f doc)) =
      without schemaKey (mapTextFields f (Document.upkeep policy dir now doc)) := by
  have shaped : without schemaKey (reshaped (mapTextFields f doc) (policy.schema.referenceFrom dir)) =
      mapTextFields f (without schemaKey (reshaped doc (policy.schema.referenceFrom dir))) := by
    rw [without_reshaped, without_reshaped, unwrapped_mapTextFields keeps, mapTextFields_without keeps.schema]
  rw [← mapTextFields_without keeps.schema]
  unfold Document.upkeep
  split
  · rw [without_stampAll, without_stampAll, shaped, stampAll_mapTextFields keeps time]
  · exact shaped

end MapText

/-- A mapping is unlike its own part under a key. -/
theorem not_alike_nested {key : String} (fields : Fields) (inner : Value)
    (found : fields.lookup key = some inner) :
    (Value.object fields).alike inner ≠ true := by
  intro alike
  cases inner with
  | object below =>
    obtain ⟨u, reached, again⟩ := (Value.alike_object_iff.mp alike).2 _ (mem_of_lookup found)
    have smaller : sizeOf below < sizeOf fields := by
      have part := List.sizeOf_lt_of_mem (mem_of_lookup found)
      simp only [Prod.mk.sizeOf_spec, Value.object.sizeOf_spec] at part
      omega
    exact not_alike_nested below u reached again
  | _ => simp [Value.alike] at alike
termination_by sizeOf fields

/-- Stamps change the value of an entity unless they change nothing. -/
theorem stampFields_eq_of_length {now : String} {entity : Fields}
    (length : (stampFields now entity).1.length = entity.length) : (stampFields now entity).1 = entity := by
  rw [stampFields_eq, List.length_append, Nat.add_eq_left, List.length_eq_zero_iff] at length
  rw [stampFields_eq, length, List.append_nil]

theorem stampField_eq_of_alike {now : String} {field : String × Value}
    (alike : (stampField now field).1.2.alike field.2 = true) : (stampField now field).1 = field := by
  obtain ⟨key, v⟩ := field
  unfold stampField at alike ⊢
  split at alike
  · next entity =>
    rw [if_pos entity]
    cases v with
    | null => simp [Value.alike] at alike
    | object fields =>
      have same := stampFields_eq_of_length (Value.alike_object_iff.mp alike).1
      simp [same]
    | _ => rfl
  · next other => rw [if_neg other]

/-- What bringing up to date does to each field of the document in its shape: the
key stays, a field that is no entity is left alone, and so is one whose value
stays alike. -/
theorem upkeep_eq_map (policy : Upkeep) (dir : Location) (now : String) (doc : Fields) :
    ∃ g : String × Value → String × Value,
      Document.upkeep policy dir now doc = (reshaped doc (policy.schema.referenceFrom dir)).map g ∧
        ∀ field, (g field).1 = field.1 ∧ (isEntityKey field.1 = false → g field = field) ∧
          ((g field).2.alike field.2 = true → g field = field) := by
  unfold Document.upkeep
  split
  · refine ⟨fun field => (stampField now field).1, stampAll_eq_map now _, fun field => ?_⟩
    exact ⟨key_stampField now field, fun other => by simp [stampField, other], stampField_eq_of_alike⟩
  · exact ⟨id, (List.map_id _).symm, fun field => ⟨rfl, fun _ => rfl, fun _ => rfl⟩⟩

/-- The mapping nested in a document of the older shape is all it holds beside
the schema reference. -/
theorem nested?_eq_some {doc inner : Fields} (nested : nested? doc = some inner) :
    doc.lookup nestingKey = some (.object inner) ∧ ∀ field ∈ doc, field.1 = schemaKey ∨ field.1 = nestingKey := by
  unfold nested? at nested
  split at nested
  · next all =>
    obtain ⟨v, found, fields⟩ := Option.bind_eq_some_iff.mp nested
    obtain rfl := Value.fields?_eq_some.mp fields
    exact ⟨found, by simpa using all⟩
  · cases nested

theorem two_le_length_of_lookup {fields : Fields} {key other : String} {v w : Value} (apart : key ≠ other)
    (first : fields.lookup key = some v) (second : fields.lookup other = some w) : 2 ≤ fields.length := by
  have left := mem_of_lookup first
  have right := mem_of_lookup second
  cases fields with
  | nil => cases left
  | cons field rest =>
    cases rest with
    | nil =>
      rw [List.mem_singleton] at left right
      have same := congrArg Prod.fst (left.trans right.symm)
      exact absurd same apart
    | cons => simp

/-- What is nested in a document of the older shape is unlike the document. -/
theorem not_alike_hoisted {doc inner : Fields} (wellFormed : (Value.object doc).WellFormed)
    (nested : nested? doc = some inner) {field : String × Value} (member : field ∈ without schemaKey inner)
    {b : Value} (known : doc.lookup field.1 = some b) : field.1 = nestingKey ∧ field.2.alike b ≠ true := by
  obtain ⟨found, only⟩ := nested?_eq_some nested
  obtain ⟨inside, apart⟩ := List.mem_filter.mp member
  have key : field.1 = nestingKey := (only _ (mem_of_lookup known)).resolve_left (by simpa using apart)
  rw [key, found, Option.some.injEq] at known
  subst known
  have whole : (Value.object inner).WellFormed :=
    Value.wellFormed_of_mem (Value.wellFormed_object.mp wellFormed).2 (mem_of_lookup found)
  obtain ⟨distinct, values⟩ := Value.wellFormed_object.mp whole
  have part : inner.lookup field.1 = some field.2 := lookup_of_mem distinct inside
  refine ⟨key, fun alike => ?_⟩
  exact not_alike_nested inner field.2 part
    (Value.alike_symm field.2 _ (Value.wellFormed_of_mem values inside) whole alike)

/-- A document is in its current shape when its fields brought into the shape have
counterparts among its own. -/
theorem reshape?_eq_none_of_counterparts {doc : Fields} {expected : String}
    (wellFormed : (Value.object doc).WellFormed) (length : (reshaped doc expected).length = doc.length)
    (partner : ∀ field ∈ reshaped doc expected,
      ∃ b, doc.lookup field.1 = some b ∧ (isEntityKey field.1 = false → field.2.alike b = true)) :
    reshape? doc expected = none := by
  have schemaPlain : isEntityKey schemaKey = false := by decide
  have nestingPlain : isEntityKey nestingKey = false := by decide
  unfold reshaped at length partner
  unfold reshape? at length partner ⊢
  cases schema : doc.lookup schemaKey with
  | none =>
    obtain ⟨b, found, _⟩ := partner (schemaKey, .string expected) (by simp [schema, withSchemaFirst])
    rw [schema] at found
    cases found
  | some reference =>
    cases nested : nested? doc with
    | some inner =>
      simp only [schema, nested, Option.elim_some, withSchemaFirst, List.length_cons] at length partner
      have two := two_le_length_of_lookup (by decide) schema (nested?_eq_some nested).1
      obtain ⟨field, member⟩ := List.exists_mem_of_length_pos (show 0 < (without schemaKey inner).length by omega)
      obtain ⟨b, found, same⟩ := partner field (List.mem_cons_of_mem _ member)
      obtain ⟨key, unlike⟩ := not_alike_hoisted wellFormed nested member found
      exact absurd (same (key ▸ nestingPlain)) unlike
    | none =>
      by_cases current : reference.string? = some expected
      · simp only [current, if_true]
      · simp only [schema, nested, current, if_false, Option.elim_some] at partner
        obtain ⟨b, found, same⟩ := partner (schemaKey, .string expected) (mem_of_lookup (lookup_put_self _ _ _))
        rw [schema, Option.some.injEq] at found
        exact absurd (Value.string?_of_alike (found ▸ same schemaPlain)) current

/-- Bringing a document up to date changes its value unless it changes nothing. -/
theorem upkeep_eq_of_alike {policy : Upkeep} {dir : Location} {now : String} {doc : Fields}
    (wellFormed : (Value.object doc).WellFormed)
    (alike : (Value.object (Document.upkeep policy dir now doc)).alike (.object doc) = true) :
    Document.upkeep policy dir now doc = doc := by
  obtain ⟨g, upkeep, stamps⟩ := upkeep_eq_map policy dir now doc
  obtain ⟨length, counterpart⟩ := Value.alike_object_iff.mp alike
  rw [upkeep] at length counterpart ⊢
  rw [List.length_map] at length
  have partner : ∀ field ∈ reshaped doc (policy.schema.referenceFrom dir),
      ∃ b, doc.lookup field.1 = some b ∧ (g field).2.alike b = true := by
    intro field member
    have found := counterpart (g field) (List.mem_map_of_mem member)
    rwa [(stamps field).1] at found
  have shaped : reshape? doc (policy.schema.referenceFrom dir) = none := by
    refine reshape?_eq_none_of_counterparts wellFormed length fun field member => ?_
    obtain ⟨b, found, same⟩ := partner field member
    exact ⟨b, found, fun plain => (stamps field).2.1 plain ▸ same⟩
  have own : reshaped doc (policy.schema.referenceFrom dir) = doc := by
    rw [reshaped, shaped, Option.elim_none]
  rw [own] at partner ⊢
  refine (List.map_congr_left fun field member => ?_).trans (List.map_id doc)
  obtain ⟨b, found, same⟩ := partner field member
  rw [lookup_of_mem (Value.wellFormed_object.mp wellFormed).1 (show (field.1, field.2) ∈ doc from member),
    Option.some.injEq] at found
  exact (stamps field).2.2 (found ▸ same)

end LayeredConfig
