import LayeredConfig.Proofs.Document.Upkeep
import LayeredConfig.Proofs.Value.Overlay

namespace LayeredConfig

/-- Equal values are stamped together. -/
theorem Stamped.of_alike {key : String} {v w : Value} (stamped : Stamped (key, v)) (alike : v.alike w = true) :
    Stamped (key, w) := by
  intro entity
  obtain ⟨present, both⟩ := stamped entity
  refine ⟨?_, ?_⟩
  · rintro rfl
    cases v <;> simp_all [Value.alike]
  · rintro below rfl
    cases v with
    | object fields =>
      obtain ⟨created, updated⟩ := both fields rfl
      have also {name : String} (known : (fields.lookup name).isSome) : (below.lookup name).isSome := by
        obtain ⟨stamp, found⟩ := Option.isSome_iff_exists.mp known
        obtain ⟨other, reached, _⟩ := (Value.alike_object_iff.mp alike).2 _ (mem_of_lookup found)
        exact Option.isSome_iff_exists.mpr ⟨other, reached⟩
      exact ⟨also created, also updated⟩
    | _ => simp [Value.alike] at alike

theorem reshape?_eq_none_iff {doc : Fields} {expected : String} :
    reshape? doc expected = none ↔ doc.lookup schemaKey = some (.string expected) ∧ nested? doc = none := by
  unfold reshape?
  cases schema : doc.lookup schemaKey with
  | none => simp
  | some reference =>
    cases nested? doc with
    | some inner => simp
    | none => cases reference <;> simp [Value.string?]

/-- The document has the shape and the stamps that loading would give it. -/
structure Current (policy : Upkeep) (dir : Location) (doc : Fields) : Prop where
  shaped : reshape? doc (policy.schema.referenceFrom dir) = none
  stamped : policy.stamping = true → ∀ field ∈ doc, Stamped field

/-- A current document is left alone at any time. -/
theorem Current.upkeep_eq {policy : Upkeep} {dir : Location} {doc : Fields} (current : Current policy dir doc)
    (now : String) : Document.upkeep policy dir now doc = doc := by
  have own : reshaped doc (policy.schema.referenceFrom dir) = doc := by
    rw [reshaped, current.shaped, Option.elim_none]
  unfold Document.upkeep
  rw [own]
  split
  · next stamping =>
    rw [stampAll_eq_map]
    have same := List.map_congr_left (g := id) fun field member =>
      (current.stamped stamping field member).stampField_eq now
    rw [same, List.map_id]
  · rfl

theorem nested?_of_alike {a b inner : Fields} (distinct : (keysOf a).Nodup)
    (alike : (Value.object a).alike (.object b) = true) (nested : nested? a = some inner) :
    ∃ other, nested? b = some other := by
  obtain ⟨length, counterpart⟩ := Value.alike_object_iff.mp alike
  obtain ⟨found, only⟩ := nested?_eq_some nested
  have known : keysOf b ⊆ keysOf a := by
    refine Value.mem_keysOf_of_length distinct length fun key member => ?_
    obtain ⟨field, inside, rfl⟩ := List.mem_map.mp member
    obtain ⟨w, reached, _⟩ := counterpart field inside
    exact List.mem_map.mpr ⟨_, mem_of_lookup reached, rfl⟩
  have keys : b.all (fun e => e.1 = schemaKey || e.1 = nestingKey) = true := by
    rw [List.all_eq_true]
    intro field member
    obtain ⟨own, inside, same⟩ := List.mem_map.mp (known (List.mem_map.mpr ⟨field, member, rfl⟩))
    simpa [← same] using only own inside
  obtain ⟨w, reached, same⟩ := counterpart _ (mem_of_lookup found)
  cases w with
  | object other => exact ⟨other, by simp [nested?, keys, reached, Value.fields?]⟩
  | _ => simp [Value.alike] at same

/-- Whether a document is current does not depend on the order of its fields. -/
theorem Current.of_alike {policy : Upkeep} {dir : Location} {a b : Fields} (current : Current policy dir a)
    (first : (Value.object a).WellFormed) (second : (Value.object b).WellFormed)
    (alike : (Value.object a).alike (.object b) = true) : Current policy dir b := by
  obtain ⟨schema, plain⟩ := reshape?_eq_none_iff.mp current.shaped
  -- fields of `b` are looked up in `a`, the other way round than `alike` speaks
  have back := Value.alike_symm _ _ first second alike
  refine ⟨reshape?_eq_none_iff.mpr ⟨?_, ?_⟩, fun stamping field member => ?_⟩
  · obtain ⟨w, reached, same⟩ := (Value.alike_object_iff.mp alike).2 _ (mem_of_lookup schema)
    have text := Value.string?_of_alike same
    cases w <;> simp_all [Value.string?]
  · cases nested : nested? b with
    | none => rfl
    | some inner =>
      obtain ⟨other, known⟩ := nested?_of_alike (Value.wellFormed_object.mp second).1 back nested
      rw [plain] at known
      cases known
  · obtain ⟨v, found, same⟩ := (Value.alike_object_iff.mp back).2 field member
    have inside := mem_of_lookup found
    have own := Value.wellFormed_of_mem (Value.wellFormed_object.mp first).2 inside
    have other := Value.wellFormed_of_mem (Value.wellFormed_object.mp second).2 member
    exact (current.stamped stamping _ inside).of_alike (Value.alike_symm _ _ other own same)

/-- Bringing into shape leaves a document alone, puts the schema reference in front
of it or of what is nested in it, or replaces the reference. -/
theorem reshaped_cases (doc : Fields) (expected : String) :
    (reshape? doc expected = none ∧ reshaped doc expected = doc) ∨
      (∃ body, (body = doc ∨ nested? doc = some body) ∧ reshaped doc expected = withSchemaFirst body expected) ∨
      reshaped doc expected = put schemaKey (.string expected) doc := by
  unfold reshaped reshape?
  cases doc.lookup schemaKey with
  | none => exact Or.inr (Or.inl ⟨doc, Or.inl rfl, rfl⟩)
  | some reference =>
    cases nested : nested? doc with
    | some inner => exact Or.inr (Or.inl ⟨inner, Or.inr rfl, rfl⟩)
    | none =>
      by_cases same : reference.string? = some expected
      · exact Or.inl (by simp [same])
      · exact Or.inr (Or.inr (by simp [same]))

theorem lookup_schemaKey_reshaped (doc : Fields) (expected : String) :
    (reshaped doc expected).lookup schemaKey = some (.string expected) := by
  rcases reshaped_cases doc expected with ⟨change, same⟩ | ⟨body, _, same⟩ | same
  · rw [same]
    exact (reshape?_eq_none_iff.mp change).1
  · rw [same]
    simp [withSchemaFirst]
  · rw [same, lookup_put_self]

theorem Value.WellFormed.withSchemaFirst {body : Fields} (wellFormed : (Value.object body).WellFormed)
    (expected : String) : (Value.object (withSchemaFirst body expected)).WellFormed := by
  obtain ⟨distinct, values⟩ := wellFormed_object.mp (wellFormed.without schemaKey)
  refine wellFormed_object.mpr ⟨List.nodup_cons.mpr ⟨fun member => ?_, distinct⟩,
    wellFormedFields_cons.mpr ⟨by simp [Value.WellFormed], values⟩⟩
  obtain ⟨field, inside, same⟩ := List.mem_map.mp member
  simp [LayeredConfig.without, same] at inside

theorem Value.WellFormed.reshaped {doc : Fields} (wellFormed : (Value.object doc).WellFormed) (expected : String) :
    (Value.object (reshaped doc expected)).WellFormed := by
  rcases reshaped_cases doc expected with ⟨_, same⟩ | ⟨body, rfl | nested, same⟩ | same
  · rwa [same]
  · rw [same]
    exact wellFormed.withSchemaFirst expected
  · have inner := wellFormed_of_mem (wellFormed_object.mp wellFormed).2 (mem_of_lookup (nested?_eq_some nested).1)
    rw [same]
    exact Value.WellFormed.withSchemaFirst inner expected
  · rw [same]
    exact wellFormed.put (by simp [Value.WellFormed]) schemaKey

theorem Value.WellFormed.stampFields {entity : Fields} (wellFormed : (Value.object entity).WellFormed)
    (now : String) :
    (Value.object (stampFields now entity).1).WellFormed := by
  have time : (Value.string now).WellFormed := by simp [Value.WellFormed]
  unfold LayeredConfig.stampFields
  split
  · exact wellFormed
  · next known _ => exact wellFormed.put (wellFormed.lookup known) updatedKey
  · next _ known => exact wellFormed.put (wellFormed.lookup known) createdKey
  · exact (wellFormed.put time createdKey).put time updatedKey

theorem Value.wellFormed_stampField (now : String) (field : String × Value) (wellFormed : field.2.WellFormed) :
    (stampField now field).1.2.WellFormed := by
  obtain ⟨key, v⟩ := field
  unfold LayeredConfig.stampField
  split
  · cases v with
    | null => exact wellFormed_nil.stampFields now
    | object entity => exact Value.WellFormed.stampFields wellFormed now
    | _ => exact wellFormed
  · exact wellFormed

theorem Value.WellFormed.stampAll {doc : Fields} (wellFormed : (Value.object doc).WellFormed) (now : String) :
    (Value.object (stampAll now doc).1).WellFormed := by
  obtain ⟨distinct, values⟩ := wellFormed_object.mp wellFormed
  refine wellFormed_object.mpr ⟨by rwa [keysOf_stampAll], ?_⟩
  rw [stampAll_eq_map]
  clear distinct wellFormed
  induction doc with
  | nil => exact values
  | cons field rest ih =>
    obtain ⟨own, later⟩ := wellFormedFields_cons.mp values
    exact wellFormedFields_cons.mpr ⟨wellFormed_stampField now field own, ih later⟩

theorem Value.WellFormed.upkeep {doc : Fields} (wellFormed : (Value.object doc).WellFormed) (policy : Upkeep)
    (dir : Location) (now : String) : (Value.object (Document.upkeep policy dir now doc)).WellFormed := by
  unfold Document.upkeep
  split
  · exact (wellFormed.reshaped _).stampAll now
  · exact wellFormed.reshaped _

theorem lookup_schemaKey_upkeep (policy : Upkeep) (dir : Location) (now : String) (doc : Fields) :
    (Document.upkeep policy dir now doc).lookup schemaKey = some (.string (policy.schema.referenceFrom dir)) := by
  unfold Document.upkeep
  split
  · exact (lookup_stampAll_of_plain (by decide) now _).trans (lookup_schemaKey_reshaped doc _)
  · exact lookup_schemaKey_reshaped doc _

/-- What was brought up to date is current unless it has the older shape again. -/
theorem current_upkeep_iff {policy : Upkeep} {dir : Location} {now : String} {doc : Fields} :
    Current policy dir (Document.upkeep policy dir now doc) ↔
      nested? (Document.upkeep policy dir now doc) = none := by
  refine ⟨fun current => (reshape?_eq_none_iff.mp current.shaped).2,
    fun plain => ⟨?_, fun stamping field member => ?_⟩⟩
  · exact reshape?_eq_none_iff.mpr ⟨lookup_schemaKey_upkeep policy dir now doc, plain⟩
  · rw [Document.upkeep, if_pos stamping] at member
    exact stamped_of_mem_stampAll member

/-- What is left of the document in its shape, the schema reference taken off, is
once more a mapping nested under one key. -/
def NestsAgain (doc : Fields) : Prop :=
  ∃ inner, without schemaKey (unwrapped doc) = [(nestingKey, .object inner)]

theorem eq_singleton_of_keys {fields : Fields} {key : String} {v : Value} (distinct : (keysOf fields).Nodup)
    (only : ∀ field ∈ fields, field.1 = key) (member : (key, v) ∈ fields) : fields = [(key, v)] := by
  match fields with
  | [] => cases member
  | [field] => rw [List.mem_singleton.mp member]
  | first :: second :: rest =>
    have same := (only first (by simp)).trans (only second (by simp)).symm
    simp [keysOf, same] at distinct

/-- A document of the older shape holds a nested mapping and nothing else beside
the schema reference. -/
theorem nested?_eq_some_iff {doc inner : Fields} (distinct : (keysOf doc).Nodup) :
    nested? doc = some inner ↔ without schemaKey doc = [(nestingKey, .object inner)] := by
  have apart : nestingKey ≠ schemaKey := by decide
  constructor
  · intro nested
    obtain ⟨found, only⟩ := nested?_eq_some nested
    refine eq_singleton_of_keys (nodup_keysOf_without distinct schemaKey) (fun field member => ?_) ?_
    · obtain ⟨inside, other⟩ := List.mem_filter.mp member
      exact (only field inside).resolve_left (by simpa using other)
    · exact List.mem_filter.mpr ⟨mem_of_lookup found, by simpa using apart⟩
  · intro single
    have keys : doc.all (fun e => e.1 = schemaKey || e.1 = nestingKey) = true := by
      rw [List.all_eq_true]
      intro field member
      by_cases schema : field.1 = schemaKey
      · simp [schema]
      · have left : field ∈ without schemaKey doc := List.mem_filter.mpr ⟨member, by simpa using schema⟩
        rw [single, List.mem_singleton] at left
        simp [left]
    have found := lookup_without_of_ne apart doc
    rw [single] at found
    simp [nested?, keys, ← found, Value.fields?]

theorem stampAll_eq_nesting_iff {now : String} {fields inner : Fields} :
    (stampAll now fields).1 = [(nestingKey, .object inner)] ↔ fields = [(nestingKey, .object inner)] := by
  have plain : isEntityKey nestingKey = false := by decide
  rw [stampAll_eq_map, List.map_eq_singleton_iff]
  constructor
  · rintro ⟨field, rfl, same⟩
    have key : field.1 = nestingKey := by rw [← key_stampField now field, same]
    rw [← same]
    simp [stampField, key, plain]
  · rintro rfl
    exact ⟨_, rfl, by simp [stampField, plain]⟩

theorem without_upkeep_eq_nesting_iff {policy : Upkeep} {dir : Location} {now : String} {doc inner : Fields} :
    without schemaKey (Document.upkeep policy dir now doc) = [(nestingKey, .object inner)] ↔
      without schemaKey (unwrapped doc) = [(nestingKey, .object inner)] := by
  unfold Document.upkeep
  split
  · rw [without_stampAll, stampAll_eq_nesting_iff, without_reshaped]
  · rw [without_reshaped]

theorem nested?_upkeep_eq_none_iff {policy : Upkeep} {dir : Location} {now : String} {doc : Fields}
    (wellFormed : (Value.object doc).WellFormed) :
    nested? (Document.upkeep policy dir now doc) = none ↔ ¬NestsAgain doc := by
  have distinct := (Value.wellFormed_object.mp (wellFormed.upkeep policy dir now)).1
  simp only [Option.eq_none_iff_forall_ne_some, ne_eq, nested?_eq_some_iff distinct, without_upkeep_eq_nesting_iff,
    NestsAgain, not_exists]

/-- A document of the older shape does not stay as it is. -/
theorem upkeep_ne_of_nested {policy : Upkeep} {dir : Location} {now : String} {doc inner : Fields}
    (distinct : (keysOf doc).Nodup) (schema : (doc.lookup schemaKey).isSome) (nested : nested? doc = some inner) :
    Document.upkeep policy dir now doc ≠ doc := by
  intro same
  have left := (nested?_eq_some_iff distinct).mp nested
  rw [← same, without_upkeep_eq_nesting_iff, unwrapped, if_pos schema, nested, Option.getD_some] at left
  -- hoisted to itself, the nested mapping would have to be one of its own parts
  have inside : (nestingKey, Value.object inner) ∈ inner :=
    List.mem_of_mem_filter (show _ ∈ without schemaKey inner from left ▸ List.mem_singleton_self _)
  have smaller := List.sizeOf_lt_of_mem inside
  simp only [Prod.mk.sizeOf_spec, Value.object.sizeOf_spec] at smaller
  omega

/-- A document that bringing it up to date leaves alone is current. -/
theorem current_of_upkeep_eq {policy : Upkeep} {dir : Location} {now : String} {doc : Fields}
    (distinct : (keysOf doc).Nodup) (same : Document.upkeep policy dir now doc = doc) :
    Current policy dir doc := by
  have schema := lookup_schemaKey_upkeep policy dir now doc
  rw [same] at schema
  have plain : nested? doc = none := by
    by_contra other
    obtain ⟨inner, nested⟩ := Option.ne_none_iff_exists'.mp other
    exact upkeep_ne_of_nested distinct (Option.isSome_iff_exists.mpr ⟨_, schema⟩) nested same
  rw [← same] at plain ⊢
  exact current_upkeep_iff.mpr plain

/-- A document that has an entity has not the older shape. -/
theorem nested?_of_entity {doc : Fields} {entity : String} (entityKey : isEntityKey entity = true)
    (member : entity ∈ keysOf doc) : nested? doc = none := by
  by_contra other
  obtain ⟨inner, nested⟩ := Option.ne_none_iff_exists'.mp other
  obtain ⟨field, inside, rfl⟩ := List.mem_map.mp member
  rcases (nested?_eq_some nested).2 field inside with same | same <;> rw [same] at entityKey <;> cases entityKey

end LayeredConfig
