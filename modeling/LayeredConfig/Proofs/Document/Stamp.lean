import LayeredConfig.Document.Stamp
import LayeredConfig.Proofs.Value.Equality
import LayeredConfig.Proofs.Value.Overlay
import Mathlib.Algebra.GroupWithZero.Nat

namespace LayeredConfig

/-- The stamps that an entity lacks: the one that it has once more, or the given time twice. -/
def lackingStamps (now : String) (entity : Fields) : Fields :=
  let stamp := ((entity.lookup createdKey).or (entity.lookup updatedKey)).getD (.string now)
  ([createdKey, updatedKey].filter fun key => (entity.lookup key).isNone).map (·, stamp)

/-- An entity gets the stamps that it lacks behind its fields. -/
theorem stampFields_eq (now : String) (entity : Fields) :
    stampFields now entity = (entity ++ lackingStamps now entity, (lackingStamps now entity).length) := by
  unfold stampFields lackingStamps
  cases created : entity.lookup createdKey with
  | some first =>
    cases updated : entity.lookup updatedKey with
    | some second => simp [created, updated]
    | none => simp [created, updated, put_of_fresh]
  | none =>
    cases updated : entity.lookup updatedKey with
    | some second => simp [created, updated, put_of_fresh]
    | none =>
      have second : (put createdKey (.string now) entity).lookup updatedKey = none := by
        rw [lookup_put_of_ne (by decide), updated]
      have both : put updatedKey (.string now) (put createdKey (.string now) entity) =
          entity ++ [(createdKey, .string now), (updatedKey, .string now)] := by
        rw [put_of_fresh second, put_of_fresh created, List.append_assoc]
        rfl
      simp [created, updated, both]

/-- The entity with both stamps. Its fields are where they were, and stamps follow. -/
structure Filled (now : String) (entity filled : Fields) : Prop where
  kept : entity <+: filled
  only : ∀ key ∈ keysOf filled, key ∈ keysOf entity ∨ key = createdKey ∨ key = updatedKey
  created : filled.lookup createdKey =
    some (((entity.lookup createdKey).or (entity.lookup updatedKey)).getD (.string now))
  updated : filled.lookup updatedKey =
    some (((entity.lookup updatedKey).or (entity.lookup createdKey)).getD (.string now))

theorem filled_stampFields (now : String) (entity : Fields) : Filled now entity (stampFields now entity).1 := by
  rw [stampFields_eq]
  refine ⟨List.prefix_append _ _, fun key member => ?_, ?_, ?_⟩
  · obtain ⟨field, inside, rfl⟩ := List.mem_map.mp member
    rcases List.mem_append.mp inside with old | new
    · exact Or.inl (List.mem_map_of_mem old)
    · obtain ⟨key, lacking, rfl⟩ := List.mem_map.mp new
      simpa using Or.inr (List.mem_filter.mp lacking).1
  · rw [List.lookup_append]
    cases created : entity.lookup createdKey with
    | some first => rfl
    | none => simp [lackingStamps, created]
  · have apart : (updatedKey == createdKey) = false := by decide
    rw [List.lookup_append]
    cases updated : entity.lookup updatedKey with
    | some second => rfl
    | none =>
      cases created : entity.lookup createdKey <;>
        simp [lackingStamps, created, updated, List.lookup_cons, apart]

/-- How many stamps an entity has. -/
def stampsOf (entity : Fields) : Nat :=
  (keysOf entity).count createdKey + (keysOf entity).count updatedKey

theorem stampsOf_stampFields (now : String) (entity : Fields) :
    stampsOf (stampFields now entity).1 = stampsOf entity + (stampFields now entity).2 := by
  have lacking : stampsOf (lackingStamps now entity) = (lackingStamps now entity).length := by
    cases created : entity.lookup createdKey <;> cases updated : entity.lookup updatedKey <;>
      simp [stampsOf, lackingStamps, keysOf, created, updated] <;> decide
  rw [stampFields_eq, ← lacking]
  simp only [stampsOf, keysOf, List.map_append, List.count_append]
  omega

/-- How many stamps a top-level field has; only entities have any. -/
def stampsIn (field : String × Value) : Nat :=
  if isEntityKey field.1 then stampsOf (field.2.fields?.getD []) else 0

def stampCount (doc : Fields) : Nat :=
  (doc.map stampsIn).sum

variable {now key : String} {doc : Fields}

/-- All but mappings and null entities is left alone. -/
theorem stampField_of_plain {v : Value} (plain : isEntityKey key = false ∨ v ≠ .null ∧ v.fields? = none)
    (now : String) : stampField now (key, v) = ((key, v), 0) := by
  unfold stampField
  rcases plain with other | ⟨present, leaf⟩
  · simp [other]
  · cases v <;> simp_all [Value.fields?]

/-- A mapping gets the stamps that it lacks, and null those of the empty mapping. -/
theorem stampField_of_entity {v : Value} {entity : Fields} (entityKey : isEntityKey key = true)
    (stands : v = .null ∧ entity = [] ∨ v = .object entity) (now : String) :
    stampField now (key, v) = ((key, .object (stampFields now entity).1), (stampFields now entity).2) := by
  unfold stampField
  rcases stands with ⟨rfl, rfl⟩ | rfl <;> simp [entityKey]

/-- A field is left alone, or is an entity that gets the stamps it lacks. -/
theorem plain_or_entity (key : String) (v : Value) :
    (isEntityKey key = false ∨ v ≠ .null ∧ v.fields? = none) ∨
      isEntityKey key = true ∧ ∃ entity, v = .null ∧ entity = [] ∨ v = .object entity := by
  cases kind : isEntityKey key with
  | false => exact Or.inl (Or.inl rfl)
  | true => cases v <;> simp [Value.fields?]

theorem key_stampField (now : String) (field : String × Value) : (stampField now field).1.1 = field.1 := by
  obtain ⟨key, v⟩ := field
  rcases plain_or_entity key v with plain | ⟨entityKey, entity, stands⟩
  · rw [stampField_of_plain plain]
  · rw [stampField_of_entity entityKey stands]

/-- A field counts when it changes. -/
theorem stampField_eq_iff {field : String × Value} :
    (stampField now field).2 = 0 ↔ (stampField now field).1 = field := by
  obtain ⟨key, v⟩ := field
  rcases plain_or_entity key v with plain | ⟨entityKey, entity, stands⟩
  · simp [stampField_of_plain plain]
  · rw [stampField_of_entity entityKey stands, stampFields_eq]
    rcases stands with ⟨rfl, rfl⟩ | rfl <;> simp [lackingStamps]

theorem stampsIn_stampField (now : String) (field : String × Value) :
    stampsIn (stampField now field).1 = stampsIn field + (stampField now field).2 := by
  obtain ⟨key, v⟩ := field
  rcases plain_or_entity key v with plain | ⟨entityKey, entity, stands⟩
  · rw [stampField_of_plain plain, Nat.add_zero]
  · rw [stampField_of_entity entityKey stands]
    have before : v.fields?.getD [] = entity := by rcases stands with ⟨rfl, rfl⟩ | rfl <;> rfl
    simp only [stampsIn, entityKey, if_true, before]
    exact stampsOf_stampFields now entity

/-- Stamping finds nothing to add to the field. -/
def Stamped (field : String × Value) : Prop :=
  isEntityKey field.1 = true → field.2 ≠ .null ∧
    ∀ entity, field.2 = .object entity → (entity.lookup createdKey).isSome ∧ (entity.lookup updatedKey).isSome

theorem stamped_stampField (now : String) (field : String × Value) : Stamped (stampField now field).1 := by
  obtain ⟨key, v⟩ := field
  rcases plain_or_entity key v with plain | ⟨entityKey, entity, stands⟩
  · rw [stampField_of_plain plain]
    intro entityKey
    rcases plain with other | ⟨present, leaf⟩
    · exact absurd entityKey (by simp [other])
    · refine ⟨present, ?_⟩
      rintro entity rfl
      cases leaf
  · rw [stampField_of_entity entityKey stands]
    refine fun _ => ⟨by simp, ?_⟩
    rintro filled same
    obtain rfl := Value.object.inj same
    have both := filled_stampFields now entity
    exact ⟨by rw [both.created, Option.isSome_some], by rw [both.updated, Option.isSome_some]⟩

theorem Stamped.stampField_eq {field : String × Value} (stamped : Stamped field) (now : String) :
    (stampField now field).1 = field := by
  obtain ⟨key, v⟩ := field
  rcases plain_or_entity key v with plain | ⟨entityKey, entity, stands⟩
  · rw [stampField_of_plain plain]
  · obtain ⟨present, both⟩ := stamped entityKey
    rcases stands with ⟨rfl, -⟩ | rfl
    · exact absurd rfl present
    · obtain ⟨created, updated⟩ := both entity rfl
      obtain ⟨first, atCreated⟩ := Option.isSome_iff_exists.mp created
      obtain ⟨second, atUpdated⟩ := Option.isSome_iff_exists.mp updated
      simp [stampField, stampFields, entityKey, atCreated, atUpdated]

theorem stampAll_eq_map (now : String) (doc : Fields) :
    (stampAll now doc).1 = doc.map fun field => (stampField now field).1 := by
  simp [stampAll]

theorem stampAll_eq_sum (now : String) (doc : Fields) :
    (stampAll now doc).2 = (doc.map fun field => (stampField now field).2).sum := by
  simp [stampAll, List.sum_eq_foldl, List.foldl_map]

theorem keysOf_stampAll (now : String) (doc : Fields) : keysOf (stampAll now doc).1 = keysOf doc := by
  simp [stampAll_eq_map, keysOf, key_stampField]

theorem without_stampAll (now key : String) (doc : Fields) :
    without key (stampAll now doc).1 = (stampAll now (without key doc)).1 := by
  rw [stampAll_eq_map, stampAll_eq_map, without, without, List.filter_map]
  congr 1
  refine List.filter_congr fun field _ => ?_
  rw [Function.comp_apply, key_stampField]

theorem lookup_stampAll (now key : String) (doc : Fields) :
    (stampAll now doc).1.lookup key = (doc.lookup key).map fun v => (stampField now (key, v)).1.2 := by
  rw [stampAll_eq_map]
  induction doc with
  | nil => rfl
  | cons field rest ih =>
    rw [List.map_cons, List.lookup_cons, key_stampField, List.lookup_cons, ih]
    by_cases same : key = field.1
    · subst same
      simp
    · have apart : (key == field.1) = false := by simpa using same
      simp [apart]

theorem lookup_stampAll_of_plain (plain : isEntityKey key = false) (now : String) (doc : Fields) :
    (stampAll now doc).1.lookup key = doc.lookup key := by
  simp [lookup_stampAll, stampField_of_plain (Or.inl plain)]

theorem stampCount_stampAll (now : String) (doc : Fields) :
    stampCount (stampAll now doc).1 = stampCount doc + (stampAll now doc).2 := by
  rw [stampAll_eq_sum, stampAll_eq_map, stampCount, stampCount]
  induction doc with
  | nil => rfl
  | cons field rest ih =>
    simp only [List.map_cons, List.sum_cons, ih, stampsIn_stampField]
    omega

/-- No stamp is added exactly when the document stays as it is. -/
theorem stampAll_eq_iff : (stampAll now doc).2 = 0 ↔ (stampAll now doc).1 = doc := by
  have unchanged := List.map_inj_left (l := doc) (f := fun field => (stampField now field).1) (g := id)
  rw [List.map_id] at unchanged
  rw [stampAll_eq_sum, List.sum_eq_zero_iff_forall_eq_nat, List.forall_mem_map, stampAll_eq_map, unchanged]
  simp only [stampField_eq_iff, id]

theorem stamped_of_mem_stampAll {field : String × Value} (member : field ∈ (stampAll now doc).1) :
    Stamped field := by
  rw [stampAll_eq_map] at member
  obtain ⟨before, -, rfl⟩ := List.mem_map.mp member
  exact stamped_stampField now before

/-- A document with all its stamps gets none at any time. -/
theorem stampAll_of_stamped (stamped : ∀ field ∈ doc, Stamped field) (now : String) :
    stampAll now doc = (doc, 0) := by
  have same : (stampAll now doc).1 = doc := by
    rw [stampAll_eq_map]
    exact (List.map_congr_left fun field member => (stamped field member).stampField_eq now).trans
      (List.map_id doc)
  exact Prod.ext same (stampAll_eq_iff.mpr same)

/-- Stamping gives entities the stamps that they lack and changes nothing else. The keys stay in
their order; what is no entity stays, and so does an entity that is neither a mapping nor null.
A mapping gets its stamps, as null does in place of the empty mapping. What is counted are the
stamps that are added, none exactly when the document stays as it is. At any time another pass
adds none. -/
theorem stampAll_law (now : String) (doc : Fields) :
    let after := (stampAll now doc).1
    let added := (stampAll now doc).2
    keysOf after = keysOf doc ∧
      (∀ key v, isEntityKey key = false ∨ v ≠ .null ∧ v.fields? = none → doc.lookup key = some v →
        after.lookup key = some v) ∧
      (∀ key entity, isEntityKey key = true →
        doc.lookup key = some .null ∧ entity = [] ∨ doc.lookup key = some (.object entity) →
        ∃ filled, after.lookup key = some (.object filled) ∧ Filled now entity filled) ∧
      stampCount after = stampCount doc + added ∧ (added = 0 ↔ after = doc) ∧
      ∀ later, stampAll later after = (after, 0) := by
  refine ⟨keysOf_stampAll now doc, fun key v plain found => ?_, fun key entity entityKey stands => ?_,
    stampCount_stampAll now doc, stampAll_eq_iff, stampAll_of_stamped fun _ => stamped_of_mem_stampAll⟩
  · rw [lookup_stampAll, found, Option.map_some, stampField_of_plain plain]
  · obtain ⟨v, found, value⟩ : ∃ v, doc.lookup key = some v ∧ (v = .null ∧ entity = [] ∨ v = .object entity) := by
      rcases stands with ⟨found, empty⟩ | found
      · exact ⟨.null, found, Or.inl ⟨rfl, empty⟩⟩
      · exact ⟨.object entity, found, Or.inr rfl⟩
    refine ⟨_, ?_, filled_stampFields now entity⟩
    rw [lookup_stampAll, found, Option.map_some, stampField_of_entity entityKey value]

/-- A stamp that holds null is there, and the other one is null as well. -/
example : stampAll "t" [("#A", .object [("updatedAt", .null), ("p", .null)]), ("#B", .null), ("#C", .array []),
      ("d", .null)] =
    ([("#A", .object [("updatedAt", .null), ("p", .null), ("createdAt", .null)]),
      ("#B", .object [("createdAt", .string "t"), ("updatedAt", .string "t")]), ("#C", .array []),
      ("d", .null)], 3) := by
  decide

end LayeredConfig
