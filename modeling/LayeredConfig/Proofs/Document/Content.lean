import LayeredConfig.Proofs.Document.Current

namespace LayeredConfig

/-- What a document is about: the mapping nested in it, when it consists of the schema
reference and that mapping, and the document itself otherwise. -/
def content (doc : Fields) : Fields :=
  if (keysOf doc).Perm [schemaKey, nestingKey] then ((doc.lookup nestingKey).bind Value.fields?).getD doc else doc

variable {doc : Fields}

/-- A document with a schema reference and a nested mapping has both keys and no others. -/
theorem keysOf_perm_iff (distinct : (keysOf doc).Nodup) :
    (keysOf doc).Perm [schemaKey, nestingKey] ↔
      (doc.lookup schemaKey).isSome ∧ (doc.lookup nestingKey).isSome ∧
        ∀ field ∈ doc, field.1 = schemaKey ∨ field.1 = nestingKey := by
  rw [List.perm_ext_iff_of_nodup distinct (by decide), Option.isSome_iff_exists, Option.isSome_iff_exists,
    ← mem_keysOf_iff, ← mem_keysOf_iff]
  constructor
  · intro same
    refine ⟨(same _).mpr (by simp), (same _).mpr (by simp), fun field member => ?_⟩
    simpa using (same field.1).mp (List.mem_map_of_mem member)
  · rintro ⟨schema, nesting, only⟩ key
    rw [List.mem_cons, List.mem_singleton]
    constructor
    · intro member
      obtain ⟨field, inside, rfl⟩ := List.mem_map.mp member
      exact only field inside
    · rintro (rfl | rfl)
      · exact schema
      · exact nesting

theorem unwrapped_eq_content (distinct : (keysOf doc).Nodup) : unwrapped doc = content doc := by
  unfold unwrapped content nested?
  simp only [keysOf_perm_iff distinct, List.all_eq_true, Bool.or_eq_true, decide_eq_true_eq]
  cases schema : doc.lookup schemaKey with
  | none => simp
  | some reference =>
    cases nesting : doc.lookup nestingKey with
    | none => simp
    | some v =>
      simp only [Option.isSome_some, if_true, true_and, Option.bind_some]
      split <;> rfl

/-- A document has its current shape when bringing it into shape leaves it equal, in whatever
order its fields are. -/
theorem reshape?_eq_none_iff_alike (wellFormed : (Value.object doc).WellFormed) (expected : String) :
    reshape? doc expected = none ↔ (Value.object (reshaped doc expected)).alike (.object doc) = true := by
  constructor
  · intro current
    rw [reshaped, current, Option.elim_none]
    exact Value.alike_refl _ wellFormed
  · intro alike
    obtain ⟨length, partner⟩ := Value.alike_object_iff.mp alike
    refine reshape?_eq_none_of_counterparts wellFormed length fun field member => ?_
    obtain ⟨b, found, same⟩ := partner field member
    exact ⟨b, found, fun _ => same⟩

/-- Bringing a document into shape loses nothing. Once, the document has the expected schema
reference, and beside it the fields of its content in their order, whose own reference goes.
No change is reported exactly when there is none, be it in the order of the fields. -/
theorem reshaped_keeps_content (wellFormed : (Value.object doc).WellFormed) (expected : String) :
    let after := reshaped doc expected
    after.lookup schemaKey = some (.string expected) ∧ (keysOf after).Nodup ∧
      without schemaKey after = without schemaKey (content doc) ∧
      (reshape? doc expected = none ↔ after = doc) ∧
      (reshape? doc expected = none ↔ (Value.object after).alike (.object doc) = true) := by
  have settled := reshape?_eq_none_iff_alike wellFormed expected
  refine ⟨lookup_schemaKey_reshaped doc expected, (wellFormed.reshaped expected).keysOf_nodup, ?_,
    ⟨?_, ?_⟩, settled⟩
  · rw [without_reshaped, unwrapped_eq_content wellFormed.keysOf_nodup]
  · intro current
    rw [reshaped, current, Option.elim_none]
  · intro same
    rw [settled, same]
    exact Value.alike_refl _ wellFormed

/-- A nested mapping with a reference of its own behind an entity, in front of a reference that
is no text. -/
theorem reshaped_keeps_content_of_nested :
    let inner : Fields := [("#B", .null), ("$schema", .string "./old"), ("config", .object []),
      ("#A", .string "x")]
    let doc : Fields := [("config", .object inner), ("$schema", .number (.int 1))]
    (Value.object doc).WellFormed ∧ content doc = inner ∧
      (reshaped doc "./new").lookup "$schema" = some (.string "./new") ∧
      without "$schema" (reshaped doc "./new") = [("#B", .null), ("config", .object []), ("#A", .string "x")] ∧
      reshape? doc "./new" ≠ none := by
  intro inner doc
  have wellFormed : (Value.object doc).WellFormed := by
    simp [doc, inner, Value.WellFormed, Value.WellFormedFields, keysOf]
  obtain ⟨reference, -, kept, changed, -⟩ := reshaped_keeps_content wellFormed "./new"
  exact ⟨wellFormed, by decide, reference, kept, by rw [ne_eq, changed]; decide⟩

/-- Beside an entity a mapping under the nesting key is not what the document is about. -/
example : content [("$schema", .null), ("config", .object []), ("#A", .null)] =
    [("$schema", .null), ("config", .object []), ("#A", .null)] := by decide

end LayeredConfig
