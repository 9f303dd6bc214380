import LayeredConfig.Combined.Merge
import LayeredConfig.Proofs.Outcome
import LayeredConfig.Proofs.Value.KeyOrder

namespace LayeredConfig

/-- All top-level keys but the references to schema and parents are entity keys. -/
def Document.Plain (d : Document) : Prop :=
  ∀ key ∈ keysOf d.entities, isEntityKey key = true

theorem foreignKey?_eq_none_iff {d : Document} : foreignKey? d = none ↔ d.Plain := by
  simp [foreignKey?, Document.Plain]

/-- The foreign key of a document stands behind entity keys alone. -/
theorem foreignKey?_eq_some_iff {d : Document} {key : String} :
    foreignKey? d = some key ↔ isEntityKey key = false ∧
      ∃ front back, keysOf d.entities = front ++ key :: back ∧ ∀ k ∈ front, isEntityKey k = true := by
  simp [foreignKey?, List.find?_eq_some_iff_append]

theorem checkKeys_eq_ok_iff {documents : List Document} :
    checkKeys documents = .ok () ↔ ∀ d ∈ documents, d.Plain := by
  induction documents with
  | nil => simp [checkKeys]
  | cons d rest ih =>
    rw [checkKeys, List.forall_mem_cons, ← ih, ← foreignKey?_eq_none_iff]
    cases foreignKey? d <;> simp

theorem checkKeys_eq_error_iff {documents : List Document} {fault : Fault} :
    checkKeys documents = .error fault ↔ ∃ before d after key, documents = before ++ d :: after ∧
      (∀ e ∈ before, e.Plain) ∧ foreignKey? d = some key ∧
      fault = .foreignKey key d.location (formerKeys.lookup key) := by
  induction documents with
  | nil => simp [checkKeys]
  | cons d rest ih =>
    rw [checkKeys]
    constructor
    · intro failed
      cases foreign : foreignKey? d with
      | some key =>
        rw [foreign] at failed
        exact ⟨[], d, rest, key, rfl, by simp, foreign, (Except.error.inj failed).symm⟩
      | none =>
        rw [foreign] at failed
        obtain ⟨before, e, after, key, rfl, plain, known, same⟩ := ih.mp failed
        exact ⟨d :: before, e, after, key, rfl,
          List.forall_mem_cons.mpr ⟨foreignKey?_eq_none_iff.mp foreign, plain⟩, known, same⟩
    · rintro ⟨before, e, after, key, split, plain, known, rfl⟩
      cases before with
      | nil =>
        obtain ⟨rfl, -⟩ := List.cons_eq_cons.mp split
        rw [known]
      | cons first more =>
        obtain ⟨rfl, rfl⟩ := List.cons_eq_cons.mp split
        obtain ⟨own, later⟩ := List.forall_mem_cons.mp plain
        rw [foreignKey?_eq_none_iff.mpr own]
        exact ih.mpr ⟨more, e, after, key, rfl, later, known, rfl⟩

theorem mergeDocuments_eq_ok_iff {documents : List Document} {merged : Fields} :
    mergeDocuments documents = .ok merged ↔ (∀ d ∈ documents, d.Plain) ∧ overlayDocuments documents = merged := by
  rw [mergeDocuments, map_eq_ok, ← checkKeys_eq_ok_iff]
  constructor
  · rintro ⟨u, checked, overlaid⟩
    exact ⟨checked, overlaid⟩
  · rintro ⟨checked, overlaid⟩
    exact ⟨(), checked, overlaid⟩

/-- Of a former key it is known where its contents belong, of no other key. -/
theorem lookup_formerKeys_eq_some_iff {key moved : String} :
    formerKeys.lookup key = some moved ↔ (key, moved) ∈ formerKeys :=
  ⟨mem_of_lookup, lookup_of_mem (by decide)⟩

/-- Overlaid documents have the keys of all, each where it occurs first. -/
theorem keysOf_overlayDocuments (documents : List Document) :
    keysOf (overlayDocuments documents) = (documents.flatMap fun d => keysOf d.entities).eraseDups := by
  suffices ∀ start : Fields, (keysOf start).Nodup →
      keysOf (documents.foldl (fun merged d => overlayFields merged d.entities) start) =
        (keysOf start ++ documents.flatMap fun d => keysOf d.entities).eraseDups by
    simpa [overlayDocuments, keysOf] using this [] List.nodup_nil
  induction documents with
  | nil => simp +contextual [eraseDups_of_nodup]
  | cons d rest ih =>
    intro start distinct
    rw [List.foldl_cons, ih _ (nodup_keysOf_overlayFields distinct d.entities), keysOf_overlayFields distinct,
      eraseDups_eraseDups_append, List.flatMap_cons, List.append_assoc]

end LayeredConfig
