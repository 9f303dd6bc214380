import LayeredConfig.Proofs.Combined.Merge
import LayeredConfig.Proofs.Document.Load
import LayeredConfig.Proofs.Value.Overlay

namespace LayeredConfig

/-- A value that is no object stands on the path before its end. -/
def BlockedAt (fields : Fields) (path : List String) : Prop :=
  ∃ top rest v, path = top ++ rest ∧ rest ≠ [] ∧ valueAt? fields top = some v ∧ v.fields? = none

theorem valueAt?_nil_fields (path : List String) : valueAt? [] path = none := by
  cases path <;> simp [valueAt?]

/-- A path has no value behind one that is no object. -/
theorem BlockedAt.valueAt?_eq_none {fields : Fields} {path : List String} (blocked : BlockedAt fields path) :
    valueAt? fields path = none := by
  obtain ⟨top, rest, v, rfl, nonempty, reached, leaf⟩ := blocked
  have start : top ≠ [] := by rintro rfl; simp [valueAt?] at reached
  rw [valueAt?_append start, reached]
  exact Value.at?_of_leaf leaf nonempty

/-- What blocks a path in the upper fields blocks it in the overlay. -/
theorem BlockedAt.overlayFields {tops : Fields} {path : List String} (blocked : BlockedAt tops path)
    (wellFormed : (Value.object tops).WellFormed) (bases : Fields) :
    BlockedAt (overlayFields bases tops) path := by
  obtain ⟨top, rest, v, split, nonempty, reached, leaf⟩ := blocked
  refine ⟨top, rest, v, split, nonempty, ?_, leaf⟩
  rw [valueAt?_overlayFields wellFormed reached]
  cases valueAt? bases top <;> simp [Value.overlay_of_leaf leaf]

/-- Walking a path ends at a missing key, at a value that is no object, or at
the end of the path. -/
theorem absentAt_or_blockedAt_or_reached (fields : Fields) {path : List String} (nonempty : path ≠ []) :
    AbsentAt fields path ∨ BlockedAt fields path ∨ ∃ v, valueAt? fields path = some v := by
  induction path generalizing fields with
  | nil => exact absurd rfl nonempty
  | cons key rest ih =>
    cases found : fields.lookup key with
    | none => exact Or.inl (.missing found)
    | some v =>
      by_cases last : rest = []
      · exact Or.inr (Or.inr ⟨v, by simp [last, valueAt?, found, Value.at?]⟩)
      cases inner : v.fields? with
      | none => exact Or.inr (Or.inl ⟨[key], rest, v, rfl, last, by simp [valueAt?, found, Value.at?], inner⟩)
      | some below =>
        obtain rfl := Value.fields?_eq_some.mp inner
        rcases ih below last with absent | ⟨top, more, w, split, ends, reached, leaf⟩ | ⟨w, reached⟩
        · exact Or.inl (.deeper found absent)
        · have start : top ≠ [] := by rintro rfl; simp [valueAt?] at reached
          refine Or.inr (Or.inl ⟨key :: top, more, w, by simp [split], ends, ?_, leaf⟩)
          simpa [valueAt?, found, Value.at?_object start] using reached
        · exact Or.inr (Or.inr ⟨w, by simpa [valueAt?, found, Value.at?_object last] using reached⟩)

theorem overlayDocuments_append (before : List Document) (d : Document) (after : List Document) :
    overlayDocuments (before ++ d :: after) =
      after.foldl (fun merged e => overlayFields merged e.entities)
        (overlayFields (overlayDocuments before) d.entities) := by
  simp [overlayDocuments]

/-- Documents that lack a key of a path leave its value as it was. -/
theorem valueAt?_foldl_of_absentAt {documents : List Document} (wellFormed : ∀ d ∈ documents, d.WellFormed)
    {path : List String} (absent : ∀ d ∈ documents, AbsentAt d.entities path) (start : Fields) :
    valueAt? (documents.foldl (fun merged d => overlayFields merged d.entities) start) path =
      valueAt? start path := by
  induction documents generalizing start with
  | nil => rfl
  | cons d rest ih =>
    rw [List.foldl_cons, ih (fun e member => wellFormed e (List.mem_cons_of_mem _ member))
      (fun e member => absent e (List.mem_cons_of_mem _ member))]
    exact (absent d List.mem_cons_self).valueAt?_overlayFields (wellFormed d List.mem_cons_self) start

theorem mergeDocuments_eq_ok {documents : List Document} {merged : Fields}
    (merge : mergeDocuments documents = .ok merged) : merged = overlayDocuments documents :=
  (mergeDocuments_eq_ok_iff.mp merge).2.symm

/-- Only the documents up to the last one that does not lack the path count for
its value. -/
theorem valueAt?_mergeDocuments {before after : List Document} {d : Document} {merged : Fields}
    {path : List String} (wellFormed : ∀ e ∈ after, e.WellFormed)
    (merge : mergeDocuments (before ++ d :: after) = .ok merged) (absent : ∀ e ∈ after, AbsentAt e.entities path) :
    valueAt? merged path = valueAt? (overlayFields (overlayDocuments before) d.entities) path := by
  rw [mergeDocuments_eq_ok merge, overlayDocuments_append, valueAt?_foldl_of_absentAt wellFormed absent]

section Last

variable {before after : List Document} {d : Document} {merged : Fields} {path : List String}
  (wellFormed : ∀ e ∈ before ++ d :: after, e.WellFormed)
  (merge : mergeDocuments (before ++ d :: after) = .ok merged) (absent : ∀ e ∈ after, AbsentAt e.entities path)

include wellFormed merge absent

theorem valueAt?_of_last_reached {top : Value} (reached : valueAt? d.entities path = some top) :
    valueAt? merged path = some ((valueAt? (overlayDocuments before) path).elim top (·.overlay top)) := by
  rw [valueAt?_mergeDocuments (fun e member => wellFormed e (by simp [member])) merge absent]
  exact valueAt?_overlayFields (wellFormed d (by simp)) reached (overlayDocuments before)

theorem valueAt?_of_last_leaf {v : Value} (reached : valueAt? d.entities path = some v) (leaf : v.fields? = none) :
    valueAt? merged path = some v := by
  rw [valueAt?_of_last_reached wellFormed merge absent reached]
  cases valueAt? (overlayDocuments before) path <;> simp [Value.overlay_of_leaf leaf]

theorem valueAt?_of_last_object {fields : Fields} (reached : valueAt? d.entities path = some (.object fields)) :
    ∃ combined, valueAt? merged path = some (.object combined) := by
  rw [valueAt?_of_last_reached wellFormed merge absent reached]
  cases valueAt? (overlayDocuments before) path <;> simp [Value.overlay_object]

theorem valueAt?_of_last_blocked (blocked : BlockedAt d.entities path) : valueAt? merged path = none := by
  rw [valueAt?_mergeDocuments (fun e member => wellFormed e (by simp [member])) merge absent]
  exact (blocked.overlayFields (wellFormed d (by simp)) _).valueAt?_eq_none

/-- The last document that does not lack the path decides whether a value that is
no object stands there. -/
theorem valueAt?_eq_leaf_iff (present : ¬AbsentAt d.entities path) {v : Value} (leaf : v.fields? = none) :
    valueAt? merged path = some v ↔ valueAt? d.entities path = some v := by
  refine ⟨fun stands => ?_, fun reached => valueAt?_of_last_leaf wellFormed merge absent reached leaf⟩
  have nonempty : path ≠ [] := by rintro rfl; simp [valueAt?] at stands
  rcases absentAt_or_blockedAt_or_reached d.entities nonempty with lacks | blocked | ⟨top, reached⟩
  · exact absurd lacks present
  · rw [valueAt?_of_last_blocked wellFormed merge absent blocked] at stands
    cases stands
  · cases inner : top.fields? with
    | none =>
      rw [valueAt?_of_last_leaf wellFormed merge absent reached inner] at stands
      rw [reached, stands]
    | some fields =>
      obtain rfl := Value.fields?_eq_some.mp inner
      obtain ⟨combined, object⟩ := valueAt?_of_last_object wellFormed merge absent reached
      rw [object, Option.some.injEq] at stands
      rw [← stands] at leaf
      cases leaf

end Last

/-- The pointwise law of overriding. At each path the last document that does not
lack a key of it decides: its value stands there unless both are objects, and
where it has a value that is no object on the way, nothing is there. -/
theorem override_law {documents : List Document} {merged : Fields} (wellFormed : ∀ d ∈ documents, d.WellFormed)
    (merge : mergeDocuments documents = .ok merged) (path : List String) :
    ((∀ d ∈ documents, AbsentAt d.entities path) → valueAt? merged path = none) ∧
      ∀ before d after, documents = before ++ d :: after → ¬AbsentAt d.entities path →
        (∀ later ∈ after, AbsentAt later.entities path) →
        (∀ v, valueAt? d.entities path = some v → v.fields? = none → valueAt? merged path = some v) ∧
          (BlockedAt d.entities path → valueAt? merged path = none) ∧
          (∀ fields, valueAt? d.entities path = some (.object fields) →
            ∃ combined, valueAt? merged path = some (.object combined)) := by
  refine ⟨fun absent => ?_, ?_⟩
  · rw [mergeDocuments_eq_ok merge]
    exact (valueAt?_foldl_of_absentAt wellFormed absent []).trans (valueAt?_nil_fields path)
  · rintro before d after rfl _ absent
    exact ⟨fun v reached leaf => valueAt?_of_last_leaf wellFormed merge absent reached leaf,
      fun blocked => valueAt?_of_last_blocked wellFormed merge absent blocked,
      fun fields reached => valueAt?_of_last_object wellFormed merge absent reached⟩

/-- A document that holds nothing but its fields. -/
def Document.bare (place : String) (entities : Fields) : Document :=
  ⟨⟨place⟩, entities, [], "", false⟩

/-- A mapping, a scalar over it, and a mapping over that: what the first one held
is gone, and the last one stands. -/
theorem override_law_rebuilt :
    let mapping := Document.bare "/a" [("#A", .object [("x", .null), ("y", .bool true)])]
    let scalar := Document.bare "/b" [("#A", .string "flat")]
    let rebuilt := Document.bare "/c" [("#A", .object [("x", .array [])])]
    let merged : Fields := [("#A", .object [("x", .array [])])]
    mergeDocuments [mapping, scalar, rebuilt] = .ok merged ∧
      valueAt? merged ["#A", "x"] = some (.array []) ∧ valueAt? merged ["#A", "y"] = none := by
  intro mapping scalar rebuilt merged
  have wellFormed : ∀ d ∈ [mapping, scalar, rebuilt], d.WellFormed := by
    simp [mapping, scalar, rebuilt, Document.bare, Document.WellFormed, Value.WellFormed, Value.WellFormedFields,
      Value.WellFormedItems, keysOf]
  have merge : mergeDocuments [mapping, scalar, rebuilt] = .ok merged := rfl
  have atX := (override_law wellFormed merge ["#A", "x"]).2 [mapping, scalar] rebuilt [] rfl (by decide) (by simp)
  have atY := (override_law wellFormed merge ["#A", "y"]).2 [mapping] scalar [rebuilt] rfl (by decide)
    (by simp only [List.forall_mem_singleton]; decide)
  exact ⟨merge, atX.1 _ rfl rfl, atY.2.1 ⟨["#A"], ["y"], _, rfl, by simp, rfl, rfl⟩⟩

end LayeredConfig
