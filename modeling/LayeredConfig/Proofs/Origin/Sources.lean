import LayeredConfig.Origin.Sources
import LayeredConfig.Proofs.Combined.Override
import LayeredConfig.Proofs.Value.Equality
import LayeredConfig.Sidecar.Store

namespace LayeredConfig

/-- The documents that have an entity key, in their order. -/
def declaring (documents : List Document) (key : String) : List Document :=
  documents.filter fun d => key ∈ keysOf d.entities

theorem declaring_eq_nil_iff {documents : List Document} {key : String} :
    declaring documents key = [] ↔ ∀ d ∈ documents, key ∉ keysOf d.entities := by
  simp [declaring]

theorem declaring_reverse (documents : List Document) (key : String) :
    declaring documents.reverse key = (declaring documents key).reverse :=
  List.filter_reverse

/-- A document adds its declaration to those of each of its keys, and leaves those of
all others. -/
theorem lookup_addSources {d : Document} (distinct : (keysOf d.entities).Nodup)
    (found : List (String × List Source)) (key : String) :
    (addSources found d).lookup key =
      if key ∈ keysOf d.entities then some ((found.lookup key).getD [] ++ [sourceIn d key])
        else found.lookup key := by
  unfold addSources
  generalize keysOf d.entities = keys at distinct
  induction keys generalizing found with
  | nil => simp
  | cons first rest ih =>
    obtain ⟨fresh, later⟩ := List.nodup_cons.mp distinct
    rw [List.foldl_cons, ih _ later]
    by_cases same : key = first
    · subst same
      simp [fresh]
    · simp [same, lookup_put_of_ne same]

theorem nodup_keysOf_addSources {found : List (String × List Source)} (distinct : (keysOf found).Nodup)
    (d : Document) :
    (keysOf (addSources found d)).Nodup := by
  unfold addSources
  generalize keysOf d.entities = keys
  induction keys generalizing found with
  | nil => exact distinct
  | cons first rest ih => exact ih (nodup_keysOf_put distinct first _)

section Visited

variable {documents : List Document}

theorem nodup_keysOf_visited (documents : List Document) (found : List (String × List Source))
    (distinct : (keysOf found).Nodup) : (keysOf (documents.foldl addSources found)).Nodup := by
  induction documents generalizing found with
  | nil => exact distinct
  | cons d rest ih => exact ih _ (nodup_keysOf_addSources distinct d)

/-- What a visit of documents in turn finds for a key: one declaration for each document
that has it, behind those found before. -/
theorem lookup_visited (distinct : ∀ d ∈ documents, (keysOf d.entities).Nodup)
    (found : List (String × List Source)) (key : String) :
    (documents.foldl addSources found).lookup key =
      if declaring documents key = [] then found.lookup key
      else some ((found.lookup key).getD [] ++ (declaring documents key).map (sourceIn · key)) := by
  induction documents generalizing found with
  | nil => simp [declaring]
  | cons d rest ih =>
    have later := ih (fun e member => distinct e (List.mem_cons_of_mem _ member)) (addSources found d)
    rw [List.foldl_cons, later, lookup_addSources (distinct d List.mem_cons_self)]
    by_cases declares : key ∈ keysOf d.entities
    · have front : declaring (d :: rest) key = d :: declaring rest key := by simp [declaring, declares]
      by_cases last : declaring rest key = [] <;> simp [front, declares, last]
    · have front : declaring (d :: rest) key = declaring rest key := by simp [declaring, declares]
      simp [front, declares]

/-- The declarations of a key are those of the documents that have it, in the order of
merging. -/
theorem mem_entitySources_iff (distinct : ∀ d ∈ documents, (keysOf d.entities).Nodup) {key : String}
    {list : List Source} :
    (key, list) ∈ entitySources documents ↔
      declaring documents key ≠ [] ∧ list = (declaring documents key).map (sourceIn · key) := by
  have once := nodup_keysOf_visited documents.reverse [] List.nodup_nil
  have turned : ∀ d ∈ documents.reverse, (keysOf d.entities).Nodup :=
    fun d member => distinct d (List.mem_reverse.mp member)
  have visited := lookup_visited turned [] key
  simp only [declaring_reverse, List.map_reverse, List.reverse_eq_nil_iff] at visited
  simp only [entitySources, List.mem_map, List.mem_mergeSort, Prod.exists, Prod.mk.injEq]
  constructor
  · rintro ⟨_, backwards, member, rfl, rfl⟩
    rw [lookup_of_mem once member] at visited
    split at visited
    · cases visited
    · next some_ =>
      have backwards_eq : backwards = _ := Option.some.inj visited
      exact ⟨some_, by simp [backwards_eq]⟩
  · rintro ⟨some_, rfl⟩
    rw [if_neg some_] at visited
    exact ⟨key, _, mem_of_lookup visited, rfl, by simp⟩

/-- The keys are sorted, each once. -/
theorem pairwise_keysOf_entitySources (documents : List Document) :
    (keysOf (entitySources documents)).Pairwise (· < ·) := by
  let visited := documents.reverse.foldl addSources []
  let sorted := visited.mergeSort (·.1 ≤ ·.1)
  have keys : keysOf (entitySources documents) = sorted.map (·.1) := by
    simp [keysOf, entitySources, sorted, visited]
  have once : (sorted.map (·.1)).Nodup :=
    (((List.mergeSort_perm visited _).map _).nodup_iff).mpr (nodup_keysOf_visited _ [] List.nodup_nil)
  have rising : (sorted.map (·.1)).Pairwise (· ≤ ·) := by
    refine List.pairwise_map.mpr ((List.pairwise_mergeSort ?_ ?_ visited).imp of_decide_eq_true)
    · intro a b c first second
      simp only [decide_eq_true_eq] at first second ⊢
      exact String.le_trans first second
    · intro a b
      simpa using String.le_total a.1 b.1
  rw [keys]
  refine rising.imp₂ (fun a b below apart => ?_) once
  exact String.not_le.mp fun above => apart (String.le_antisymm below above)

/-- The merged document has a key where one of the documents has it. -/
theorem mem_keysOf_overlayDocuments {key : String} :
    key ∈ keysOf (overlayDocuments documents) ↔ ∃ d ∈ documents, key ∈ keysOf d.entities := by
  rw [keysOf_overlayDocuments, List.mem_eraseDups, List.mem_flatMap]

theorem mem_keysOf_entitySources (distinct : ∀ d ∈ documents, (keysOf d.entities).Nodup) {key : String} :
    key ∈ keysOf (entitySources documents) ↔ ∃ d ∈ documents, key ∈ keysOf d.entities := by
  have some_ : declaring documents key ≠ [] ↔ ∃ d ∈ documents, key ∈ keysOf d.entities := by
    simp [declaring_eq_nil_iff]
  rw [← some_]
  constructor
  · intro member
    obtain ⟨⟨_, list⟩, inside, rfl⟩ := List.mem_map.mp member
    exact ((mem_entitySources_iff distinct).mp inside).1
  · intro nonempty
    exact List.mem_map.mpr ⟨_, (mem_entitySources_iff distinct).mpr ⟨nonempty, rfl⟩, rfl⟩

end Visited

/-- The sidecar of a document has the line of each of its keys. -/
theorem lookup_describe (s : SidecarStore) (now : Instant) (d : Document) (key : String) :
    (s.describe now d).entities.lookup key =
      (d.entities.lookup key).map fun data => ⟨(sourceIn d key).line, data⟩ := by
  simp only [SidecarStore.describe, sourceIn]
  induction d.entities with
  | nil => rfl
  | cons field rest ih =>
    obtain ⟨name, data⟩ := field
    by_cases same : key = name
    · simp [same]
    · have apart : (key == name) = false := by simpa using same
      simp [List.lookup_cons, apart, ih]

/-- The sources of the entities are complete, in the order of merging, and the same
ones that the merge and the sidecars show. There is one list for each key that a
document has, and so for each key of the merged document; it has a source for each
time that one of the documents with the key comes, with its place and with the line
that its sidecar has. -/
theorem entitySources_complete {documents : List Document} (wellFormed : ∀ d ∈ documents, d.WellFormed) :
    (keysOf (entitySources documents)).Pairwise (· < ·) ∧
      (∀ key, key ∈ keysOf (entitySources documents) ↔ ∃ d ∈ documents, key ∈ keysOf d.entities) ∧
      (∀ merged, mergeDocuments documents = .ok merged →
        ∀ key, key ∈ keysOf (entitySources documents) ↔ key ∈ keysOf merged) ∧
      ∀ key list, (key, list) ∈ entitySources documents →
        List.Forall₂ (fun source d => source.location = d.location ∧
            ∀ (store : SidecarStore) (now : Instant),
              ∃ data, (store.describe now d).entities.lookup key = some ⟨source.line, data⟩)
          list (declaring documents key) := by
  have distinct : ∀ d ∈ documents, (keysOf d.entities).Nodup := fun d member => (wellFormed d member).keysOf_nodup
  refine ⟨pairwise_keysOf_entitySources documents, fun key => mem_keysOf_entitySources distinct,
    fun merged merge key => ?_, fun key list member => ?_⟩
  · rw [mergeDocuments_eq_ok merge, mem_keysOf_overlayDocuments, mem_keysOf_entitySources distinct]
  · obtain ⟨-, rfl⟩ := (mem_entitySources_iff distinct).mp member
    rw [List.forall₂_map_left_iff, List.forall₂_same]
    intro d declares
    have has : key ∈ keysOf d.entities := by simpa using (List.mem_filter.mp declares).2
    obtain ⟨data, found⟩ := mem_keysOf_iff.mp has
    exact ⟨rfl, fun store now => ⟨data, by rw [lookup_describe, found]; rfl⟩⟩

/-- A document under another one and met a second time behind it is a source twice. -/
theorem entitySources_complete_met_twice :
    let base : Document := ⟨⟨"/base"⟩, [("#B", .null), ("#A", .null)], [], "'#B':\n'#A':\n", false⟩
    let left : Document := ⟨⟨"/left"⟩, [("#A", .bool true)], [], "'#A': true\n", false⟩
    let documents := [base, left, base]
    let sources : List Source := [⟨⟨"/base"⟩, 2⟩, ⟨⟨"/left"⟩, 1⟩, ⟨⟨"/base"⟩, 2⟩]
    (∀ d ∈ documents, d.WellFormed) ∧ mergeDocuments documents = .ok [("#B", .null), ("#A", .null)] ∧
      ("#A" ∈ keysOf (entitySources documents) ↔ "#A" ∈ ["#B", "#A"]) ∧ ("#A", sources) ∈ entitySources documents ∧
      List.Forall₂ (fun source d => source.location = d.location ∧
          ∀ (store : SidecarStore) (now : Instant),
            ∃ data, (store.describe now d).entities.lookup "#A" = some ⟨source.line, data⟩)
        sources [base, left, base] := by
  intro base left documents sources
  have wellFormed : ∀ d ∈ documents, d.WellFormed := by
    simp [documents, base, left, Document.WellFormed, Value.WellFormed, Value.WellFormedFields, keysOf]
  have merge : mergeDocuments documents = .ok [("#B", .null), ("#A", .null)] := rfl
  have declares : declaring documents "#A" = [base, left, base] := rfl
  have lines : [base, left, base].map (sourceIn · "#A") = sources := by decide +kernel
  have listed : ("#A", sources) ∈ entitySources documents :=
    (mem_entitySources_iff fun d member => (wellFormed d member).keysOf_nodup).mpr
      ⟨by simp [declares], by rw [declares, lines]⟩
  obtain ⟨-, -, merged, described⟩ := entitySources_complete wellFormed
  exact ⟨wellFormed, merge, merged _ merge "#A", listed, described "#A" sources listed⟩

end LayeredConfig
