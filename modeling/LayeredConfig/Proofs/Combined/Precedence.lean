import LayeredConfig.Proofs.Ancestry.Cycle
import LayeredConfig.Proofs.Ancestry.Order
import LayeredConfig.Proofs.Combined.Override

namespace LayeredConfig

open Surroundings (plain)

/-- Documents all lack a path, or there is a last one that does not. -/
theorem absentAt_or_last_present (documents : List Document) (path : List String) :
    (∀ d ∈ documents, AbsentAt d.entities path) ∨
      ∃ before d after, documents = before ++ d :: after ∧ ¬AbsentAt d.entities path ∧
        ∀ later ∈ after, AbsentAt later.entities path := by
  induction documents with
  | nil => exact Or.inl (by simp)
  | cons first rest ih =>
    rcases ih with none_ | ⟨before, d, after, rfl, present, absent⟩
    · by_cases lacks : AbsentAt first.entities path
      · exact Or.inl fun d member => (List.mem_cons.mp member).elim (fun same => same ▸ lacks) (none_ d)
      · exact Or.inr ⟨[], first, rest, rfl, lacks, none_⟩
    · exact Or.inr ⟨first :: before, d, after, rfl, present, absent⟩

theorem AbsentAt.not_reached {fields : Fields} {path : List String} {v : Value}
    (reached : valueAt? fields path = some v) :
    ¬AbsentAt fields path := by
  intro absent
  rw [absent.valueAt?_eq_none] at reached
  cases reached

/-- When all ways to an ancestor lead through a document, the ancestor does not come
again after the document was merged last. -/
theorem location_ne_of_guarded {s : Surroundings} {files : FileTree} {root ancestor : Location} {a : Ancestry}
    (resolved : (s.ancestry files root).result = .ok a) {before after : List Document} {d : Document}
    (split : a.documents = before ++ d :: after) (last : ∀ x ∈ after, x.location ≠ d.location)
    (apart : ancestor ≠ d.location) (guarded : a.lineage.guarded d.location ancestor = true) :
    ∀ x ∈ after, x.location ≠ ancestor := by
  rintro x member rfl
  obtain ⟨mid, rest, rfl⟩ := List.append_of_mem member
  have order : a.lineage.mergeOrder =
      (before ++ d :: mid).map Document.location ++ x.location :: rest.map Document.location := by
    rw [← Surroundings.map_location_documents resolved, split]
    simp
  have again := Lineage.followedBy_of_guarded apart a.lineage guarded _ _ order
  obtain ⟨y, later, same⟩ := List.mem_map.mp again
  exact last y (List.mem_append_right _ (List.mem_cons_of_mem _ later)) same

/-- A value of a document that none but one ancestor says something about, too.
The value stands unless the ancestor is merged once more behind the document
and says something else; where every way to the ancestor leads through the
document, it stands. -/
theorem own_value_iff_ancestor_not_later {s : Surroundings} {files : FileTree} {root ancestor : Location}
    {a : Ancestry} {merged : Fields} (resolved : (s.ancestry files root).result = .ok a)
    (merge : mergeDocuments a.documents = .ok merged) {before after : List Document} {d : Document}
    (split : a.documents = before ++ d :: after) (last : ∀ x ∈ after, x.location ≠ d.location)
    {path : List String} {v : Value} (holds : valueAt? d.entities path = some v) (leaf : v.fields? = none)
    (apart : ancestor ≠ d.location)
    (only : ∀ x ∈ a.documents, ¬AbsentAt x.entities path → x.location = d.location ∨ x.location = ancestor) :
    (valueAt? merged path = some v ↔
        ∀ mid e rest, after = mid ++ e :: rest → ¬AbsentAt e.entities path →
          (∀ later ∈ rest, AbsentAt later.entities path) →
          e.location = ancestor ∧ valueAt? e.entities path = some v) ∧
      a.documents.map Document.location = a.lineage.mergeOrder ∧
      (a.lineage.guarded d.location ancestor = true → valueAt? merged path = some v) := by
  have wellFormed := Surroundings.wellFormed_of_ancestry resolved
  rw [split] at merge wellFormed only
  have decides : valueAt? merged path = some v ↔
      ∀ mid e rest, after = mid ++ e :: rest → ¬AbsentAt e.entities path →
        (∀ later ∈ rest, AbsentAt later.entities path) →
        e.location = ancestor ∧ valueAt? e.entities path = some v := by
    constructor
    · rintro stands mid e rest rfl present absent
      have own : e.location = ancestor :=
        (only e (by simp) present).resolve_left (last e (by simp))
      rw [← List.cons_append, ← List.append_assoc] at merge wellFormed
      exact ⟨own, (valueAt?_eq_leaf_iff wellFormed merge absent present leaf).mp stands⟩
    · intro agree
      rcases absentAt_or_last_present after path with absent | ⟨mid, e, rest, rfl, present, absent⟩
      · exact valueAt?_of_last_leaf wellFormed merge absent holds leaf
      · have same := (agree mid e rest rfl present absent).2
        rw [← List.cons_append, ← List.append_assoc] at merge wellFormed
        exact valueAt?_of_last_leaf wellFormed merge absent same leaf
  refine ⟨decides, Surroundings.map_location_documents resolved, fun guarded => decides.mpr ?_⟩
  rintro mid e rest rfl present _
  have never := location_ne_of_guarded resolved split last apart guarded e (by simp)
  rcases only e (by simp) present with same | same
  · exact absurd same (last e (by simp))
  · exact absurd same never

/-- A diamond; one side of it overrides a field of the document it ends in. -/
def overriddenDiamond : FileTree :=
  ⟨[(["a"], .file (.text "$schema: ./s\nextends: [./l, ./r]")),
    (["l"], .file (.text "$schema: ./s\nextends: [./c]\n'#K': own")),
    (["r"], .file (.text "$schema: ./s\nextends: [./c]")), (["c"], .file (.text "$schema: ./s\n'#K': old"))], []⟩

theorem valueAt?_of_string? {fields : Fields} {path : List String} {text : String}
    (found : (valueAt? fields path).bind Value.string? = some text) :
    valueAt? fields path = some (.string text) := by
  obtain ⟨v, reached, string⟩ := Option.bind_eq_some_iff.mp found
  cases v <;> simp_all [Value.string?]

/-- What the overridden diamond is merged from, and what comes of it. -/
def overriddenDiamondMerged (a : Ancestry) (merged : Fields) : Bool :=
  match a.documents with
  | [shared, left, again, right, root] =>
    shared.location == ⟨"/c"⟩ &&
      left.location == ⟨"/l"⟩ && (valueAt? left.entities ["#K"]).bind Value.string? == some "own" &&
      again.location == ⟨"/c"⟩ && (valueAt? again.entities ["#K"]).bind Value.string? == some "old" &&
      right.location == ⟨"/r"⟩ && AbsentAt right.entities ["#K"] &&
      root.location == ⟨"/a"⟩ && AbsentAt root.entities ["#K"] &&
      (valueAt? merged ["#K"]).bind Value.string? == some "old"
  | _ => false

set_option maxRecDepth 10000 in
theorem overriddenDiamond_resolves :
    ((plain.ancestry overriddenDiamond ⟨"/a"⟩).result.toOption.any fun a =>
      (mergeDocuments a.documents).toOption.any (overriddenDiamondMerged a)) = true := by
  decide +kernel

theorem overriddenDiamond_documents :
    ∃ a merged shared left again right root, (plain.ancestry overriddenDiamond ⟨"/a"⟩).result = .ok a ∧
      mergeDocuments a.documents = .ok merged ∧ a.documents = [shared, left, again, right, root] ∧
      (shared.location = ⟨"/c"⟩ ∧ left.location = ⟨"/l"⟩ ∧ again.location = ⟨"/c"⟩ ∧ right.location = ⟨"/r"⟩ ∧
        root.location = ⟨"/a"⟩) ∧
      valueAt? left.entities ["#K"] = some (.string "own") ∧
        valueAt? again.entities ["#K"] = some (.string "old") ∧
      AbsentAt right.entities ["#K"] ∧ AbsentAt root.entities ["#K"] ∧
      valueAt? merged ["#K"] = some (.string "old") := by
  obtain ⟨a, resolved, merges⟩ := exists_of_toOption_any overriddenDiamond_resolves
  obtain ⟨merged, merge, shape⟩ := exists_of_toOption_any merges
  unfold overriddenDiamondMerged at shape
  split at shape
  · next shared left again right root documents =>
    simp only [Bool.and_eq_true, beq_iff_eq, decide_eq_true_eq] at shape
    obtain ⟨⟨⟨⟨⟨⟨⟨⟨⟨atC, atL⟩, own⟩, againC⟩, old⟩, atR⟩, lacksR⟩, atA⟩, lacksA⟩, result⟩ := shape
    exact ⟨a, merged, shared, left, again, right, root, resolved, merge, documents, ⟨atC, atL, againC, atR, atA⟩,
      valueAt?_of_string? own, valueAt?_of_string? old, lacksR, lacksA, valueAt?_of_string? result⟩
  · cases shape

/-- In the overridden diamond the last document is merged again behind the side
that overrides it. -/
theorem own_value_lost_in_diamond :
    ∃ a merged left, (plain.ancestry overriddenDiamond ⟨"/a"⟩).result = .ok a ∧
      mergeDocuments a.documents = .ok merged ∧ left ∈ a.documents ∧
      valueAt? left.entities ["#K"] = some (.string "own") ∧ valueAt? merged ["#K"] ≠ some (.string "own") := by
  obtain ⟨a, merged, shared, left, again, right, root, resolved, merge, documents,
    ⟨atC, atL, againC, atR, atA⟩, own, old, lacksR, lacksA, _⟩ := overriddenDiamond_documents
  have split : a.documents = [shared] ++ left :: [again, right, root] := documents
  have apart : Location.mk "/c" ≠ left.location := by simp [atL]
  have law := own_value_iff_ancestor_not_later resolved merge split (by simp [atL, againC, atR, atA]) own rfl apart
    (by simp [documents, atL, atC, againC, lacksR, lacksA])
  refine ⟨a, merged, left, resolved, merge, by simp [documents], own, fun stands => ?_⟩
  have agrees := (law.1.mp stands [] again [right, root] rfl (AbsentAt.not_reached old)
    (by simp [lacksR, lacksA])).2
  rw [old] at agrees
  simp at agrees

/-- That no document is overridden by what it extends is not so. -/
theorem overridden_by_ancestor :
    ¬∀ (s : Surroundings) (files : FileTree) (root ancestor : Location) (a : Ancestry) (merged : Fields)
        (d : Document) (path : List String) (v : Value), (s.ancestry files root).result = .ok a →
      mergeDocuments a.documents = .ok merged → d ∈ a.documents →
      Relation.TransGen (s.Extends files) d.location ancestor → ancestor ≠ d.location →
      valueAt? d.entities path = some v → v.fields? = none →
      (∀ x ∈ a.documents, ¬AbsentAt x.entities path → x.location = d.location ∨ x.location = ancestor) →
      valueAt? merged path = some v := by
  intro claim
  obtain ⟨a, merged, shared, left, again, right, root, resolved, merge, documents,
    ⟨atC, atL, againC, atR, atA⟩, own, _, lacksR, lacksA, result⟩ := overriddenDiamond_documents
  have edge : plain.Extends overriddenDiamond left.location ⟨"/c"⟩ := by
    rw [atL]
    exact ⟨"./c", by decide +kernel, ⟨"/c"⟩, rfl, rfl⟩
  have kept := claim plain overriddenDiamond ⟨"/a"⟩ ⟨"/c"⟩ a merged left ["#K"] (.string "own") resolved merge
    (by simp [documents]) (.single edge) (by simp [atL]) own rfl
    (by simp [documents, atL, atC, againC, lacksR, lacksA])
  rw [result] at kept
  simp at kept

end LayeredConfig
