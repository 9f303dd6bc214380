import LayeredConfig.Value.Basic

namespace LayeredConfig

section Entries

variable {κ α : Type} [DecidableEq κ]

theorem without_cons (key name : κ) (value : α) (rest : List (κ × α)) :
    without key ((name, value) :: rest) =
      if name = key then without key rest else (name, value) :: without key rest := by
  by_cases same : name = key <;> simp [without, same]

@[simp] theorem without_without_self (key : κ) (entries : List (κ × α)) :
    without key (without key entries) = without key entries := by
  simp [without]

theorem without_put_self (key : κ) (value : α) (entries : List (κ × α)) :
    without key (put key value entries) = without key entries := by
  induction entries with
  | nil => simp [put, without]
  | cons entry rest ih =>
    obtain ⟨name, first⟩ := entry
    by_cases same : name = key <;> simp [put, without_cons, same, ih]

theorem lookup_without_of_ne [BEq κ] [LawfulBEq κ] {key other : κ} (apart : other ≠ key) (entries : List (κ × α)) :
    (without key entries).lookup other = entries.lookup other := by
  induction entries with
  | nil => rfl
  | cons entry rest ih =>
    obtain ⟨name, first⟩ := entry
    rw [without_cons]
    by_cases same : name = key
    · subst same
      have no : (other == name) = false := by simpa using apart
      simp [ih, List.lookup_cons, no]
    · simp [same, List.lookup_cons, ih]

/-- Binding a key to what it is bound to changes nothing. -/
theorem put_of_lookup [BEq κ] [LawfulBEq κ] {key : κ} {value : α} {entries : List (κ × α)}
    (found : entries.lookup key = some value) : put key value entries = entries := by
  induction entries with
  | nil => cases found
  | cons entry rest ih =>
    obtain ⟨name, first⟩ := entry
    by_cases same : name = key
    · subst same
      obtain rfl : first = value := by simpa using found
      rw [put, if_pos rfl]
    · have apart : (key == name) = false := by simpa using fun h => same h.symm
      rw [put, if_neg same, ih (by simpa [List.lookup_cons, apart] using found)]

theorem mem_of_mem_put {entries : List (κ × α)} {key : κ} {value : α} {entry : κ × α}
    (member : entry ∈ put key value entries) : entry = (key, value) ∨ entry ∈ entries := by
  induction entries with
  | nil => exact Or.inl (List.mem_singleton.mp member)
  | cons first rest ih =>
    obtain ⟨name, old⟩ := first
    by_cases same : name = key
    · subst same
      rw [put, if_pos rfl] at member
      exact (List.mem_cons.mp member).imp id (List.mem_cons_of_mem _)
    · rw [put, if_neg same] at member
      rcases List.mem_cons.mp member with rfl | later
      · exact Or.inr List.mem_cons_self
      · exact (ih later).imp id (List.mem_cons_of_mem _)

theorem nodup_keysOf_put {entries : List (κ × α)} (distinct : (keysOf entries).Nodup) (key : κ) (value : α) :
    (keysOf (put key value entries)).Nodup := by
  rw [keysOf_put]
  split
  · exact distinct
  · next fresh =>
    refine List.nodup_append.mpr ⟨distinct, by simp, fun k known other new => ?_⟩
    rw [List.mem_singleton] at new
    rintro rfl
    exact fresh (new ▸ known)

theorem nodup_keysOf_without {entries : List (κ × α)} (distinct : (keysOf entries).Nodup) (key : κ) :
    (keysOf (without key entries)).Nodup :=
  distinct.sublist (List.filter_sublist.map Prod.fst)

end Entries

namespace Value

theorem fields?_eq_some {v : Value} {fields : Fields} : v.fields? = some fields ↔ v = .object fields := by
  cases v <;> simp [fields?]

theorem wellFormed_object {fields : Fields} :
    (object fields).WellFormed ↔ (keysOf fields).Nodup ∧ WellFormedFields fields :=
  Iff.rfl

theorem wellFormed_nil : (object []).WellFormed :=
  ⟨List.nodup_nil, trivial⟩

theorem wellFormedFields_cons {key : String} {v : Value} {rest : Fields} :
    WellFormedFields ((key, v) :: rest) ↔ v.WellFormed ∧ WellFormedFields rest :=
  Iff.rfl

theorem WellFormedFields.put {fields : Fields} (wellFormed : WellFormedFields fields) {v : Value}
    (value : v.WellFormed) (key : String) : WellFormedFields (put key v fields) := by
  induction fields with
  | nil => exact wellFormedFields_cons.mpr ⟨value, wellFormed⟩
  | cons field rest ih =>
    obtain ⟨name, first⟩ := field
    obtain ⟨own, later⟩ := wellFormedFields_cons.mp wellFormed
    rw [LayeredConfig.put]
    split
    · exact wellFormedFields_cons.mpr ⟨value, later⟩
    · exact wellFormedFields_cons.mpr ⟨own, ih later⟩

theorem WellFormedFields.without {fields : Fields} (wellFormed : WellFormedFields fields) (key : String) :
    WellFormedFields (without key fields) := by
  induction fields with
  | nil => exact wellFormed
  | cons field rest ih =>
    obtain ⟨name, first⟩ := field
    obtain ⟨own, later⟩ := wellFormedFields_cons.mp wellFormed
    rw [without_cons]
    split
    · exact ih later
    · exact wellFormedFields_cons.mpr ⟨own, ih later⟩

theorem WellFormed.put {fields : Fields} (wellFormed : (object fields).WellFormed) {v : Value}
    (value : v.WellFormed) (key : String) : (object (put key v fields)).WellFormed := by
  obtain ⟨distinct, values⟩ := wellFormed_object.mp wellFormed
  exact wellFormed_object.mpr ⟨nodup_keysOf_put distinct key v, values.put value key⟩

theorem WellFormed.without {fields : Fields} (wellFormed : (object fields).WellFormed) (key : String) :
    (object (without key fields)).WellFormed := by
  obtain ⟨distinct, values⟩ := wellFormed_object.mp wellFormed
  exact wellFormed_object.mpr ⟨nodup_keysOf_without distinct key, values.without key⟩

end Value

end LayeredConfig
