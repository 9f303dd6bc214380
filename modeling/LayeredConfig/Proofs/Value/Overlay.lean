import LayeredConfig.Proofs.Value.WellFormed
import LayeredConfig.Value.KeyPath
import LayeredConfig.Value.Overlay

namespace LayeredConfig

theorem lookup_append_singleton (entries : Fields) (key other : String) (value : Value) :
    (entries ++ [(key, value)]).lookup other =
      (entries.lookup other).or (if other = key then some value else none) := by
  rw [List.lookup_append]
  by_cases same : other = key
  · simp [same]
  · have apart : (other == key) = false := by simpa using same
    simp [List.lookup_cons, apart, same]

/-- Lays one field over others. -/
def layField (bases : Fields) (key : String) (top : Value) : Fields :=
  (bases.lookup key).elim (bases ++ [(key, top)]) fun base => put key (base.overlay top) bases

theorem overlayFields_cons (bases : Fields) (key : String) (top : Value) (rest : Fields) :
    overlayFields bases ((key, top) :: rest) = overlayFields (layField bases key top) rest := by
  rw [overlayFields, layField]
  cases bases.lookup key <;> rfl

theorem lookup_layField (bases : Fields) (key other : String) (top : Value) :
    (layField bases key top).lookup other =
      if other = key then some ((bases.lookup key).elim top (·.overlay top)) else bases.lookup other := by
  rw [layField]
  by_cases same : other = key
  · subst same
    cases found : bases.lookup other with
    | none => simp [lookup_append_singleton, found]
    | some base => simp
  · cases found : bases.lookup key with
    | none => simp [lookup_append_singleton, same]
    | some base => simp [lookup_put_of_ne same, same]

/-- Field by field, an overlay holds the upper value laid over the lower one. -/
theorem lookup_overlayFields {tops : Fields} (distinct : (keysOf tops).Nodup) (bases : Fields) (key : String) :
    (overlayFields bases tops).lookup key =
      (tops.lookup key).elim (bases.lookup key) fun top => some ((bases.lookup key).elim top (·.overlay top)) := by
  induction tops generalizing bases with
  | nil => simp [overlayFields]
  | cons field rest ih =>
    obtain ⟨name, top⟩ := field
    simp only [keysOf, List.map_cons, List.nodup_cons] at distinct
    rw [overlayFields_cons, ih distinct.2, lookup_layField]
    by_cases same : key = name
    · subst same
      have later : rest.lookup key = none := by
        rw [List.lookup_eq_none_iff]
        intro entry member
        rw [bne_iff_ne]
        rintro rfl
        exact distinct.1 (List.mem_map_of_mem member)
      simp [later]
    · have apart : (key == name) = false := by simpa using same
      simp [List.lookup_cons, apart, same]

theorem Value.overlay_of_leaf {top : Value} (leaf : top.fields? = none) (base : Value) :
    base.overlay top = top := by
  cases top with
  | object fields => simp [Value.fields?] at leaf
  | _ => simp [Value.overlay]

theorem Value.overlay_object (base : Value) (tops : Fields) :
    base.overlay (.object tops) = .object (base.fields?.elim tops (overlayFields · tops)) := by
  cases base <;> simp [Value.overlay, Value.fields?]

/-- Nothing is reached through a value that has no fields. -/
theorem Value.at?_of_leaf {v : Value} (leaf : v.fields? = none) {path : List String} (nonempty : path ≠ []) :
    v.at? path = none := by
  cases path with
  | nil => exact absurd rfl nonempty
  | cons key rest => cases v <;> simp_all [Value.at?, Value.fields?]

theorem Value.at?_object {fields : Fields} {path : List String} (nonempty : path ≠ []) :
    (Value.object fields).at? path = valueAt? fields path := by
  cases path with
  | nil => exact absurd rfl nonempty
  | cons key rest => simp [Value.at?, valueAt?]

theorem Value.at?_append (v : Value) (top rest : List String) :
    v.at? (top ++ rest) = (v.at? top).bind (·.at? rest) := by
  induction top generalizing v with
  | nil => simp [Value.at?]
  | cons key more ih =>
    cases v with
    | object fields =>
      simp only [List.cons_append, Value.at?]
      cases fields.lookup key with
      | none => rfl
      | some inner => simpa using ih inner
    | _ => simp [Value.at?]

theorem valueAt?_append {fields : Fields} {top : List String} (nonempty : top ≠ []) (rest : List String) :
    valueAt? fields (top ++ rest) = (valueAt? fields top).bind (·.at? rest) := by
  rw [← Value.at?_object nonempty, ← Value.at?_object (by simp [nonempty]), Value.at?_append]

theorem Value.WellFormed.keysOf_nodup {fields : Fields} (wellFormed : (Value.object fields).WellFormed) :
    (keysOf fields).Nodup := by
  rw [Value.WellFormed] at wellFormed
  exact wellFormed.1

theorem Value.WellFormedFields.lookup {fields : Fields} (wellFormed : Value.WellFormedFields fields) {key : String}
    {v : Value} (found : fields.lookup key = some v) : v.WellFormed := by
  induction fields with
  | nil => simp at found
  | cons field rest ih =>
    obtain ⟨name, first⟩ := field
    rw [Value.WellFormedFields] at wellFormed
    rw [List.lookup_cons] at found
    split at found
    · exact Option.some.inj found ▸ wellFormed.1
    · exact ih wellFormed.2 found

theorem Value.WellFormed.lookup {fields : Fields} (wellFormed : (Value.object fields).WellFormed) {key : String}
    {v : Value} (found : fields.lookup key = some v) : v.WellFormed := by
  rw [Value.WellFormed] at wellFormed
  exact wellFormed.2.lookup found

/-- At a path that the upper fields reach, the overlay holds their value laid
over what the lower fields hold there. -/
theorem valueAt?_overlayFields {tops : Fields} (wellFormed : (Value.object tops).WellFormed) {path : List String}
    {top : Value} (reached : valueAt? tops path = some top) (bases : Fields) :
    valueAt? (overlayFields bases tops) path = some ((valueAt? bases path).elim top (·.overlay top)) := by
  induction path generalizing tops bases with
  | nil => simp [valueAt?] at reached
  | cons key rest ih =>
    obtain ⟨next, found, further⟩ := Option.bind_eq_some_iff.mp reached
    have laid := lookup_overlayFields wellFormed.keysOf_nodup bases key
    rw [found] at laid
    simp only [valueAt?, laid, Option.elim_some, Option.bind_some]
    cases rest with
    | nil =>
      cases further
      cases bases.lookup key <;> simp [Value.at?]
    | cons second more =>
      obtain ⟨inner, rfl⟩ : ∃ inner, next = .object inner := by
        cases next <;> simp_all [Value.at?]
      rw [Value.at?_object (by simp)] at further
      cases lower : bases.lookup key with
      | none => simpa [Value.at?_object] using further
      | some base =>
        cases fields : base.fields? with
        | none =>
          simpa [Value.overlay_object, fields, Value.at?_object, Value.at?_of_leaf fields] using further
        | some lowerFields =>
          obtain rfl := Value.fields?_eq_some.mp fields
          simpa [Value.overlay_object, Value.fields?, Value.at?_object] using
            ih (wellFormed.lookup found) further lowerFields

/-- Where the upper fields are missing a key of the path, the overlay holds what
the lower fields hold. -/
theorem AbsentAt.valueAt?_overlayFields {tops : Fields} {path : List String} (absent : AbsentAt tops path)
    (wellFormed : (Value.object tops).WellFormed) (bases : Fields) :
    valueAt? (overlayFields bases tops) path = valueAt? bases path := by
  induction absent generalizing bases with
  | missing none_ =>
    have laid := lookup_overlayFields wellFormed.keysOf_nodup bases
    simp [valueAt?, laid, none_]
  | @deeper tops inner key rest found absent ih =>
    have nonempty : rest ≠ [] := by rintro rfl; cases absent
    have laid := lookup_overlayFields wellFormed.keysOf_nodup bases key
    rw [found] at laid
    simp only [valueAt?, laid, Option.elim_some, Option.bind_some]
    cases lower : bases.lookup key with
    | none => simp [Value.at?_object nonempty, absent.valueAt?_eq_none]
    | some base =>
      cases fields : base.fields? with
      | none =>
        simp [Value.overlay_object, fields, Value.at?_object nonempty, absent.valueAt?_eq_none,
          Value.at?_of_leaf fields nonempty]
      | some lowerFields =>
        obtain rfl := Value.fields?_eq_some.mp fields
        simpa [Value.overlay_object, Value.fields?, Value.at?_object nonempty] using
          ih (wellFormed.lookup found) lowerFields

theorem put_of_fresh {entries : Fields} {key : String} (fresh : entries.lookup key = none) (value : Value) :
    put key value entries = entries ++ [(key, value)] := by
  induction entries with
  | nil => rfl
  | cons entry rest ih =>
    obtain ⟨name, first⟩ := entry
    by_cases same : name = key
    · simp [same] at fresh
    · have apart : (key == name) = false := by simpa using fun h => same h.symm
      rw [List.lookup_cons, apart] at fresh
      simp [put, same, ih fresh]

theorem layField_eq_put (bases : Fields) (key : String) (top : Value) :
    layField bases key top = put key ((bases.lookup key).elim top (·.overlay top)) bases := by
  rw [layField]
  cases found : bases.lookup key with
  | none => exact (put_of_fresh found top).symm
  | some base => rfl

mutual

/-- An overlay repeats no key, since each upper field is bound to one key. -/
theorem Value.WellFormed.overlay : {top : Value} → top.WellFormed → ∀ {base : Value}, base.WellFormed →
    (base.overlay top).WellFormed
  | .object tops, upper, base, lower => by
    rw [Value.overlay_object]
    cases base with
    | object bases => exact (Value.wellFormed_object.mp upper).2.overlayFields lower
    | _ => exact upper
  | .null, upper, base, _ | .bool _, upper, base, _ | .number _, upper, base, _ | .string _, upper, base, _
  | .array _, upper, base, _ => by
    rw [Value.overlay_of_leaf rfl]
    exact upper

theorem Value.WellFormedFields.overlayFields : {tops : List (String × Value)} → Value.WellFormedFields tops →
    ∀ {bases : Fields}, (Value.object bases).WellFormed → (Value.object (overlayFields bases tops)).WellFormed
  | [], _, bases, lower => by
    rw [LayeredConfig.overlayFields]
    exact lower
  | (key, top) :: rest, upper, bases, lower => by
    obtain ⟨own, later⟩ := Value.wellFormedFields_cons.mp upper
    rw [overlayFields_cons, layField_eq_put]
    refine later.overlayFields (lower.put ?_ key)
    cases found : bases.lookup key with
    | none => exact own
    | some base => exact own.overlay (lower.lookup found)

end

end LayeredConfig
