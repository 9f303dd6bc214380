import LayeredConfig.Proofs.Value.Equality
import LayeredConfig.Proofs.Value.Overlay

namespace LayeredConfig

theorem lookup_of_alike {as bs : Fields} (alike : (Value.object as).alike (.object bs) = true)
    {key : String} {v : Value} (found : as.lookup key = some v) : ∃ w, bs.lookup key = some w ∧ v.alike w = true :=
  (Value.alike_object_iff.mp alike).2 _ (mem_of_lookup found)

/-- Equal values hold equal values at each path. -/
theorem Value.at?_of_alike {a b v : Value} (alike : a.alike b = true) {path : List String}
    (reached : a.at? path = some v) : ∃ w, b.at? path = some w ∧ v.alike w = true := by
  induction path generalizing a b with
  | nil =>
    cases reached
    exact ⟨b, rfl, alike⟩
  | cons key rest ih =>
    cases a with
    | object as =>
      cases b with
      | object bs =>
        obtain ⟨next, found, further⟩ := Option.bind_eq_some_iff.mp reached
        obtain ⟨other, known, same⟩ := lookup_of_alike alike found
        obtain ⟨w, last, ends⟩ := ih same further
        exact ⟨w, by rw [Value.at?, known, Option.bind_some, last], ends⟩
      | _ => simp [Value.alike] at alike
    | _ => cases reached

theorem valueAt?_of_alike {as bs : Fields} {v : Value} (alike : (Value.object as).alike (.object bs) = true)
    {path : List String} (reached : valueAt? as path = some v) :
    ∃ w, valueAt? bs path = some w ∧ v.alike w = true := by
  have nonempty : path ≠ [] := by
    rintro rfl
    cases reached
  rw [← Value.at?_object nonempty] at reached ⊢
  exact Value.at?_of_alike alike reached

theorem Value.WellFormed.at? {v u : Value} (wellFormed : v.WellFormed) {path : List String}
    (reached : v.at? path = some u) : u.WellFormed := by
  induction path generalizing v with
  | nil =>
    cases reached
    exact wellFormed
  | cons key rest ih =>
    cases v with
    | object fields =>
      obtain ⟨next, found, further⟩ := Option.bind_eq_some_iff.mp reached
      exact ih (wellFormed.lookup found) further
    | _ => cases reached

theorem Value.WellFormed.valueAt? {fields : Fields} {v : Value} (wellFormed : (Value.object fields).WellFormed)
    {path : List String} (reached : valueAt? fields path = some v) : v.WellFormed := by
  have nonempty : path ≠ [] := by
    rintro rfl
    cases reached
  rw [← Value.at?_object nonempty] at reached
  exact wellFormed.at? reached

theorem Value.WellFormed.fieldsOrNone {fields : Fields} (wellFormed : (Value.object fields).WellFormed)
    (key : String) :
    (Value.object (fieldsOrNone (fields.lookup key))).WellFormed := by
  cases found : fields.lookup key with
  | none => exact Value.wellFormed_nil
  | some v =>
    have own := wellFormed.lookup found
    cases v with
    | object inner => exact own
    | _ => exact Value.wellFormed_nil

theorem Value.WellFormed.setAt {fields : Fields} (wellFormed : (Value.object fields).WellFormed) {v : Value}
    (value : v.WellFormed) (path : List String) : (Value.object (setAt fields path v)).WellFormed := by
  induction path generalizing fields with
  | nil => exact wellFormed
  | cons key rest ih =>
    cases rest with
    | nil => exact wellFormed.put value key
    | cons next more => exact wellFormed.put (ih (wellFormed.fieldsOrNone key)) key

theorem lookup_setAt_of_ne {key other : String} (apart : other ≠ key) (fields : Fields) (rest : List String)
    (value : Value) : (setAt fields (key :: rest) value).lookup other = fields.lookup other := by
  cases rest with
  | nil => exact lookup_put_of_ne apart value fields
  | cons next more => exact lookup_put_of_ne apart _ fields

theorem valueAt?_fieldsOrNone {rest : List String} (nonempty : rest ≠ []) (stored : Option Value) :
    valueAt? (fieldsOrNone stored) rest = stored.bind (·.at? rest) := by
  have none_ : valueAt? [] rest = none := by cases rest <;> simp [valueAt?]
  rcases stored with - | v
  · exact none_
  · cases v with
    | object inner => simp [fieldsOrNone, Value.at?_object nonempty]
    | _ => exact none_.trans (Value.at?_of_leaf (by rfl) nonempty).symm

/-- A path that neither leads to the one that is set nor goes on from it keeps what it
has. -/
theorem valueAt?_setAt_of_apart {path other : List String} (before : ¬other <+: path) (behind : ¬path <+: other)
    (fields : Fields) (value : Value) : valueAt? (setAt fields path value) other = valueAt? fields other := by
  induction path generalizing fields other with
  | nil => exact absurd List.nil_prefix behind
  | cons key rest ih =>
    cases other with
    | nil => exact absurd List.nil_prefix before
    | cons name more =>
      by_cases same : name = key
      · subst same
        -- with one key in common neither path may end here
        have apart : ¬more <+: rest := fun leads => before (List.cons_prefix_cons.mpr ⟨rfl, leads⟩)
        have below : ¬rest <+: more := fun leads => behind (List.cons_prefix_cons.mpr ⟨rfl, leads⟩)
        have nonempty : more ≠ [] := by
          rintro rfl
          exact apart List.nil_prefix
        cases rest with
        | nil => exact absurd List.nil_prefix below
        | cons next last =>
          have inner := ih apart below (fieldsOrNone (fields.lookup name))
          rw [valueAt?_fieldsOrNone nonempty] at inner
          simpa [setAt, valueAt?, Value.at?_object nonempty] using inner
      · simp only [valueAt?, lookup_setAt_of_ne same]

theorem keysOf_setAt (fields : Fields) (key : String) (rest : List String) (value : Value) :
    keysOf (setAt fields (key :: rest) value) =
      if key ∈ keysOf fields then keysOf fields else keysOf fields ++ [key] := by
  cases rest <;> exact keysOf_put key _ fields

theorem keysOf_prefix_setAt (fields : Fields) (path : List String) (value : Value) :
    keysOf fields <+: keysOf (setAt fields path value) := by
  cases path with
  | nil => exact List.prefix_refl _
  | cons key rest =>
    rw [keysOf_setAt]
    split
    · exact List.prefix_refl _
    · exact List.prefix_append _ _

theorem keysOf_subset_setAt (fields : Fields) (path : List String) (value : Value) :
    keysOf fields ⊆ keysOf (setAt fields path value) :=
  (keysOf_prefix_setAt fields path value).subset

/-- Setting a value that is there already changes nothing. -/
theorem setAt_of_valueAt? {fields : Fields} {path : List String} {value : Value}
    (stands : valueAt? fields path = some value) : setAt fields path value = fields := by
  induction path generalizing fields with
  | nil => cases stands
  | cons key rest ih =>
    obtain ⟨v, found, below⟩ := Option.bind_eq_some_iff.mp stands
    cases rest with
    | nil =>
      cases below
      exact put_of_lookup found
    | cons next more =>
      cases v with
      | object inner =>
        have kept : setAt inner (next :: more) value = inner := ih (by rwa [Value.at?_object (by simp)] at below)
        simp only [setAt, found, fieldsOrNone, kept]
        exact put_of_lookup found
      | _ => cases below

/-- A mapping that what is set does not replace keeps its keys in their order, and new ones
follow. -/
theorem at?_setAt_of_object {path other : List String} (outside : ¬path <+: other) {fields inner : Fields}
    (reached : (Value.object fields).at? other = some (.object inner)) (value : Value) :
    ∃ after, (Value.object (setAt fields path value)).at? other = some (.object after) ∧
      keysOf inner <+: keysOf after := by
  induction path generalizing fields other with
  | nil => exact absurd List.nil_prefix outside
  | cons key rest ih =>
    cases other with
    | nil =>
      cases reached
      exact ⟨_, rfl, keysOf_prefix_setAt inner (key :: rest) value⟩
    | cons name more =>
      by_cases same : name = key
      · subst same
        have below : ¬rest <+: more := fun leads => outside (List.cons_prefix_cons.mpr ⟨rfl, leads⟩)
        obtain ⟨v, found, further⟩ := Option.bind_eq_some_iff.mp reached
        cases rest with
        | nil => exact absurd List.nil_prefix below
        | cons next last =>
          obtain ⟨own, rfl⟩ : ∃ own, v = .object own := by
            cases more with
            | nil => exact ⟨inner, Option.some.inj further⟩
            | cons => cases v <;> simp_all [Value.at?]
          obtain ⟨after, stands, keys⟩ := ih below further
          exact ⟨after, by simpa [setAt, Value.at?, found, fieldsOrNone] using stands, keys⟩
      · refine ⟨inner, ?_, List.prefix_refl _⟩
        rw [Value.at?] at reached ⊢
        rwa [lookup_setAt_of_ne same]

end LayeredConfig
