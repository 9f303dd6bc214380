import LayeredConfig.Proofs.Value.Algebra
import LayeredConfig.Proofs.Value.KeyPath

namespace LayeredConfig

section Entries

variable {κ α : Type} [DecidableEq κ]

/-- A key that is bound twice holds what it was bound to last. -/
theorem put_put (key : κ) (first last : α) (entries : List (κ × α)) :
    put key last (put key first entries) = put key last entries := by
  induction entries with
  | nil => simp [put]
  | cons entry rest ih =>
    obtain ⟨name, old⟩ := entry
    by_cases same : name = key <;> simp [put, same, ih]

/-- The order in which two keys are bound decides the order of the keys and nothing else. -/
theorem keysOf_put_put_perm {key other : κ} (apart : other ≠ key) (v w : α) (entries : List (κ × α)) :
    (keysOf (put other w (put key v entries))).Perm (keysOf (put key v (put other w entries))) := by
  simp only [keysOf_put]
  by_cases first : key ∈ keysOf entries <;> by_cases second : other ∈ keysOf entries
  · simp [first, second]
  · simp [first, second]
  · simp [first, second]
  · -- Both keys are new, and they follow in the one order or in the other.
    have swap := (List.Perm.swap other key []).append_left (keysOf entries)
    simpa [first, second, apart, apart.symm] using swap

end Entries

namespace Value

theorem reordered_put_put {key other : String} (apart : other ≠ key) (v w : Value) (fields : Fields) :
    (object (put other w (put key v fields))).Reordered (object (put key v (put other w fields))) := by
  refine .object (keysOf_put_put_perm apart v w fields) fun name a b left right => ?_
  have same : (put other w (put key v fields)).lookup name = (put key v (put other w fields)).lookup name := by
    by_cases first : name = key
    · rw [first, lookup_put_of_ne apart.symm, lookup_put_self, lookup_put_self]
    · rw [lookup_put_of_ne first]
      by_cases second : name = other
      · rw [second, lookup_put_self, lookup_put_self]
      · rw [lookup_put_of_ne second, lookup_put_of_ne second, lookup_put_of_ne first]
  rw [left, right, Option.some.injEq] at same
  exact same ▸ .refl a

/-- Values that are the same up to the order of fields stay so under a key. -/
theorem reordered_put {v w : Value} (same : v.Reordered w) (key : String) (fields : Fields) :
    (object (put key v fields)).Reordered (object (put key w fields)) := by
  refine .object (by rw [keysOf_put, keysOf_put]) fun name a b left right => ?_
  by_cases own : name = key
  · rw [own, lookup_put_self, Option.some.injEq] at left right
    exact left ▸ right ▸ same
  · rw [lookup_put_of_ne own] at left right
    rw [left, Option.some.injEq] at right
    exact right ▸ .refl a

end Value

/-- Setting a value binds the first key of its path, to a value that depends on what the key
has held only. -/
theorem exists_setAt_eq_put (key : String) (rest : List String) (value : Value) :
    ∃ below : Option Value → Value, ∀ fields,
      setAt fields (key :: rest) value = put key (below (fields.lookup key)) fields := by
  cases rest with
  | nil => exact ⟨fun _ => value, fun _ => rfl⟩
  | cons next more => exact ⟨fun stored => .object (setAt (fieldsOrNone stored) (next :: more) value),
      fun _ => rfl⟩

/-- What is set last at a path is all that counts. -/
theorem setAt_setAt_self (fields : Fields) (path : List String) (v w : Value) :
    setAt (setAt fields path v) path w = setAt fields path w := by
  induction path generalizing fields with
  | nil => rfl
  | cons key rest ih =>
    cases rest with
    | nil => exact put_put key v w fields
    | cons next more => simp only [setAt, lookup_put_self, fieldsOrNone, ih, put_put]

/-- Values at paths that part somewhere may be set in either order. -/
theorem setAt_setAt_reordered {path other : List String} (before : ¬other <+: path) (behind : ¬path <+: other)
    (fields : Fields) (v w : Value) :
    (Value.object (setAt (setAt fields path v) other w)).Reordered
      (.object (setAt (setAt fields other w) path v)) := by
  induction path generalizing fields other with
  | nil => exact absurd List.nil_prefix behind
  | cons key rest ih =>
    cases other with
    | nil => exact absurd List.nil_prefix before
    | cons name more =>
      by_cases same : name = key
      · subst same
        have apart : ¬more <+: rest := fun leads => before (List.cons_prefix_cons.mpr ⟨rfl, leads⟩)
        have below : ¬rest <+: more := fun leads => behind (List.cons_prefix_cons.mpr ⟨rfl, leads⟩)
        cases rest with
        | nil => exact absurd List.nil_prefix below
        | cons next last =>
          cases more with
          | nil => exact absurd List.nil_prefix apart
          | cons second final =>
            -- Both paths set the one key, where they part further down.
            simp only [setAt, lookup_put_self, fieldsOrNone, put_put]
            exact Value.reordered_put (ih apart below (fieldsOrNone (fields.lookup name))) name fields
      · obtain ⟨own, sets⟩ := exists_setAt_eq_put key rest v
        obtain ⟨others, setsOther⟩ := exists_setAt_eq_put name more w
        rw [sets fields, setsOther, lookup_put_of_ne same, setsOther fields, sets, lookup_put_of_ne (Ne.symm same)]
        exact Value.reordered_put_put same _ _ fields

/-- A path is a lens. What is set is there; what is set last counts; setting what is there
changes nothing, not even the order of keys. A value at a path that parts from it somewhere
stays as it is, and setting both in the other order yields the same but for the order of keys. -/
theorem setAt_lens {path : List String} (nonempty : path ≠ []) (fields : Fields) (v : Value) :
    valueAt? (setAt fields path v) path = some v ∧
      (∀ w, setAt (setAt fields path v) path w = setAt fields path w) ∧
      (valueAt? fields path = some v → setAt fields path v = fields) ∧
      ∀ other, ¬path <+: other → ¬other <+: path →
        valueAt? (setAt fields path v) other = valueAt? fields other ∧
          ∀ w, (Value.object (setAt (setAt fields path v) other w)).Reordered
            (.object (setAt (setAt fields other w) path v)) :=
  ⟨valueAt?_setAt_self nonempty fields v, setAt_setAt_self fields path v, setAt_of_valueAt?,
    fun _ behind before => ⟨valueAt?_setAt_of_apart before behind fields v,
      setAt_setAt_reordered before behind fields v⟩⟩

/-- Two paths that part behind a text, which gives place to a mapping with the key that is set
first in front. -/
theorem setAt_lens_through_text :
    let fields : Fields := [("#A", .string "x"), ("#B", .null)]
    let set (path : List String) (fields : Fields) : Fields := setAt fields path (.bool true)
    valueAt? (set ["#A", "p"] fields) ["#A", "p"] = some (.bool true) ∧
      valueAt? (set ["#A", "p"] fields) ["#A", "q", "r"] = none ∧
      (Value.object (set ["#A", "q", "r"] (set ["#A", "p"] fields))).Reordered
        (.object (set ["#A", "p"] (set ["#A", "q", "r"] fields))) ∧
      set ["#A", "q", "r"] (set ["#A", "p"] fields) ≠ set ["#A", "p"] (set ["#A", "q", "r"] fields) := by
  intro fields set
  obtain ⟨there, -, -, apart⟩ := @setAt_lens ["#A", "p"] (by decide) fields (.bool true)
  obtain ⟨stays, swap⟩ := apart ["#A", "q", "r"] (by decide) (by decide)
  exact ⟨there, stays, swap (.bool true), by decide⟩

end LayeredConfig
