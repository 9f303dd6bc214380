import LayeredConfig.Proofs.Value.Equality
import LayeredConfig.Proofs.Value.Overlay

namespace LayeredConfig

section FirstOccurrences

variable {α : Type} [BEq α] [LawfulBEq α]

/-- What is left of the first occurrences under a test are the first occurrences of what is
left. -/
theorem eraseDups_filter (p : α → Bool) : ∀ keys : List α, (keys.filter p).eraseDups = keys.eraseDups.filter p
  | [] => rfl
  | key :: rest => by
    have later := eraseDups_filter p (rest.filter fun k => !k == key)
    have swap : (rest.filter p).filter (fun k => !k == key) = (rest.filter fun k => !k == key).filter p := by
      rw [List.filter_filter, List.filter_filter]
      exact List.filter_congr fun k _ => Bool.and_comm _ _
    rw [List.eraseDups_cons, List.filter_cons, List.filter_cons]
    split
    · rw [List.eraseDups_cons, swap, later]
    · next fails =>
      have absent : ∀ k ∈ rest.filter p, (!k == key) = true := by
        intro k member
        rw [Bool.not_eq_true', beq_eq_false_iff_ne]
        rintro rfl
        exact fails (List.mem_filter.mp member).2
      rw [← later, ← swap, List.filter_eq_self.mpr absent]
termination_by keys => keys.length
decreasing_by
  -- behind a key its repetitions go first, and these are fewer keys
  exact Nat.lt_succ_of_le (List.length_filter_le _ rest)

theorem nodup_eraseDups (keys : List α) : keys.eraseDups.Nodup := by
  induction keys with
  | nil => exact List.nodup_nil
  | cons key rest ih =>
    rw [List.eraseDups_cons, eraseDups_filter]
    exact List.nodup_cons.mpr ⟨by simp, ih.sublist List.filter_sublist⟩

theorem eraseDups_of_nodup {keys : List α} (distinct : keys.Nodup) : keys.eraseDups = keys := by
  induction keys with
  | nil => rfl
  | cons key rest ih =>
    obtain ⟨fresh, distinct⟩ := List.nodup_cons.mp distinct
    have kept : rest.filter (fun k => !k == key) = rest := by
      refine List.filter_eq_self.mpr fun k member => ?_
      rw [Bool.not_eq_true', beq_eq_false_iff_ne]
      rintro rfl
      exact fresh member
    rw [List.eraseDups_cons, kept, ih distinct]

theorem eraseDups_append_eraseDups (front back : List α) :
    (front ++ back.eraseDups).eraseDups = (front ++ back).eraseDups := by
  rw [List.eraseDups_append, List.eraseDups_append, List.removeAll, List.removeAll, eraseDups_filter,
    eraseDups_filter, eraseDups_of_nodup (nodup_eraseDups back)]

theorem eraseDups_eraseDups_append (front back : List α) :
    (front.eraseDups ++ back).eraseDups = (front ++ back).eraseDups := by
  have known : (fun k => !front.eraseDups.elem k) = fun k => !front.elem k := by
    funext k
    simp
  rw [List.eraseDups_append, List.eraseDups_append, List.removeAll, List.removeAll, known,
    eraseDups_of_nodup (nodup_eraseDups front)]

/-- Keys that are known already do not count. -/
theorem eraseDups_append_of_subset {front back : List α} (known : back ⊆ front) :
    (front ++ back).eraseDups = front.eraseDups := by
  have none_ : back.removeAll front = [] := by
    rw [List.removeAll, List.filter_eq_nil_iff]
    exact fun k member => by simpa using known member
  rw [List.eraseDups_append, none_, List.eraseDups_nil, List.append_nil]

end FirstOccurrences

/-- Fields are known by the order of their keys and what they hold under each. -/
theorem eq_of_keysOf_of_lookup {as bs : Fields} (distinct : (keysOf as).Nodup) (keys : keysOf as = keysOf bs)
    (values : ∀ key, as.lookup key = bs.lookup key) : as = bs := by
  induction as generalizing bs with
  | nil => exact (List.map_eq_nil_iff.mp keys.symm).symm
  | cons field rest ih =>
    obtain ⟨key, v⟩ := field
    cases bs with
    | nil => cases keys
    | cons other more =>
      obtain ⟨name, w⟩ := other
      obtain ⟨rfl, later⟩ := List.cons_eq_cons.mp keys
      obtain ⟨fresh, distinct⟩ := List.nodup_cons.mp distinct
      have own := values key
      simp only [List.lookup_cons, BEq.rfl, Option.some.injEq] at own
      subst own
      refine congrArg _ (ih distinct later fun k => ?_)
      by_cases same : k = key
      · subst same
        have absent {fields : Fields} (new : k ∉ keysOf fields) : fields.lookup k = none := by
          rw [← Option.not_isSome_iff_eq_none, Option.isSome_iff_exists, ← mem_keysOf_iff]
          exact new
        have other : k ∉ keysOf more := by
          rwa [keysOf, ← later]
        rw [absent fresh, absent other]
      · have apart : (k == key) = false := by simpa using same
        simpa [List.lookup_cons, apart] using values k

theorem keysOf_layField (bases : Fields) (key : String) (top : Value) :
    keysOf (layField bases key top) = if key ∈ keysOf bases then keysOf bases else keysOf bases ++ [key] := by
  rw [layField_eq_put, keysOf_put]

/-- An overlay has the keys of both, the lower ones first, each where it occurs first. -/
theorem keysOf_overlayFields {bases : Fields} (distinct : (keysOf bases).Nodup) (tops : Fields) :
    keysOf (overlayFields bases tops) = (keysOf bases ++ keysOf tops).eraseDups := by
  induction tops generalizing bases with
  | nil =>
    have none_ : keysOf ([] : Fields) = [] := rfl
    rw [overlayFields, none_, List.append_nil, eraseDups_of_nodup distinct]
  | cons field rest ih =>
    obtain ⟨key, top⟩ := field
    have still : (keysOf (layField bases key top)).Nodup := by
      rw [layField_eq_put]
      exact nodup_keysOf_put distinct key _
    have keys : keysOf ((key, top) :: rest) = [key] ++ keysOf rest := rfl
    rw [overlayFields_cons, ih still, keysOf_layField, keys, ← List.append_assoc]
    split
    · next known =>
      have same : (keysOf bases ++ [key]).eraseDups = (keysOf bases).eraseDups :=
        eraseDups_append_of_subset (by simpa using known)
      rw [← eraseDups_eraseDups_append (keysOf bases ++ [key]), same, eraseDups_eraseDups_append]
    · rfl

theorem nodup_keysOf_overlayFields {bases : Fields} (distinct : (keysOf bases).Nodup) (tops : Fields) :
    (keysOf (overlayFields bases tops)).Nodup :=
  keysOf_overlayFields distinct tops ▸ nodup_eraseDups _

theorem keysOf_overlayFields_assoc {as bs : Fields} (lower : (keysOf as).Nodup) (middle : (keysOf bs).Nodup)
    (cs : Fields) :
    keysOf (overlayFields (overlayFields as bs) cs) = keysOf (overlayFields as (overlayFields bs cs)) := by
  rw [keysOf_overlayFields (nodup_keysOf_overlayFields lower bs), keysOf_overlayFields lower,
    keysOf_overlayFields lower, keysOf_overlayFields middle, eraseDups_eraseDups_append,
    eraseDups_append_eraseDups, List.append_assoc]

end LayeredConfig
