import LayeredConfig.Proofs.Value.KeyOrder

namespace LayeredConfig

namespace Value

/-- What holds of every value that is no object, and of each object whose fields it holds
of, holds of all values. -/
@[elab_as_elim]
theorem fieldInduction {P : Value → Prop} (leaf : ∀ v : Value, v.fields? = none → P v)
    (object : ∀ fields : Fields, (∀ key v, fields.lookup key = some v → P v) → P (.object fields)) : ∀ v, P v
  | .object fields => object fields fun key v _ => fieldInduction leaf object v
  | .null => leaf _ rfl
  | .bool _ => leaf _ rfl
  | .number _ => leaf _ rfl
  | .string _ => leaf _ rfl
  | .array _ => leaf _ rfl
termination_by v => sizeOf v
decreasing_by
  next found =>
  have smaller := List.sizeOf_lt_of_mem (mem_of_lookup found)
  simp only [Prod.mk.sizeOf_spec] at smaller
  simp only [Value.object.sizeOf_spec]
  omega

theorem overlay_of_base_leaf {base : Value} (leaf : base.fields? = none) (top : Value) :
    base.overlay top = top := by
  cases inner : top.fields? with
  | none => exact overlay_of_leaf inner base
  | some tops =>
    obtain rfl := fields?_eq_some.mp inner
    rw [overlay_object, leaf, Option.elim_none]

theorem overlay_objects (bases tops : Fields) :
    (object bases).overlay (object tops) = object (overlayFields bases tops) :=
  overlay_object _ _

/-- A value laid over itself is itself, the order of its fields included. -/
theorem overlay_self {v : Value} (wellFormed : v.WellFormed) : v.overlay v = v := by
  induction v using fieldInduction with
  | leaf v inner => exact overlay_of_leaf inner v
  | object fields ih =>
    have distinct := wellFormed.keysOf_nodup
    have keys : keysOf (overlayFields fields fields) = keysOf fields := by
      rw [keysOf_overlayFields distinct, eraseDups_append_of_subset (List.Subset.refl _),
        eraseDups_of_nodup distinct]
    rw [overlay_objects]
    refine congrArg object (eq_of_keysOf_of_lookup (keys ▸ distinct) keys fun key => ?_)
    rw [lookup_overlayFields distinct]
    cases found : fields.lookup key with
    | none => rfl
    | some v => simp [ih key v found (wellFormed.lookup found)]

/-- A path at which two values hold objects and the one between them holds something else. -/
def CutAt (a b c : Value) (path : List String) : Prop :=
  (∃ as, a.at? path = some (.object as)) ∧ (∃ v, b.at? path = some v ∧ v.fields? = none) ∧
    ∃ cs, c.at? path = some (.object cs)

theorem CutAt.deeper {as bs cs : Fields} {a b c : Value} {key : String} {path : List String}
    (atA : as.lookup key = some a) (atB : bs.lookup key = some b) (atC : cs.lookup key = some c)
    (cut : CutAt a b c path) : CutAt (.object as) (.object bs) (.object cs) (key :: path) := by
  simpa [CutAt, at?, atA, atB, atC] using cut

/-- Three layers combine the same from below and from above, unless the middle one cuts
objects of the others from each other. -/
theorem overlay_assoc {a b c : Value} (lower : a.WellFormed) (middle : b.WellFormed) (upper : c.WellFormed)
    (whole : ∀ path, ¬CutAt a b c path) : (a.overlay b).overlay c = a.overlay (b.overlay c) := by
  induction a using fieldInduction generalizing b c with
  | leaf a inner => rw [overlay_of_base_leaf inner, overlay_of_base_leaf inner]
  | object as ih =>
    cases top : c.fields? with
    | none => rw [overlay_of_leaf top, overlay_of_leaf top, overlay_of_leaf top]
    | some cs =>
      obtain rfl := fields?_eq_some.mp top
      cases inner : b.fields? with
      | none => exact absurd ⟨⟨as, rfl⟩, ⟨b, rfl, inner⟩, cs, rfl⟩ (whole [])
      | some bs =>
        obtain rfl := fields?_eq_some.mp inner
        have both := nodup_keysOf_overlayFields middle.keysOf_nodup cs
        have all := nodup_keysOf_overlayFields (nodup_keysOf_overlayFields lower.keysOf_nodup bs) cs
        have keys := keysOf_overlayFields_assoc lower.keysOf_nodup middle.keysOf_nodup cs
        rw [overlay_objects, overlay_objects, overlay_objects, overlay_objects]
        refine congrArg object (eq_of_keysOf_of_lookup all keys fun key => ?_)
        rw [lookup_overlayFields upper.keysOf_nodup, lookup_overlayFields middle.keysOf_nodup,
          lookup_overlayFields both, lookup_overlayFields upper.keysOf_nodup]
        cases atA : as.lookup key with
        | none => cases bs.lookup key <;> cases cs.lookup key <;> simp
        | some a =>
          cases atB : bs.lookup key with
          | none => cases cs.lookup key <;> simp
          | some b =>
            cases atC : cs.lookup key with
            | none => simp
            | some c =>
              have below : ∀ path, ¬CutAt a b c path := fun path cut =>
                whole (key :: path) (.deeper atA atB atC cut)
              simp [ih key a atA (lower.lookup atA) (middle.lookup atB) (upper.lookup atC) below]

/-- Equal but for the order of the fields of objects. -/
inductive Reordered : Value → Value → Prop
  | refl (v : Value) : Reordered v v
  | array {as bs : List Value} : as.length = bs.length →
      (∀ (i : Nat) (a b : Value), as[i]? = some a → bs[i]? = some b → Reordered a b) →
      Reordered (.array as) (.array bs)
  | object {as bs : Fields} : (keysOf as).Perm (keysOf bs) →
      (∀ key a b, as.lookup key = some a → bs.lookup key = some b → Reordered a b) →
      Reordered (.object as) (.object bs)

theorem Reordered.isSome_fields? {a b : Value} (same : a.Reordered b) : b.fields?.isSome = a.fields?.isSome := by
  cases same <;> rfl

theorem overlayFields_perm {as bs : Fields} (left : (keysOf as).Nodup) (right : (keysOf bs).Nodup) :
    (keysOf (overlayFields bs as)).Perm (keysOf (overlayFields as bs)) := by
  rw [keysOf_overlayFields left, keysOf_overlayFields right, List.perm_ext_iff_of_nodup (nodup_eraseDups _)
    (nodup_eraseDups _)]
  intro key
  simp [or_comm]

/-- Where two values hold objects or the same at each path that both reach, it does not
matter which one lies over the other; the same is whatever is kept when objects have the same
keys and hold the same under each. -/
theorem overlay_comm_of {Same : Value → Value → Prop} (refl : ∀ v : Value, v.WellFormed → Same v v)
    (kinds : ∀ v w : Value, Same v w → w.fields?.isSome = v.fields?.isSome)
    (objects : ∀ as bs : Fields, (object as).WellFormed → (keysOf as).Perm (keysOf bs) →
      (∀ key a b, as.lookup key = some a → bs.lookup key = some b → Same a b) → Same (object as) (object bs))
    {a b : Value} (lower : a.WellFormed) (upper : b.WellFormed)
    (agree : ∀ path v w, a.at? path = some v → b.at? path = some w →
      v.fields?.isSome = true ∧ w.fields?.isSome = true ∨ Same v w) :
    Same (b.overlay a) (a.overlay b) := by
  induction a using fieldInduction generalizing b with
  | leaf a inner =>
    have same : Same a b := (agree [] a b rfl rfl).resolve_left fun both => by simp [inner] at both
    have other : b.fields? = none := by simpa [inner] using kinds a b same
    rwa [overlay_of_leaf inner, overlay_of_leaf other]
  | object as ih =>
    have inner : b.fields?.isSome = true := (agree [] _ b rfl rfl).elim And.right fun same => kinds _ b same
    obtain ⟨bs, known⟩ := Option.isSome_iff_exists.mp inner
    obtain rfl := fields?_eq_some.mp known
    have swapped : (object (overlayFields bs as)).WellFormed := lower.overlay upper
    rw [overlay_objects, overlay_objects]
    refine objects _ _ swapped (overlayFields_perm lower.keysOf_nodup upper.keysOf_nodup) fun key v w atV atW => ?_
    rw [lookup_overlayFields lower.keysOf_nodup] at atV
    rw [lookup_overlayFields upper.keysOf_nodup] at atW
    cases atA : as.lookup key with
    | none =>
      cases atB : bs.lookup key with
      | none => simp [atA, atB] at atV
      | some b =>
        obtain rfl : b = v := by simpa [atA, atB] using atV
        obtain rfl : b = w := by simpa [atA, atB] using atW
        exact refl b (upper.lookup atB)
    | some a =>
      cases atB : bs.lookup key with
      | none =>
        obtain rfl : a = v := by simpa [atA, atB] using atV
        obtain rfl : a = w := by simpa [atA, atB] using atW
        exact refl a (lower.lookup atA)
      | some b =>
        obtain rfl : b.overlay a = v := by simpa [atA, atB] using atV
        obtain rfl : a.overlay b = w := by simpa [atA, atB] using atW
        refine ih key a atA (lower.lookup atA) (upper.lookup atB) fun path v w reachedA reachedB => ?_
        exact agree (key :: path) v w (by simpa [at?, atA] using reachedA) (by simpa [at?, atB] using reachedB)

theorem alike_object_of_perm {as bs : Fields} (distinct : (keysOf as).Nodup) (keys : (keysOf as).Perm (keysOf bs))
    (values : ∀ key a b, as.lookup key = some a → bs.lookup key = some b → a.alike b = true) :
    (object as).alike (object bs) = true := by
  have length : as.length = bs.length := by simpa [keysOf] using keys.length_eq
  refine alike_object_iff.mpr ⟨length, fun field member => ?_⟩
  have found : as.lookup field.1 = some field.2 := lookup_of_mem distinct member
  obtain ⟨b, known⟩ := mem_keysOf_iff.mp (keys.subset (mem_keysOf_iff.mpr ⟨_, found⟩))
  exact ⟨b, known, values field.1 field.2 b found known⟩

end Value

/-- The algebra of overlays, the order of fields included. A value laid over itself changes
nothing, nor does laying the upper value once more over what it was laid over. Three layers
combine the same from below and from above, unless somewhere the outer two hold objects and
the middle one holds something else. Where two values hold objects or the same at each path
that both reach, their overlays are the same, up to the order of fields; so too when numbers
count by their values. -/
theorem overlay_algebra {a b c : Value} (lower : a.WellFormed) (middle : b.WellFormed) (upper : c.WellFormed) :
    a.overlay a = a ∧ (a.overlay b).overlay b = a.overlay b ∧
      ((∀ path, ¬Value.CutAt a b c path) → (a.overlay b).overlay c = a.overlay (b.overlay c)) ∧
      ((∀ path v w, a.at? path = some v → b.at? path = some w →
          v.fields?.isSome = true ∧ w.fields?.isSome = true ∨ v.Reordered w) →
        (b.overlay a).Reordered (a.overlay b)) ∧
      ((∀ path v w, a.at? path = some v → b.at? path = some w →
          v.fields?.isSome = true ∧ w.fields?.isSome = true ∨ v.alike w = true) →
        (b.overlay a).alike (a.overlay b) = true) := by
  have whole : ∀ path, ¬Value.CutAt a b b path := by
    rintro path ⟨_, ⟨v, reached, leaf⟩, bs, again⟩
    rw [reached, Option.some.injEq] at again
    rw [again] at leaf
    cases leaf
  have twice : (a.overlay b).overlay b = a.overlay b := by
    rw [Value.overlay_assoc lower middle middle whole, Value.overlay_self middle]
  refine ⟨Value.overlay_self lower, twice, Value.overlay_assoc lower middle upper, fun agree => ?_,
    fun agree => ?_⟩
  · exact Value.overlay_comm_of (fun v _ => .refl v) (fun _ _ => Value.Reordered.isSome_fields?)
      (fun _ _ _ => .object) lower middle agree
  · exact Value.overlay_comm_of Value.alike_refl (fun _ _ => Value.isSome_fields?_of_alike)
      (fun _ _ wellFormed => Value.alike_object_of_perm wellFormed.keysOf_nodup) lower middle agree

/-- Three layers that share mappings and agree on a leaf; what the order of two of them
decides is the order of the fields. -/
theorem overlay_algebra_nested :
    let a : Value := .object [("x", .object [("p", .number (.int 1))]), ("y", .null)]
    let b : Value := .object [("y", .null), ("x", .object [("q", .number (.int 2))])]
    let c : Value := .object [("x", .object [("p", .number (.int 3))]), ("y", .bool true)]
    (a.overlay b).overlay c = a.overlay (b.overlay c) ∧ (b.overlay a).Reordered (a.overlay b) ∧
      b.overlay a ≠ a.overlay b := by
  intro a b c
  have wellFormedA : a.WellFormed := by simp [a, Value.WellFormed, Value.WellFormedFields, keysOf]
  have wellFormedB : b.WellFormed := by simp [b, Value.WellFormed, Value.WellFormedFields, keysOf]
  have wellFormedC : c.WellFormed := by simp [c, Value.WellFormed, Value.WellFormedFields, keysOf]
  have mappings : ∀ path fields, a.at? path = some (.object fields) → path = [] ∨ path = ["x"] := by
    rintro (_ | ⟨k, _ | ⟨l, rest⟩⟩) fields reached
    · exact .inl rfl
    · simp only [a, Value.at?, List.lookup_cons, List.lookup_nil] at reached
      grind
    · simp only [a, Value.at?, List.lookup_cons, List.lookup_nil] at reached
      cases rest <;> grind [Value.at?]
  have agree : ∀ path v w, a.at? path = some v → b.at? path = some w →
      v.fields?.isSome = true ∧ w.fields?.isSome = true ∨ v.Reordered w := by
    rintro (_ | ⟨k, _ | ⟨l, rest⟩⟩) v w atA atB
    · cases atA
      cases atB
      exact .inl ⟨rfl, rfl⟩
    all_goals
      simp only [a, b, Value.at?, List.lookup_cons, List.lookup_nil] at atA atB
      grind [Value.at?, Value.fields?, Value.Reordered.refl]
  have whole : ∀ path, ¬Value.CutAt a b c path := by
    rintro path ⟨⟨fields, reached⟩, ⟨v, known, leaf⟩, -⟩
    rcases mappings path fields reached with rfl | rfl <;> cases known <;> cases leaf
  obtain ⟨-, -, assoc, comm, -⟩ := overlay_algebra wellFormedA wellFormedB wellFormedC
  exact ⟨assoc whole, comm agree, by decide⟩

/-- A layer that puts a leaf between two mappings cuts them from each other. -/
example : ((Value.object [("p", .null)]).overlay (.bool true)).overlay (.object [("q", .null)]) ≠
    (Value.object [("p", .null)]).overlay ((Value.bool true).overlay (.object [("q", .null)])) := by
  decide

end LayeredConfig
