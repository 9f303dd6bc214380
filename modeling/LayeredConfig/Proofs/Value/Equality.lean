import LayeredConfig.Proofs.Value.WellFormed
import Mathlib.Data.List.Perm.Subperm

namespace LayeredConfig

section Entries

variable {κ α : Type} [BEq κ] [LawfulBEq κ] {entries : List (κ × α)} {key : κ} {v : α}

theorem lookup_of_mem (distinct : (keysOf entries).Nodup) (member : (key, v) ∈ entries) :
    entries.lookup key = some v := by
  induction entries with
  | nil => cases member
  | cons entry rest ih =>
    obtain ⟨name, first⟩ := entry
    simp only [keysOf, List.map_cons, List.nodup_cons] at distinct
    rcases List.mem_cons.mp member with same | later
    · cases same
      simp
    · have apart : (key == name) = false := by
        rw [beq_eq_false_iff_ne]
        rintro rfl
        exact distinct.1 (List.mem_map_of_mem later)
      simpa [List.lookup_cons, apart] using ih distinct.2 later

theorem mem_of_lookup (found : entries.lookup key = some v) : (key, v) ∈ entries := by
  obtain ⟨before, after, rfl, _⟩ := List.lookup_eq_some_iff.mp found
  simp

theorem mem_keysOf_iff : key ∈ keysOf entries ↔ ∃ v, entries.lookup key = some v := by
  rw [← Option.isSome_iff_exists, List.lookup_isSome_iff]
  simp [keysOf]

end Entries

namespace Value

theorem wellFormed_of_mem {fields : Fields} (wellFormed : WellFormedFields fields) {field : String × Value}
    (member : field ∈ fields) : field.2.WellFormed := by
  induction fields with
  | nil => cases member
  | cons first rest ih =>
    obtain ⟨own, later⟩ := wellFormedFields_cons.mp wellFormed
    rcases List.mem_cons.mp member with rfl | inside
    · exact own
    · exact ih later inside

mutual

/-- Whether two values are the same, the order of fields included. -/
def same : Value → Value → Bool
  | null, null => true
  | bool a, bool b => a == b
  | number a, number b => a == b
  | string a, string b => a == b
  | array as, array bs => sameItems as bs
  | object as, object bs => sameFields as bs
  | _, _ => false

def sameItems : List Value → List Value → Bool
  | [], [] => true
  | a :: as, b :: bs => same a b && sameItems as bs
  | _, _ => false

def sameFields : List (String × Value) → List (String × Value) → Bool
  | [], [] => true
  | (key, a) :: as, (other, b) :: bs => key == other && same a b && sameFields as bs
  | _, _ => false

end

mutual

theorem same_iff : ∀ a b : Value, same a b = true ↔ a = b
  | null, b => by cases b <;> simp [same]
  | bool a, b => by cases b <;> simp [same]
  | number a, b => by cases b <;> simp [same]
  | string a, b => by cases b <;> simp [same]
  | array as, b => by
    cases b with
    | array bs => simp [same, sameItems_iff as bs]
    | _ => simp [same]
  | object as, b => by
    cases b with
    | object bs => simp [same, sameFields_iff as bs]
    | _ => simp [same]

theorem sameItems_iff : ∀ as bs : List Value, sameItems as bs = true ↔ as = bs
  | [], bs => by cases bs <;> simp [sameItems]
  | a :: as, bs => by
    cases bs with
    | nil => simp [sameItems]
    | cons b bs => simp [sameItems, same_iff a b, sameItems_iff as bs]

theorem sameFields_iff : ∀ as bs : List (String × Value), sameFields as bs = true ↔ as = bs
  | [], bs => by cases bs <;> simp [sameFields]
  | (key, a) :: as, bs => by
    cases bs with
    | nil => simp [sameFields]
    | cons field bs =>
      obtain ⟨other, b⟩ := field
      simp [sameFields, same_iff a b, sameFields_iff as bs, and_assoc]

end

instance : DecidableEq Value :=
  fun a b => decidable_of_iff (same a b = true) (same_iff a b)

theorem alikeFields_iff {as bs : Fields} :
    alikeFields as bs = true ↔ ∀ field ∈ as, ∃ b, bs.lookup field.1 = some b ∧ alike field.2 b = true := by
  induction as with
  | nil => simp [alikeFields]
  | cons field rest ih =>
    obtain ⟨key, a⟩ := field
    rw [alikeFields, Bool.and_eq_true, ih, List.forall_mem_cons]
    cases bs.lookup key <;> simp

theorem alike_object_iff {as bs : Fields} :
    alike (object as) (object bs) = true ↔
      as.length = bs.length ∧ ∀ field ∈ as, ∃ b, bs.lookup field.1 = some b ∧ alike field.2 b = true := by
  rw [alike, Bool.and_eq_true, beq_iff_eq, alikeFields_iff]

theorem string?_of_alike {text : String} {v : Value} (alike : (Value.string text).alike v = true) :
    v.string? = some text := by
  cases v with
  | string other =>
    have same : text = other := by simpa [Value.alike] using alike
    rw [same, Value.string?]
  | _ => simp [Value.alike] at alike

theorem isSome_fields?_of_alike {a b : Value} (alike : a.alike b = true) :
    b.fields?.isSome = a.fields?.isSome := by
  cases a <;> cases b <;> simp_all [Value.alike, fields?]

theorem sameValue_comm (x y : Binary64) : x.sameValue y = y.sameValue x := by
  unfold Binary64.sameValue
  rw [Bool.and_comm, Bool.beq_comm]

theorem number_alike_comm (m n : Number) : m.alike n = n.alike m := by
  cases m with
  | int a => cases n <;> simp [Number.alike, Bool.beq_comm]
  | float x => cases n <;> simp [Number.alike, sameValue_comm]

theorem number_alike_refl (n : Number) : n.alike n = true := by
  cases n <;> simp [Number.alike, Binary64.sameValue]

mutual

theorem alike_refl : ∀ a : Value, a.WellFormed → a.alike a = true
  | null, _ => rfl
  | bool a, _ => by simp [alike]
  | number a, _ => by simp [alike, number_alike_refl]
  | string a, _ => by simp [alike]
  | array as, wellFormed => by
    rw [WellFormed] at wellFormed
    rw [alike]
    exact alikeItems_refl as wellFormed
  | object as, wellFormed => by
    obtain ⟨distinct, values⟩ := wellFormed_object.mp wellFormed
    exact alike_object_iff.mpr ⟨rfl, fun field member =>
      ⟨field.2, lookup_of_mem distinct member, alike_refl_of_mem as values field member⟩⟩

theorem alikeItems_refl : ∀ as : List Value, WellFormedItems as → alikeItems as as = true
  | [], _ => rfl
  | a :: as, wellFormed => by
    rw [WellFormedItems] at wellFormed
    rw [alikeItems, alike_refl a wellFormed.1, alikeItems_refl as wellFormed.2]
    rfl

theorem alike_refl_of_mem : ∀ as : List (String × Value), WellFormedFields as → ∀ field ∈ as,
    field.2.alike field.2 = true
  | [], _, field, member => by cases member
  | (key, a) :: as, wellFormed, field, member => by
    obtain ⟨own, later⟩ := wellFormedFields_cons.mp wellFormed
    rcases List.mem_cons.mp member with rfl | inside
    · exact alike_refl a own
    · exact alike_refl_of_mem as later field inside

end

/-- Two objects with the same number of keys, each once, have the same keys if
one has those of the other. -/
theorem mem_keysOf_of_length {as bs : Fields} (distinct : (keysOf as).Nodup) (length : as.length = bs.length)
    (known : keysOf as ⊆ keysOf bs) : keysOf bs ⊆ keysOf as := by
  have few := List.Nodup.subperm distinct known
  exact (few.perm_of_length_le (by simp [keysOf, length])).symm.subset

mutual

/-- Alikeness has no direction between values without repeated keys. -/
theorem alike_symm : ∀ a b : Value, a.WellFormed → b.WellFormed → a.alike b = true → b.alike a = true
  | null, b, _, _, same => by cases b <;> simp_all [alike]
  | bool a, b, _, _, same => by cases b <;> simp_all [alike]
  | number a, b, _, _, same => by
    cases b with
    | number n =>
      rw [alike] at same ⊢
      rwa [number_alike_comm]
    | _ => simp [alike] at same
  | string a, b, _, _, same => by cases b <;> simp_all [alike]
  | array as, b, left, right, same => by
    cases b with
    | array bs =>
      rw [WellFormed] at left right
      rw [alike] at same ⊢
      exact alikeItems_symm as bs left right same
    | _ => simp [alike] at same
  | object as, b, left, right, same => by
    cases b with
    | object bs =>
      obtain ⟨leftKeys, leftValues⟩ := wellFormed_object.mp left
      obtain ⟨rightKeys, rightValues⟩ := wellFormed_object.mp right
      obtain ⟨length, found⟩ := alike_object_iff.mp same
      have known : keysOf as ⊆ keysOf bs := by
        intro key member
        obtain ⟨field, inside, rfl⟩ := List.mem_map.mp member
        obtain ⟨b, reached, _⟩ := found field inside
        exact List.mem_map.mpr ⟨_, mem_of_lookup reached, rfl⟩
      refine alike_object_iff.mpr ⟨length.symm, fun field member => ?_⟩
      have back := mem_keysOf_of_length leftKeys length known (List.mem_map_of_mem member)
      obtain ⟨other, inside, key⟩ := List.mem_map.mp back
      obtain ⟨b, reached, alike_⟩ := found other inside
      rw [key, lookup_of_mem rightKeys (show (field.1, field.2) ∈ bs from member), Option.some.injEq] at reached
      subst reached
      refine ⟨other.2, ?_, alike_symm_of_mem as leftValues other inside field.2
        (wellFormed_of_mem rightValues member) alike_⟩
      exact key ▸ lookup_of_mem leftKeys inside
    | _ => simp [alike] at same

theorem alikeItems_symm : ∀ as bs : List Value, WellFormedItems as → WellFormedItems bs →
    alikeItems as bs = true → alikeItems bs as = true
  | [], bs, _, _, same => by cases bs <;> simp_all [alikeItems]
  | a :: as, bs, left, right, same => by
    cases bs with
    | nil => simp [alikeItems] at same
    | cons b bs =>
      rw [WellFormedItems] at left right
      rw [alikeItems, Bool.and_eq_true] at same ⊢
      exact ⟨alike_symm a b left.1 right.1 same.1, alikeItems_symm as bs left.2 right.2 same.2⟩

theorem alike_symm_of_mem : ∀ as : List (String × Value), WellFormedFields as → ∀ field ∈ as, ∀ b : Value,
    b.WellFormed → field.2.alike b = true → b.alike field.2 = true
  | [], _, field, member, _, _, _ => by cases member
  | (key, a) :: as, wellFormed, field, member, b, right, same => by
    obtain ⟨own, later⟩ := wellFormedFields_cons.mp wellFormed
    rcases List.mem_cons.mp member with rfl | inside
    · exact alike_symm a b own right same
    · exact alike_symm_of_mem as later field inside b right same

end

end Value

end LayeredConfig
