import LayeredConfig.Proofs.Combined.Position
import LayeredConfig.Proofs.Expr.Printer
import LayeredConfig.Proofs.Location.Canonical
import Mathlib.Data.List.TakeWhile

namespace LayeredConfig

/-- Nothing moves along an empty segment, so that the empty path is no special case. -/
theorem pickPath_eq (v : Value) (path : String) : pickPath v path = pickSegments v (pieces '.' path.toList) := by
  unfold pickPath
  split
  · next empty =>
    rw [empty]
    rfl
  · rfl

theorem pickSegments_append (v : Value) (front back : List (List Char)) :
    pickSegments v (front ++ back) = (pickSegments v front).bind fun d => pickSegments d back := by
  induction front generalizing v with
  | nil => rfl
  | cons segment rest ih =>
    rw [List.cons_append, pickSegments, pickSegments]
    cases (PickSegment.ofText? segment).bind (·.follow? v) with
    | none => rfl
    | some next => exact ih next

/-- A path without a dot is one segment: it leads to a value, or it is the failure itself. A dot
between two paths takes the second one from where the first has led; where the first fails,
so does the whole, at the same segment. -/
theorem pickPath_composes (v : Value) :
    (∀ p q : String, pickPath v (p ++ "." ++ q) =
      match pickPath v p with
      | .error segment => .error segment
      | .ok d => pickPath d q) ∧
      ∀ p : String, '.' ∉ p.toList →
        pickPath v p = ((PickSegment.ofText? p.toList).bind (·.follow? v)).elim (.error p) .ok := by
  constructor
  · intro p q
    have cut : (p ++ "." ++ q).toList = p.toList ++ '.' :: q.toList := by simp
    rw [pickPath_eq, cut, pieces_append_sep, pickSegments_append, ← pickPath_eq]
    cases pickPath v p with
    | error segment => rfl
    | ok d => exact (pickPath_eq d q).symm
  · intro p single
    rw [pickPath_eq, pieces_of_not_mem single, pickSegments]
    cases (PickSegment.ofText? p.toList).bind (·.follow? v) with
    | none => simp
    | some d => rfl

theorem digitValue?_of_isDigit {c : Char} (digit : c.isDigit = true) :
    digitValue? 10 c = some (c.toNat - '0'.toNat) := by
  have range := Char.isDigit_iff_toNat.mp digit
  have bound : c.toNat - '0'.toNat < 10 := by
    simp only [Char.reduceToNat] at range ⊢
    omega
  simpa [digitValue?, digit] using bound

theorem foldlM_digitValue? {cs : List Char} (digits : ∀ c ∈ cs, c.isDigit = true) (n : Nat) :
    cs.foldlM (fun n c => (digitValue? 10 c).map (n * 10 + ·)) n = some (Nat.ofDigitChars 10 cs n) := by
  induction cs generalizing n with
  | nil => simp
  | cons c rest ih =>
    have own := digitValue?_of_isDigit (digits c List.mem_cons_self)
    rw [List.foldlM_cons, own, Nat.ofDigitChars_cons, Nat.mul_comm 10 n]
    exact ih (fun d member => digits d (List.mem_cons_of_mem _ member)) _

theorem isDigit_of_mem_toDigits {n : Nat} {c : Char} (member : c ∈ Nat.toDigits 10 n) : c.isDigit = true :=
  Nat.isDigit_of_mem_toDigits (by decide) (by decide) member

/-- A number is read back from its decimal digits. -/
theorem natOfDigits?_toDigits (n : Nat) : natOfDigits? 10 (Nat.toDigits 10 n) = some n := by
  have whole := foldlM_digitValue? (fun c => isDigit_of_mem_toDigits (n := n) (c := c)) 0
  rw [Nat.ofDigitChars_ten_toDigits] at whole
  unfold natOfDigits?
  split
  · next empty => exact absurd empty Nat.toDigits_ne_nil
  · exact whole

theorem wordOfText?_toDigits {n : Nat} (word : n < wordLimit) : wordOfText? (Nat.toDigits 10 n) = some n := by
  unfold wordOfText?
  split
  · next rest signed =>
    have plus : '+' ∈ Nat.toDigits 10 n := signed ▸ List.mem_cons_self
    exact absurd (isDigit_of_mem_toDigits plus) (by decide)
  · simp [natOfDigits?_toDigits, word]

/-- A step as a segment of its own: a key as it is, an index in decimal. -/
def Slot.segment : Slot → List Char
  | .key name => name.toList
  | .index i => Nat.toDigits 10 i

/-- A step and an index in brackets behind it, as one segment. -/
def Slot.indexed (slot : Slot) (i : Nat) : List Char :=
  slot.segment ++ '[' :: (Nat.toDigits 10 i ++ [']'])

/-- A step that can be written: a key that is not empty and has neither a dot nor an opening
bracket in it, or an index, which is a machine word. -/
def Slot.Writable : Slot → Prop
  | .key name => name ≠ "" ∧ '.' ∉ name.toList ∧ '[' ∉ name.toList
  | .index i => i < wordLimit

/-- The segments that steps may be written as. Each step has its own, but that an index may
stand in brackets on the segment of the step before, which takes one such index at most. -/
inductive Dotted : List Slot → List (List Char) → Prop
  | nil : Dotted [] []
  | own (slot : Slot) {rest : List Slot} {segments : List (List Char)} :
      Dotted rest segments → Dotted (slot :: rest) (slot.segment :: segments)
  | indexed (slot : Slot) (i : Nat) {rest : List Slot} {segments : List (List Char)} :
      Dotted rest segments → Dotted (slot :: .index i :: rest) (slot.indexed i :: segments)

theorem dotted_segments (position : List Slot) : Dotted position (position.map Slot.segment) := by
  induction position with
  | nil => exact .nil
  | cons slot rest ih => exact .own slot ih

theorem not_mem_toDigits {c : Char} (mark : c.isDigit = false) (n : Nat) : c ∉ Nat.toDigits 10 n := by
  intro member
  rw [isDigit_of_mem_toDigits member] at mark
  cases mark

theorem Value.item?_eq_slot? (v : Value) (i : Nat) : v.item? i = v.slot? (.index i) := by
  cases v <;> rfl

namespace Slot.Writable

variable {slot : Slot}

theorem segment_ne_nil (writable : slot.Writable) : slot.segment ≠ [] := by
  cases slot with
  | key name => exact fun empty => writable.1 (String.toList_eq_nil_iff.mp empty)
  | index i => exact Nat.toDigits_ne_nil

theorem dot_not_mem (writable : slot.Writable) : '.' ∉ slot.segment := by
  cases slot with
  | key name => exact writable.2.1
  | index i => exact not_mem_toDigits (by decide) i

theorem bracket_not_mem (writable : slot.Writable) : '[' ∉ slot.segment := by
  cases slot with
  | key name => exact writable.2.2
  | index i => exact not_mem_toDigits (by decide) i

/-- The name that is read from a segment leads where the step leads. -/
theorem child?_segment (writable : slot.Writable) {v part : Value} (leads : v.slot? slot = some part) :
    v.child? (String.ofList slot.segment) = some part := by
  cases slot with
  | key name =>
    cases v with
    | object fields => simpa [Value.child?, segment, Value.slot?] using leads
    | _ => cases leads
  | index i =>
    cases v with
    | array items => simpa [Value.child?, segment, wordOfText?_toDigits writable, Value.slot?] using leads
    | _ => cases leads

end Slot.Writable

namespace PickSegment

theorem ne_bracket {segment : List Char} (free : '[' ∉ segment) : ∀ c ∈ segment, decide (c ≠ '[') = true :=
  fun _ member => decide_eq_true fun same => free (same ▸ member)

theorem ofText?_of_not_mem {segment : List Char} (free : '[' ∉ segment) :
    ofText? segment = some ⟨segment, none⟩ := by
  have name : segment.takeWhile (· ≠ '[') = segment := List.takeWhile_eq_self_iff.mpr (ne_bracket free)
  have rest : segment.dropWhile (· ≠ '[') = [] := List.dropWhile_eq_nil_iff.mpr (ne_bracket free)
  simp only [ofText?, name, rest]

theorem ofText?_indexed {slot : Slot} (free : '[' ∉ slot.segment) {i : Nat} (word : i < wordLimit) :
    ofText? (slot.indexed i) = some ⟨slot.segment, some i⟩ := by
  have name : (slot.indexed i).takeWhile (· ≠ '[') = slot.segment := by
    rw [Slot.indexed, List.takeWhile_append_of_pos (ne_bracket free)]
    simp
  have rest : (slot.indexed i).dropWhile (· ≠ '[') = '[' :: (Nat.toDigits 10 i ++ [']']) := by
    rw [Slot.indexed, List.dropWhile_append_of_pos (ne_bracket free)]
    simp
  simp only [ofText?, name, rest, beforeEnding?_append, Option.bind_eq_bind, Option.bind_some,
    wordOfText?_toDigits word]

end PickSegment

theorem Dotted.dot_not_mem {position : List Slot} {segments : List (List Char)} (dotted : Dotted position segments)
    (writable : ∀ slot ∈ position, slot.Writable) : ∀ segment ∈ segments, '.' ∉ segment := by
  induction dotted with
  | nil => simp
  | own slot _ ih =>
    rw [List.forall_mem_cons] at writable ⊢
    exact ⟨writable.1.dot_not_mem, ih writable.2⟩
  | indexed slot i _ ih =>
    rw [List.forall_mem_cons, List.forall_mem_cons] at writable
    rw [List.forall_mem_cons]
    exact ⟨by simp [Slot.indexed, writable.1.dot_not_mem, not_mem_toDigits], ih writable.2.2⟩

/-- The segments of a position lead where the position leads. -/
theorem pickSegments_of_dotted {position : List Slot} {segments : List (List Char)}
    (dotted : Dotted position segments) (writable : ∀ slot ∈ position, slot.Writable) {v part : Value}
    (leads : v.inside? position = some part) :
    pickSegments v segments = .ok part := by
  -- A segment takes one step or two, in each case those that it has been written for.
  induction dotted generalizing v with
  | nil =>
    rw [Value.inside?_nil, Option.some.injEq] at leads
    rw [pickSegments, leads]
  | own slot _ ih =>
    rw [List.forall_mem_cons] at writable
    rw [Value.inside?_cons] at leads
    obtain ⟨next, step, further⟩ := Option.bind_eq_some_iff.mp leads
    have followed : (PickSegment.ofText? slot.segment).bind (·.follow? v) = some next := by
      rw [PickSegment.ofText?_of_not_mem writable.1.bracket_not_mem]
      simp [PickSegment.follow?, writable.1.segment_ne_nil, writable.1.child?_segment step]
    rw [pickSegments, followed]
    exact ih writable.2 further
  | indexed slot i _ ih =>
    rw [List.forall_mem_cons, List.forall_mem_cons] at writable
    rw [Value.inside?_cons] at leads
    obtain ⟨list, step, within⟩ := Option.bind_eq_some_iff.mp leads
    rw [Value.inside?_cons] at within
    obtain ⟨next, item, further⟩ := Option.bind_eq_some_iff.mp within
    have followed : (PickSegment.ofText? (slot.indexed i)).bind (·.follow? v) = some next := by
      rw [PickSegment.ofText?_indexed writable.1.bracket_not_mem writable.2.1]
      simp [PickSegment.follow?, writable.1.segment_ne_nil, writable.1.child?_segment step,
        Value.item?_eq_slot?, item]
    rw [pickSegments, followed]
    exact ih writable.2.2 further

theorem pickPath_of_dotted {position : List Slot} {segments : List (List Char)} (dotted : Dotted position segments)
    (writable : ∀ slot ∈ position, slot.Writable) {v part : Value} (leads : v.inside? position = some part) :
    pickPath v (String.ofList (joinWith '.' segments)) = .ok part := by
  have followed := pickSegments_of_dotted dotted writable leads
  by_cases empty : segments = []
  · subst empty
    exact followed
  · rw [pickPath_eq, String.toList_ofList, pieces_joinWith empty (dotted.dot_not_mem writable), followed]

/-- A path that names steps to a part of a document leads to that part: with a segment for each
step, and likewise with any of the indices in brackets on the segment of the step before. -/
theorem pickPath_reaches {v part : Value} {position : List Slot} (writable : ∀ slot ∈ position, slot.Writable)
    (leads : v.inside? position = some part) :
    pickPath v (String.ofList (joinWith '.' (position.map Slot.segment))) = .ok part ∧
      ∀ segments, Dotted position segments → pickPath v (String.ofList (joinWith '.' segments)) = .ok part :=
  ⟨pickPath_of_dotted (dotted_segments position) writable leads,
    fun _ dotted => pickPath_of_dotted dotted writable leads⟩

/-- Through a list in a list and a key that looks like an index. -/
theorem pickPath_reaches_numbered_key :
    let v : Value := .object [("list",
      .array [.null, .array [.null, .object [("1", .array [.null, .bool true])]]])]
    let position : List Slot := [.key "list", .index 1, .index 1, .key "1", .index 1]
    (∀ slot ∈ position, slot.Writable) ∧ v.inside? position = some (.bool true) ∧
      pickPath v "list.1.1.1.1" = .ok (.bool true) ∧ pickPath v "list[1].1.1[1]" = .ok (.bool true) ∧
      pickPath v "list.1[1].1.1" = .ok (.bool true) := by
  intro v position
  have writable : ∀ slot ∈ position, slot.Writable := by
    simp [position, Slot.Writable, wordLimit]
  have leads : v.inside? position = some (.bool true) := rfl
  obtain ⟨plain, bracketed⟩ := pickPath_reaches writable leads
  exact ⟨writable, leads, plain, bracketed _ (.indexed _ 1 (.own _ (.indexed _ 1 .nil))),
    bracketed _ (.own _ (.indexed _ 1 (.own _ (.own _ .nil))))⟩

end LayeredConfig
