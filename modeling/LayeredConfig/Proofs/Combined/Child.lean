import LayeredConfig.Proofs.Combined.CanonicalForm

namespace LayeredConfig

/-- The part of a compiled value that is reached by keys, child by child. -/
def Compiled.walk? (c : Compiled) (path : List String) : Option Compiled :=
  path.foldlM Compiled.child? c

/-- The part of a configuration that is reached by an entity key and keys below it. -/
def Configuration.walk? (c : Configuration) : List String → Option Compiled
  | [] => none
  | key :: rest => (c.get? key).bind (·.walk? rest)

namespace Compiled

@[simp] theorem walk?_nil (c : Compiled) : c.walk? [] = some c :=
  rfl

theorem walk?_cons (c : Compiled) (key : String) (rest : List String) :
    c.walk? (key :: rest) = (c.child? key).bind (·.walk? rest) :=
  List.foldlM_cons

theorem walk?_concat (c : Compiled) (path : List String) (key : String) :
    c.walk? (path ++ [key]) = (c.walk? path).bind (·.child? key) := by
  simp [walk?, List.foldlM_append]

theorem child?_eq_slot? (c : Compiled) (key : String) : c.child? key = c.slot? (.key key) := by
  cases c <;> rfl

theorem walk?_eq_inside? (c : Compiled) (path : List String) : c.walk? path = c.inside? (path.map Slot.key) := by
  induction path generalizing c with
  | nil => rfl
  | cons key rest ih => simp only [walk?_cons, List.map_cons, inside?_cons, child?_eq_slot?, ih]

end Compiled

namespace Binding

variable {b : Binding} {position : List Slot}

/-- A child is there only below a tagged text, and it is what the value's part compiles
to. -/
theorem child?_compile {v : Value} {c child : Compiled} {key : String} (ok : b.compile position v = .ok c) :
    c.child? key = some child ↔ v.hasTagged = true ∧ ∃ part, v.slot? (.key key) = some part ∧
      b.compile (position ++ [.key key]) part = .ok child := by
  rw [Compiled.child?_eq_slot?]
  cases tagged : v.hasTagged with
  | false =>
    rw [compile_of_not_hasTagged tagged, Except.ok.injEq] at ok
    simp [← ok, Compiled.slot?]
  | true =>
    rcases compile_slot? ok tagged (.key key) with ⟨left, right⟩ | ⟨part, inner, found, step, within⟩
    · simp [left, right]
    · simp [found, step, within]

/-- What is reached by keys is compiled from what the same keys reach in the value. -/
theorem compile_of_walk? {v : Value} {c child : Compiled} {path : List String} (ok : b.compile position v = .ok c)
    (reached : c.walk? path = some child) :
    ∃ part, v.at? path = some part ∧ b.compile (position ++ path.map Slot.key) part = .ok child := by
  induction path generalizing position v c with
  | nil =>
    cases reached
    exact ⟨v, rfl, by simpa using ok⟩
  | cons key rest ih =>
    rw [Compiled.walk?_cons] at reached
    obtain ⟨next, step, further⟩ := Option.bind_eq_some_iff.mp reached
    obtain ⟨-, part, found, within⟩ := (child?_compile ok).mp step
    obtain ⟨w, below, compiled⟩ := ih within further
    refine ⟨w, ?_, by simpa using compiled⟩
    rw [← Value.inside?_map_key, List.map_cons, Value.inside?_cons, found, Option.bind_some, Value.inside?_map_key,
      below]

/-- Keys reach a part exactly when they reach a value whose parent has a tagged text. -/
theorem exists_walk?_iff {v : Value} {c : Compiled} (ok : b.compile position v = .ok c) (path : List String) :
    (∃ child, c.walk? path = some child) ↔ (∃ w, v.at? path = some w) ∧
      (path = [] ∨ ∃ above, v.at? path.dropLast = some above ∧ above.hasTagged = true) := by
  rcases List.eq_nil_or_concat path with rfl | ⟨front, last, rfl⟩
  · exact iff_of_true ⟨c, rfl⟩ ⟨⟨v, rfl⟩, Or.inl rfl⟩
  rw [List.concat_eq_append, List.dropLast_concat, Value.at?_append, Compiled.walk?_concat]
  constructor
  · rintro ⟨child, reached⟩
    obtain ⟨inner, led, step⟩ := Option.bind_eq_some_iff.mp reached
    obtain ⟨above, found, within⟩ := compile_of_walk? ok led
    obtain ⟨tagged, part, below, -⟩ := (child?_compile within).mp step
    refine ⟨⟨part, ?_⟩, Or.inr ⟨above, found, tagged⟩⟩
    rw [found, Option.bind_some, ← Value.inside?_map_key]
    simpa [Value.inside?_cons] using below
  · rintro ⟨⟨w, reached⟩, none_ | ⟨above, found, tagged⟩⟩
    · simp at none_
    have place : v.inside? (front.map Slot.key) = some above := by rw [Value.inside?_map_key, found]
    obtain ⟨inner, led, within⟩ := exists_inside?_of_hasTagged ok place tagged
    rw [found, Option.bind_some, ← Value.inside?_map_key] at reached
    have step : above.slot? (.key last) = some w := by simpa [Value.inside?_cons] using reached
    rcases compile_slot? within tagged (.key last) with ⟨none_, -⟩ | ⟨part, child, -, known, -⟩
    · simp [step] at none_
    · exact ⟨child, by rw [Compiled.walk?_eq_inside?, led, Option.bind_some, Compiled.child?_eq_slot?, known]⟩

/-- Where keys stop short of a value, it stands inside a plain part on the way. -/
theorem exists_plain_of_walk?_eq_none {v w : Value} {c : Compiled} {path : List String}
    (ok : b.compile position v = .ok c) (reached : v.at? path = some w) (stopped : c.walk? path = none) :
    ∃ top rest inner, path = top ++ rest ∧ c.walk? top = some (.plain inner) ∧ inner.at? rest = some w := by
  induction path generalizing position v c with
  | nil => cases stopped
  | cons key rest ih =>
    cases tagged : v.hasTagged with
    | false =>
      rw [compile_of_not_hasTagged tagged, Except.ok.injEq] at ok
      exact ⟨[], key :: rest, v, rfl, by rw [← ok, Compiled.walk?_nil], reached⟩
    | true =>
      rw [← Value.inside?_map_key, List.map_cons, Value.inside?_cons] at reached
      obtain ⟨next, step, below⟩ := Option.bind_eq_some_iff.mp reached
      rw [Value.inside?_map_key] at below
      rcases compile_slot? ok tagged (.key key) with ⟨none_, -⟩ | ⟨part, child, found, known, within⟩
      · simp [step] at none_
      · obtain rfl : part = next := Option.some.inj (found.symm.trans step)
        rw [← Compiled.child?_eq_slot?] at known
        rw [Compiled.walk?_cons, known, Option.bind_some] at stopped
        obtain ⟨top, more, inner, rfl, led, held⟩ := ih within below stopped
        exact ⟨key :: top, more, inner, rfl, by rw [Compiled.walk?_cons, known, Option.bind_some, led], held⟩

end Binding

namespace Configuration

variable {merged : Fields} {documents : List Document} {fallback : Location} {c : Configuration}

/-- What keys reach, child by child, is shown as the merged value at the same keys. They
reach it exactly when it is there and is an entity, or has a parent with a tagged text.
Any other merged value stands inside a plain part that a front of the keys reaches. -/
theorem walk?_law (compiled : compile merged documents fallback = .ok c) {path : List String}
    (nonempty : path ≠ []) :
    (∀ child, c.walk? path = some child → valueAt? merged path = some child.shown) ∧
      ((∃ child, c.walk? path = some child) ↔ (∃ v, valueAt? merged path = some v) ∧
        (path.dropLast = [] ∨ ∃ above, valueAt? merged path.dropLast = some above ∧ ¬above.Untagged)) ∧
      ∀ v, valueAt? merged path = some v → c.walk? path = none →
        ∃ top rest inner, path = top ++ rest ∧ c.walk? top = some (.plain inner) ∧ inner.at? rest = some v := by
  cases path with
  | nil => exact absurd rfl nonempty
  | cons key rest =>
    rcases Binding.compileFields_lookup (compile_eq_ok.mp compiled) key with
      ⟨left, right⟩ | ⟨entity, inner, left, right, within⟩
    · simp [walk?, get?, valueAt?, left, right]
    · have led (keys : List String) : c.walk? (key :: keys) = inner.walk? keys := by
        rw [walk?, get?, right, Option.bind_some]
      have held (keys : List String) : valueAt? merged (key :: keys) = entity.at? keys := by
        rw [valueAt?, left, Option.bind_some]
      rw [led, held]
      refine ⟨fun child reached => ?_, ?_, fun v stands stopped => ?_⟩
      · obtain ⟨part, below, compiled⟩ := Binding.compile_of_walk? within reached
        rw [below, Binding.shown_compile compiled]
      · rw [Binding.exists_walk?_iff within]
        cases rest with
        | nil => simp
        | cons next more =>
          rw [List.dropLast_cons_cons, held]
          simp [Value.untagged_iff]
      · obtain ⟨top, more, u, rfl, reached, below⟩ := Binding.exists_plain_of_walk?_eq_none within stands stopped
        exact ⟨key :: top, more, u, rfl, by rw [led, reached], below⟩

/-- Two entities with the same field. One of them has a tagged text beside it. -/
def besideTag : Fields :=
  [("#A", .object [("b", .bool true)]), ("#B", .object [("b", .bool true), ("t", .string "jit('x')")])]

theorem compile_besideTag : compile besideTag [] ⟨"/ws"⟩ = .ok
    ⟨[("#A", .plain (.object [("b", .bool true)])),
      ("#B", .object [("b", .plain (.bool true)), ("t", .deferred ⟨"jit('x')", .text "x", ⟨"/ws"⟩⟩)])]⟩ := by
  have body : taggedBody? "jit('x')" = some "'x'" := by decide +kernel
  have expr : Expr.read "'x'" = .ok (.text "x") := by rfl
  simp [compile, besideTag, Binding.compileFields, Binding.compile, Binding.compileText, Binding.origin?,
    Deferred.compile, Value.hasTaggedField, Value.hasTagged, body, expr, Except.map, bind, Except.bind]

/-- The field beside the tag is a child; the other one stands inside its entity, which is
plain. -/
theorem walk?_law_besideTag :
    ∃ c, compile besideTag [] ⟨"/ws"⟩ = .ok c ∧
      (∃ child, c.walk? ["#B", "b"] = some child ∧ valueAt? besideTag ["#B", "b"] = some child.shown) ∧
      ∃ top rest inner, ["#A", "b"] = top ++ rest ∧ c.walk? top = some (.plain inner) ∧
        inner.at? rest = some (.bool true) := by
  refine ⟨_, compile_besideTag, ?_, ?_⟩
  · obtain ⟨shown, reached, -⟩ := walk?_law compile_besideTag (by simp : ["#B", "b"] ≠ [])
    obtain ⟨child, led⟩ := reached.mpr ⟨⟨_, rfl⟩, Or.inr ⟨_, rfl, by
      rw [Value.untagged_iff]
      decide +kernel⟩⟩
    exact ⟨child, led, shown child led⟩
  · exact (walk?_law compile_besideTag (by simp : ["#A", "b"] ≠ [])).2.2 _ rfl rfl

/-- The keys reach a value in what was merged, and nothing in what it compiles to. With a
tagged text beside the value they reach it in both. -/
theorem not_walk?_of_untagged_parent :
    ∃ c, compile besideTag [] ⟨"/ws"⟩ = .ok c ∧
      valueAt? besideTag ["#A", "b"] = some (.bool true) ∧ c.walk? ["#A", "b"] = none ∧
      valueAt? besideTag ["#B", "b"] = some (.bool true) ∧ c.walk? ["#B", "b"] = some (.plain (.bool true)) :=
  ⟨_, compile_besideTag, rfl, rfl, rfl, rfl⟩

end Configuration

end LayeredConfig
