import LayeredConfig.Origin.Declarations
import LayeredConfig.Proofs.Text.Cut
import LayeredConfig.Proofs.Text.Lines
import LayeredConfig.Proofs.Value.Equality
import Mathlib.Order.Bounds.Basic

namespace LayeredConfig

/-- A line declares an entity key: after blanks it has the key in quotes that the key does
not hold, then blanks and a colon. Blanks are those of ASCII. -/
def Declares (line : List Char) (key : String) : Prop :=
  ∃ before quote after rest, line = before ++ quote :: (key.toList ++ quote :: (after ++ ':' :: rest)) ∧
    (∀ c ∈ before, isAsciiBlank c = true) ∧ (∀ c ∈ after, isAsciiBlank c = true) ∧
    (quote = '\'' ∨ quote = '"') ∧ quote ∉ key.toList ∧ key.toList.head? = some '#'

section Line

variable {line : List Char} {key : String}

theorem declares_of_declaredKey? (declared : declaredKey? line = some key) : Declares line key := by
  unfold declaredKey? at declared
  split at declared
  · next quote body lead =>
    split at declared
    · next quoted =>
      split at declared
      · cases declared
      · next closing behind ended =>
        split at declared
        · next rest trail =>
          cases declared
          obtain ⟨first, blank, -⟩ := of_dropWhile_eq_cons lead
          obtain ⟨second, inside, stop⟩ := of_dropWhile_eq_cons ended
          obtain ⟨third, blankAfter, -⟩ := of_dropWhile_eq_cons trail
          obtain rfl : closing = quote := by simpa using stop
          refine ⟨_, closing, _, rest, ?_, blank, blankAfter, quoted, ?_, by simp⟩
          · rw [String.toList_ofList, List.cons_append, ← third, ← second]
            exact first
          · rw [String.toList_ofList]
            intro within
            rcases List.mem_cons.mp within with sign | letter
            · simp [sign] at quoted
            · simpa using inside closing letter
        · cases declared
    · cases declared
  · cases declared

theorem declaredKey?_of_declares (declares : Declares line key) : declaredKey? line = some key := by
  obtain ⟨before, quote, after, rest, rfl, blank, blankAfter, quoted, free, opens⟩ := declares
  obtain ⟨body, letters⟩ := List.head?_eq_some_iff.mp opens
  have solid : isAsciiBlank quote = false := by
    rcases quoted with rfl | rfl <;> rfl
  have inside : ∀ c ∈ body, decide (c ≠ quote) = true := by
    intro c member
    rw [letters] at free
    simpa using fun same : c = quote => free (same ▸ List.mem_cons_of_mem _ member)
  rw [declaredKey?, dropWhile_append_cons blank solid, letters]
  simp only [List.cons_append, quoted, if_true]
  rw [dropWhile_append_cons inside (by simp), takeWhile_append_cons inside (by simp)]
  simp only [dropWhile_append_cons blankAfter (by rfl : isAsciiBlank ':' = false)]
  rw [← letters, String.ofList_toList]

theorem declaredKey?_eq_some_iff : declaredKey? line = some key ↔ Declares line key :=
  ⟨declares_of_declaredKey?, declaredKey?_of_declares⟩

end Line

section Lines

variable {line : List Char} {own key : String} {number : Nat} {rest : List (List Char)}

theorem declarationsFrom_of_none (none_ : declaredKey? line = none) :
    declarationsFrom number (line :: rest) = declarationsFrom (number + 1) rest := by
  simp [declarationsFrom, none_]

theorem declarationsFrom_of_some (declared : declaredKey? line = some own) :
    declarationsFrom number (line :: rest) = (own, number) :: without own
      (declarationsFrom (number + 1) rest) := by
  simp [declarationsFrom, declared, without]

/-- A key is found with the number of the first line that declares it. -/
theorem lookup_declarationsFrom (number : Nat) (lines : List (List Char)) (key : String) :
    (declarationsFrom number lines).lookup key =
      (lines.findIdx? fun line => declaredKey? line = some key).map (number + ·) := by
  induction lines generalizing number with
  | nil => rfl
  | cons line rest ih =>
    have behind : (declarationsFrom (number + 1) rest).lookup key =
        ((rest.findIdx? fun line => declaredKey? line = some key).map (· + 1)).map (number + ·) := by
      rw [ih, Option.map_map]
      exact congrArg (Option.map · _) (funext fun i => by simp only [Function.comp_apply]; omega)
    rw [List.findIdx?_cons]
    cases declared : declaredKey? line with
    | none => simp [declarationsFrom_of_none declared, behind]
    | some own =>
      rw [declarationsFrom_of_some declared]
      by_cases same : own = key
      · simp [same]
      · have apart : (key == own) = false := by simpa using Ne.symm same
        simp [List.lookup_cons, apart, same, lookup_without_of_ne (Ne.symm same), behind]

theorem nodup_keysOf_declarationsFrom (number : Nat) (lines : List (List Char)) :
    (keysOf (declarationsFrom number lines)).Nodup := by
  induction lines generalizing number with
  | nil => exact List.nodup_nil
  | cons line rest ih =>
    cases declared : declaredKey? line with
    | none => exact declarationsFrom_of_none declared ▸ ih (number + 1)
    | some own =>
      rw [declarationsFrom_of_some declared]
      refine List.nodup_cons.mpr ⟨?_, nodup_keysOf_without (ih (number + 1)) own⟩
      simp [without]

end Lines

section Text

variable {text key : String}

theorem lookup_declarations_eq_none_iff :
    (declarations text).lookup key = none ↔ ∀ m line, LineAt text.toList m line → ¬Declares line key := by
  rw [declarations, lookup_declarationsFrom, Option.map_eq_none_iff, List.findIdx?_eq_none_iff]
  constructor
  · intro nowhere m line at_ declares
    obtain ⟨i, rfl⟩ := Nat.exists_eq_succ_of_ne_zero at_.number_ne_zero
    have member := List.mem_of_getElem? (getElem?_linesOf_eq_some_iff.mpr at_)
    simpa [declaredKey?_of_declares declares] using nowhere line member
  · intro nowhere line member
    obtain ⟨i, here⟩ := List.mem_iff_getElem?.mp member
    rw [decide_eq_false_iff_not, declaredKey?_eq_some_iff]
    exact nowhere (i + 1) line (getElem?_linesOf_eq_some_iff.mp here)

theorem isLeast_of_lookup_declarations {number : Nat} (found : (declarations text).lookup key = some number) :
    IsLeast {m | ∃ line, LineAt text.toList m line ∧ Declares line key} number := by
  rw [declarations, lookup_declarationsFrom, Option.map_eq_some_iff] at found
  obtain ⟨i, first, rfl⟩ := found
  obtain ⟨within, own, before⟩ := List.findIdx?_eq_some_iff_getElem.mp first
  rw [Nat.add_comm 1 i]
  refine ⟨⟨_, getElem?_linesOf_eq_some_iff.mp (List.getElem?_eq_getElem within),
    declares_of_declaredKey? (of_decide_eq_true own)⟩, ?_⟩
  rintro m ⟨line, at_, declares⟩
  obtain ⟨j, rfl⟩ := Nat.exists_eq_succ_of_ne_zero at_.number_ne_zero
  obtain ⟨inside, here⟩ := List.getElem?_eq_some_iff.mp (getElem?_linesOf_eq_some_iff.mpr at_)
  refine Nat.succ_le_succ (Nat.le_of_not_lt fun early => before j early ?_)
  rw [here, decide_eq_true_eq]
  exact declaredKey?_of_declares declares

end Text

/-- Each declared key is found once, with the number of the first line that declares it,
and no other key is found. -/
theorem declarations_first (text key : String) :
    (keysOf (declarations text)).Nodup ∧
      (∀ number, (declarations text).lookup key = some number ↔
        IsLeast {m | ∃ line, LineAt text.toList m line ∧ Declares line key} number) ∧
      (key ∉ keysOf (declarations text) ↔ ∀ m line, LineAt text.toList m line → ¬Declares line key) := by
  refine ⟨nodup_keysOf_declarationsFrom 1 _, fun number => ⟨isLeast_of_lookup_declarations, fun least => ?_⟩, ?_⟩
  · cases found : (declarations text).lookup key with
    | none =>
      obtain ⟨line, at_, declares⟩ := least.1
      exact absurd declares (lookup_declarations_eq_none_iff.mp found number line at_)
    | some first => rw [(isLeast_of_lookup_declarations found).unique least]
  · rw [← lookup_declarations_eq_none_iff, mem_keysOf_iff, not_exists, Option.eq_none_iff_forall_ne_some]

/-- A key may hold the other quote and a colon, and counts where it comes first. -/
example : declarations "a: 1\r\n \"#k:'v'\" :\n'#b':\r\n\"#k:'v'\": 2" = [("#k:'v'", 2), ("#b", 3)] := by
  decide +kernel

end LayeredConfig
