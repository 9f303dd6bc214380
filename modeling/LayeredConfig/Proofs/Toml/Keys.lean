import LayeredConfig.Proofs.Value.WellFormed
import LayeredConfig.Toml.Reader

namespace LayeredConfig.Toml

namespace Entries

/-- A change that gives a table no key twice. -/
def KeepsDistinct (change : Entries → Option Entries) : Prop :=
  ∀ {entries changed}, (keysOf entries).Nodup → change entries = some changed → (keysOf changed).Nodup

/-- A change that binds one key and no other. -/
theorem nodup_keysOf_of_map_put {α : Type} {made : Option α} {key : String} {item : α → Item}
    {entries changed : Entries} (distinct : (keysOf entries).Nodup)
    (bound : made.map (fun inner => put key (item inner) entries) = some changed) : (keysOf changed).Nodup := by
  obtain ⟨inner, -, rfl⟩ := Option.map_eq_some_iff.mp bound
  exact nodup_keysOf_put distinct key _

theorem keepsDistinct_change? {change : Entries → Option Entries} (keeps : KeepsDistinct change)
    (path : List String) :
    KeepsDistinct (change? change path) := by
  intro entries changed distinct made
  cases path with
  | nil => exact keeps distinct made
  | cons key path =>
    rw [change?] at made
    split at made
    · exact nodup_keysOf_of_map_put distinct made
    · cases made
    · exact nodup_keysOf_of_map_put distinct made
    · exact nodup_keysOf_of_map_put distinct made

theorem keepsDistinct_openTable? (key : String) : KeepsDistinct (openTable? key) := by
  intro entries changed distinct made
  rw [openTable?] at made
  split at made
  · cases made
    exact nodup_keysOf_put distinct key _
  · cases made
    rw [keysOf, List.map_append]
    refine List.nodup_append.mpr ⟨nodup_keysOf_without distinct key, by simp, ?_⟩
    intro name known other new
    obtain ⟨entry, member, rfl⟩ := List.mem_map.mp known
    rw [List.mem_singleton.mp new]
    simpa using (List.mem_filter.mp member).2
  · cases made

theorem keepsDistinct_openNext? (key : String) : KeepsDistinct (openNext? key) := by
  intro entries changed distinct made
  rw [openNext?] at made
  split at made
  · cases made
    exact nodup_keysOf_put distinct key _
  · cases made
    exact nodup_keysOf_put distinct key _
  · cases made

theorem keepsDistinct_add? (value : Value) (path : List String) : KeepsDistinct (add? value path) := by
  intro entries changed distinct made
  match path with
  | [] => cases made
  | [key] =>
    rw [add?] at made
    split at made
    · cases made
      exact nodup_keysOf_put distinct key _
    · cases made
  | key :: next :: path =>
    rw [add?] at made
    split at made
    · exact nodup_keysOf_of_map_put distinct made
    · split at made
      · cases made
      · exact nodup_keysOf_of_map_put distinct made
    · split at made
      · cases made
      · exact nodup_keysOf_of_map_put distinct made
    · cases made

theorem keysOf_toFields (entries : Entries) : keysOf (toFields entries) = keysOf entries := by
  induction entries with
  | nil => rfl
  | cons entry rest ih =>
    obtain ⟨key, item⟩ := entry
    simpa [toFields, keysOf] using ih

end Entries

theorem nodup_keysOf_header? {root changed : Entries} {cs rest : List Char} {path : List String}
    (distinct : (keysOf root).Nodup) (read : header? root cs = some (path, changed, rest)) :
    (keysOf changed).Nodup := by
  simp only [header?, Option.bind_eq_bind, Option.bind_eq_some_iff, Option.some.injEq, Prod.mk.injEq] at read
  obtain ⟨⟨way, ahead⟩, -, behind, -, last, -, made, opened, -, rfl, -⟩ := read
  refine Entries.keepsDistinct_change? ?_ _ distinct opened
  split
  · exact Entries.keepsDistinct_openNext? last
  · exact Entries.keepsDistinct_openTable? last

/-- Reading on never gives the top-level table a key twice. -/
theorem nodup_keysOf_lines? {fuel : Nat} {within : List String} {root entries : Entries} {cs : List Char}
    (distinct : (keysOf root).Nodup) (read : lines? fuel within root cs = some entries) :
    (keysOf entries).Nodup := by
  induction fuel generalizing within root cs with
  | zero => cases read
  | succ fuel ih =>
    have further {grown : Entries} (kept : (keysOf grown).Nodup) (read : grown = entries ∨ ∃ here rest,
        (afterBreak? rest).bind (lines? fuel here grown) = some entries) : (keysOf entries).Nodup := by
      rcases read with rfl | ⟨here, rest, read⟩
      · exact kept
      · obtain ⟨_, -, later⟩ := Option.bind_eq_some_iff.mp read
        exact ih kept later
    rw [lines?] at read
    split at read
    · cases read
      exact distinct
    · dsimp only at read
      split at read
      · obtain ⟨⟨here, grown, behind⟩, header, read⟩ := Option.bind_eq_some_iff.mp read
        refine further (nodup_keysOf_header? distinct header) ?_
        dsimp only at read
        split at read
        · exact Or.inl (Option.some.inj read)
        · exact Or.inr ⟨_, _, read⟩
      · obtain ⟨⟨path, ahead⟩, -, read⟩ := Option.bind_eq_some_iff.mp read
        obtain ⟨⟨value, after⟩, -, read⟩ := Option.bind_eq_some_iff.mp read
        obtain ⟨grown, added, read⟩ := Option.bind_eq_some_iff.mp read
        refine further (Entries.keepsDistinct_change? (Entries.keepsDistinct_add? value path) _ distinct added) ?_
        dsimp only [Option.bind_eq_bind, Option.bind_some] at read
        split at read
        · exact Or.inl (Option.some.inj read)
        · exact Or.inr ⟨_, _, read⟩

theorem keysOf_settleFields? {fields settled : Fields} (done : settleFields? fields = some settled) :
    keysOf settled = keysOf fields := by
  induction fields generalizing settled with
  | nil =>
    cases done
    rfl
  | cons field rest ih =>
    obtain ⟨key, v⟩ := field
    simp only [settleFields?, Option.bind_eq_bind, Option.bind_eq_some_iff, Option.some.injEq] at done
    obtain ⟨v, -, later, settled, rfl⟩ := done
    simpa [keysOf] using ih settled

theorem keysOf_settleDates? {fields settled : Fields}
    (done : settleDates? (.object fields) = some (.object settled)) :
    keysOf settled = keysOf fields := by
  cases fields with
  | nil =>
    cases done
    rfl
  | cons field rest =>
    obtain ⟨key, v⟩ := field
    rw [settleDates?] at done
    split at done
    · obtain ⟨s, -, dated⟩ := Option.bind_eq_some_iff.mp done
      obtain ⟨_, -, date⟩ := Option.map_eq_some_iff.mp dated
      cases date
    · simp only [Option.bind_eq_bind, Option.bind_eq_some_iff, Option.some.injEq, Value.object.injEq] at done
      obtain ⟨v, -, later, settled, rfl⟩ := done
      simpa [keysOf] using keysOf_settleFields? settled

/-- The table that a text is read as has no key twice. -/
theorem nodup_keysOf_read? {text : String} {table : Fields} (read : read? text = some (.object table)) :
    (keysOf table).Nodup := by
  obtain ⟨entries, lines, settled⟩ := Option.bind_eq_some_iff.mp read
  have distinct : (keysOf entries).Nodup := nodup_keysOf_lines? (by simp [keysOf]) lines
  rw [keysOf_settleDates? settled, Entries.keysOf_toFields]
  exact distinct

end LayeredConfig.Toml
