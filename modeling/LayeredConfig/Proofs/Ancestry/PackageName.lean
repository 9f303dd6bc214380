import LayeredConfig.Ancestry.Package
import LayeredConfig.Proofs.Text.Cut

namespace LayeredConfig

namespace PackageReference

section Segments

variable {count lead bytes : Nat} {parts : List (List Char)}

/-- A name is missing when one of its segments is, or does not name anything. -/
theorem nameBytes?_eq_none_iff :
    nameBytes? count lead parts = none ↔
      ∃ i < count, parts[i]? = none ∨ parts[i]? = some [] ∨ parts[i]? = some ['@'] := by
  induction count generalizing lead parts with
  | zero => simp [nameBytes?]
  | succ count ih =>
    cases parts with
    | nil => exact iff_of_true rfl ⟨0, Nat.succ_pos count, Or.inl rfl⟩
    | cons part rest =>
      rw [Nat.exists_lt_succ_left, nameBytes?]
      by_cases unnamed : part = [] ∨ part = ['@']
      · simp [unnamed]
      · simp [unnamed, ih]

theorem nameBytes?_succ_eq_some (named : nameBytes? (count + 1) lead parts = some bytes) :
    ∃ part rest later, parts = part :: rest ∧ nameBytes? count 1 rest = some later ∧
      bytes = lead + (String.ofList part).utf8ByteSize + later := by
  cases parts with
  | nil => simp [nameBytes?] at named
  | cons part rest =>
    rw [nameBytes?] at named
    split at named
    · cases named
    · obtain ⟨later, found, rfl⟩ := Option.map_eq_some_iff.mp named
      exact ⟨part, rest, later, rfl, found, rfl⟩

/-- The bytes of a name are those of its segments, with a slash between two neighbours. -/
theorem nameBytes?_eq_some (named : nameBytes? (count + 1) lead parts = some bytes) :
    ∃ name behind, parts = name ++ behind ∧ name.length = count + 1 ∧
      bytes = lead + (String.ofList (joinWith '/' name)).utf8ByteSize := by
  induction count generalizing lead parts bytes with
  | zero =>
    obtain ⟨part, rest, later, rfl, last, rfl⟩ := nameBytes?_succ_eq_some named
    cases last
    exact ⟨[part], rest, rfl, rfl, rfl⟩
  | succ count ih =>
    obtain ⟨part, rest, later, rfl, more, rfl⟩ := nameBytes?_succ_eq_some named
    obtain ⟨name, behind, rfl, length, rfl⟩ := ih more
    have some_ : name ≠ [] := List.ne_nil_of_length_eq_add_one length
    -- the slash before the later segments, which `lead` counts, is the one between the two runs
    refine ⟨part :: name, behind, rfl, by rw [List.length_cons, length], ?_⟩
    rw [← List.singleton_append, joinWith_append '/' (by simp) some_, String.ofList_append,
      String.utf8ByteSize_append, utf8ByteSize_ofList_cons]
    have slash : '/'.utf8Size = 1 := rfl
    simp only [joinWith]
    omega

end Segments

variable {reference : String} {stop : Nat} {r : PackageReference}

theorem nameLength_ne_zero (reference : String) : nameLength reference ≠ 0 := by
  unfold nameLength
  split <;> simp

theorem name_ne_nil {name : List (List Char)} (length : name.length = nameLength reference) : name ≠ [] := by
  rintro rfl
  exact nameLength_ne_zero reference length.symm

/-- The name ends where the segments that make it do. -/
theorem nameEnd?_eq_some (found : nameEnd? reference = some stop) :
    ∃ name behind, pieces '/' reference.toList = name ++ behind ∧ name.length = nameLength reference ∧
      (String.ofList (joinWith '/' name)).utf8ByteSize = stop := by
  obtain ⟨more, count⟩ := Nat.exists_eq_succ_of_ne_zero (nameLength_ne_zero reference)
  rw [nameEnd?, count] at found
  obtain ⟨name, behind, parts, length, bytes⟩ := nameBytes?_eq_some found
  exact ⟨name, behind, parts, length.trans count.symm, by omega⟩

/-- Behind the first segments of a text there is a slash, or nothing. -/
theorem text_of_pieces {cs : List Char} {name behind : List (List Char)} (parts : pieces '/' cs = name ++ behind)
    (some_ : name ≠ []) :
    cs = joinWith '/' name ∧ behind = [] ∨ cs = joinWith '/' name ++ '/' :: joinWith '/' behind := by
  have whole := joinWith_pieces '/' cs
  rw [parts] at whole
  by_cases last : behind = []
  · rw [last, List.append_nil] at whole
    exact Or.inl ⟨whole.symm, last⟩
  · rw [joinWith_append '/' some_ last] at whole
    exact Or.inr whole.symm

/-- The cuts behind the name: it is the whole text, or the byte behind it is a slash. -/
theorem cuts_of_nameEnd? (found : nameEnd? reference = some stop) :
    ∃ name behind, pieces '/' reference.toList = name ++ behind ∧ name.length = nameLength reference ∧
      (behind = [] ∧ cutAt? stop reference.toList = some (joinWith '/' name, []) ∧
          cutAt? (stop + 1) reference.toList = none ∨
        cutAt? stop reference.toList = some (joinWith '/' name, '/' :: joinWith '/' behind) ∧
          cutAt? (stop + 1) reference.toList = some (joinWith '/' name ++ ['/'], joinWith '/' behind)) := by
  obtain ⟨name, behind, parts, length, size⟩ := nameEnd?_eq_some found
  refine ⟨name, behind, parts, length, ?_⟩
  rcases text_of_pieces parts (name_ne_nil length) with ⟨whole, last⟩ | whole
  · have package := cutAt?_append (joinWith '/' name) []
    rw [size, List.append_nil, ← whole] at package
    exact Or.inl ⟨last, whole ▸ package, cutAt?_eq_none_of_lt (by rw [whole]; omega)⟩
  · have package := cutAt?_append (joinWith '/' name) ('/' :: joinWith '/' behind)
    have remainder := cutAt?_append (joinWith '/' name ++ ['/']) (joinWith '/' behind)
    have slash : (String.ofList ['/']).utf8ByteSize = 1 := rfl
    rw [String.ofList_append, String.utf8ByteSize_append, size, slash, ← List.append_cons, ← whole] at remainder
    rw [size, ← whole] at package
    exact Or.inr ⟨package, remainder⟩

/-- What a reference is split into are its segments, those that name the package and
those behind them. -/
theorem ofText?_of_nameEnd? (found : nameEnd? reference = some stop) :
    ∃ name behind, pieces '/' reference.toList = name ++ behind ∧ name.length = nameLength reference ∧
      ofText? reference = some ⟨String.ofList (joinWith '/' name), String.ofList (joinWith '/' behind)⟩ := by
  obtain ⟨name, behind, parts, length, ⟨rfl, package, past⟩ | ⟨package, remainder⟩⟩ := cuts_of_nameEnd? found
  · exact ⟨name, [], parts, length, by simp [ofText?, found, package, past, joinWith]⟩
  · exact ⟨name, behind, parts, length, by simp [ofText?, found, package, remainder]⟩

theorem ofText?_eq_none_iff : ofText? reference = none ↔ nameEnd? reference = none := by
  constructor
  · intro unnamed
    cases found : nameEnd? reference with
    | none => rfl
    | some stop =>
      obtain ⟨name, behind, -, -, cut⟩ := ofText?_of_nameEnd? found
      rw [cut] at unnamed
      cases unnamed
  · intro unnamed
    simp [ofText?, unnamed]

/-- All that a reference with a package is split into. -/
theorem ofText?_eq_some (cut : ofText? reference = some r) :
    ∃ name behind, pieces '/' reference.toList = name ++ behind ∧ name.length = nameLength reference ∧
      r = ⟨String.ofList (joinWith '/' name), String.ofList (joinWith '/' behind)⟩ := by
  cases found : nameEnd? reference with
  | none =>
    rw [ofText?_eq_none_iff.mpr found] at cut
    cases cut
  | some stop =>
    obtain ⟨name, behind, parts, length, same⟩ := ofText?_of_nameEnd? found
    exact ⟨name, behind, parts, length, Option.some.inj (cut.symm.trans same)⟩

theorem ne_nil_of_mem_name {name behind : List (List Char)} {part : List Char} (cut : ofText? reference = some r)
    (parts : pieces '/' reference.toList = name ++ behind) (length : name.length = nameLength reference)
    (member : part ∈ name) : part ≠ [] := by
  rintro rfl
  obtain ⟨i, inside, here⟩ := List.getElem_of_mem member
  have empty : (name ++ behind)[i]? = some [] := by
    rw [List.getElem?_append_left inside, List.getElem?_eq_getElem inside, here]
  have unnamed : nameEnd? reference = none :=
    nameBytes?_eq_none_iff.mpr ⟨i, length ▸ inside, Or.inr (Or.inl (parts ▸ empty))⟩
  rw [ofText?_eq_none_iff.mpr unnamed] at cut
  cases cut

/-- A reference is only cut where characters end. It has no package exactly when one of
the segments that would name it is missing, empty or an at sign alone. Otherwise these
segments are the name, and the reference is the name alone or goes on behind a slash. -/
theorem ofText?_loses_nothing (reference : String) :
    let parts := reference.toList.splitOn '/'
    (∀ stop, nameEnd? reference = some stop →
        String.Pos.Raw.IsValid reference ⟨stop⟩ ∧
          (stop = reference.utf8ByteSize ∨ String.Pos.Raw.IsValid reference ⟨stop + 1⟩)) ∧
      (ofText? reference = none ↔
        ∃ i < nameLength reference, parts[i]? = none ∨ parts[i]? = some [] ∨ parts[i]? = some ['@']) ∧
      ∀ r, ofText? reference = some r →
        r.package.toList = ['/'].intercalate (parts.take (nameLength reference)) ∧
          (reference = r.package ∧ r.remainder = "" ∨ reference = r.package ++ "/" ++ r.remainder) := by
  intro parts
  have split : pieces '/' reference.toList = parts := pieces_eq_splitOn '/' reference.toList
  refine ⟨fun stop found => ?_, ?_, fun r cut => ?_⟩
  · obtain ⟨name, behind, -, -, ⟨rfl, package, past⟩ | ⟨package, remainder⟩⟩ := cuts_of_nameEnd? found
    · obtain ⟨whole, size⟩ := cutAt?_eq_some_iff.mp package
      refine ⟨isSome_cutAt?_iff.mp (by rw [package]; rfl), Or.inl ?_⟩
      rw [← size, ← List.append_nil (joinWith '/' name), ← whole, String.ofList_toList]
    · exact ⟨isSome_cutAt?_iff.mp (by rw [package]; rfl), Or.inr (isSome_cutAt?_iff.mp (by rw [remainder]; rfl))⟩
  · rw [ofText?_eq_none_iff, nameEnd?, nameBytes?_eq_none_iff, split]
  · obtain ⟨name, behind, apart, length, rfl⟩ := ofText?_eq_some cut
    have taken : parts.take (nameLength reference) = name := by
      rw [← split, apart, List.take_left' length]
    refine ⟨by rw [taken, String.toList_ofList, joinWith_eq_intercalate], ?_⟩
    rcases text_of_pieces apart (name_ne_nil length) with ⟨whole, rfl⟩ | whole
    · exact Or.inl ⟨by rw [← whole, String.ofList_toList], rfl⟩
    · refine Or.inr (String.toList_inj.mp ?_)
      simp [whole]

theorem ofText?_loses_nothing_wide :
    let reference := "@é/日//x.yaml"
    nameEnd? reference = some 7 ∧ String.Pos.Raw.IsValid reference ⟨7⟩ ∧ String.Pos.Raw.IsValid reference ⟨8⟩ ∧
      ofText? reference = some ⟨"@é/日", "/x.yaml"⟩ ∧
      "@é/日".toList = ['/'].intercalate ((reference.toList.splitOn '/').take 2) ∧
      reference = "@é/日" ++ "/" ++ "/x.yaml" := by
  intro reference
  have stop : nameEnd? reference = some 7 := by decide +kernel
  have cut : ofText? reference = some ⟨"@é/日", "/x.yaml"⟩ := by decide +kernel
  obtain ⟨between, -, parts⟩ := ofText?_loses_nothing reference
  obtain ⟨front, last | behind⟩ := between 7 stop
  · exact absurd last (by decide +kernel)
  obtain ⟨package, ⟨-, none_⟩ | whole⟩ := parts _ cut
  · exact absurd none_ (by decide)
  have count : nameLength reference = 2 := by decide +kernel
  rw [count] at package
  exact ⟨stop, front, behind, cut, package, whole⟩

end PackageReference

end LayeredConfig
