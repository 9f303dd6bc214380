import LayeredConfig.Proofs.FileTree.Places
import LayeredConfig.Proofs.Location.Relative
import LayeredConfig.Proofs.Location.Way

namespace LayeredConfig

theorem utf8ByteSize_le_of_sublist {cs ds : List Char} (within : cs.Sublist ds) :
    (String.ofList cs).utf8ByteSize ≤ (String.ofList ds).utf8ByteSize := by
  induction within with
  | slnil => exact Nat.le_refl _
  | cons d _ ih =>
    rw [utf8ByteSize_ofList_cons]
    omega
  | cons_cons c _ ih =>
    rw [utf8ByteSize_ofList_cons, utf8ByteSize_ofList_cons]
    omega

/-- Parts behind the first one may be left out of a text. -/
theorem joinWith_sublist (sep : Char) (part : List Char) {fewer all : List (List Char)}
    (within : fewer.Sublist all) :
    (joinWith sep (part :: fewer)).Sublist (joinWith sep (part :: all)) := by
  have cut (first next : List Char) (more : List (List Char)) :
      joinWith sep (first :: next :: more) = first ++ sep :: joinWith sep (next :: more) := rfl
  induction within generalizing part with
  | slnil => exact List.Sublist.refl _
  | @cons fewer all next _ ih =>
    refine (ih part).trans ?_
    cases all with
    | nil => exact List.sublist_append_left _ _
    | cons other more =>
      have behind : (joinWith sep (other :: more)).Sublist (joinWith sep (next :: other :: more)) :=
        (List.sublist_cons_self _ _).trans (List.sublist_append_right _ _)
      rw [cut, cut part]
      exact (List.Sublist.refl part).append (behind.cons_cons sep)
  | @cons_cons fewer all next _ ih =>
    rw [cut, cut]
    exact (List.Sublist.refl part).append ((ih next).cons_cons sep)

namespace Location

theorem stepOf_injective : Function.Injective stepOf := by
  intro a b same
  unfold stepOf at same
  split at same <;> split at same
  · next left right => rw [left, right]
  · cases same
  · cases same
  · exact String.ofList_injective (Step.name.inj same)

theorem opening_of_isAbsolute {l : Location} (absolute : l.isAbsolute = true) :
    opening l.text.toList = [.root] := by
  obtain ⟨body, text⟩ := isAbsolute_iff.mp absolute
  simp [opening, text]

/-- Canonical text has no idle part behind the root. -/
theorem pieces_of_canonical {l : Location} (absolute : l.isAbsolute = true) (named : l.normalize.steps ≠ [.root]) :
    pieces '/' l.normalize.text.toList = [] :: (pieces '/' l.normalize.text.toList).filter (!idle ·) := by
  obtain ⟨names, valid, steps⟩ := steps_of_canonical (isAbsolute_normalize absolute) l.normalize_normalize
  have text : l.normalize.text.toList = '/' :: joinWith '/' (partsOf (climb 0 names)) := by
    rw [← text_ofSteps_absolute, normalize_eq, ← steps_normalize_of_isAbsolute absolute, steps]
    rfl
  have sound : ∀ part ∈ partsOf (climb 0 names), '/' ∉ part ∧ idle part = false := by
    intro part member
    obtain ⟨step, inside, rfl⟩ := List.mem_map.mp member
    exact ⟨(climb_sound valid inside).1, (climb_sound valid inside).2.1⟩
  have some_ : partsOf (climb 0 names) ≠ [] := by
    intro none_
    obtain rfl : names = [] := List.map_eq_nil_iff.mp (List.map_eq_nil_iff.mp none_)
    exact named steps
  have cut : pieces '/' l.normalize.text.toList = [] :: partsOf (climb 0 names) := by
    rw [text, pieces, if_pos rfl, pieces_joinWith some_ fun part member => (sound part member).1]
  have busy : (partsOf (climb 0 names)).filter (!idle ·) = partsOf (climb 0 names) :=
    List.filter_eq_self.mpr fun part member => by simp [(sound part member).2]
  rw [cut, List.filter_cons_of_neg (by decide), busy]

/-- A place with canonical steps has the parts of its canonical form, and idle ones. -/
theorem filter_pieces_normalize {l : Location} (absolute : l.isAbsolute = true)
    (canonical : l.same l.normalize = true) :
    (pieces '/' l.normalize.text.toList).filter (!idle ·) = (pieces '/' l.text.toList).filter (!idle ·) := by
  have same := same_iff.mp canonical
  rw [steps_eq, steps_eq l.normalize, opening_of_isAbsolute absolute,
    opening_of_isAbsolute (isAbsolute_normalize absolute)] at same
  exact (stepOf_injective.list_map (List.append_cancel_left same)).symm

/-- The canonical text is what is left of the text of the place without idle parts. -/
theorem text_normalize_sublist {l : Location} (absolute : l.isAbsolute = true)
    (canonical : l.same l.normalize = true) (named : l.steps ≠ [.root]) :
    l.normalize.text.toList.Sublist l.text.toList := by
  obtain ⟨body, text⟩ := isAbsolute_iff.mp absolute
  have cut : pieces '/' l.text.toList = [] :: pieces '/' body := by rw [text, pieces, if_pos rfl]
  rw [← joinWith_pieces '/' l.normalize.text.toList, ← joinWith_pieces '/' l.text.toList,
    pieces_of_canonical absolute (same_iff.mp canonical ▸ named), filter_pieces_normalize absolute canonical, cut,
    List.filter_cons_of_neg (by decide)]
  exact joinWith_sublist '/' [] List.filter_sublist

end Location

namespace FileTree

variable {t : FileTree} {l : Location}

/-- Parts that count for nothing may be left out of the way to an entry. -/
theorem walk_filter_idle {dir names : List String} {parts : List (List Char)}
    (walked : t.walk dir parts = .ok names) :
    t.walk dir (parts.filter (!Location.idle ·)) = .ok names := by
  induction parts generalizing dir with
  | nil => exact walked
  | cons part rest ih =>
    rw [walk] at walked
    split at walked
    · cases walked
    · cases walked
    · next directory =>
      split at walked
      · next quiet => simpa [quiet] using ih walked
      · next busy =>
        rw [List.filter_cons_of_pos (by simpa using busy), walk, directory]
        simp only [busy, Bool.false_eq_true, if_false]
        split at walked
        · next dots =>
          rw [if_pos dots]
          exact ih walked
        · next apart =>
          rw [if_neg apart]
          dsimp only at walked
          split at walked
          · cases walked
          · next short =>
            rw [if_neg short]
            exact ih walked

theorem checkPlace_eq_ok_iff :
    checkPlace l = .ok () ↔ l.text ≠ "" ∧ '\x00' ∉ l.text.toList ∧ l.text.utf8ByteSize ≤ longestPlace := by
  unfold checkPlace
  split
  · simp [*]
  · split <;> simp_all

/-- What is a file is one under its canonical place. -/
theorem isFile_normalize (absolute : l.isAbsolute = true) (canonical : l.same l.normalize = true)
    (file : t.isFile l = true) : t.isFile l.normalize = true := by
  obtain ⟨names, body, located, found⟩ := isFile_eq_true file
  have named : l.steps ≠ [.root] := by
    intro root
    have top : names = [] := by simpa [root, Step.move] using (locate_eq_ok located).2
    rw [top] at found
    cases found
  have fewer := Location.text_normalize_sublist absolute canonical named
  have own := Location.isAbsolute_normalize absolute
  unfold locate at located
  cases checked : checkPlace l with
  | error fault => simp [checked, bind, Except.bind] at located
  | ok u =>
    simp only [checked, bind, Except.bind, follow, absolute, if_true] at located
    obtain ⟨_, textual, short⟩ := checkPlace_eq_ok_iff.mp checked
    have less : l.normalize.text.utf8ByteSize ≤ l.text.utf8ByteSize := by
      simpa using utf8ByteSize_le_of_sublist fewer
    have fits : checkPlace l.normalize = .ok () :=
      checkPlace_eq_ok_iff.mpr ⟨l.text_normalize_ne, fun zero => textual (fewer.subset zero),
        Nat.le_trans less short⟩
    have leads : t.walk [] (pieces '/' l.normalize.text.toList) = .ok names := by
      rw [Location.pieces_of_canonical absolute (Location.same_iff.mp canonical ▸ named),
        Location.filter_pieces_normalize absolute canonical]
      exact walk_filter_idle located
    refine isFile_of_entry? ?_ found
    simp only [locate, fits, bind, Except.bind, follow, own, if_true]
    exact leads

end FileTree

end LayeredConfig
