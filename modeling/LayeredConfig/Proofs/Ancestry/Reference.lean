import LayeredConfig.Ancestry.Package
import LayeredConfig.Proofs.Location.Way

namespace LayeredConfig

namespace Location

/-- What a base contributes to a place are its parts. -/
theorem absolutize_congr {base other : Location} (filled : base.text ≠ "") (also : other.text ≠ "")
    (same : base.steps = other.steps) (l : Location) : l.absolutize base = l.absolutize other := by
  unfold absolutize
  split
  · rfl
  · next relative =>
    have plain : l.text.toList.head? ≠ some '/' := by simpa [isAbsolute] using relative
    refine normalize_eq_of_same (same_iff.mpr ?_)
    rw [steps_join plain (Or.inl filled), steps_join plain (Or.inl also), same]

/-- A leading dot changes nothing. -/
theorem absolutize_dot_slash {base : Location} (filled : base.text ≠ "") {way : String}
    (relative : way.toList.head? ≠ some '/') : absolutize ⟨"./" ++ way⟩ base = absolutize ⟨way⟩ base := by
  have dotted : ("./" ++ way).toList = ['.'] ++ '/' :: way.toList := by simp
  have plain : ("./" ++ way).toList.head? ≠ some '/' := by simp [dotted]
  have spells : spelled ("./" ++ way).toList = spelled way.toList := by
    rw [dotted, spelled_append_slash]
    rfl
  unfold absolutize
  rw [if_neg (by simp [isAbsolute]), if_neg (by simpa [isAbsolute] using relative)]
  refine normalize_eq_of_same (same_iff.mpr ?_)
  rw [steps_join plain (Or.inl filled), steps_join relative (Or.inl filled), spells]

variable {target dir : Location}

theorem head_referenceFrom (target dir : Location) : (target.referenceFrom dir).toList.head? = some '.' := by
  unfold referenceFrom
  dsimp only
  split
  · next up =>
    rcases up with same | front
    · rw [same]
      rfl
    · obtain ⟨rest, written⟩ := List.isPrefixOf_iff_prefix.mp front
      rw [← written]
      rfl
  · simp

/-- The way between absolute places is no absolute one. -/
theorem relative_relativeTo (absolute : target.isAbsolute = true) (canonical : target.same target.normalize = true)
    (anchored : dir.isAbsolute = true) : (target.relativeTo dir).text.toList.head? ≠ some '/' := by
  rw [relativeTo_congr (same_iff.mp canonical) rfl]
  obtain ⟨names, -, way⟩ :=
    steps_relativeTo (isAbsolute_normalize absolute) target.normalize_normalize anchored
  exact (spelled_of_steps_eq_climb way).2

/-- A reference without backslashes means the way it is made of. -/
theorem absolutize_referenceFrom (absolute : target.isAbsolute = true)
    (canonical : target.same target.normalize = true) (anchored : dir.isAbsolute = true)
    (free : target.BackslashFree) :
    absolutize ⟨target.referenceFrom dir⟩ dir = (target.relativeTo dir).absolutize dir := by
  have kept : (target.relativeTo dir).slashed = (target.relativeTo dir).text := by
    refine slashed_of_not_mem fun member => ?_
    rcases mem_of_mem_relativeTo member with own | dot | slash
    · exact free.not_mem own
    · cases dot
    · cases slash
  unfold referenceFrom
  rw [kept]
  dsimp only
  split
  · rfl
  · exact absolutize_dot_slash (text_ne_of_isAbsolute anchored) (relative_relativeTo absolute canonical anchored)

end Location

/-- A reference that begins with a dot is taken from the directory of its file. -/
theorem locateReference_of_dot {search : PackageSearch} {files : FileTree} {reference : String} {file : Location}
    (dot : reference.toList.head? = some '.') :
    locateReference search files reference file = .ok (Location.absolutize ⟨reference⟩ file.dir) := by
  simp [locateReference, dot]

/-- The way from a directory to a place leads back to the place. So does the reference made
of it, from every file in the directory; it opens with a dot, and different places have
different ones. A backslash would be read as a slash. -/
theorem referenceFrom_leads_back {target dir : Location} (absolute : target.isAbsolute = true)
    (canonical : target.same target.normalize = true) (anchored : dir.isAbsolute = true)
    (settled : dir.same dir.normalize = true) :
    ((target.relativeTo dir).absolutize dir).same target = true ∧
      (target.BackslashFree →
        (target.referenceFrom dir).toList.head? = some '.' ∧
          (∀ search files file above, file.parent? = some above → above.same dir = true →
            ∃ found, locateReference search files (target.referenceFrom dir) file = .ok found ∧
              found.same target = true) ∧
          ∀ other : Location, other.isAbsolute = true → other.same other.normalize = true → other.BackslashFree →
            other.referenceFrom dir = target.referenceFrom dir → other.same target = true) := by
  have back := Location.absolutize_relativeTo absolute canonical anchored settled
  refine ⟨back, fun free => ⟨Location.head_referenceFrom target dir, ?_, ?_⟩⟩
  · intro search files file above parent same
    have holds : file.dir = above := by rw [Location.dir, parent, Option.getD_some]
    have steps := Location.same_iff.mp same
    have filled := Location.text_ne_of_isAbsolute (Location.isAbsolute_of_steps_eq anchored steps)
    refine ⟨_, locateReference_of_dot (Location.head_referenceFrom target dir), ?_⟩
    rw [holds, Location.absolutize_congr filled (Location.text_ne_of_isAbsolute anchored) steps,
      Location.absolutize_referenceFrom absolute canonical anchored free]
    exact back
  · intro other otherAbsolute otherCanonical otherFree equal
    have there := Location.absolutize_relativeTo otherAbsolute otherCanonical anchored settled
    rw [← Location.absolutize_referenceFrom otherAbsolute otherCanonical anchored otherFree, equal,
      Location.absolutize_referenceFrom absolute canonical anchored free] at there
    exact Location.same_iff.mpr ((Location.same_iff.mp there).symm.trans (Location.same_iff.mp back))

/-- Up two directories and down into names that begin with dots, from a file whose place is
written with a doubled slash. -/
theorem referenceFrom_leads_back_to_dotted :
    let target : Location := ⟨"/ws/.hidden/..d"⟩
    let dir : Location := ⟨"/ws/a/b"⟩
    target.referenceFrom dir = "../../.hidden/..d" ∧ ((target.relativeTo dir).absolutize dir).same target = true ∧
      (∀ search files, ∃ found,
        locateReference search files (target.referenceFrom dir) ⟨"/ws/a//b/c.yaml"⟩ = .ok found ∧
          found.same target = true) ∧
      ∀ other : Location, other.isAbsolute = true → other.same other.normalize = true → other.BackslashFree →
        other.referenceFrom dir = target.referenceFrom dir → other.same target = true := by
  intro target dir
  have free : target.BackslashFree := by
    unfold Location.BackslashFree
    decide +kernel
  obtain ⟨back, leads⟩ := @referenceFrom_leads_back target dir (by decide +kernel) (by decide +kernel)
    (by decide +kernel) (by decide +kernel)
  obtain ⟨-, located, distinct⟩ := leads free
  exact ⟨by decide +kernel, back,
    fun search files => located search files _ ⟨"/ws/a//b"⟩ (by decide +kernel) (by decide +kernel), distinct⟩

end LayeredConfig
