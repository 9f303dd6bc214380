import LayeredConfig.Proofs.Document.Footprint

namespace LayeredConfig.Document

variable {policy : Upkeep} {now : Instant} {t : FileTree} {place file : Location} {text : String}

/-- A text that reads as another value is not the one that is printed. -/
theorem print_ne_of_not_alike {v value : Value} (parsed : parse file text = .ok value) (faithful : ReadsBack v)
    (apart : v.alike value = false) : Yaml.print v ≠ text := by
  rintro rfl
  obtain ⟨w, back, alike⟩ := faithful
  rw [parse, back, Except.ok.injEq] at parsed
  rw [parsed, apart] at alike
  cases alike

theorem text_of_ofText {refreshed : Bool} {d : Document} (made : ofText file text refreshed = .ok d) :
    d.refreshed = refreshed ∧ d.rawText = text := by
  obtain ⟨_, _, _, _, _, same⟩ := ofText_eq_ok made
  rw [same]
  exact ⟨rfl, rfl⟩

/-- A load of the document at a place writes its file. -/
def Rewrites (policy : Upkeep) (now : Instant) (t : FileTree) (place : Location) : Prop :=
  ∃ u text, refresh policy now.toMillis t place.normalize = .done u (text, true)

/-- A load that does not write the file leaves the files alone, and what it loads is the
text as it was. -/
theorem load_of_not_rewrites (rests : ¬Rewrites policy now t place) :
    (load policy now t place).files = t ∧
      ∀ d, (load policy now t place).result = .ok d → d.refreshed = false ∧
        t.read place.normalize = .ok d.rawText := by
  have files : (load policy now t place).files = (refresh policy now.toMillis t place.normalize).files := rfl
  rw [files]
  rcases refresh_cases policy now.toMillis t place.normalize with
    ⟨fault, failed⟩ | ⟨text, value, own, read, parsed, top, ⟨_, kept⟩ | ⟨_, u, _, saved⟩⟩
  · refine ⟨by rw [failed, Outcome.files_failed], fun d loaded => ?_⟩
    obtain ⟨_, _, fresh, _⟩ := load_eq_ok loaded
    rw [failed] at fresh
    cases fresh
  · refine ⟨by rw [kept, Outcome.files_done], fun d loaded => ?_⟩
    obtain ⟨raw, flag, fresh, made⟩ := load_eq_ok loaded
    rw [kept, Outcome.result_done] at fresh
    cases fresh
    obtain ⟨fresh, same⟩ := text_of_ofText made
    exact ⟨fresh, same ▸ read⟩
  · exact absurd ⟨u, _, saved⟩ rests

/-- A load that writes the file passes over its text, to another one where what is written
reads back. -/
theorem load_of_rewrites (writes : Rewrites policy now t place) :
    ∃ text own after, t.read place.normalize = .ok text ∧ fieldsOf place.normalize text = .ok own ∧
      after = Yaml.print (.object (upkeep policy place.normalize.dir now.toMillis own)) ∧
      (ReadsBack (.object (upkeep policy place.normalize.dir now.toMillis own)) → after ≠ text) ∧
      (load policy now t place).files.read place.normalize = .ok after ∧
      ∀ d, (load policy now t place).result = .ok d → d.refreshed = true ∧ d.rawText = after := by
  have files : (load policy now t place).files = (refresh policy now.toMillis t place.normalize).files := rfl
  rw [files]
  obtain ⟨v, raw, fresh⟩ := writes
  rcases refresh_cases policy now.toMillis t place.normalize with
    ⟨fault, failed⟩ | ⟨text, value, own, read, parsed, top, ⟨_, kept⟩ | ⟨apart, u, wrote, saved⟩⟩
  · cases failed.symm.trans fresh
  · cases kept.symm.trans fresh
  · refine ⟨text, own, _, read, fieldsOf_eq_ok.mpr ⟨value, parsed, top⟩, rfl,
      fun faithful => print_ne_of_not_alike parsed faithful apart, ?_, fun d loaded => ?_⟩
    · rw [saved, Outcome.files_done]
      exact FileTree.read_of_write wrote
    · obtain ⟨raw, flag, again, made⟩ := load_eq_ok loaded
      rw [saved, Outcome.result_done] at again
      cases again
      exact text_of_ofText made

/-- A load leaves everything but its own file as it is, and makes no file. A document that
is loaded has the text that its file holds afterwards; it counts as refreshed when this
is not the text from before, and then it is the old one with its fields brought up to
date. A load that fails leaves the file alone as well, or leaves that text in it. -/
theorem load_effect
    (faithful : ∀ d text own, (load policy now t place).result = .ok d → d.refreshed = true →
      t.read place.normalize = .ok text → fieldsOf place.normalize text = .ok own →
      ReadsBack (.object (upkeep policy place.normalize.dir now.toMillis own))) :
    let after := load policy now t place
    t.SameShape after.files ∧
      (∀ names, t.locate place.normalize ≠ .ok names → after.files.entry? names = t.entry? names) ∧
      (∀ d, after.result = .ok d → after.files.read place.normalize = .ok d.rawText ∧
        ∃ text, t.read place.normalize = .ok text ∧ (d.refreshed = true ↔ d.rawText ≠ text) ∧
          (d.refreshed = true → Pass policy now.toMillis place.normalize text d.rawText)) ∧
      ∀ fault, after.result = .error fault → after.files = t ∨
        ∃ text raw, t.read place.normalize = .ok text ∧ Pass policy now.toMillis place.normalize text raw ∧
          after.files.read place.normalize = .ok raw := by
  intro after
  refine ⟨sameShape_load policy now t place, fun names apart => ?_, fun d loaded => ?_, fun fault failed => ?_⟩
  · exact (entry?_load policy now t place names).resolve_right fun own => apart own.1
  · by_cases writes : Rewrites policy now t place
    · obtain ⟨text, own, raw, read, known, rfl, changes, holds, made⟩ := load_of_rewrites writes
      obtain ⟨flag, same⟩ := made d loaded
      have other := changes (faithful d text own loaded flag read known)
      exact ⟨by rw [same, holds], text, read, iff_of_true flag (same ▸ other), fun _ => ⟨own, known, same⟩⟩
    · obtain ⟨kept, stays⟩ := load_of_not_rewrites writes
      obtain ⟨flag, held⟩ := stays d loaded
      exact ⟨by rw [kept, held], d.rawText, held, by simp [flag], by simp [flag]⟩
  · by_cases writes : Rewrites policy now t place
    · obtain ⟨text, own, raw, read, known, rfl, _, holds, _⟩ := load_of_rewrites writes
      exact Or.inr ⟨text, _, read, ⟨own, known, rfl⟩, holds⟩
    · exact Or.inl (load_of_not_rewrites writes).1

set_option maxRecDepth 10000 in
/-- A document without schema reference gets one when it is loaded, also where the load
fails over its parents. -/
theorem load_effect_without_schema :
    let first := oneDocument "'#A': x\n"
    let second := oneDocument "extends: 1\n"
    let file := Location.normalize ⟨"/d/a"⟩
    (∃ d, (load unstamped ⟨0, 0⟩ first ⟨"/d/a"⟩).result = .ok d ∧ d.refreshed = true ∧
        (load unstamped ⟨0, 0⟩ first ⟨"/d/a"⟩).files.read file = .ok d.rawText ∧ d.rawText ≠ "'#A': x\n" ∧
        Pass unstamped (Instant.toMillis ⟨0, 0⟩) file "'#A': x\n" d.rawText) ∧
      ∃ fault raw, (load unstamped ⟨0, 0⟩ second ⟨"/d/a"⟩).result = .error fault ∧
        (load unstamped ⟨0, 0⟩ second ⟨"/d/a"⟩).files.read file = .ok raw ∧ raw ≠ "extends: 1\n" ∧
        Pass unstamped (Instant.toMillis ⟨0, 0⟩) file "extends: 1\n" raw := by
  intro first second file
  constructor
  · have stored : first.read file = .ok "'#A': x\n" := eq_ok_of_toOption (by decide +kernel)
    have known : fieldsOf file "'#A': x\n" = .ok [("#A", .string "x")] := eq_ok_of_toOption (by decide +kernel)
    have faithful : ReadsBack (.object
        (upkeep unstamped file.dir (Instant.toMillis ⟨0, 0⟩) [("#A", .string "x")])) :=
      (Option.any_eq_true _ _).mp (by decide +kernel)
    have loads : ((load unstamped ⟨0, 0⟩ first ⟨"/d/a"⟩).result.toOption.any (·.refreshed)) = true := by
      decide +kernel
    obtain ⟨d, loaded, refreshed⟩ := exists_of_toOption_any loads
    obtain ⟨_, _, made, _⟩ := @load_effect unstamped ⟨0, 0⟩ first ⟨"/d/a"⟩ fun _ text own _ _ read fields => by
      rw [stored, Except.ok.injEq] at read
      rw [← read, known, Except.ok.injEq] at fields
      exact fields ▸ faithful
    obtain ⟨holds, text, read, changed, pass⟩ := made d loaded
    rw [stored, Except.ok.injEq] at read
    subst read
    exact ⟨d, loaded, refreshed, holds, changed.mp refreshed, pass refreshed⟩
  · have stored : second.read file = .ok "extends: 1\n" := eq_ok_of_toOption (by decide +kernel)
    have fails : (error? (load unstamped ⟨0, 0⟩ second ⟨"/d/a"⟩).result).isSome = true := by
      decide +kernel
    have changed : ((load unstamped ⟨0, 0⟩ second ⟨"/d/a"⟩).files.read file).toOption.any (· ≠ "extends: 1\n") =
        true := by
      decide +kernel
    obtain ⟨fault, failed⟩ := Option.isSome_iff_exists.mp fails
    have failed := eq_error_of_error? failed
    obtain ⟨raw, holds, other⟩ := exists_of_toOption_any changed
    obtain ⟨_, _, _, left⟩ := @load_effect unstamped ⟨0, 0⟩ second ⟨"/d/a"⟩ fun d _ _ loaded => by
      rw [failed] at loaded
      cases loaded
    refine ⟨fault, raw, failed, holds, of_decide_eq_true other, ?_⟩
    rcases left fault failed with kept | ⟨text, after, read, pass, found⟩
    · rw [kept, stored, Except.ok.injEq] at holds
      exact absurd holds.symm (of_decide_eq_true other)
    · rw [stored, Except.ok.injEq] at read
      rw [holds, Except.ok.injEq] at found
      rw [read, found]
      exact pass

end LayeredConfig.Document
