import LayeredConfig.Clock
import LayeredConfig.Proofs.Document.Upkeep
import LayeredConfig.Proofs.Location.Absolute

namespace LayeredConfig

/-- Replaces what a step finds, from left to right. The step gives what is put in
and what follows. -/
def replaceWith (step : List Char → Option (List Char × List Char)) : Nat → List Char → List Char
  | 0, cs => cs
  | _ + 1, [] => []
  | fuel + 1, c :: rest =>
    match step (c :: rest) with
    | some (new, after) => new ++ replaceWith step fuel after
    | none => c :: replaceWith step fuel rest

theorem replaceToken_eq (token new : List Char) (fuel : Nat) (cs : List Char) :
    replaceToken token new fuel cs = replaceWith (fun cs => (afterOpening? token cs).map (new, ·)) fuel cs := by
  induction fuel generalizing cs with
  | zero => rfl
  | succ fuel ih =>
    cases cs with
    | nil => rfl
    | cons c rest =>
      rw [replaceToken, replaceWith]
      cases afterOpening? token (c :: rest) <;> simp [ih]

theorem replaceCalls_eq (value : List Char → List Char) (fuel : Nat) (cs : List Char) :
    replaceCalls value fuel cs =
      replaceWith (fun cs => (resolveCall? cs).map fun call => (value call.1, call.2)) fuel cs := by
  induction fuel generalizing cs with
  | zero => rfl
  | succ fuel ih =>
    cases cs with
    | nil => rfl
    | cons c rest =>
      rw [replaceCalls, replaceWith]
      cases resolveCall? (c :: rest) <;> simp [ih]

/-- A step that acts on one opening only and puts in absolute paths. -/
structure PutsPaths (opening : List Char) (step : List Char → Option (List Char × List Char)) : Prop where
  opened : ∀ {cs new after}, step cs = some (new, after) → ∃ inside, cs = opening ++ inside
  path : ∀ {cs new after}, step cs = some (new, after) → ∃ body, new = '/' :: body

namespace PutsPaths

variable {opening : List Char} {step : List Char → Option (List Char × List Char)} (paths : PutsPaths opening step)

include paths

theorem replaceWith_of_not_mem {mark : Char} (marked : mark ∈ opening) (fuel : Nat) {cs : List Char}
    (free : mark ∉ cs) : replaceWith step fuel cs = cs := by
  induction fuel generalizing cs with
  | zero => rfl
  | succ fuel ih =>
    cases cs with
    | nil => rfl
    | cons c rest =>
      rw [replaceWith]
      cases found : step (c :: rest) with
      | none =>
        rw [List.mem_cons, not_or] at free
        simp [ih free.2]
      | some both =>
        obtain ⟨inside, same⟩ := paths.opened found
        exact absurd (same ▸ List.mem_append_left inside marked) free

theorem replaceWith_eq_or_slash (fuel : Nat) (cs : List Char) :
    replaceWith step fuel cs = cs ∨ '/' ∈ replaceWith step fuel cs := by
  induction fuel generalizing cs with
  | zero => exact Or.inl rfl
  | succ fuel ih =>
    cases cs with
    | nil => exact Or.inl rfl
    | cons c rest =>
      rw [replaceWith]
      cases found : step (c :: rest) with
      | some both =>
        obtain ⟨body, new⟩ := paths.path found
        exact Or.inr (List.mem_append_left _ (new ▸ List.mem_cons_self))
      | none =>
        rcases ih rest with same | inside
        · exact Or.inl (by simp [same])
        · exact Or.inr (List.mem_cons_of_mem c inside)

/-- The head of a text stays, or a path takes the place of the opening. -/
theorem head?_replaceWith (nonempty : opening ≠ []) (fuel : Nat) (cs : List Char) :
    (replaceWith step fuel cs).head? = cs.head? ∨
      cs.head? = opening.head? ∧ (replaceWith step fuel cs).head? = some '/' := by
  cases fuel with
  | zero => exact Or.inl rfl
  | succ fuel =>
    cases cs with
    | nil => exact Or.inl rfl
    | cons c rest =>
      rw [replaceWith]
      cases found : step (c :: rest) with
      | none => exact Or.inl rfl
      | some both =>
        obtain ⟨inside, same⟩ := paths.opened found
        obtain ⟨body, new⟩ := paths.path found
        refine Or.inr ⟨?_, by simp [new]⟩
        cases opening with
        | nil => exact absurd rfl nonempty
        | cons first others => rw [same, List.cons_append, List.head?_cons, List.head?_cons]

end PutsPaths

theorem slashed_of_isAbsolute {l : Location} (absolute : l.isAbsolute = true) :
    ∃ body, l.slashed.toList = '/' :: body := by
  obtain ⟨body, written⟩ := Location.isAbsolute_iff.mp absolute
  exact ⟨_, by rw [Location.slashed, written]; simp; rfl⟩

section Fill

variable {dir : Location} (absolute : dir.isAbsolute = true)

include absolute

theorem putsPaths_dir : PutsPaths dirToken fun cs => (afterOpening? dirToken cs).map (dir.slashed.toList, ·) where
  opened := by
    intro cs new after found
    obtain ⟨rest, opened, _⟩ := Option.map_eq_some_iff.mp found
    exact ⟨rest, afterOpening?_eq_some opened⟩
  path := by
    intro cs new after found
    obtain ⟨rest, _, same⟩ := Option.map_eq_some_iff.mp found
    cases same
    exact slashed_of_isAbsolute absolute

theorem putsPaths_calls :
    PutsPaths resolveOpening fun cs => (resolveCall? cs).map fun call =>
      ((Location.absolutize ⟨String.ofList call.1⟩ dir).slashed.toList, call.2) where
  opened := by
    intro cs new after found
    obtain ⟨call, known, _⟩ := Option.map_eq_some_iff.mp found
    obtain ⟨inside, opened, _⟩ := Option.bind_eq_some_iff.mp known
    exact ⟨inside, afterOpening?_eq_some opened⟩
  path := by
    intro cs new after found
    obtain ⟨call, _, same⟩ := Option.map_eq_some_iff.mp found
    rw [← (Prod.mk.inj same).1]
    exact slashed_of_isAbsolute (Location.isAbsolute_absolutize absolute _)

/-- A text without the characters that open placeholders is left alone. -/
theorem fillPlaceholders_of_plain {text : String} (brace : '\x7b' ∉ text.toList)
    (parenthesis : '(' ∉ text.toList) :
    fillPlaceholders text dir = text := by
  have opensToken : '\x7b' ∈ dirToken := by decide
  have opensCall : '(' ∈ resolveOpening := by decide
  have named := (putsPaths_dir absolute).replaceWith_of_not_mem opensToken (text.toList.length + 1) brace
  have called := (putsPaths_calls absolute).replaceWith_of_not_mem opensCall (text.toList.length + 1) parenthesis
  unfold fillPlaceholders
  simp only [replaceToken_eq, replaceCalls_eq, named, called, String.ofList_toList]

theorem fillPlaceholders_eq_or_slash (text : String) :
    fillPlaceholders text dir = text ∨ '/' ∈ (fillPlaceholders text dir).toList := by
  unfold fillPlaceholders
  simp only [replaceToken_eq, replaceCalls_eq, String.toList_ofList]
  rcases (putsPaths_dir absolute).replaceWith_eq_or_slash (text.toList.length + 1) text.toList with named | slash
  · rw [named]
    rcases (putsPaths_calls absolute).replaceWith_eq_or_slash (text.toList.length + 1) text.toList
      with called | slash
    · exact Or.inl (by rw [called, String.ofList_toList])
    · exact Or.inr slash
  · refine Or.inr ?_
    generalize replaceWith _ _ text.toList = named at slash
    rcases (putsPaths_calls absolute).replaceWith_eq_or_slash (named.length + 1) named with called | again
    · rwa [called]
    · exact again

theorem head?_fillPlaceholders (text : String) :
    (fillPlaceholders text dir).toList.head? = text.toList.head? ∨
      (text.toList.head? = some '\x7b' ∨ text.toList.head? = some 'r') ∧
        (fillPlaceholders text dir).toList.head? = some '/' := by
  unfold fillPlaceholders
  simp only [replaceToken_eq, replaceCalls_eq, String.toList_ofList]
  have first := (putsPaths_dir absolute).head?_replaceWith (by decide) (text.toList.length + 1) text.toList
  generalize replaceWith _ _ text.toList = named at first
  have second := (putsPaths_calls absolute).head?_replaceWith (by decide) (named.length + 1) named
  have brace : dirToken.head? = some '\x7b' := rfl
  have letter : resolveOpening.head? = some 'r' := rfl
  rw [brace] at first
  rw [letter] at second
  rcases first with same | ⟨opened, path⟩ <;> rcases second with again | ⟨call, slash⟩ <;> simp_all

theorem keepsKey_fillPlaceholders {key : String} (brace : '\x7b' ∉ key.toList) (parenthesis : '(' ∉ key.toList)
    (slash : '/' ∉ key.toList) : KeepsKey (fillPlaceholders · dir) key := by
  intro other
  constructor
  · intro filled
    rcases fillPlaceholders_eq_or_slash absolute other with same | path
    · exact same.symm.trans filled
    · exact absurd (filled ▸ path) slash
  · rintro rfl
    exact fillPlaceholders_of_plain absolute brace parenthesis

/-- Filling placeholders in keys leaves the keys with a meaning alone. -/
theorem keepsNames_fillPlaceholders : KeepsNames (fillPlaceholders · dir) where
  schema := keepsKey_fillPlaceholders absolute (by decide) (by decide) (by decide)
  nesting := keepsKey_fillPlaceholders absolute (by decide) (by decide) (by decide)
  parents := keepsKey_fillPlaceholders absolute (by decide) (by decide) (by decide)
  created := keepsKey_fillPlaceholders absolute (by decide) (by decide) (by decide)
  updated := keepsKey_fillPlaceholders absolute (by decide) (by decide) (by decide)
  entity := by
    intro key
    unfold isEntityKey
    rcases head?_fillPlaceholders absolute key with same | ⟨brace | letter, slash⟩
    · rw [same]
    · rw [brace, slash]
      rfl
    · rw [letter, slash]
      rfl

end Fill

end LayeredConfig
