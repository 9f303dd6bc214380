import LayeredConfig.Proofs.Combined.Evaluation

namespace LayeredConfig

namespace Compiled

variable {files : FileTree}

@[simp] theorem descend?_nil (v : Value) : descend? v [] = some v :=
  rfl

theorem descend?_cons (v : Value) (name : String) (rest : List String) :
    descend? v (name :: rest) = (v.child? name).bind (descend? · rest) :=
  List.foldlM_cons

/-- A value that can be evaluated as a whole gives the same behind names when only what
lies behind them is evaluated. -/
theorem follow_of_evaluate {c : Compiled} {v : Value} (ok : c.evaluate files = .ok v) (names : List String) :
    c.follow files names = .ok (descend? v names) := by
  induction names generalizing c v with
  | nil =>
    rw [follow, ok]
    rfl
  | cons name rest ih =>
    cases c with
    | plain w =>
      rw [evaluate] at ok
      rw [follow, Except.ok.inj ok]
    | deferred d =>
      rw [evaluate] at ok
      rw [follow, ok]
      rfl
    | object fields =>
      rw [evaluate] at ok
      obtain ⟨out, each, rfl⟩ := map_eq_ok.mp ok
      rw [follow, descend?_cons, Value.child?]
      rcases evaluateFields_lookup each name with ⟨left, right⟩ | ⟨child, w, left, right, evaluated⟩
      · simp only [left, right, Option.bind_none]
      · simp only [left, right, Option.bind_some]
        exact ih evaluated
    | array items =>
      rw [evaluate] at ok
      obtain ⟨out, each, rfl⟩ := map_eq_ok.mp ok
      rw [follow, descend?_cons, Value.child?]
      cases wordOfText? name.toList with
      | none => rfl
      | some i =>
        simp only [Option.bind_some]
        rcases evaluateItems_getElem? each i with ⟨left, right⟩ | ⟨child, w, left, right, evaluated⟩
        · simp only [left, right, Option.bind_none]
        · simp only [left, right, Option.bind_some]
          exact ih evaluated

end Compiled

namespace Configuration

variable {c : Configuration} {files : FileTree} {out : Fields}

theorem getPath_of_evaluate (ok : c.evaluate files = .ok out) (path : String) :
    c.getPath files path =
      .ok (((pieces '.' path.toList).map String.ofList).foldlM Value.child? (Value.object out)) := by
  unfold getPath
  cases segments : (pieces '.' path.toList).map String.ofList with
  | nil => exact absurd (List.map_eq_nil_iff.mp segments) (pieces_ne_nil '.' path.toList)
  | cons key rest =>
    change _ = Except.ok (Compiled.descend? (Value.object out) (key :: rest))
    rw [Compiled.descend?_cons, Value.child?]
    simp only [get?]
    rcases Compiled.evaluateFields_lookup (mapError_eq_ok.mp ok) key with
      ⟨left, right⟩ | ⟨found, v, left, right, evaluated⟩
    · simp only [left, right, Option.bind_none]
    · simp only [left, right, Option.bind_some, Compiled.follow_of_evaluate evaluated rest, Except.mapError]

/-- Looking up a dotted path evaluates no more than what lies on its way, and agrees with
evaluating everything: the value found is the one that stands at the path when the whole
configuration has values, and where the look-up fails, the whole has none. -/
theorem getPath_agrees_with_evaluate (c : Configuration) (files : FileTree) (path : String) :
    (∀ out, c.evaluate files = .ok out → c.getPath files path =
        .ok (((pieces '.' path.toList).map String.ofList).foldlM Value.child? (Value.object out))) ∧
      ∀ fault, c.getPath files path = .error fault → ∃ other, c.evaluate files = .error other := by
  refine ⟨fun out ok => getPath_of_evaluate ok path, fun fault failed => ?_⟩
  cases whole : c.evaluate files with
  | error other => exact ⟨other, rfl⟩
  | ok out =>
    rw [getPath_of_evaluate whole path] at failed
    cases failed

/-- A path through a list, an object and the value of an expression, with indices in
unusual spellings. -/
theorem getPath_agrees_behind_pick :
    let picked : Deferred := ⟨"jit(pick('p', ''))", .call .pick [.text "p", .text ""], ⟨"/d"⟩⟩
    let c : Configuration := ⟨[("#A", .array [.plain .null, .object [("m", .deferred picked)]])]⟩
    let files : FileTree :=
      ⟨[(["d"], .directory), (["d", "p"], .file (.text "\x7b\"tags\": [\"x\", \"y\"]\x7d"))], []⟩
    (∃ out, c.evaluate files = .ok out) ∧ c.getPath files "#A.+1.m.tags.01" = .ok (some (.string "y")) ∧
      (∃ fault, c.getPath .empty "#A.1.m.tags" = .error fault) ∧ ∃ other, c.evaluate .empty = .error other := by
  intro picked c files
  let out : Fields :=
    [("#A", .array [.null, .object [("m", .object [("tags", .array [.string "x", .string "y"])])]])]
  have value : c.evaluate files = .ok out := eq_ok_of_toOption (by decide +kernel)
  have reached : ((pieces '.' "#A.+1.m.tags.01".toList).map String.ofList).foldlM Value.child? (Value.object out) =
      some (.string "y") := by decide +kernel
  have lacking : (c.getPath .empty "#A.1.m.tags").toOption = none := by decide +kernel
  have failed : ∃ fault, c.getPath .empty "#A.1.m.tags" = .error fault := by
    cases result : c.getPath .empty "#A.1.m.tags" with
    | error fault => exact ⟨fault, rfl⟩
    | ok found =>
      rw [result] at lacking
      cases lacking
  have found := (getPath_agrees_with_evaluate c files "#A.+1.m.tags.01").1 out value
  rw [reached] at found
  obtain ⟨fault, fails⟩ := failed
  exact ⟨⟨out, value⟩, found, ⟨fault, fails⟩, (getPath_agrees_with_evaluate c .empty "#A.1.m.tags").2 fault fails⟩

end Configuration

end LayeredConfig
