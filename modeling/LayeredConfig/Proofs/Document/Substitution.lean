import LayeredConfig.Proofs.Document.Placeholder
import LayeredConfig.Proofs.Text.Cut

namespace LayeredConfig

/-- A text cut at every occurrence of a mark. -/
structure CutAt (mark cs first : List Char) (rest : List (List Char)) : Prop where
  whole : cs = first ++ rest.flatMap (mark ++ ·)
  free : ∀ piece ∈ first :: rest, ¬mark <:+: piece

/-- Every text can be cut at a mark. -/
theorem exists_cutAt {mark : List Char} (filled : mark ≠ []) (cs : List Char) :
    ∃ first rest, CutAt mark cs first rest := by
  induction length : cs.length using Nat.strongRecOn generalizing cs with
  | _ n ih =>
    subst length
    by_cases here : mark <+: cs
    · obtain ⟨behind, rfl⟩ := here
      have shorter : behind.length < (mark ++ behind).length := by
        have letters := List.length_pos_iff.mpr filled
        rw [List.length_append]
        omega
      obtain ⟨first, rest, cut⟩ := ih behind.length shorter behind rfl
      refine ⟨[], first :: rest, by rw [cut.whole]; simp, List.forall_mem_cons.mpr ⟨?_, cut.free⟩⟩
      exact fun within => filled (List.eq_nil_of_infix_nil within)
    · cases cs with
      | nil => exact ⟨[], [], rfl, by simpa using filled⟩
      | cons c behind =>
        obtain ⟨first, rest, cut⟩ := ih behind.length (Nat.lt_succ_self _) behind rfl
        obtain ⟨free, others⟩ := List.forall_mem_cons.mp cut.free
        refine ⟨c :: first, rest, by rw [cut.whole, List.cons_append], List.forall_mem_cons.mpr ⟨?_, others⟩⟩
        intro within
        rcases List.infix_cons_iff.mp within with start | later
        · rw [cut.whole, ← List.cons_append] at here
          exact here (start.trans (List.prefix_append _ _))
        · exact free later

/-- The first letter of a mark comes once in it, so two occurrences never overlap. -/
def HeadOnce (mark : List Char) : Prop :=
  ∃ first others, mark = first :: others ∧ first ∉ others

/-- No mark begins inside a piece that holds none, also not when another mark follows. -/
theorem HeadOnce.not_prefix_append {mark piece rest : List Char} (once : HeadOnce mark) (some_ : piece ≠ [])
    (free : ¬mark <:+: piece) (next : rest = [] ∨ mark <+: rest) : ¬mark <+: piece ++ rest := by
  obtain ⟨first, others, rfl, apart⟩ := once
  obtain ⟨c, letters, rfl⟩ := List.exists_cons_of_ne_nil some_
  rintro ⟨behind, same⟩
  rcases List.append_eq_append_iff.mp same with ⟨more, whole, -⟩ | ⟨more, whole, ahead⟩
  · exact free (whole ▸ (List.prefix_append _ _).isInfix)
  · cases more with
    | nil => exact free ⟨[], [], by simpa using whole⟩
    | cons d more =>
      rw [List.cons_append, List.cons.injEq] at whole
      rcases next with none_ | ⟨after, start⟩
      · rw [none_] at ahead
        cases ahead
      · rw [ahead, List.cons_append, List.cons_append, List.cons.injEq] at start
        rw [whole.2, start.1] at apart
        exact apart (List.mem_append_right _ List.mem_cons_self)

section Replace

variable {α : Type} {mark : List Char} {step : List Char → Option (List Char × List Char)}
  {found new : α → List Char} {piece rest : List Char}

/-- A step that finds given texts and puts another in the place of each. Wherever it finds something, a
mark stands. -/
structure Finds (mark : List Char) (step : List Char → Option (List Char × List Char))
    (found new : α → List Char) : Prop where
  once : HeadOnce mark
  marked : ∀ {cs result}, step cs = some result → mark <+: cs
  begins : ∀ a, mark <+: found a
  finds : ∀ a rest, step (found a ++ rest) = some (new a, rest)

namespace Finds

variable (steps : Finds mark step found new)

include steps

/-- A piece without a mark is passed over letter by letter. -/
theorem replaceWith_piece (free : ¬mark <:+: piece) (next : rest = [] ∨ mark <+: rest) {fuel : Nat}
    (enough : piece.length ≤ fuel) :
    replaceWith step fuel (piece ++ rest) = piece ++ replaceWith step (fuel - piece.length) rest := by
  induction piece generalizing fuel with
  | nil => rfl
  | cons c letters ih =>
    cases fuel with
    | zero => cases enough
    | succ fuel =>
      have nothing : step (c :: (letters ++ rest)) = none := by
        cases hit : step (c :: (letters ++ rest)) with
        | none => rfl
        | some result =>
          exact absurd (steps.marked hit) (steps.once.not_prefix_append (List.cons_ne_nil c letters) free next)
      have fewer : ¬mark <:+: letters := fun within => free (within.trans (List.suffix_cons c letters).isInfix)
      rw [List.cons_append, replaceWith, nothing]
      simp only [ih fewer (Nat.le_of_succ_le_succ enough), List.length_cons, Nat.add_sub_add_right,
        List.cons_append]

theorem replaceWith_found {fuel : Nat} (enough : 0 < fuel) (a : α) (rest : List Char) :
    replaceWith step fuel (found a ++ rest) = new a ++ replaceWith step (fuel - 1) rest := by
  obtain ⟨first, others, filled, -⟩ := steps.once
  obtain ⟨behind, start⟩ := steps.begins a
  obtain ⟨fuel, rfl⟩ := Nat.exists_eq_add_one_of_ne_zero (Nat.ne_of_gt enough)
  have hit := steps.finds a rest
  have written : found a ++ rest = first :: (others ++ behind ++ rest) := by rw [← start, filled]; simp
  rw [written] at hit ⊢
  rw [replaceWith, hit]
  rfl

/-- Between the findings everything stays, and each finding gives place to its text. -/
theorem replaceWith_cut {items : List (α × List Char)} {front : List Char}
    (free : ∀ piece ∈ front :: items.map Prod.snd, ¬mark <:+: piece) {fuel : Nat}
    (enough : (front ++ items.flatMap fun item => found item.1 ++ item.2).length ≤ fuel) :
    replaceWith step fuel (front ++ items.flatMap fun item => found item.1 ++ item.2) =
      front ++ items.flatMap fun item => new item.1 ++ item.2 := by
  induction items generalizing front fuel with
  | nil =>
    have long : front.length ≤ fuel := by simpa using enough
    have passed := steps.replaceWith_piece (free front List.mem_cons_self) (Or.inl rfl) long
    rw [List.flatMap_nil, passed]
    cases fuel - front.length <;> rfl
  | cons item items ih =>
    obtain ⟨own, others⟩ := List.forall_mem_cons.mp free
    have next : mark <+: found item.1 ++ (item.2 ++ items.flatMap fun item => found item.1 ++ item.2) :=
      (steps.begins item.1).trans (List.prefix_append _ _)
    have long : 0 < (found item.1).length := by
      obtain ⟨first, letters, filled, -⟩ := steps.once
      have letters := (steps.begins item.1).length_le
      rw [filled] at letters
      exact Nat.lt_of_lt_of_le (Nat.succ_pos _) letters
    rw [List.flatMap_cons, List.append_assoc] at enough ⊢
    rw [List.length_append, List.length_append] at enough
    rw [steps.replaceWith_piece own (Or.inr next) (by omega), steps.replaceWith_found (by omega),
      ih others (by omega), List.flatMap_cons, List.append_assoc]

end Finds

/-- Where a step finds nothing, all stays. -/
theorem replaceWith_of_nothing (fuel : Nat) {cs : List Char}
    (nothing : ∀ {part result}, part <:+ cs → step part ≠ some result) : replaceWith step fuel cs = cs := by
  induction fuel generalizing cs with
  | zero => rfl
  | succ fuel ih =>
    cases cs with
    | nil => rfl
    | cons c rest =>
      have missed : step (c :: rest) = none := by
        cases hit : step (c :: rest) with
        | none => rfl
        | some result => exact absurd hit (nothing List.suffix_rfl)
      rw [replaceWith, missed]
      simp only [ih fun within => nothing (within.trans (List.suffix_cons c rest))]

end Replace

/-- A call as it may be written: a literal in quotes that it does not hold itself, with blanks
around it. -/
structure WrittenCall where
  before : List Char
  quote : Char
  literal : List Char
  after : List Char
  blank_before : before.all isAsciiBlank = true
  quoted : quote = '\'' ∨ quote = '"'
  closed : quote ∉ literal
  blank_after : after.all isAsciiBlank = true

namespace WrittenCall

def text (c : WrittenCall) : List Char :=
  resolveOpening ++ (c.before ++ c.quote :: (c.literal ++ c.quote :: (c.after ++ [')'])))

theorem resolveCall?_text_append (c : WrittenCall) (rest : List Char) :
    resolveCall? (c.text ++ rest) = some (c.literal, rest) := by
  have quote_not_blank : isAsciiBlank c.quote = false := by
    rcases c.quoted with single | double
    · rw [single]
      rfl
    · rw [double]
      rfl
  have inside : ∀ d ∈ c.literal, decide (d ≠ c.quote) = true := fun d member => by
    simpa using fun same : d = c.quote => c.closed (same ▸ member)
  have lead : (c.before ++ c.quote :: (c.literal ++ c.quote :: (c.after ++ ')' :: rest))).dropWhile isAsciiBlank =
      c.quote :: (c.literal ++ c.quote :: (c.after ++ ')' :: rest)) :=
    dropWhile_append_cons (List.all_eq_true.mp c.blank_before) quote_not_blank
  have body : (c.literal ++ c.quote :: (c.after ++ ')' :: rest)).dropWhile (· ≠ c.quote) =
      c.quote :: (c.after ++ ')' :: rest) := dropWhile_append_cons inside (by simp)
  have literal : (c.literal ++ c.quote :: (c.after ++ ')' :: rest)).takeWhile (· ≠ c.quote) = c.literal :=
    takeWhile_append_cons inside (by simp)
  have trail : (c.after ++ ')' :: rest).dropWhile isAsciiBlank = ')' :: rest :=
    dropWhile_append_cons (List.all_eq_true.mp c.blank_after) rfl
  have written : c.text ++ rest =
      resolveOpening ++ (c.before ++ c.quote :: (c.literal ++ c.quote :: (c.after ++ ')' :: rest))) := by
        simp [text]
  rw [resolveCall?, written, afterOpening?_append]
  simp only [Option.bind_eq_bind, Option.bind_some, lead, c.quoted, if_true, body, trail, literal]

/-- Whatever is taken for a call is one as it may be written. -/
theorem exists_of_resolveCall? {cs literal rest : List Char} (called : resolveCall? cs = some (literal, rest)) :
    ∃ c : WrittenCall, c.literal = literal ∧ cs = c.text ++ rest := by
  obtain ⟨inside, opened, called⟩ := Option.bind_eq_some_iff.mp called
  split at called
  · cases called
  · next quote body lead =>
    split at called
    · next quoted =>
      split at called
      · cases called
      · next closing behind ended =>
        split at called
        · next tail trail =>
          cases called
          obtain ⟨first, -, -⟩ := of_dropWhile_eq_cons lead
          obtain ⟨second, apart, stop⟩ := of_dropWhile_eq_cons ended
          obtain ⟨third, -, -⟩ := of_dropWhile_eq_cons trail
          obtain rfl : closing = quote := by simpa using stop
          refine ⟨⟨inside.takeWhile isAsciiBlank, closing, body.takeWhile (· ≠ closing),
            behind.takeWhile isAsciiBlank, List.all_takeWhile, quoted, fun within => ?_,
            List.all_takeWhile⟩, rfl, ?_⟩
          · simpa using apart closing within
          · rw [afterOpening?_eq_some opened, text]
            simp only [List.append_assoc, List.cons_append, List.nil_append, ← third, ← second]
            rw [← first]
        · cases called
    · cases called

theorem resolveOpening_prefix_text (c : WrittenCall) : resolveOpening <+: c.text :=
  List.prefix_append _ _

end WrittenCall

theorem finds_dirToken (new : List Char) :
    Finds dirToken (fun cs => (afterOpening? dirToken cs).map (new, ·))
    (fun _ : Unit => dirToken) fun _ => new where
  once := ⟨'\x7b', "__dirname\x7d".toList, by decide, by decide⟩
  marked := by
    intro cs result hit
    obtain ⟨after, opened, -⟩ := Option.map_eq_some_iff.mp hit
    exact afterOpening?_eq_some opened ▸ List.prefix_append _ _
  begins := fun _ => List.prefix_rfl
  finds := fun _ rest => by rw [afterOpening?_append, Option.map_some]

theorem finds_calls (value : List Char → List Char) :
    Finds resolveOpening (fun cs => (resolveCall? cs).map fun call => (value call.1, call.2)) WrittenCall.text
      fun c => value c.literal where
  once := ⟨'r', "esolve(".toList, by decide, by decide⟩
  marked := by
    intro cs result hit
    obtain ⟨⟨literal, rest⟩, called, -⟩ := Option.map_eq_some_iff.mp hit
    obtain ⟨c, -, written⟩ := WrittenCall.exists_of_resolveCall? called
    exact written ▸ c.resolveOpening_prefix_text.trans (List.prefix_append _ _)
  begins := WrittenCall.resolveOpening_prefix_text
  finds := fun c rest => by rw [c.resolveCall?_text_append, Option.map_some]

/-- Each directory token gives place to the directory. -/
theorem replaceToken_of_cutAt {cs first : List Char} {rest : List (List Char)} (cut : CutAt dirToken cs first rest)
    (new : List Char) {fuel : Nat} (enough : cs.length ≤ fuel) :
    replaceToken dirToken new fuel cs = first ++ rest.flatMap (new ++ ·) := by
  let items := rest.map ((), ·)
  have free : ∀ piece ∈ first :: items.map Prod.snd, ¬dirToken <:+: piece := by
    simpa [items, Function.comp_def] using cut.free
  have long : (first ++ items.flatMap fun item => dirToken ++ item.2).length ≤ fuel := by
    simpa [items, List.flatMap_map, cut.whole] using enough
  have replaced := (finds_dirToken new).replaceWith_cut free long
  rw [replaceToken_eq, cut.whole]
  simpa [items, List.flatMap_map] using replaced

/-- The calls are looked for in the text in which the directory stands for its token. -/
theorem toList_fillPlaceholders_of_cutAt {text : String} {first : List Char} {rest : List (List Char)}
    (cut : CutAt dirToken text.toList first rest) (dir : Location) :
    (fillPlaceholders text dir).toList =
      replaceCalls (fun literal => (Location.absolutize ⟨String.ofList literal⟩ dir).slashed.toList)
        ((first ++ rest.flatMap (dir.slashed.toList ++ ·)).length + 1)
        (first ++ rest.flatMap (dir.slashed.toList ++ ·)) := by
  rw [fillPlaceholders, String.toList_ofList]
  rw [replaceToken_of_cutAt cut _ (Nat.le_succ _)]

/-- Filling replaces each directory token and then each call, and nothing else. -/
theorem fillPlaceholders_replaces (text : String) (dir : Location) :
    (∃ first rest, CutAt dirToken text.toList first rest) ∧
      (∀ first rest, CutAt dirToken text.toList first rest → ∀ front (calls : List (WrittenCall × List Char)),
        first ++ rest.flatMap (dir.slashed.toList ++ ·) = front ++
          calls.flatMap (fun call => call.1.text ++ call.2) →
        (∀ piece ∈ front :: calls.map Prod.snd, ¬resolveOpening <:+: piece) →
        (fillPlaceholders text dir).toList = front ++ calls.flatMap fun call =>
          (Location.absolutize ⟨String.ofList call.1.literal⟩ dir).slashed.toList ++ call.2) ∧
      (¬dirToken <:+: text.toList → (∀ c : WrittenCall, ¬c.text <:+: text.toList) →
        fillPlaceholders text dir = text) := by
  refine ⟨exists_cutAt (by decide) _, ?_, ?_⟩
  · intro first rest cut front calls written free
    have replaced := (finds_calls fun literal =>
      (Location.absolutize ⟨String.ofList literal⟩ dir).slashed.toList).replaceWith_cut free (Nat.le_succ _)
    rw [toList_fillPlaceholders_of_cutAt cut, written, replaceCalls_eq]
    exact replaced
  · intro noToken noCall
    have cut : CutAt dirToken text.toList text.toList [] := ⟨by simp, by simpa using noToken⟩
    rw [← String.toList_inj, toList_fillPlaceholders_of_cutAt cut, List.flatMap_nil, List.append_nil,
      replaceCalls_eq]
    refine replaceWith_of_nothing _ fun within hit => ?_
    obtain ⟨⟨literal, rest⟩, called, -⟩ := Option.map_eq_some_iff.mp hit
    obtain ⟨c, -, rfl⟩ := WrittenCall.exists_of_resolveCall? called
    exact noCall c ((List.prefix_append c.text rest).isInfix.trans within.isInfix)

/-- A call in two lines with the directory in its literal, and beside it one whose literal looks like a call. -/
def twoCalls : String :=
  "a: resolve(\n  '\x7b__dirname\x7d/../x' )resolve(\"it's resolve('y')\")\nb: resolved(z)"

theorem fillPlaceholders_twoCalls :
    (fillPlaceholders twoCalls ⟨"/ws/pkg"⟩).toList =
      "a: /ws/x/ws/pkg/it's resolve('y')\nb: resolved(z)".toList := by
  have cut : CutAt dirToken twoCalls.toList "a: resolve(\n  '".toList
      ["/../x' )resolve(\"it's resolve('y')\")\nb: resolved(z)".toList] := ⟨by decide +kernel, by decide +kernel⟩
  have filled := (fillPlaceholders_replaces twoCalls ⟨"/ws/pkg"⟩).2.1 _ _ cut "a: ".toList
    [(⟨"\n  ".toList, '\'', "/ws/pkg/../x".toList, [' '], rfl, by decide, by decide, rfl⟩, []),
      (⟨[], '"', "it's resolve('y')".toList, [], rfl, by decide, by decide, rfl⟩,
        "\nb: resolved(z)".toList)] (by decide +kernel) (by decide +kernel)
  exact filled.trans (by decide +kernel)

end LayeredConfig
