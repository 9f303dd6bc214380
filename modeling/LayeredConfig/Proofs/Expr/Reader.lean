import LayeredConfig.Expr.Reader
import LayeredConfig.Proofs.Expr.Derivation
import LayeredConfig.Proofs.Outcome

namespace LayeredConfig

theorem Function.ofName?_name (f : Function) : Function.ofName? f.name = some f := by
  cases f <;> rfl

theorem Function.name_of_ofName? {name : String} {f : Function} (known : Function.ofName? name = some f) :
    f.name = name := by
  unfold ofName? at known
  split at known
  · next same => exact Option.some.inj known ▸ same.symm
  · split at known
    · next same => exact Option.some.inj known ▸ same.symm
    · cases known

namespace Expr

theorem isNameChar_of_mem_name {f : Function} {c : Char} (member : c ∈ f.name.toList) : isNameChar c = true := by
  have all : f.name.toList.all isNameChar = true := by cases f <;> decide
  exact List.all_eq_true.mp all c member

theorem toNat_of_isNameChar {c : Char} (named : isNameChar c = true) :
    48 ≤ c.toNat ∧ c.toNat ≤ 57 ∨ 65 ≤ c.toNat ∧ c.toNat ≤ 90 ∨ c.toNat = 95 ∨ 97 ≤ c.toNat ∧ c.toNat ≤ 122 := by
  delta isNameChar Char.isAlphanum Char.isAlpha Char.isUpper Char.isLower Char.isDigit at named
  simp only [Bool.or_eq_true, Bool.and_eq_true, decide_eq_true_eq, UInt32.le_iff_toNat_le, ge_iff_le] at named
  change (((65 ≤ c.toNat ∧ c.toNat ≤ 90) ∨ (97 ≤ c.toNat ∧ c.toNat ≤ 122)) ∨ (48 ≤ c.toNat ∧ c.toNat ≤ 57)) ∨
    c = '_' at named
  rcases named with ((upper | lower) | digit) | rfl
  · exact Or.inr (Or.inl upper)
  · exact Or.inr (Or.inr (Or.inr lower))
  · exact Or.inl digit
  · exact Or.inr (Or.inr (Or.inl rfl))

theorem isNameStart_name (f : Function) : f.name.toList.head?.any isNameStart = true := by
  cases f <;> decide

/-- No blank is part of a name. -/
theorem isNameChar_of_isBlank {c : Char} (blank : isBlank c = true) : isNameChar c = false := by
  rw [Bool.eq_false_iff]
  intro named
  have range := toNat_of_isNameChar named
  simp only [isBlank, Bool.or_eq_true, Bool.and_eq_true, decide_eq_true_eq, beq_iff_eq] at blank
  omega

theorem quotedRest_close (quote : Char) (rest : List Char) :
    quotedRest quote (quote :: rest) = .ok ([], rest) := by
  rw [quotedRest.eq_def]
  simp

theorem quotedRest_mark {quote : Char} (escape : quote ≠ '\\') (mark : Mark quote) (cs : List Char) :
    quotedRest quote (mark.chars ++ cs) =
      (quotedRest quote cs).map fun (more, rest) => (mark.value :: more, rest) := by
  rw [quotedRest.eq_def]
  cases mark with
  | plain c apart bare => simp [Mark.chars, Mark.value, apart, bare]
  | same c known => rcases known with rfl | rfl | rfl <;> simp [Mark.chars, Mark.value, escape.symm]
  | newline => simp [Mark.chars, Mark.value, escape.symm]
  | tab => simp [Mark.chars, Mark.value, escape.symm]

theorem quotedRest_marks {quote : Char} (escape : quote ≠ '\\') (body : List (Mark quote)) (rest : List Char) :
    quotedRest quote (body.flatMap Mark.chars ++ quote :: rest) = .ok (body.map Mark.value, rest) := by
  induction body with
  | nil => exact quotedRest_close quote rest
  | cons mark body ih =>
    rw [List.flatMap_cons, List.append_assoc, quotedRest_mark escape, ih]
    rfl

/-- What an escape is read as is what the grammar has it stand for. -/
theorem exists_escape (quote : Char) {d s : Char}
    (known : (if d = 'n' then some '\n' else if d = 't' then some '\t'
      else if d = '\\' ∨ d = '\'' ∨ d = '"' then some d else none) = some s) :
    ∃ mark : Mark quote, mark.chars = ['\\', d] ∧ mark.value = s := by
  split at known
  · next same => exact ⟨.newline, by rw [same, Mark.chars], Option.some.inj known⟩
  · split at known
    · next same => exact ⟨.tab, by rw [same, Mark.chars], Option.some.inj known⟩
    · split at known
      · next same => exact ⟨.same d same, by rw [Mark.chars], Option.some.inj known⟩
      · cases known

theorem exists_marks_of_quotedRest {quote : Char} : ∀ {cs s rest : List Char},
    quotedRest quote cs = .ok (s, rest) →
    ∃ body : List (Mark quote), cs = body.flatMap Mark.chars ++ quote :: rest ∧ body.map Mark.value = s
  | [], s, rest, read => by
    rw [quotedRest] at read
    cases read
  | c :: cs, s, rest, read => by
    rw [quotedRest.eq_def] at read
    by_cases close : c = quote
    · simp only [close, if_true] at read
      cases read
      exact ⟨[], by rw [close]; rfl, rfl⟩
    by_cases escape : c = '\\'
    · subst escape
      simp only [close, if_false, if_true] at read
      cases cs with
      | nil => cases read
      | cons d after =>
        dsimp only at read
        split at read
        · cases read
        · next value known =>
          obtain ⟨mark, chars, stands⟩ := exists_escape quote known
          obtain ⟨⟨more, later⟩, inside, same⟩ := map_eq_ok.mp read
          cases same
          obtain ⟨body, rfl, rfl⟩ := exists_marks_of_quotedRest inside
          exact ⟨mark :: body, by rw [List.flatMap_cons, chars]; rfl, by rw [List.map_cons, stands]⟩
    · simp only [close, escape, if_false] at read
      obtain ⟨⟨more, later⟩, inside, same⟩ := map_eq_ok.mp read
      cases same
      obtain ⟨body, rfl, rfl⟩ := exists_marks_of_quotedRest inside
      exact ⟨.plain c close escape :: body, rfl, rfl⟩

theorem solid_skipBlank (cs : List Char) : Solid (skipBlank cs) := by
  intro c member
  have stops := List.head?_dropWhile_not isBlank cs
  rw [← skipBlank, Option.mem_def.mp member] at stops
  exact stops

theorem skipBlank_gap_cons (w : Gap) {c : Char} (plain : isBlank c = false) (rest : List Char) :
    skipBlank (w.val ++ c :: rest) = c :: rest := by
  rw [skipBlank_gap, skipBlank_of_solid (solid_cons plain rest)]

theorem skipBlank_of_gap (w : Gap) : skipBlank w.val = [] := by
  have skipped := skipBlank_gap w []
  rwa [List.append_nil] at skipped

theorem exists_gap (cs : List Char) : ∃ w : Gap, cs = w.val ++ skipBlank cs :=
  ⟨⟨cs.takeWhile isBlank, List.all_eq_true.mp List.all_takeWhile⟩, (List.takeWhile_append_dropWhile).symm⟩

theorem expression_skipBlank (fuel : Nat) (cs : List Char) :
    expression fuel (skipBlank cs) = expression fuel cs := by
  cases fuel with
  | zero => rw [expression, expression]
  | succ fuel => rw [expression, expression, skipBlank_of_solid (solid_skipBlank cs)]

theorem arguments_skipBlank (fuel : Nat) (cs : List Char) : arguments fuel (skipBlank cs) = arguments fuel cs := by
  cases fuel with
  | zero => rw [arguments, arguments]
  | succ fuel => rw [arguments, arguments, expression_skipBlank]

theorem opening_gap (before : Gap) (cs : List Char) : opening (before.val ++ '(' :: cs) = .ok ((), cs) := by
  have opens := skipBlank_gap_cons before (show isBlank '(' = false by decide) cs
  simp only [opening, opens]

theorem exists_gap_of_opening {cs rest : List Char} {u : Unit} (read : opening cs = .ok (u, rest)) :
    ∃ before : Gap, cs = before.val ++ '(' :: rest := by
  obtain ⟨before, split⟩ := exists_gap cs
  unfold opening at read
  split at read
  · next found =>
    cases read
    exact ⟨before, by rw [← found]; exact split⟩
  · cases read

/-- The name of a call ends at its blanks or its parenthesis. -/
theorem takeWhile_name (f : Function) (before : Gap) (cs : List Char) :
    (f.name.toList ++ (before.val ++ '(' :: cs)).takeWhile isNameChar = f.name.toList ∧
      (f.name.toList ++ (before.val ++ '(' :: cs)).dropWhile isNameChar = before.val ++ '(' :: cs := by
  have inside : ∀ c ∈ f.name.toList, isNameChar c = true := fun c member => isNameChar_of_mem_name member
  have stops : ∀ c ∈ (before.val ++ '(' :: cs).head?, isNameChar c = false := by
    obtain ⟨blanks, blank⟩ := before
    cases blanks with
    | nil => simp [isNameChar]
    | cons b more => simpa using isNameChar_of_isBlank (blank b List.mem_cons_self)
  rw [List.takeWhile_append_of_pos inside, List.dropWhile_append_of_pos inside]
  cases after : before.val ++ '(' :: cs with
  | nil => simp
  | cons c rest =>
    rw [after] at stops
    simp [stops c rfl]

theorem expression_quote (fuel : Nat) (quote : Quote) (cs : List Char) :
    expression (fuel + 1) (quote.val :: cs) =
      (quotedRest quote.val cs).map fun (s, rest) => (.text (String.ofList s), rest) := by
  rw [expression, skipBlank_of_solid (solid_cons quote.isBlank_val cs)]
  simp only [quote.property, if_true]

theorem expression_name (fuel : Nat) (f : Function) (before : Gap) (cs : List Char) :
    expression (fuel + 1) (f.name.toList ++ (before.val ++ '(' :: cs)) =
      match skipBlank cs with
      | ')' :: rest => .ok (.call f [], rest)
      | rest => arguments fuel rest >>= fun (args, rest) => .ok (.call f args, rest) := by
  obtain ⟨c, more, name, solid, single, double, _⟩ := f.exists_name
  obtain ⟨taken, left⟩ := takeWhile_name f before cs
  have start : isNameStart c = true := by
    have starts := isNameStart_name f
    rwa [name] at starts
  have inside : isNameChar c = true := isNameChar_of_mem_name (f := f) (by simp [name])
  rw [name, List.cons_append, List.takeWhile_cons_of_pos inside, List.cons.injEq] at taken
  rw [name, List.cons_append, List.dropWhile_cons_of_pos inside] at left
  have whole : String.ofList (c :: more) = f.name := by rw [← name, String.ofList_toList]
  rw [name, List.cons_append, expression, skipBlank_of_solid (solid_cons solid _)]
  simp only [single, double, or_self, if_false, start, if_true, taken.2, left, whole, Function.ofName?_name,
    opening_gap]
  rfl

theorem expression_nullary (fuel : Nat) (f : Function) (before : Gap) {cs rest : List Char}
    (closes : skipBlank cs = ')' :: rest) :
    expression (fuel + 1) (f.name.toList ++ (before.val ++ '(' :: cs)) = .ok (.call f [], rest) := by
  rw [expression_name, closes]
  rfl

theorem expression_call (fuel : Nat) (f : Function) (before : Gap) {cs : List Char}
    (opens : ∀ rest, skipBlank cs ≠ ')' :: rest) :
    expression (fuel + 1) (f.name.toList ++ (before.val ++ '(' :: cs)) =
      (arguments fuel cs).map fun (args, rest) => (.call f args, rest) := by
  rw [expression_name]
  split
  · next rest closes => exact absurd closes (opens rest)
  · rw [arguments_skipBlank]
    cases arguments fuel cs <;> rfl

/-- All that reading an expression can find: a quoted text, or a name, its opening
parenthesis and what follows that. -/
theorem expression_eq_ok {fuel : Nat} {cs rest : List Char} {e : Expr}
    (read : expression (fuel + 1) cs = .ok (e, rest)) :
    (∃ (quote : Quote) (tail s : List Char), skipBlank cs = quote.val :: tail ∧
        quotedRest quote.val tail = .ok (s, rest) ∧ e = .text (String.ofList s)) ∨
      ∃ (f : Function) (before : Gap) (tail : List Char),
        skipBlank cs = f.name.toList ++ (before.val ++ '(' :: tail) ∧
        (skipBlank tail = ')' :: rest ∧ e = .call f [] ∨
          ∃ args, arguments fuel tail = .ok (args, rest) ∧ e = .call f args) := by
  rw [expression] at read
  split at read
  · cases read
  · next c tail found =>
    split at read
    · next mark =>
      obtain ⟨⟨s, after⟩, inside, same⟩ := map_eq_ok.mp read
      cases same
      exact Or.inl ⟨⟨c, mark⟩, tail, s, found, inside, rfl⟩
    · split at read
      · dsimp only at read
        split at read
        · cases read
        · next f known =>
          obtain ⟨⟨_, after⟩, opens, later⟩ := bind_eq_ok.mp read
          obtain ⟨before, split⟩ := exists_gap_of_opening opens
          have name : f.name.toList = c :: tail.takeWhile isNameChar := by
            rw [Function.name_of_ofName? known, String.toList_ofList]
          have whole : c :: tail = f.name.toList ++ (before.val ++ '(' :: after) := by
            rw [name, List.cons_append, ← split, List.takeWhile_append_dropWhile]
          refine Or.inr ⟨f, before, after, found.trans whole, ?_⟩
          dsimp only at later
          split at later
          · next closes =>
            cases later
            exact Or.inl ⟨closes, rfl⟩
          · rw [arguments_skipBlank] at later
            obtain ⟨⟨args, more⟩, inside, same⟩ := bind_eq_ok.mp later
            cases same
            exact Or.inr ⟨args, inside, rfl⟩
      · cases read

theorem Derivation.two_le_length (d : Derivation) : 2 ≤ d.chars.length := by
  cases d <;> simp [chars] <;> omega

theorem expression_gap (fuel : Nat) (before : Gap) (cs : List Char) :
    expression fuel (before.val ++ cs) = expression fuel cs := by
  rw [← expression_skipBlank, skipBlank_gap, expression_skipBlank]

theorem arguments_last {fuel : Nat} {cs rest more : List Char} {e : Expr}
    (read : expression fuel cs = .ok (e, rest)) (closes : skipBlank rest = ')' :: more) :
    arguments (fuel + 1) cs = .ok ([e], more) := by
  rw [arguments, read]
  simp only [bind, Except.bind, closes]

theorem arguments_more {fuel : Nat} {cs rest more : List Char} {e : Expr}
    (read : expression fuel cs = .ok (e, rest)) (comma : skipBlank rest = ',' :: more) :
    arguments (fuel + 1) cs = (arguments fuel more).map fun (es, rest) => (e :: es, rest) := by
  rw [arguments, read]
  simp only [bind, Except.bind, comma]
  cases arguments fuel more <;> rfl

/-- All that reading arguments can find: an argument, and behind it the closing
parenthesis, or a comma and further arguments. -/
theorem arguments_eq_ok {fuel : Nat} {cs rest : List Char} {es : List Expr}
    (read : arguments (fuel + 1) cs = .ok (es, rest)) :
    ∃ e tail, expression fuel cs = .ok (e, tail) ∧
      (skipBlank tail = ')' :: rest ∧ es = [e] ∨
        ∃ more others, skipBlank tail = ',' :: more ∧ arguments fuel more = .ok (others, rest) ∧
          es = e :: others) := by
  rw [arguments] at read
  obtain ⟨⟨e, tail⟩, first, later⟩ := bind_eq_ok.mp read
  refine ⟨e, tail, first, ?_⟩
  dsimp only at later
  split at later
  · next more comma =>
    obtain ⟨⟨others, after⟩, inside, same⟩ := bind_eq_ok.mp later
    cases same
    exact Or.inr ⟨more, others, comma, inside, rfl⟩
  · next closes =>
    cases later
    exact Or.inl ⟨closes, rfl⟩
  · cases later

mutual

/-- A text that the grammar derives is read as what it derives. Each step of the two
readers goes with a character of its own, and there are two of them. -/
theorem expression_chars : ∀ (d : Derivation) (before : Gap) (rest : List Char) {fuel : Nat},
    2 * d.chars.length ≤ fuel → expression fuel (before.val ++ (d.chars ++ rest)) = .ok (d.expr, rest)
  | d, before, rest, 0, enough => by
    have two := d.two_le_length
    omega
  | .text quote body, before, rest, fuel + 1, _ => by
    have read := quotedRest_marks quote.ne_escape body rest
    simp only [Derivation.chars, List.cons_append, List.append_assoc, List.nil_append, Derivation.expr]
    rw [expression_gap, expression_quote, read]
    rfl
  | .nullary f first inside, before, rest, fuel + 1, _ => by
    have closes := skipBlank_gap_cons inside (show isBlank ')' = false by decide) rest
    simp only [Derivation.chars, List.cons_append, List.append_assoc, List.nil_append, Derivation.expr]
    rw [expression_gap, expression_nullary fuel f first closes]
  | .call f first args, before, rest, fuel + 1, enough => by
    -- the reader looks for the closing parenthesis first
    have opens : ∀ more, skipBlank (args.chars ++ ')' :: rest) ≠ ')' :: more := by
      intro more closes
      obtain ⟨inside, split⟩ := exists_gap (args.chars ++ ')' :: rest)
      rw [closes] at split
      exact args.ne_closing inside more _ split.symm
    simp only [Derivation.chars, List.length_append, List.length_cons, List.length_nil] at enough
    have few : 2 * args.chars.length + 1 ≤ fuel := by omega
    have read := arguments_chars args rest few
    simp only [Derivation.chars, List.cons_append, List.append_assoc, List.nil_append, Derivation.expr]
    rw [expression_gap, expression_call fuel f first opens, read]
    rfl

theorem arguments_chars : ∀ (args : ArgsDerivation) (rest : List Char) {fuel : Nat},
    2 * args.chars.length + 1 ≤ fuel → arguments fuel (args.chars ++ ')' :: rest) = .ok (args.exprs, rest)
  | .one before arg after, rest, fuel + 1, enough => by
    simp only [ArgsDerivation.chars, List.length_append] at enough
    have short : 2 * arg.chars.length ≤ fuel := by omega
    have read := expression_chars arg before (after.val ++ ')' :: rest) short
    have closes := skipBlank_gap_cons after (show isBlank ')' = false by decide) rest
    simp only [ArgsDerivation.chars, List.append_assoc, ArgsDerivation.exprs]
    exact arguments_last read closes
  | .more before arg after others, rest, fuel + 1, enough => by
    simp only [ArgsDerivation.chars, List.length_append, List.length_cons] at enough
    have short : 2 * arg.chars.length ≤ fuel := by omega
    have few : 2 * others.chars.length + 1 ≤ fuel := by omega
    have read := expression_chars arg before (after.val ++ ',' :: (others.chars ++ ')' :: rest)) short
    have later := arguments_chars others rest few
    have comma := skipBlank_gap_cons after (show isBlank ',' = false by decide) (others.chars ++ ')' :: rest)
    simp only [ArgsDerivation.chars, List.append_assoc, List.cons_append, ArgsDerivation.exprs]
    rw [arguments_more read comma, later]
    rfl

end

/-- What is read as an expression is a text that the grammar derives for it. -/
theorem exists_derivation_of_read (fuel : Nat) :
    (∀ {cs rest : List Char} {e : Expr}, expression fuel cs = .ok (e, rest) →
        ∃ (before : Gap) (d : Derivation), cs = before.val ++ (d.chars ++ rest) ∧ d.expr = e) ∧
      ∀ {cs rest : List Char} {es : List Expr}, arguments fuel cs = .ok (es, rest) →
        ∃ args : ArgsDerivation, cs = args.chars ++ ')' :: rest ∧ args.exprs = es := by
  induction fuel with
  | zero =>
    constructor
    · intro cs rest e read
      rw [expression] at read
      cases read
    · intro cs rest es read
      rw [arguments] at read
      cases read
  | succ fuel ih =>
    constructor
    · intro cs rest e read
      obtain ⟨before, split⟩ := exists_gap cs
      rcases expression_eq_ok read with ⟨quote, tail, s, found, inside, rfl⟩ | ⟨f, first, tail, found, further⟩
      · obtain ⟨body, rfl, rfl⟩ := exists_marks_of_quotedRest inside
        rw [found] at split
        exact ⟨before, .text quote body, by simpa [Derivation.chars] using split, by rw [Derivation.expr]⟩
      · rw [found] at split
        rcases further with ⟨closes, rfl⟩ | ⟨args, inside, rfl⟩
        · obtain ⟨inside, within⟩ := exists_gap tail
          rw [within, closes] at split
          exact ⟨before, .nullary f first inside, by simpa [Derivation.chars] using split, by rw [Derivation.expr]⟩
        · obtain ⟨args, rfl, rfl⟩ := ih.2 inside
          exact ⟨before, .call f first args, by simpa [Derivation.chars] using split, by rw [Derivation.expr]⟩
    · intro cs rest es read
      obtain ⟨e, tail, first, further⟩ := arguments_eq_ok read
      obtain ⟨before, d, rfl, rfl⟩ := ih.1 first
      obtain ⟨after, split⟩ := exists_gap tail
      rcases further with ⟨closes, rfl⟩ | ⟨more, others, comma, inside, rfl⟩
      · rw [closes] at split
        exact ⟨.one before d after, by simp [ArgsDerivation.chars, split], by rw [ArgsDerivation.exprs]⟩
      · obtain ⟨rest, rfl, rfl⟩ := ih.2 inside
        rw [comma] at split
        exact ⟨.more before d after rest, by simp [ArgsDerivation.chars, split], by rw [ArgsDerivation.exprs]⟩

/-- Nothing but blanks may follow the expression of a text. -/
theorem read_eq_ok {input : String} {e : Expr} :
    read input = .ok e ↔
      ∃ rest, expression (2 * input.toList.length + 2) input.toList = .ok (e, rest) ∧ skipBlank rest = [] := by
  unfold read
  rw [mapError_eq_ok, bind_eq_ok]
  constructor
  · rintro ⟨⟨own, rest⟩, found, ends⟩
    dsimp only at ends
    split at ends
    · next blank =>
      cases ends
      exact ⟨rest, found, blank⟩
    · cases ends
  · rintro ⟨rest, found, blank⟩
    exact ⟨(e, rest), found, by simp only [blank]⟩

theorem denotes_of_read {input : String} {e : Expr} (ok : read input = .ok e) : Denotes input.toList e := by
  obtain ⟨rest, found, ends⟩ := read_eq_ok.mp ok
  obtain ⟨before, d, split, rfl⟩ := (exists_derivation_of_read _).1 found
  obtain ⟨after, blank⟩ := exists_gap rest
  rw [ends, List.append_nil] at blank
  rw [blank, ← List.append_assoc] at split
  exact ⟨_, _, _, before.property, d.derives, after.property, split⟩

theorem read_of_denotes {input : String} {e : Expr} (derived : Denotes input.toList e) : read input = .ok e := by
  obtain ⟨s, chars, rfl⟩ := denotes_iff.mp derived
  have enough : 2 * s.body.chars.length ≤ 2 * input.toList.length + 2 := by
    simp only [← chars, Sentence.chars, List.length_append]
    omega
  have found := expression_chars s.body s.before s.after.val enough
  rw [← List.append_assoc, show s.before.val ++ s.body.chars ++ s.after.val = input.toList from chars] at found
  exact read_eq_ok.mpr ⟨s.after.val, found, skipBlank_of_gap s.after⟩

/-- A text is read as an expression exactly when the grammar derives the expression
from it, and there is one derivation of a text at most. -/
theorem read_eq_ok_iff_denotes (input : String) (e : Expr) :
    (read input = .ok e ↔ Denotes input.toList e) ∧
      (Denotes input.toList e ↔ ∃ s : Sentence, s.chars = input.toList ∧ s.expr = e) ∧
      Function.Injective Sentence.chars :=
  ⟨⟨denotes_of_read, read_of_denotes⟩, denotes_iff, Sentence.chars_injective⟩

end Expr

end LayeredConfig
