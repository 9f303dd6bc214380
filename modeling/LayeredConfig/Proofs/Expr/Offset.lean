import LayeredConfig.Proofs.Expr.Reader

namespace LayeredConfig

namespace Expr

/-- The rest of a quoted text, with its closing quote. -/
def QuotedEnd (quote : Char) (cs : List Char) : Prop :=
  ∃ body : List (Mark quote), cs = body.flatMap Mark.chars ++ [quote]

/-- An expression with blanks before it. -/
def Argument (cs : List Char) : Prop :=
  ∃ (before : Gap) (d : Derivation), cs = before.val ++ d.chars

/-- One argument or more, with the closing parenthesis. -/
def ArgumentList (cs : List Char) : Prop :=
  ∃ args : ArgsDerivation, cs = args.chars ++ [')']

/-- What may follow the opening parenthesis of a call, up to the closing one. -/
def CallEnd (cs : List Char) : Prop :=
  (∃ inside : Gap, cs = inside.val ++ [')']) ∨ ArgumentList cs

/-- A reader of texts of a kind has to stop between two parts of a text: the first part
can be completed, but no text of the kind starts with it and the next character. -/
structure StopsBetween (Kind : List Char → Prop) (front rest : List Char) : Prop where
  viable : ∃ more, Kind (front ++ more)
  dead : ∀ c tail, rest = c :: tail → ∀ more whole after, Kind whole → front ++ c :: more ≠ whole ++ after

/-- Something other than blanks is seen before or at the place of the stop. -/
def Visible (front rest : List Char) : Prop :=
  ∀ c tail, rest = c :: tail → ¬Blanks (front ++ [c])

variable {front rest lead cs : List Char} {expected : Expected}

/-- A stop inside a part of a text is a stop inside the text. -/
theorem StopsBetween.within {Part Kind : List Char → Prop} (stops : StopsBetween Part front rest)
    (closes : ∀ part, Part part → ∃ more, Kind (lead ++ (part ++ more)))
    (opens : ∀ whole after cs, Kind whole → lead ++ cs = whole ++ after →
      ∃ part later, Part part ∧ cs = part ++ later) :
    StopsBetween Kind (lead ++ front) rest where
  viable := by
    obtain ⟨more, part⟩ := stops.viable
    obtain ⟨end_, whole⟩ := closes _ part
    exact ⟨more ++ end_, by simpa using whole⟩
  dead := by
    intro c tail next more whole after kind same
    rw [List.append_assoc] at same
    obtain ⟨part, later, known, split⟩ := opens whole after _ kind same
    exact stops.dead c tail next more part later known split

theorem visible_of_mem {c : Char} (member : c ∈ front) (plain : isBlank c = false) (rest : List Char) :
    Visible front rest := by
  intro d tail _ blanks
  have blank := blanks c (List.mem_append_left _ member)
  rw [plain] at blank
  cases blank

theorem StopsBetween.mark {quote : Char} (escape : quote ≠ '\\') (mark : Mark quote)
    (stops : StopsBetween (QuotedEnd quote) front rest) :
    StopsBetween (QuotedEnd quote) (mark.chars ++ front) rest := by
  refine stops.within ?_ ?_
  · rintro part ⟨body, rfl⟩
    exact ⟨[], mark :: body, by simp⟩
  · rintro whole after cs ⟨body, rfl⟩ same
    cases body with
    | nil =>
      obtain ⟨c, more, chars, apart⟩ := mark.exists_chars escape
      simp only [chars, List.flatMap_nil, List.nil_append, List.cons_append, List.cons.injEq] at same
      exact absurd same.1 apart
    | cons next body =>
      simp only [List.flatMap_cons, List.append_assoc] at same
      obtain ⟨_, split⟩ := Mark.eq_of_chars_append same
      exact ⟨_, after, ⟨body, rfl⟩, by simpa using split⟩

/-- A quoted text is given up at its end, which has no closing quote, or behind a
backslash, before a character that makes no escape with it. -/
theorem stopsBetween_of_quotedRest {quote : Char} (escape : quote ≠ '\\') :
    ∀ {cs rest : List Char} {expected : Expected},
    quotedRest quote cs = .error (.missing expected rest) →
    ∃ front, cs = front ++ rest ∧ StopsBetween (QuotedEnd quote) front rest
  | [], rest, expected, refused => by
    rw [quotedRest] at refused
    cases refused
    exact ⟨[], rfl, ⟨[quote], [], rfl⟩, fun _ _ next => by cases next⟩
  | c :: cs, rest, expected, refused => by
    rw [quotedRest.eq_def] at refused
    by_cases close : c = quote
    · simp only [close, if_true] at refused
      cases refused
    by_cases backslash : c = '\\'
    · subst backslash
      simp only [close, if_false, if_true] at refused
      have viable : ∃ more, QuotedEnd quote (['\\'] ++ more) := ⟨['n', quote], [.newline], rfl⟩
      cases cs with
      | nil =>
        cases refused
        exact ⟨['\\'], rfl, viable, fun _ _ next => by cases next⟩
      | cons d after =>
        dsimp only at refused
        split at refused
        · next unknown =>
          cases refused
          refine ⟨['\\'], rfl, viable, ?_⟩
          rintro c tail next more whole after ⟨body, rfl⟩ same
          cases next
          cases body with
          | nil =>
            simp only [List.flatMap_nil, List.nil_append, List.cons_append, List.cons.injEq] at same
            exact escape same.1.symm
          | cons mark body => cases mark <;> grind [Mark.chars]
        · next value known =>
          obtain ⟨mark, chars, _⟩ := exists_escape quote known
          obtain ⟨front, rfl, stops⟩ := stopsBetween_of_quotedRest escape (map_eq_error.mp refused)
          exact ⟨mark.chars ++ front, by simp [chars], stops.mark escape mark⟩
    · simp only [close, backslash, if_false] at refused
      obtain ⟨front, rfl, stops⟩ := stopsBetween_of_quotedRest escape (map_eq_error.mp refused)
      exact ⟨_, rfl, stops.mark escape (.plain c close backslash)⟩

theorem opening_eq_error {refusal : Refusal} (failed : opening cs = .error refusal) :
    refusal = .missing .opening (skipBlank cs) ∧ ∀ more, skipBlank cs ≠ '(' :: more := by
  unfold opening at failed
  split at failed
  · cases failed
  · next other =>
    cases failed
    exact ⟨rfl, fun more opens => other more opens⟩

/-- All reasons to give up on an expression: there is nothing, the quoted text breaks off,
no parenthesis follows the name, the arguments break off, or no expression begins here. -/
theorem expression_eq_missing {fuel : Nat} (refused : expression (fuel + 1) cs = .error (.missing expected rest)) :
    (skipBlank cs = [] ∧ rest = []) ∨
      (∃ (quote : Quote) (tail : List Char), skipBlank cs = quote.val :: tail ∧
        quotedRest quote.val tail = .error (.missing expected rest)) ∨
      (∃ (f : Function) (after : List Char), skipBlank cs = f.name.toList ++ after ∧ rest = skipBlank after ∧
        ∀ more, rest ≠ '(' :: more) ∨
      (∃ (f : Function) (before : Gap) (tail : List Char),
        skipBlank cs = f.name.toList ++ (before.val ++ '(' :: tail) ∧ (∀ more, skipBlank tail ≠ ')' :: more) ∧
          arguments fuel tail = .error (.missing expected rest)) ∨
      ∃ (c : Char) (tail : List Char), skipBlank cs = c :: tail ∧ rest = c :: tail ∧ c ≠ '\'' ∧ c ≠ '"' ∧
        isNameStart c = false := by
  rw [expression] at refused
  split at refused
  · next none_ =>
    cases refused
    exact Or.inl ⟨none_, rfl⟩
  · next c tail found =>
    split at refused
    · next mark => exact Or.inr (Or.inl ⟨⟨c, mark⟩, tail, found, map_eq_error.mp refused⟩)
    · next plain =>
      rw [not_or] at plain
      split at refused
      · dsimp only at refused
        split at refused
        · cases refused
        · next f known =>
          have name : f.name.toList = c :: tail.takeWhile isNameChar := by
            rw [Function.name_of_ofName? known, String.toList_ofList]
          have whole : c :: tail = f.name.toList ++ tail.dropWhile isNameChar := by
            rw [name, List.cons_append, List.takeWhile_append_dropWhile]
          rcases bind_eq_error.mp refused with unopened | ⟨⟨_, inside⟩, opens, later⟩
          · obtain ⟨same, other⟩ := opening_eq_error unopened
            cases same
            exact Or.inr (Or.inr (Or.inl ⟨f, _, found.trans whole, rfl, other⟩))
          · obtain ⟨before, split⟩ := exists_gap_of_opening opens
            dsimp only at later
            split at later
            · cases later
            · next other =>
              rw [arguments_skipBlank] at later
              rcases bind_eq_error.mp later with broken | ⟨_, _, made⟩
              · have begun : skipBlank cs = f.name.toList ++ (before.val ++ '(' :: inside) := by
                  rw [found, whole, split]
                have unclosed : ∀ more, skipBlank inside ≠ ')' :: more := fun more closes => other more closes
                exact Or.inr (Or.inr (Or.inr (Or.inl ⟨f, before, inside, begun, unclosed, broken⟩)))
              · cases made
      · next start =>
        cases refused
        exact Or.inr (Or.inr (Or.inr (Or.inr ⟨c, tail, found, rfl, plain.1, plain.2, by simpa using start⟩)))

/-- All reasons to give up on arguments: one of them breaks off, or neither a comma nor
the closing parenthesis follows it. -/
theorem arguments_eq_missing {fuel : Nat} (refused : arguments (fuel + 1) cs = .error (.missing expected rest)) :
    expression fuel cs = .error (.missing expected rest) ∨
      ∃ e tail, expression fuel cs = .ok (e, tail) ∧
        ((∃ more, skipBlank tail = ',' :: more ∧ arguments fuel more = .error (.missing expected rest)) ∨
          rest = skipBlank tail ∧ (∀ more, rest ≠ ',' :: more) ∧ ∀ more, rest ≠ ')' :: more) := by
  rw [arguments] at refused
  rcases bind_eq_error.mp refused with first | ⟨⟨e, tail⟩, first, later⟩
  · exact Or.inl first
  · refine Or.inr ⟨e, tail, first, ?_⟩
    dsimp only at later
    split at later
    · next more comma =>
      rcases bind_eq_error.mp later with broken | ⟨_, _, made⟩
      · exact Or.inl ⟨more, comma, broken⟩
      · cases made
    · cases later
    · next noComma noClosing =>
      cases later
      exact Or.inr ⟨rfl, fun more same => noComma more same, fun more same => noClosing more same⟩

/-- Blanks and a quote are followed by the rest of a quoted text. -/
theorem StopsBetween.quoted (before : Gap) (quote : Quote)
    (stops : StopsBetween (QuotedEnd quote.val) front rest) :
    StopsBetween Argument (before.val ++ [quote.val] ++ front) rest := by
  refine stops.within ?_ ?_
  · rintro part ⟨body, rfl⟩
    exact ⟨[], before, .text quote body, by simp [Derivation.chars]⟩
  · rintro whole after cs ⟨start, d, rfl⟩ same
    simp only [List.append_assoc, List.cons_append, List.nil_append] at same
    have opened := (Gap.eq_of_append (solid_cons quote.isBlank_val cs) (d.solid_append after) same).2
    cases d with
    | text other body =>
      simp only [Derivation.chars, List.cons_append, List.append_assoc, List.cons.injEq] at opened
      obtain rfl : quote = other := Subtype.ext opened.1
      exact ⟨_, after, ⟨body, rfl⟩, by simpa using opened.2⟩
    | nullary f first inside =>
      simp only [Derivation.chars, List.append_assoc] at opened
      exact absurd opened (quote.ne_name f _ _)
    | call f first args =>
      simp only [Derivation.chars, List.append_assoc] at opened
      exact absurd opened (quote.ne_name f _ _)

/-- An expression that begins with a name goes on with blanks, the opening parenthesis
and the end of a call. -/
theorem exists_callEnd_of_name {f : Function} {d : Derivation} {after : List Char}
    (same : f.name.toList ++ cs = d.chars ++ after) :
    ∃ (first : Gap) (inside : List Char), CallEnd inside ∧ cs = first.val ++ '(' :: (inside ++ after) := by
  cases d with
  | text quote body =>
    simp only [Derivation.chars, List.cons_append, List.append_assoc] at same
    exact absurd same.symm (quote.ne_name f _ _)
  | nullary g first inside =>
    simp only [Derivation.chars, List.append_assoc, List.cons_append] at same
    exact ⟨first, _, Or.inl ⟨inside, rfl⟩, by simpa using (Function.eq_of_name_append same).2⟩
  | call g first args =>
    simp only [Derivation.chars, List.append_assoc, List.cons_append] at same
    exact ⟨first, _, Or.inr ⟨args, rfl⟩, by simpa using (Function.eq_of_name_append same).2⟩

theorem exists_argument_of_callEnd (before : Gap) (f : Function) (first : Gap) {inside : List Char}
    (ends : CallEnd inside) : Argument (before.val ++ f.name.toList ++ first.val ++ '(' :: inside) := by
  rcases ends with ⟨gap, rfl⟩ | ⟨args, rfl⟩
  · exact ⟨before, .nullary f first gap, by simp [Derivation.chars]⟩
  · exact ⟨before, .call f first args, by simp [Derivation.chars]⟩

/-- Behind a name only the opening parenthesis may follow. -/
theorem stopsBetween_of_name (before : Gap) (f : Function) (first : Gap) (solid : Solid rest)
    (other : ∀ more, rest ≠ '(' :: more) :
    StopsBetween Argument (before.val ++ f.name.toList ++ first.val) rest where
  viable := ⟨['(', ')'], exists_argument_of_callEnd before f first (Or.inl ⟨⟨[], by simp [Blanks]⟩, rfl⟩)⟩
  dead := by
    rintro c tail rfl more whole after ⟨start, d, rfl⟩ same
    obtain ⟨n, name, named, plain, _⟩ := f.exists_name
    have begun : Solid (f.name.toList ++ (first.val ++ c :: more)) := by
      rw [named]
      exact solid_cons plain _
    simp only [List.append_assoc] at same
    have opened := (Gap.eq_of_append begun (d.solid_append after) same).2
    obtain ⟨stop, inside, _, split⟩ := exists_callEnd_of_name opened
    have next := (Gap.eq_of_append (solid_cons (solid c rfl) more) (solid_cons (by decide) _) split).2
    exact other tail (by rw [(List.cons.inj next).1])

/-- A name and the opening parenthesis are followed by the end of a call. -/
theorem StopsBetween.call (before : Gap) (f : Function) (first : Gap) (stops : StopsBetween CallEnd front rest) :
    StopsBetween Argument (before.val ++ f.name.toList ++ first.val ++ ['('] ++ front) rest := by
  refine stops.within ?_ ?_
  · intro part ends
    exact ⟨[], by simpa using exists_argument_of_callEnd before f first ends⟩
  · rintro whole after cs ⟨start, d, rfl⟩ same
    obtain ⟨n, name, named, plain, _⟩ := f.exists_name
    have begun : Solid (f.name.toList ++ (first.val ++ '(' :: cs)) := by
      rw [named]
      exact solid_cons plain _
    simp only [List.append_assoc, List.cons_append, List.nil_append] at same
    have opened := (Gap.eq_of_append begun (d.solid_append after) same).2
    obtain ⟨stop, inside, ends, split⟩ := exists_callEnd_of_name opened
    have next := (Gap.eq_of_append (solid_cons (by decide) cs) (solid_cons (by decide) _) split).2
    exact ⟨inside, after, ends, (List.cons.inj next).2⟩

/-- Nothing but a quote or a name begins an expression. -/
theorem stopsBetween_of_solid (before : Gap) (plain : ∀ c tail, rest = c :: tail → isBlank c = false ∧ c ≠ '\'' ∧
    c ≠ '"' ∧ isNameStart c = false) : StopsBetween Argument before.val rest where
  viable := ⟨['"', '"'], before, .text ⟨'"', Or.inr rfl⟩ [], rfl⟩
  dead := by
    rintro c tail next more whole after ⟨start, d, rfl⟩ same
    obtain ⟨solid, single, double, unnamed⟩ := plain c tail next
    simp only [List.append_assoc] at same
    have opened := (Gap.eq_of_append (solid_cons solid more) (d.solid_append after) same).2
    have named (f : Function) (cs : List Char) : c :: more ≠ f.name.toList ++ cs := by
      intro begun
      have start := isNameStart_name f
      obtain ⟨n, name, named, _⟩ := f.exists_name
      rw [named, List.cons_append, List.cons.injEq] at begun
      rw [named, ← begun.1] at start
      simp [unnamed] at start
    cases d with
    | text quote body =>
      simp only [Derivation.chars, List.cons_append, List.cons.injEq] at opened
      rcases quote.property with mark | mark
      · exact single (opened.1.trans mark)
      · exact double (opened.1.trans mark)
    | nullary f first inside =>
      simp only [Derivation.chars, List.append_assoc] at opened
      exact named f _ opened
    | call f first args =>
      simp only [Derivation.chars, List.append_assoc] at opened
      exact named f _ opened

/-- A text that is not blank shows the same first character whatever follows it. -/
theorem exists_skipBlank_append (seen : ¬Blanks lead) :
    ∃ c later, ∀ cs, skipBlank (lead ++ cs) = c :: (later ++ cs) := by
  obtain ⟨before, split⟩ := exists_gap lead
  cases shown : skipBlank lead with
  | nil =>
    rw [shown, List.append_nil] at split
    exact absurd (split ▸ before.property) seen
  | cons c later =>
    refine ⟨c, later, fun cs => ?_⟩
    have plain : isBlank c = false := solid_skipBlank lead c (by rw [shown]; rfl)
    rw [split, shown, List.append_assoc, List.cons_append, skipBlank_gap_cons before plain]

/-- Where the parenthesis is not closed at once, the arguments decide about the end of
the call. -/
theorem StopsBetween.callEnd (stops : StopsBetween ArgumentList front rest) (visible : Visible front rest)
    (unclosed : ∀ more, skipBlank (front ++ rest) ≠ ')' :: more) : StopsBetween CallEnd front rest where
  viable := stops.viable.imp fun _ args => Or.inr args
  dead := by
    rintro c tail next more whole after (⟨inside, rfl⟩ | args) same
    · obtain ⟨d, later, shown⟩ := exists_skipBlank_append (visible c tail next)
      have closes := congrArg skipBlank same
      rw [List.append_cons, shown, List.append_assoc, List.cons_append,
        skipBlank_gap_cons inside (by decide), List.cons.injEq] at closes
      refine unclosed (later ++ tail) ?_
      rw [next, List.append_cons, shown, closes.1]
    · exact stops.dead c tail next more whole after args same

/-- The first argument is followed by a comma or the closing parenthesis. -/
theorem StopsBetween.argument (stops : StopsBetween Argument front rest) :
    StopsBetween ArgumentList front rest := by
  show StopsBetween ArgumentList ([] ++ front) rest
  refine stops.within ?_ ?_
  · rintro part ⟨before, d, rfl⟩
    exact ⟨[')'], .one before d ⟨[], by simp [Blanks]⟩, by simp [ArgsDerivation.chars]⟩
  · rintro whole after cs ⟨args, rfl⟩ same
    cases args with
    | one before d gap =>
      exact ⟨before.val ++ d.chars, gap.val ++ ')' :: after, ⟨before, d, rfl⟩, by
        simpa [ArgsDerivation.chars] using same⟩
    | more before d gap args =>
      exact ⟨before.val ++ d.chars, gap.val ++ ',' :: (args.chars ++ ')' :: after), ⟨before, d, rfl⟩, by
        simpa [ArgsDerivation.chars] using same⟩

/-- A list of arguments that begins with an argument and blanks goes on with the closing
parenthesis, or with a comma and a list of arguments. -/
theorem eq_closing_or_comma {args : ArgsDerivation} {before gap : Gap} {d : Derivation} {after : List Char}
    (solid : Solid cs)
    (same : before.val ++ (d.chars ++ (gap.val ++ cs)) = args.chars ++ ')' :: after) :
    cs = ')' :: after ∨ ∃ others : ArgsDerivation, cs = ',' :: (others.chars ++ ')' :: after) := by
  cases args with
  | one start first stop =>
    simp only [ArgsDerivation.chars, List.append_assoc] at same
    exact Or.inl (eq_of_argument_append (d.eq_of_append first) solid (solid_cons (by decide) _) same).2.2.2
  | more start first stop others =>
    simp only [ArgsDerivation.chars, List.append_assoc, List.cons_append] at same
    exact Or.inr ⟨others,
      (eq_of_argument_append (d.eq_of_append first) solid (solid_cons (by decide) _) same).2.2.2⟩

/-- A comma is followed by a list of arguments. -/
theorem StopsBetween.comma (before : Gap) (d : Derivation) (gap : Gap)
    (stops : StopsBetween ArgumentList front rest) :
    StopsBetween ArgumentList (before.val ++ d.chars ++ gap.val ++ [','] ++ front) rest := by
  refine stops.within ?_ ?_
  · rintro part ⟨args, rfl⟩
    exact ⟨[], .more before d gap args, by simp [ArgsDerivation.chars]⟩
  · rintro whole after cs ⟨args, rfl⟩ same
    simp only [List.append_assoc, List.cons_append, List.nil_append] at same
    rcases eq_closing_or_comma (solid_cons (by decide) cs) same with closing | ⟨others, split⟩
    · exact absurd (List.cons.inj closing).1 (by decide)
    · exact ⟨_, after, ⟨others, rfl⟩, by simpa using (List.cons.inj split).2⟩

/-- Behind an argument only a comma or the closing parenthesis may follow. -/
theorem stopsBetween_of_argument (before : Gap) (d : Derivation) (gap : Gap) (solid : Solid rest)
    (noComma : ∀ more, rest ≠ ',' :: more) (noClosing : ∀ more, rest ≠ ')' :: more) :
    StopsBetween ArgumentList (before.val ++ d.chars ++ gap.val) rest where
  viable := ⟨[')'], .one before d gap, rfl⟩
  dead := by
    rintro c tail rfl more whole after ⟨args, rfl⟩ same
    simp only [List.append_assoc, List.cons_append, List.nil_append] at same
    rcases eq_closing_or_comma (solid_cons (solid c rfl) more) same with closing | ⟨others, comma⟩
    · exact noClosing tail (by rw [(List.cons.inj closing).1])
    · exact noComma tail (by rw [(List.cons.inj comma).1])

theorem visible_of_name (before : Gap) (f : Function) (behind rest : List Char) :
    Visible (before.val ++ f.name.toList ++ behind) rest := by
  obtain ⟨c, name, named, plain, _⟩ := f.exists_name
  exact visible_of_mem (by simp [named]) plain rest

theorem visible_of_derivation (before : Gap) (d : Derivation) (behind rest : List Char) :
    Visible (before.val ++ d.chars ++ behind) rest := by
  obtain ⟨c, more, opens, plain, _⟩ := d.exists_chars
  exact visible_of_mem (by simp [opens]) plain rest

/-- Both readers give up where no text of theirs goes on. The fuel is enough, since each
of their calls goes with a character of its own. -/
theorem stopsBetween_of_missing (fuel : Nat) :
    (∀ {cs rest : List Char} {expected : Expected}, 2 * cs.length + 1 ≤ fuel →
        expression fuel cs = .error (.missing expected rest) →
        ∃ front, cs = front ++ rest ∧ StopsBetween Argument front rest ∧ Visible front rest) ∧
      ∀ {cs rest : List Char} {expected : Expected}, 2 * cs.length + 2 ≤ fuel →
        arguments fuel cs = .error (.missing expected rest) →
        ∃ front, cs = front ++ rest ∧ StopsBetween ArgumentList front rest ∧ Visible front rest := by
  induction fuel with
  | zero =>
    constructor
    · intro cs rest expected enough
      omega
    · intro cs rest expected enough
      omega
  | succ fuel ih =>
    constructor
    · intro cs rest expected enough refused
      obtain ⟨before, split⟩ := exists_gap cs
      rcases expression_eq_missing refused with ⟨found, rfl⟩ | ⟨quote, tail, found, broken⟩ |
          ⟨f, after, found, rfl, other⟩ | ⟨f, first, tail, found, unclosed, broken⟩ |
          ⟨c, tail, found, rfl, single, double, unnamed⟩ <;> rw [found] at split
      · exact ⟨before.val, split, stopsBetween_of_solid before (fun _ _ next => by cases next),
          fun _ _ next => by cases next⟩
      · obtain ⟨front, rfl, stops⟩ := stopsBetween_of_quotedRest quote.ne_escape broken
        exact ⟨_, by simpa using split, stops.quoted before quote,
          visible_of_mem (c := quote.val) (by simp) quote.isBlank_val rest⟩
      · obtain ⟨first, within⟩ := exists_gap after
        rw [within] at split
        exact ⟨_, by simpa using split, stopsBetween_of_name before f first (solid_skipBlank after) other,
          visible_of_name before f _ _⟩
      · obtain ⟨n, name, named, _⟩ := f.exists_name
        have few : 2 * tail.length + 2 ≤ fuel := by
          have long := congrArg List.length split
          simp only [named, List.length_append, List.length_cons] at long
          omega
        obtain ⟨front, rfl, stops, visible⟩ := ih.2 few broken
        have shown := visible_of_name before f (first.val ++ ['('] ++ front) rest
        exact ⟨_, by simpa using split, (stops.callEnd visible unclosed).call before f first, by simpa using shown⟩
      · have plain : isBlank c = false := solid_skipBlank cs c (by rw [found]; rfl)
        refine ⟨before.val, split, stopsBetween_of_solid before ?_, ?_⟩
        · intro d more next
          cases next
          exact ⟨plain, single, double, unnamed⟩
        · intro d more next blanks
          cases next
          exact absurd (blanks c (by simp)) (by simp [plain])
    · intro cs rest expected enough refused
      rcases arguments_eq_missing refused with broken | ⟨e, tail, first, further⟩
      · obtain ⟨front, split, stops, visible⟩ := ih.1 (by omega) broken
        exact ⟨front, split, stops.argument, visible⟩
      · obtain ⟨before, d, rfl, rfl⟩ := (exists_derivation_of_read fuel).1 first
        obtain ⟨gap, within⟩ := exists_gap tail
        rcases further with ⟨more, comma, broken⟩ | ⟨rfl, noComma, noClosing⟩
        · rw [comma] at within
          have few : 2 * more.length + 2 ≤ fuel := by
            simp only [within, List.length_append, List.length_cons] at enough
            omega
          obtain ⟨front, rfl, stops, _⟩ := ih.2 few broken
          have shown := visible_of_derivation before d (gap.val ++ [','] ++ front) rest
          exact ⟨_, by simp [within], stops.comma before d gap, by simpa using shown⟩
        · refine ⟨before.val ++ d.chars ++ gap.val, ?_,
            stopsBetween_of_argument before d gap (solid_skipBlank tail) noComma noClosing,
            visible_of_derivation before d _ _⟩
          simpa using within

/-- All places where a text is refused: its expression breaks off, or more than blanks
follows it. -/
theorem read_eq_syntaxError {input text : String} {offset : Nat}
    (refused : read input = .error (.syntaxError text offset expected)) :
    text = input ∧ ∃ rest, offset = byteLength input.toList - byteLength rest ∧
      (expression (2 * input.toList.length + 2) input.toList = .error (.missing expected rest) ∨
        ∃ e tail, expression (2 * input.toList.length + 2) input.toList = .ok (e, tail) ∧
          rest = skipBlank tail) := by
  unfold read at refused
  obtain ⟨refusal, found, same⟩ := mapError_eq_error.mp refused
  cases refusal with
  | unknownFunction name => cases same
  | missing reason rest =>
    cases same
    refine ⟨rfl, rest, rfl, ?_⟩
    rcases bind_eq_error.mp found with broken | ⟨⟨e, tail⟩, whole, later⟩
    · exact Or.inl broken
    · dsimp only at later
      split at later
      · cases later
      · cases later
        exact Or.inr ⟨e, tail, whole, rfl⟩

/-- The part of a refused text before the offset can be completed, and the next character
cannot be kept. -/
theorem exists_front_of_syntaxError {input text : String} {offset : Nat}
    (refused : read input = .error (.syntaxError text offset expected)) :
    ∃ front rest, input.toList = front ++ rest ∧ offset = byteLength input.toList - byteLength rest ∧
      (∃ more, ∃ s : Sentence, s.chars = front ++ more) ∧
      ∀ c tail, rest = c :: tail → ∀ more, ∀ s : Sentence, s.chars ≠ front ++ c :: more := by
  obtain ⟨_, rest, bytes, broken | ⟨e, tail, found, rfl⟩⟩ := read_eq_syntaxError refused
  · obtain ⟨front, split, stops, _⟩ := (stopsBetween_of_missing _).1 (Nat.le_succ _) broken
    obtain ⟨more, before, d, whole⟩ := stops.viable
    refine ⟨front, rest, split, bytes, ⟨more, ⟨before, d, ⟨[], by simp [Blanks]⟩⟩, ?_⟩, ?_⟩
    · simp [Sentence.chars, whole]
    intro c tail next more s same
    exact stops.dead c tail next more _ s.after.val ⟨s.before, s.body, rfl⟩ same.symm
  · obtain ⟨before, d, split, rfl⟩ := (exists_derivation_of_read _).1 found
    obtain ⟨gap, within⟩ := exists_gap tail
    rw [within] at split
    refine ⟨before.val ++ d.chars ++ gap.val, skipBlank tail, by simpa using split, bytes,
      ⟨[], ⟨before, d, gap⟩, by simp [Sentence.chars]⟩, ?_⟩
    intro c later next more s same
    have plain : isBlank c = false := solid_skipBlank tail c (by rw [next]; rfl)
    simp only [Sentence.chars, List.append_assoc] at same
    obtain ⟨_, body⟩ := Gap.eq_of_append (s.body.solid_append _) (d.solid_append _) same
    have behind := (s.body.eq_of_append d body).2
    have blank := s.after.property c (by rw [behind]; simp)
    rw [plain] at blank
    cases blank

theorem byteLength_eq (cs : List Char) : byteLength cs = (String.ofList cs).utf8ByteSize := by
  have counted (n : Nat) : cs.foldl (fun n c => n + c.utf8Size) n = n + (String.ofList cs).utf8ByteSize := by
    induction cs generalizing n with
    | nil => simp
    | cons c cs ih =>
      rw [List.foldl_cons, ih, String.ofList_cons, String.utf8ByteSize_append, String.utf8ByteSize_singleton,
        Nat.add_assoc]
  rw [byteLength, counted, Nat.zero_add]

/-- The offset of a syntax error is that of the first character that does not belong. It
lies between two characters of the text, what stands before it can be completed to a text
that is read, and with the character behind it, if there is one, nothing can. -/
theorem first_offending_of_syntaxError {input text : String} {offset : Nat} {expected : Expected}
    (refused : read input = .error (.syntaxError text offset expected)) :
    text = input ∧ offset ≤ input.utf8ByteSize ∧ String.Pos.Raw.IsValid input ⟨offset⟩ ∧
      ∃ front rest : String, input = front ++ rest ∧ front.utf8ByteSize = offset ∧
        (∃ more e, read (front ++ more) = .ok e) ∧
        (offset < input.utf8ByteSize → ∃ c tail, rest = String.singleton c ++ tail ∧
          ∀ more e, read (front ++ String.singleton c ++ more) ≠ .ok e) := by
  obtain ⟨front, rest, split, bytes, ⟨more, s, whole⟩, dead⟩ := exists_front_of_syntaxError refused
  have parts : input = String.ofList front ++ String.ofList rest := by
    rw [← String.ofList_append, ← split, String.ofList_toList]
  have sum : input.utf8ByteSize = (String.ofList front).utf8ByteSize + (String.ofList rest).utf8ByteSize := by
    rw [parts, String.utf8ByteSize_append]
  have place : (String.ofList front).utf8ByteSize = offset := by
    rw [bytes, byteLength_eq, byteLength_eq, String.ofList_toList]
    omega
  refine ⟨(read_eq_syntaxError refused).1, by omega, ?_, _, _, parts, place, ?_, ?_⟩
  · exact String.Pos.Raw.isValid_iff_exists_append.mpr ⟨_, _, parts, by rw [← place]; rfl⟩
  · exact ⟨String.ofList more, s.expr, read_of_denotes (denotes_iff.mpr ⟨s, by simp [whole], rfl⟩)⟩
  · intro inside
    cases rest with
    | nil =>
      rw [String.ofList_nil, String.utf8ByteSize_empty] at sum
      omega
    | cons c tail =>
      refine ⟨c, String.ofList tail, String.ofList_cons, ?_⟩
      intro more e ok
      obtain ⟨s, chars, _⟩ := denotes_iff.mp (denotes_of_read ok)
      exact dead c tail rfl more.toList s (by simpa using chars)

set_option maxRecDepth 10000 in
theorem first_offending_of_missing_comma :
    read "join('é' 'b')" = .error (.syntaxError "join('é' 'b')" 10 .commaOrClosing) ∧
      ∃ front rest : String, "join('é' 'b')" = front ++ rest ∧ front.utf8ByteSize = 10 ∧
        (∃ more e, read (front ++ more) = .ok e) ∧
        ∃ c tail, rest = String.singleton c ++ tail ∧
          ∀ more e, read (front ++ String.singleton c ++ more) ≠ .ok e := by
  have refused : read "join('é' 'b')" = .error (.syntaxError "join('é' 'b')" 10 .commaOrClosing) :=
    eq_error_of_error? (by decide +kernel)
  obtain ⟨_, _, _, front, rest, split, place, viable, dead⟩ := first_offending_of_syntaxError refused
  exact ⟨refused, front, rest, split, place, viable, dead (by decide)⟩

end Expr

end LayeredConfig
