import LayeredConfig.Yaml.Token

namespace LayeredConfig.Yaml

/-- What may be written in front of a node: an anchor and a full tag. -/
structure Mark (ν : Type) where
  anchor : Option ν
  tag : Option TagBytes
  deriving Repr, Inhabited

/-- A node of a document whose anchors and aliases are of a given type. -/
inductive Node (ν : Type)
  | alias (target : ν)
  | scalar (mark : Mark ν) (content : String) (plain : Bool)
  | sequence (mark : Mark ν) (items : List (Node ν))
  | mapping (mark : Mark ν) (entries : List (Node ν × Node ν))
  deriving Repr, Inhabited

/-- What tag handles stand for. -/
abbrev Shorthands := List (String × TagBytes)

/-- The tag of a core type. -/
def coreTag (name : String) : TagBytes :=
  plainBytes ("tag:yaml.org,2002:" ++ name).toList

namespace Node

def unmarked : Mark String :=
  ⟨none, none⟩

/-- The scalar that stands where nothing is written. -/
def nothing (mark : Mark String) : Node String :=
  .scalar mark "" true

/-- A tag in full; a handle that stands for nothing is refused. -/
def fullTag? (known : Shorthands) (handle : String) (suffix : TagBytes) : Option TagBytes :=
  if handle = "" then some suffix else (known.lookup handle).map (· ++ suffix)

/-- The anchor and the tag in front of a node, in either order. -/
def mark? (known : Shorthands) : List Token → Option (Mark String × List Token)
  | .anchor a :: .tag h s :: rest => (fullTag? known h s).map fun tag => (⟨some a, some tag⟩, rest)
  | .tag h s :: .anchor a :: rest => (fullTag? known h s).map fun tag => (⟨some a, some tag⟩, rest)
  | .anchor a :: rest => some (⟨some a, none⟩, rest)
  | .tag h s :: rest => (fullTag? known h s).map fun tag => (⟨none, some tag⟩, rest)
  | rest => some (unmarked, rest)

mutual

/-- Reads a node. In brackets no block may start; behind a key a block sequence
may stand at the column of the key, without a start of its own. -/
def node? (known : Shorthands) (block unindented : Bool) (fuel : Nat) (ts : List Token) :
    Option (Node String × List Token) :=
  match fuel with
  | 0 => none
  | fuel + 1 =>
    match ts with
    | .alias name :: rest => some (.alias name, rest)
    | ts => do
      let (mark, ts) ← mark? known ts
      match ts with
      | .blockEntry :: _ =>
        if unindented then
          let (items, rest) ← unindentedItems? known fuel ts
          some (.sequence mark items, rest)
        else if mark.anchor.isSome || mark.tag.isSome then some (nothing mark, ts)
        else none
      | .scalar content plain :: rest => some (.scalar mark content plain, rest)
      | .flowSequenceStart :: rest =>
        let (items, rest) ← flowItems? known fuel true rest
        some (.sequence mark items, rest)
      | .flowMappingStart :: rest =>
        let (entries, rest) ← flowEntries? known fuel true rest
        some (.mapping mark entries, rest)
      | ts =>
        match block, ts with
        | true, .blockSequenceStart :: rest =>
          let (items, rest) ← blockItems? known fuel rest
          some (.sequence mark items, rest)
        | true, .blockMappingStart :: rest =>
          let (entries, rest) ← blockEntries? known fuel rest
          some (.mapping mark entries, rest)
        | _, ts => if mark.anchor.isSome || mark.tag.isSome then some (nothing mark, ts) else none

/-- The items of a block sequence, up to its end. -/
def blockItems? (known : Shorthands) (fuel : Nat) (ts : List Token) : Option (List (Node String) × List Token) :=
  match fuel with
  | 0 => none
  | fuel + 1 =>
    match ts with
    | .blockEnd :: rest => some ([], rest)
    | .blockEntry :: rest => do
      let (item, rest) ← match rest with
        | .blockEntry :: _ => some (nothing unmarked, rest)
        | .blockEnd :: _ => some (nothing unmarked, rest)
        | _ => node? known true false fuel rest
      let (items, rest) ← blockItems? known fuel rest
      some (item :: items, rest)
    | _ => none

/-- The items of a block sequence that has no end of its own. -/
def unindentedItems? (known : Shorthands) (fuel : Nat) (ts : List Token) :
    Option (List (Node String) × List Token) :=
  match fuel with
  | 0 => none
  | fuel + 1 =>
    match ts with
    | .blockEntry :: rest => do
      let (item, rest) ← match rest with
        | .blockEntry :: _ => some (nothing unmarked, rest)
        | .blockEnd :: _ => some (nothing unmarked, rest)
        | .key :: _ => some (nothing unmarked, rest)
        | .value :: _ => some (nothing unmarked, rest)
        | _ => node? known true false fuel rest
      let (items, rest) ← unindentedItems? known fuel rest
      some (item :: items, rest)
    | _ => some ([], ts)

/-- The entries of a block mapping, up to its end. -/
def blockEntries? (known : Shorthands) (fuel : Nat) (ts : List Token) :
    Option (List (Node String × Node String) × List Token) :=
  match fuel with
  | 0 => none
  | fuel + 1 =>
    match ts with
    | .blockEnd :: rest => some ([], rest)
    | .key :: rest => do
      let (key, rest) ← blockPart? known fuel rest
      let (value, rest) ← match rest with
        | .value :: rest => blockPart? known fuel rest
        | rest => some (nothing unmarked, rest)
      let (entries, rest) ← blockEntries? known fuel rest
      some ((key, value) :: entries, rest)
    | _ => none

/-- A key or a value of a block mapping, which may be left out. -/
def blockPart? (known : Shorthands) (fuel : Nat) (ts : List Token) : Option (Node String × List Token) :=
  match fuel with
  | 0 => none
  | fuel + 1 =>
    match ts with
    | .key :: _ => some (nothing unmarked, ts)
    | .value :: _ => some (nothing unmarked, ts)
    | .blockEnd :: _ => some (nothing unmarked, ts)
    | _ => node? known true true fuel ts

/-- The items of a sequence in brackets, up to its end. -/
def flowItems? (known : Shorthands) (fuel : Nat) (first : Bool) (ts : List Token) :
    Option (List (Node String) × List Token) :=
  match fuel with
  | 0 => none
  | fuel + 1 =>
    match ts with
    | .flowSequenceEnd :: rest => some ([], rest)
    | ts => do
      let ts ← match first, ts with
        | true, ts => some ts
        | false, .flowEntry :: rest => some rest
        | false, _ => none
      match ts with
      | .flowSequenceEnd :: rest => some ([], rest)
      | .key :: rest =>
        let (entry, rest) ← flowPair? known fuel rest
        let (items, rest) ← flowItems? known fuel false rest
        some (.mapping unmarked [entry] :: items, rest)
      | ts =>
        let (item, rest) ← node? known false false fuel ts
        let (items, rest) ← flowItems? known fuel false rest
        some (item :: items, rest)

/-- A single entry among the items of a sequence in brackets. Where its key is
left out, the mark that follows is passed over. -/
def flowPair? (known : Shorthands) (fuel : Nat) (ts : List Token) :
    Option ((Node String × Node String) × List Token) :=
  match fuel with
  | 0 => none
  | fuel + 1 => do
    let (key, rest) ← match ts with
      | .value :: rest => some (nothing unmarked, rest)
      | .flowEntry :: rest => some (nothing unmarked, rest)
      | .flowSequenceEnd :: rest => some (nothing unmarked, rest)
      | _ => node? known false false fuel ts
    let (value, rest) ← match rest with
      | .value :: .flowEntry :: more => some (nothing unmarked, .flowEntry :: more)
      | .value :: .flowSequenceEnd :: more => some (nothing unmarked, .flowSequenceEnd :: more)
      | .value :: rest => node? known false false fuel rest
      | rest => some (nothing unmarked, rest)
    some ((key, value), rest)

/-- The entries of a mapping in braces, up to its end. -/
def flowEntries? (known : Shorthands) (fuel : Nat) (first : Bool) (ts : List Token) :
    Option (List (Node String × Node String) × List Token) :=
  match fuel with
  | 0 => none
  | fuel + 1 =>
    match ts with
    | .flowMappingEnd :: rest => some ([], rest)
    | ts => do
      let ts ← match first, ts with
        | true, ts => some ts
        | false, .flowEntry :: rest => some rest
        | false, _ => none
      match ts with
      | .flowMappingEnd :: rest => some ([], rest)
      | .key :: rest =>
        let (key, rest) ← match rest with
          | .value :: _ => some (nothing unmarked, rest)
          | .flowEntry :: _ => some (nothing unmarked, rest)
          | .flowMappingEnd :: _ => some (nothing unmarked, rest)
          | _ => node? known false false fuel rest
        let (value, rest) ← match rest with
          | .value :: .flowEntry :: more => some (nothing unmarked, .flowEntry :: more)
          | .value :: .flowMappingEnd :: more => some (nothing unmarked, .flowMappingEnd :: more)
          | .value :: rest => node? known false false fuel rest
          | rest => some (nothing unmarked, rest)
        let (entries, rest) ← flowEntries? known fuel false rest
        some ((key, value) :: entries, rest)
      | ts =>
        let (key, rest) ← node? known false false fuel ts
        let (entries, rest) ← flowEntries? known fuel false rest
        some ((key, nothing unmarked) :: entries, rest)

end

/-- The directives of a document. Each may be given once, and the version is
1.1 or 1.2. -/
def directives? : List Token → Bool → Shorthands → Option (Shorthands × List Token)
  | .version major minor :: rest, versioned, known =>
    if versioned || major ≠ 1 || !(minor = 1 || minor = 2) then none else directives? rest true known
  | .tagShorthand h s :: rest, versioned, known =>
    if (known.lookup h).isSome then none else directives? rest versioned (known ++ [(h, s)])
  | rest, _, known => some (known ++ [("!", plainBytes ['!']), ("!!", coreTag "")], rest)

/-- The root of a document behind its start. -/
def root? (known : Shorthands) (ts : List Token) : Option (Node String × List Token) :=
  match ts with
  | .version .. :: _ => some (nothing unmarked, ts)
  | .tagShorthand .. :: _ => some (nothing unmarked, ts)
  | .documentStart :: _ => some (nothing unmarked, ts)
  | .documentEnd :: _ => some (nothing unmarked, ts)
  | .streamEnd :: _ => some (nothing unmarked, ts)
  | _ => node? known true false (4 * ts.length + 8) ts

/-- The document of a stream that holds one at most. -/
def ofTokens? (ts : List Token) : Option (Node String) :=
  match ts with
  | [.streamEnd] => some (nothing unmarked)
  | _ => do
    let (known, rest) ← directives? ts false []
    let (node, rest) ← match rest with
      | .documentStart :: rest => root? known rest
      | rest => if rest.length = ts.length then node? known true false (4 * ts.length + 8) ts else none
    if rest.dropWhile (· == .documentEnd) == [.streamEnd] then some node else none

end Node

end LayeredConfig.Yaml
