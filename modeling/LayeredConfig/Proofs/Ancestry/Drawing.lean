import LayeredConfig.Proofs.Ancestry.Traversal
import LayeredConfig.Proofs.Location.Below

namespace LayeredConfig

/-- Lines that are each closed by a separator come back from their text, with nothing behind
the last. -/
theorem pieces_flatMap_closed {sep : Char} {lines : List (List Char)} (free : ∀ line ∈ lines, sep ∉ line) :
    pieces sep (lines.flatMap (· ++ [sep])) = lines ++ [[]] := by
  induction lines with
  | nil => rfl
  | cons line rest ih =>
    have later := ih fun other member => free other (List.mem_cons_of_mem _ member)
    rw [List.flatMap_cons, List.append_assoc, List.singleton_append, pieces_append_sep,
      pieces_of_not_mem (free line List.mem_cons_self), later]
    rfl

namespace Lineage

/-- The node at a position. A position counts parents on the way from the first document. -/
def at? : Lineage → List Nat → Option Lineage
  | l, [] => some l
  | l, i :: way => l.parents[i]?.bind (at? · way)

mutual

/-- The positions of all nodes, each before those of its parents. -/
def positions : Lineage → List (List Nat)
  | node _ _ parents => [] :: positionsFrom 0 parents

/-- The positions in parents of which the first has the given number. -/
def positionsFrom : Nat → List Lineage → List (List Nat)
  | _, [] => []
  | i, parent :: rest => (positions parent).map (i :: ·) ++ positionsFrom (i + 1) rest

end

/-- Whether a sibling follows the node at a position. -/
def hasNext (l : Lineage) (position : List Nat) : Bool :=
  position.getLast?.any fun i => (l.at? (position.dropLast ++ [i + 1])).isSome

/-- The mark in front of a node. -/
def mark (l : Lineage) (position : List Nat) : String :=
  if l.hasNext position then "├── " else "└── "

/-- The column below the mark of a node. -/
def column (l : Lineage) (position : List Nat) : String :=
  if l.hasNext position then "│   " else "    "

/-- The line of the node at a position: a column for each node on the way to it, from depth one
on, then its own mark, its place and the reference to it. The first document has no mark. -/
def lineAt (base : Location) (l : Lineage) (position : List Nat) : String :=
  String.join ((List.range (position.length - 1)).map fun depth => l.column (position.take (depth + 1))) ++
    (if position = [] then "" else l.mark position) ++
    (l.at? position).elim "" fun n =>
      shown base n.location ++ n.reference.elim "" fun r => "  (" ++ r ++ ")"

section Positions

variable {l parent : Lineage} {place : Location} {named : Option String} {before rest : List Lineage} {i : Nat}

theorem at?_cons (found : l.parents[i]? = some parent) (way : List Nat) : l.at? (i :: way) = parent.at? way := by
  rw [at?, found, Option.bind_some]

theorem hasNext_singleton (l : Lineage) (i : Nat) : l.hasNext [i] = true ↔ i + 1 < l.parents.length := by
  have next : l.at? [i + 1] = l.parents[i + 1]? := by
    rw [at?]
    cases l.parents[i + 1]? <;> rfl
  simp [hasNext, next]

theorem hasNext_cons (found : l.parents[i]? = some parent) {way : List Nat} (deeper : way ≠ []) :
    l.hasNext (i :: way) = parent.hasNext way := by
  obtain ⟨j, more, rfl⟩ := List.exists_cons_of_ne_nil deeper
  rw [hasNext, hasNext, List.getLast?_cons_cons, List.dropLast_cons_cons]
  simp only [List.cons_append, at?_cons found]

/-- The line of a node in the tree is its line among the nodes above one of the parents, behind the mark
or the column of that parent. -/
theorem lineAt_cons (base : Location) (found : l.parents[i]? = some parent) (way : List Nat) :
    lineAt base l (i :: way) = (if way = [] then l.mark [i] else l.column [i]) ++ lineAt base parent way := by
  cases way with
  | nil => simp [lineAt, at?_cons found]
  | cons j more =>
    have deeper (depth : Nat) : l.column ((i :: j :: more).take (depth + 1 + 1)) =
        parent.column ((j :: more).take (depth + 1)) := by
      rw [column, column, List.take_succ_cons, hasNext_cons found (by simp)]
    have own : l.mark (i :: j :: more) = parent.mark (j :: more) := by
      rw [mark, mark, hasNext_cons found (by simp)]
    simp only [lineAt, List.length_cons, Nat.add_sub_cancel, List.range_succ_eq_map, List.map_cons, List.map_map,
      Function.comp_def, deeper, own, at?_cons found]
    simp [String.append_assoc]

mutual

/-- Every node is listed at its position. -/
theorem mem_positions_iff : ∀ (l : Lineage) (position : List Nat),
    position ∈ l.positions ↔ (l.at? position).isSome = true
  | node place named parents, [] => by simp [positions, at?]
  | node place named parents, i :: way => by
    rw [positions, at?, List.mem_cons, mem_positionsFrom_iff, Lineage.parents]
    constructor
    · rintro (none_ | ⟨j, more, parent, same, found, inside⟩)
      · cases none_
      · rw [Nat.zero_add, List.cons.injEq] at same
        rw [same.1, same.2, found]
        exact inside
    · intro inside
      obtain ⟨parent, found⟩ := Option.isSome_iff_exists.mp (Option.isSome_of_isSome_bind inside)
      rw [found, Option.bind_some] at inside
      exact Or.inr ⟨i, way, parent, by rw [Nat.zero_add], found, inside⟩

theorem mem_positionsFrom_iff : ∀ (i : Nat) (parents : List Lineage) (position : List Nat),
    position ∈ positionsFrom i parents ↔
      ∃ j way parent, position = (i + j) :: way ∧ parents[j]? = some parent ∧ (parent.at? way).isSome = true
  | _, [], _ => by simp [positionsFrom]
  | i, parent :: rest, position => by
    rw [positionsFrom, List.mem_append, List.mem_map, mem_positionsFrom_iff (i + 1) rest]
    constructor
    · rintro (⟨way, member, rfl⟩ | ⟨j, way, other, rfl, found, inside⟩)
      · exact ⟨0, way, parent, rfl, rfl, (mem_positions_iff parent way).mp member⟩
      · exact ⟨j + 1, way, other, by rw [Nat.add_assoc, Nat.add_comm 1], found, inside⟩
    · rintro ⟨j, way, other, rfl, found, inside⟩
      cases j with
      | zero =>
        cases found
        exact Or.inl ⟨way, (mem_positions_iff parent way).mpr inside, rfl⟩
      | succ j => exact Or.inr ⟨j, way, other, by rw [Nat.add_assoc, Nat.add_comm 1], found, inside⟩

end

theorem ne_nil_of_mem_positionsFrom {position : List Nat} (member : position ∈ positionsFrom i rest) :
    position ≠ [] := by
  obtain ⟨j, way, parent, rfl, -, -⟩ := (mem_positionsFrom_iff i rest position).mp member
  exact List.cons_ne_nil _ _

mutual

/-- Positions are listed in lexicographic order. -/
theorem positions_pairwise : ∀ l : Lineage, l.positions.Pairwise (· < ·)
  | node place named parents => by
    rw [positions]
    refine .cons (fun position member => ?_) (positionsFrom_pairwise 0 parents)
    obtain ⟨j, way, rfl⟩ := List.exists_cons_of_ne_nil (ne_nil_of_mem_positionsFrom member)
    exact List.nil_lt_cons j way

theorem positionsFrom_pairwise : ∀ (i : Nat) (parents : List Lineage), (positionsFrom i parents).Pairwise (· < ·)
  | _, [] => .nil
  | i, parent :: rest => by
    rw [positionsFrom, List.pairwise_append]
    refine ⟨?_, positionsFrom_pairwise (i + 1) rest, ?_⟩
    · rw [List.pairwise_map]
      exact (positions_pairwise parent).imp fun below => List.cons_lt_cons_iff.mpr (Or.inr ⟨rfl, below⟩)
    · intro first left second right
      obtain ⟨way, -, rfl⟩ := List.mem_map.mp left
      obtain ⟨j, more, other, rfl, -, -⟩ := (mem_positionsFrom_iff (i + 1) rest second).mp right
      exact List.cons_lt_cons_iff.mpr (Or.inl (by omega))

end

mutual

/-- The nodes at the positions are the nodes in their order. -/
theorem map_at?_positions : ∀ l : Lineage, l.positions.map l.at? = l.nodes.map some
  | node place named parents => by
    rw [positions, nodes, List.map_cons, List.map_cons]
    exact congrArg _ (map_at?_positionsFrom parents (node place named parents) [] rfl)

theorem map_at?_positionsFrom : ∀ (rest : List Lineage) (l : Lineage) (before : List Lineage),
    l.parents = before ++ rest → (positionsFrom before.length rest).map l.at? = (nodesAll rest).map some
  | [], _, _, _ => rfl
  | parent :: rest, l, before, whole => by
    have found : l.parents[before.length]? = some parent := by simp [whole]
    have later := map_at?_positionsFrom rest l (before ++ [parent]) (by simp [whole])
    rw [List.length_append, List.length_singleton] at later
    rw [positionsFrom, nodesAll, List.map_append, List.map_append, List.map_map, later, ← map_at?_positions parent]
    exact congrArg (· ++ _) (List.map_congr_left fun way _ => at?_cons found way)

end

end Positions

section Drawn

variable {l : Lineage} {place : Location} {named : Option String} {before rest : List Lineage}

theorem linesAll_cons (base : Location) (margin : String) (parent : Lineage) (rest : List Lineage) :
    linesAll base margin (parent :: rest) =
      lines base (margin ++ if rest = [] then "└── " else "├── ") (margin ++ if rest = [] then "    " else "│   ")
        parent ++ linesAll base margin rest := by
  cases rest with
  | nil => simp [linesAll]
  | cons next more => simp [linesAll]

mutual

/-- Lines under a branch and a margin: the branch opens the first, and the margin the others. -/
theorem lines_eq (base : Location) : ∀ (l : Lineage) (branch margin : String),
    lines base branch margin l =
      l.positions.map fun position => (if position = [] then branch else margin) ++ lineAt base l position
  | node place named parents, branch, margin => by
    have first : lineAt base (node place named parents) [] = label base place named := rfl
    rw [lines, positions, List.map_cons, if_pos rfl, first,
      linesAll_eq base parents (node place named parents) [] margin rfl]
    refine congrArg _ (List.map_congr_left fun position member => ?_)
    rw [if_neg (ne_nil_of_mem_positionsFrom member)]

theorem linesAll_eq (base : Location) : ∀ (rest : List Lineage) (l : Lineage) (before : List Lineage)
    (margin : String), l.parents = before ++ rest →
    linesAll base margin rest = (positionsFrom before.length rest).map fun position =>
      margin ++ lineAt base l position
  | [], _, _, _, _ => rfl
  | parent :: rest, l, before, margin, whole => by
    have found : l.parents[before.length]? = some parent := by simp [whole]
    have next : l.hasNext [before.length] = true ↔ rest ≠ [] := by
      rw [hasNext_singleton, whole]
      cases rest <;> simp
    have later := linesAll_eq base rest l (before ++ [parent]) margin (by simp [whole])
    rw [linesAll_cons, lines_eq base parent, later, positionsFrom, List.map_append, List.map_map,
      List.length_append, List.length_singleton]
    congr 1
    refine List.map_congr_left fun way _ => ?_
    rw [Function.comp_apply, lineAt_cons base found, ← String.append_assoc]
    congr 1
    by_cases last : rest = [] <;> by_cases own : way = [] <;> simp_all [mark, column]

end

theorem newline_not_mem_lineAt {base : Location} {l : Lineage} {position : List Nat}
    (unbroken : ∀ n, l.at? position = some n → '\n' ∉ (shown base n.location).toList ∧
      ∀ named ∈ n.reference, '\n' ∉ named.toList) :
    '\n' ∉ (lineAt base l position).toList := by
  have columns (front : List Nat) : '\n' ∉ (l.column front).toList := by
    unfold column
    split <;> decide
  have marks : '\n' ∉ (l.mark position).toList := by
    unfold mark
    split <;> decide
  rw [lineAt, String.toList_append, String.toList_append, String.toList_join]
  simp only [List.mem_append, List.mem_flatMap, List.mem_map, not_or]
  refine ⟨⟨?_, ?_⟩, ?_⟩
  · rintro ⟨_, ⟨depth, -, rfl⟩, inside⟩
    exact columns _ inside
  · split
    · decide
    · exact marks
  · cases found : l.at? position with
    | none => exact List.not_mem_nil
    | some n =>
      obtain ⟨clean, written⟩ := unbroken n found
      cases named : n.reference with
      | none => simpa [named] using clean
      | some r => simp [named, clean, written r named]

/-- The drawn tree has one line for each node, in the order of the nodes, and each line shows where its node
stands. A place below the base is shown by the steps behind those of the base. -/
theorem draw_shows_tree {base : Location} {l : Lineage}
    (unbroken : ∀ n ∈ l.nodes, '\n' ∉ (shown base n.location).toList ∧
      ∀ named ∈ n.reference, '\n' ∉ named.toList) :
    pieces '\n' (l.draw base).toList = l.positions.map (fun position => (lineAt base l position).toList) ++ [[]] ∧
      l.positions.map (fun position => (l.at? position).map location) = l.locations.map some ∧
      (∀ position, position ∈ l.positions ↔ (l.at? position).isSome = true) ∧ l.positions.Pairwise (· < ·) ∧
      ∀ place : Location, if base.steps <+: place.steps
        then (⟨shown base place⟩ : Location).steps = place.steps.drop base.steps.length
        else shown base place = place.text := by
  have listed : l.positions.map (fun position => (l.at? position).map location) = l.locations.map some := by
    have nodes := congrArg (List.map (Option.map location)) (map_at?_positions l)
    rw [List.map_map, List.map_map] at nodes
    rw [← map_location_nodes, List.map_map]
    exact nodes
  have clean : ∀ line ∈ l.positions.map fun position => (lineAt base l position).toList, '\n' ∉ line := by
    intro line member
    obtain ⟨position, -, rfl⟩ := List.mem_map.mp member
    refine newline_not_mem_lineAt fun n found => ?_
    have inside : some n ∈ l.nodes.map some :=
      map_at?_positions l ▸ List.mem_map.mpr ⟨position,
        (mem_positions_iff l position).mpr (by rw [found]; rfl), found⟩
    obtain ⟨_, known, same⟩ := List.mem_map.mp inside
    cases same
    exact unbroken n known
  refine ⟨?_, listed, mem_positions_iff l, positions_pairwise l, fun place => ?_⟩
  · have text : (l.draw base).toList = (l.positions.map fun position => (lineAt base l position).toList).flatMap
        (· ++ ['\n']) := by
      rw [draw, String.toList_join, lines_eq]
      simp [List.flatMap_map]
    rw [text, pieces_flatMap_closed clean]
  · split
    · next below =>
      cases way : place.below? base with
      | none => exact absurd below (Location.below?_eq_none_iff.mp way)
      | some text =>
        rw [shown, way, Option.getD_some]
        exact Location.steps_below? way
    · next apart =>
      rw [shown, Location.below?_eq_none_iff.mpr apart, Option.getD_none]

/-- A document with two parents, of which the first has parents of its own. -/
def forked : Lineage :=
  .node ⟨"/ws/root.yaml"⟩ none
    [.node ⟨"/ws/base.yaml"⟩ (some "./base.yaml")
      [.node ⟨"/ws/mid.yaml"⟩ (some "./mid.yaml")
        [.node ⟨"/ws/node_modules/pkg/core.yaml"⟩ (some "pkg/core.yaml") []],
        .node ⟨"/opt/x.yaml"⟩ (some "/opt/x.yaml") []],
      .node ⟨"/ws/extra.yaml"⟩ (some "./extra.yaml") []]

theorem draw_shows_forked :
    (∀ n ∈ forked.nodes, '\n' ∉ (shown ⟨"/ws"⟩ n.location).toList ∧
        ∀ named ∈ n.reference, '\n' ∉ named.toList) ∧
      pieces '\n' (forked.draw ⟨"/ws"⟩).toList =
        ["root.yaml", "├── base.yaml  (./base.yaml)", "│   ├── mid.yaml  (./mid.yaml)",
            "│   │   └── node_modules/pkg/core.yaml  (pkg/core.yaml)", "│   └── /opt/x.yaml  (/opt/x.yaml)",
            "└── extra.yaml  (./extra.yaml)"].map String.toList ++ [[]] := by
  have unbroken : ∀ n ∈ forked.nodes, '\n' ∉ (shown ⟨"/ws"⟩ n.location).toList ∧
      ∀ named ∈ n.reference, '\n' ∉ named.toList := by decide +kernel
  refine ⟨unbroken, (draw_shows_tree unbroken).1.trans ?_⟩
  decide +kernel

end Drawn

end Lineage

end LayeredConfig
