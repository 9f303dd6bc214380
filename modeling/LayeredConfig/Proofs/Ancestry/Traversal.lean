import LayeredConfig.Proofs.Ancestry.Cycle
import LayeredConfig.Proofs.Ancestry.Order
import LayeredConfig.Proofs.Ancestry.Trail

namespace LayeredConfig

open Location

namespace Lineage

def reference : Lineage → Option String
  | node _ reference _ => reference

def parents : Lineage → List Lineage
  | node _ _ parents => parents

mutual

/-- All nodes, each before those of its parents. -/
def nodes : Lineage → List Lineage
  | node location reference parents => node location reference parents :: nodesAll parents

def nodesAll : List Lineage → List Lineage
  | [] => []
  | parent :: rest => nodes parent ++ nodesAll rest

end

mutual

/-- All nodes, each after those of its parents. -/
def nodesUp : Lineage → List Lineage
  | node location reference parents => nodesUpAll parents ++ [node location reference parents]

def nodesUpAll : List Lineage → List Lineage
  | [] => []
  | parent :: rest => nodesUp parent ++ nodesUpAll rest

end

mutual

theorem map_location_nodes : ∀ l : Lineage, l.nodes.map location = l.locations
  | node place named parents => by
    rw [nodes, locations, List.map_cons, map_location_nodesAll parents, location]

theorem map_location_nodesAll : ∀ parents : List Lineage, (nodesAll parents).map location = locationsAll parents
  | [] => by rw [nodesAll, locationsAll, List.map_nil]
  | parent :: rest => by
    rw [nodesAll, locationsAll, List.map_append, map_location_nodes parent, map_location_nodesAll rest]

end

mutual

theorem map_location_nodesUp : ∀ l : Lineage, l.nodesUp.map location = l.mergeOrder
  | node place named parents => by
    rw [nodesUp, mergeOrder, List.map_append, map_location_nodesUpAll parents, List.map_singleton, location]

theorem map_location_nodesUpAll :
    ∀ parents : List Lineage, (nodesUpAll parents).map location = mergeOrderAll parents
  | [] => by rw [nodesUpAll, mergeOrderAll, List.map_nil]
  | parent :: rest => by
    rw [nodesUpAll, mergeOrderAll, List.map_append, map_location_nodesUp parent, map_location_nodesUpAll rest]

end

mutual

theorem nodesUp_perm : ∀ l : Lineage, l.nodesUp.Perm l.nodes
  | node place named parents => by
    rw [nodesUp, nodes]
    exact (List.perm_append_singleton _ _).trans ((nodesUpAll_perm parents).cons _)

theorem nodesUpAll_perm : ∀ parents : List Lineage, (nodesUpAll parents).Perm (nodesAll parents)
  | [] => by rw [nodesUpAll, nodesAll]
  | parent :: rest => by
    rw [nodesUpAll, nodesAll]
    exact (nodesUp_perm parent).append (nodesUpAll_perm rest)

end

theorem getLast?_nodesUp (l : Lineage) : l.nodesUp.getLast? = some l := by
  cases l with
  | node place named parents => rw [nodesUp, List.getLast?_concat]

end Lineage

namespace Surroundings

/-- A document belongs to a node when both have one place and the references of the
document name the parents of the node, one after the other: where a reference leads meets
the place of its parent. -/
structure IsNodeOf (s : Surroundings) (t : FileTree) (Meets : Location → Location → Prop) (d : Document)
    (l : Lineage) : Prop where
  location : d.location = l.location
  parents : List.Forall₂ (fun named parent => parent.reference = some named ∧
    ∃ target, locateReference s.search t named d.location = .ok target ∧ Meets target parent.location)
    d.parents l.parents

/-- A place is in canonical form, but for a dot that it may begin with. -/
def MeetsButForDot (target place : Location) : Prop :=
  target.normalize = place ∧ (target.same place = true ↔ target.steps.head? ≠ some .here)

variable {s : Surroundings} {t x : FileTree} {fuel : Nat} {above : List Location} {reference : Option String}
  {root place : Location} {a : Ancestry} {Meets Other : Location → Location → Prop}

theorem forall₂_documents {R : Document → Lineage → Prop} {parents : List Ancestry}
    (each : ∀ parent ∈ parents, List.Forall₂ R parent.documents parent.lineage.nodesUp) :
    List.Forall₂ R (parents.flatMap Ancestry.documents) (Lineage.nodesUpAll (parents.map Ancestry.lineage)) := by
  induction parents with
  | nil => exact .nil
  | cons parent rest ih =>
    rw [List.flatMap_cons, List.map_cons, Lineage.nodesUpAll]
    exact List.rel_append (each parent List.mem_cons_self) (ih fun p member =>
      each p (List.mem_cons_of_mem _ member))

/-- A visit gives a node at its place, and documents that belong to the nodes below it, each
after those of its parents. -/
theorem isNodeOf_of_visit (shape : t.SameShape x)
    (visited : (s.visit fuel x above reference place).result = .ok a) :
    a.lineage.location = place.normalize ∧ a.lineage.reference = reference ∧
      List.Forall₂ (s.IsNodeOf t MeetsButForDot) a.documents a.lineage.nodesUp := by
  induction fuel generalizing x above reference place a with
  | zero => cases visited
  | succ fuel ih =>
    obtain ⟨d, parents, loaded, run, rfl⟩ := visit_eq_ok visited
    have step : ∀ y, t.SameShape y → ∀ named ∈ d.parents,
        t.SameShape (s.visitParent fuel (above ++ [d.location]) d.location y named).files :=
      fun y kept named _ => kept.trans (s.sameShape_visitParent _ _ _ _ _)
    obtain ⟨_, ⟨results, done, each⟩ | ⟨_, _, _, _, _, _, stopped⟩⟩ :=
      Outcome.inTurn_cases step (shape.trans (Document.sameShape_load s.policy s.now x place))
    · obtain rfl : parents = results := Except.ok.inj (run.symm.trans done)
      have both := each.flip.imp fun parent named visit => by
        obtain ⟨y, kept, ok⟩ := visit
        obtain ⟨target, found, ok⟩ := visitParent_eq_ok ok
        obtain ⟨located, _, file⟩ := parent_eq_ok found
        obtain ⟨place, own, below⟩ := ih kept ok
        have sameOr := same_normalize_iff located file
        rw [kept.locateReference] at located
        have child : parent.lineage.reference = some named ∧ ∃ target,
            locateReference s.search t named d.location = .ok target ∧
              MeetsButForDot target parent.lineage.location :=
          ⟨own, target, located, place.symm, place ▸ sameOr⟩
        exact And.intro below child
      obtain ⟨below, children⟩ := (List.forall₂_and_left _ _).mp both
      refine ⟨Document.location_of_load loaded, rfl, List.rel_append (forall₂_documents below) ?_⟩
      exact .cons ⟨rfl, List.forall₂_map_right_iff.mpr children.flip⟩ .nil
    · rw [run] at stopped
      cases stopped

theorem isAbsolute_of_visit (roots : ∀ r ∈ s.search.roots, r.isAbsolute = true)
    (absolute : place.isAbsolute = true) (visited : (s.visit fuel x above reference place).result = .ok a) :
    ∀ d ∈ a.documents, d.location.isAbsolute = true := by
  induction fuel generalizing x above reference place a with
  | zero => cases visited
  | succ fuel ih =>
    obtain ⟨d, parents, loaded, run, rfl⟩ := visit_eq_ok visited
    have own : d.location.isAbsolute = true := by
      rw [Document.location_of_load loaded]
      exact isAbsolute_normalize absolute
    intro e member
    rcases List.mem_append.mp member with earlier | last
    · obtain ⟨parent, known, inside⟩ := List.mem_flatMap.mp earlier
      obtain ⟨named, _, y, ok⟩ := Outcome.inTurn_eq_ok run known
      obtain ⟨target, found, ok⟩ := visitParent_eq_ok ok
      exact ih (isAbsolute_of_locateReference roots own (parent_eq_ok found).1) ok e inside
    · rwa [List.mem_singleton.mp last]

/-- Between absolute places no dot is in the way. -/
theorem IsNodeOf.meets_same {d : Document} {l : Lineage} (belongs : s.IsNodeOf t MeetsButForDot d l)
    (roots : ∀ r ∈ s.search.roots, r.isAbsolute = true) (absolute : d.location.isAbsolute = true) :
    s.IsNodeOf t (fun target place => target.same place = true) d l where
  location := belongs.location
  parents := belongs.parents.imp fun named parent child => by
    obtain ⟨own, target, located, _, sameOr⟩ := child
    have rooted := isAbsolute_of_locateReference roots absolute located
    rw [isAbsolute_iff_steps] at rooted
    exact ⟨own, target, located, sameOr.mpr (by simp [rooted])⟩

/-- The tree and the documents of an ancestry tell of one traversal. The documents belong to
the nodes of the tree, each after those of its parents, so the last one belongs to the first
node; the places of the tree are those of the same nodes in the other order. Where the
references of a document lead are the places of the parents of its node, but for a dot that
a relative package root may put before them. -/
theorem documents_follow_lineage (resolved : (s.ancestry t root).result = .ok a) :
    List.Forall₂ (s.IsNodeOf t MeetsButForDot) a.documents a.lineage.nodesUp ∧
      a.documents.map Document.location = a.lineage.nodesUp.map Lineage.location ∧
      a.lineage.locations = a.lineage.nodes.map Lineage.location ∧
      a.lineage.nodesUp.Perm a.lineage.nodes ∧ (a.documents.map Document.location).Perm a.lineage.locations ∧
      a.documents.getLast?.map Document.location = some root.normalize ∧
      a.lineage.location = root.normalize ∧ a.lineage.reference = none ∧
      ((∀ r ∈ s.search.roots, r.isAbsolute = true) → root.isAbsolute = true →
        List.Forall₂ (s.IsNodeOf t fun target place => target.same place = true)
          a.documents a.lineage.nodesUp) := by
  have order := map_location_documents resolved
  rw [← Lineage.map_location_nodesUp] at order
  obtain ⟨_, same⟩ := ancestry_eq_ok resolved
  rw [same] at resolved
  obtain ⟨place, first, belong⟩ := isNodeOf_of_visit (.refl t) resolved
  rw [normalize_normalize] at place
  have perm := a.lineage.nodesUp_perm
  refine ⟨belong, order, a.lineage.map_location_nodes.symm, perm, ?_, ?_, place, first, ?_⟩
  · rw [order, ← Lineage.map_location_nodes]
    exact perm.map _
  · rw [← List.getLast?_map, order, List.getLast?_map, Lineage.getLast?_nodesUp, Option.map_some, place]
  · intro roots absolute
    have rooted := isAbsolute_of_visit roots (isAbsolute_normalize absolute) resolved
    have both := (List.forall₂_and_left _ _).mpr ⟨rooted, belong⟩
    exact both.imp fun d l known => known.2.meets_same roots known.1

set_option maxRecDepth 10000 in
theorem documents_follow_lineage_diamond :
    ∃ a, (plain.ancestry diamond ⟨"/d/../a"⟩).result = .ok a ∧
      a.documents.map Document.location = [⟨"/c"⟩, ⟨"/b"⟩, ⟨"/c"⟩, ⟨"/a"⟩] ∧
      a.lineage.locations = [⟨"/a"⟩, ⟨"/b"⟩, ⟨"/c"⟩, ⟨"/c"⟩] ∧
      List.Forall₂ (plain.IsNodeOf diamond fun target place => target.same place = true) a.documents
        a.lineage.nodesUp := by
  obtain ⟨a, resolved, shown⟩ := exists_of_toOption_any (r := (plain.ancestry diamond ⟨"/d/../a"⟩).result)
    (p := fun a => a.documents.map Document.location == [⟨"/c"⟩, ⟨"/b"⟩, ⟨"/c"⟩, ⟨"/a"⟩] &&
      a.lineage.locations == [⟨"/a"⟩, ⟨"/b"⟩, ⟨"/c"⟩, ⟨"/c"⟩]) (by decide +kernel)
  rw [Bool.and_eq_true, beq_iff_eq, beq_iff_eq] at shown
  obtain ⟨_, _, _, _, _, _, _, _, exact_⟩ := documents_follow_lineage resolved
  exact ⟨a, resolved, shown.1, shown.2, exact_ (by decide) (by decide)⟩

/-- A document that extends another by a package in the current directory. -/
def packagedHere : FileTree :=
  ⟨[(["a"], .file (.text "$schema: ./s\nextends: '@k/../p'")), (["p"], .file (.text "$schema: .//s")),
    (["@k"], .directory)], []⟩

set_option maxRecDepth 10000 in
/-- Below a package root that is not absolute, the place of a parent is not the one that the
reference leads to, which begins with a dot. -/
theorem not_meets_same_of_relative_root :
    ¬∀ (s : Surroundings) (t : FileTree) (root : Location) (a : Ancestry), (s.ancestry t root).result = .ok a →
      List.Forall₂ (s.IsNodeOf t fun target place => target.same place = true) a.documents a.lineage.nodesUp := by
  intro meets
  let s : Surroundings := ⟨⟨⟨"/s"⟩, false⟩, ⟨[], [⟨"."⟩]⟩, ⟨0, 0⟩⟩
  obtain ⟨a, resolved, shown⟩ := exists_of_toOption_any (r := (s.ancestry packagedHere ⟨"/a"⟩).result)
    (p := fun a => (a.documents.map fun d => (d.location, d.parents)) == [(⟨"p"⟩, []), (⟨"/a"⟩, ["@k/../p"])] &&
      (a.lineage.nodesUp.map fun l => l.parents.map Lineage.location) == [[], [⟨"p"⟩]]) (by decide +kernel)
  rw [Bool.and_eq_true, beq_iff_eq, beq_iff_eq] at shown
  have seen : List.Forall₂ (fun (d : Location × List String) (places : List Location) =>
      List.Forall₂ (fun named place => ∃ target, locateReference s.search packagedHere named d.1 = .ok target ∧
        target.same place = true) d.2 places)
      (a.documents.map fun d => (d.location, d.parents))
      (a.lineage.nodesUp.map fun l => l.parents.map Lineage.location) := by
    rw [List.forall₂_map_left_iff, List.forall₂_map_right_iff]
    exact (meets s packagedHere ⟨"/a"⟩ a resolved).imp fun d l own =>
      List.forall₂_map_right_iff.mpr (own.parents.imp fun _ _ child => child.2)
  rw [shown.1, shown.2] at seen
  obtain _ | ⟨_, _ | ⟨_ | ⟨⟨target, located, same⟩, _⟩, _⟩⟩ := seen
  have dotted : locateReference s.search packagedHere "@k/../p" ⟨"/a"⟩ = .ok ⟨"./p"⟩ :=
    eq_ok_of_toOption (by decide +kernel)
  rw [dotted] at located
  cases located
  exact absurd same (by decide)

end Surroundings

end LayeredConfig
