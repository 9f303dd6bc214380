import LayeredConfig.Proofs.Ancestry.Visit
import LayeredConfig.Proofs.Document.Load

namespace LayeredConfig

namespace Lineage

mutual

/-- All places, each after those of its parents. -/
def mergeOrder : Lineage → List Location
  | node location _ parents => mergeOrderAll parents ++ [location]

def mergeOrderAll : List Lineage → List Location
  | [] => []
  | parent :: rest => mergeOrder parent ++ mergeOrderAll rest

end

mutual

/-- Whether every way through the tree to the place `ancestor` leads through
`place`. -/
def guarded (place ancestor : Location) : Lineage → Bool
  | node location _ parents => location == place || (location != ancestor && guardedAll place ancestor parents)

def guardedAll (place ancestor : Location) : List Lineage → Bool
  | [] => true
  | parent :: rest => guarded place ancestor parent && guardedAll place ancestor rest

end

theorem mergeOrderAll_eq_flatMap (parents : List Lineage) :
    mergeOrderAll parents = parents.flatMap mergeOrder := by
  induction parents with
  | nil => rfl
  | cons parent rest ih => rw [mergeOrderAll, ih, List.flatMap_cons]

/-- The one place comes again after each time that the other does. -/
def FollowedBy (place ancestor : Location) (order : List Location) : Prop :=
  ∀ before after, order = before ++ ancestor :: after → place ∈ after

theorem FollowedBy.append {place ancestor : Location} {first second : List Location}
    (front : FollowedBy place ancestor first) (back : FollowedBy place ancestor second) :
    FollowedBy place ancestor (first ++ second) := by
  intro before after split
  rcases List.append_eq_append_iff.mp split with ⟨more, _, inBack⟩ | ⟨more, inFront, rest⟩
  · exact back more after inBack
  · cases more with
    | nil => exact back [] after (by simpa using rest.symm)
    | cons head tail =>
      rw [List.cons_append, List.cons.injEq] at rest
      obtain ⟨rfl, rfl⟩ := rest
      exact List.mem_append_left second (front before tail inFront)

theorem followedBy_append_self {place ancestor : Location} (apart : ancestor ≠ place) (order : List Location) :
    FollowedBy place ancestor (order ++ [place]) := by
  intro before after split
  have last := congrArg List.getLast? split
  rw [List.getLast?_concat, List.getLast?_append, List.getLast?_cons] at last
  cases after with
  | nil => simp [apart.symm] at last
  | cons head tail =>
    have ends : (head :: tail).getLast? = some place := by simpa [List.getLast?_cons] using last.symm
    exact List.mem_of_getLast? ends

theorem followedBy_singleton {place ancestor location : Location} (apart : location ≠ ancestor) :
    FollowedBy place ancestor [location] := by
  intro before after split
  have member : ancestor ∈ [location] := split ▸ by simp
  exact absurd (List.mem_singleton.mp member).symm apart

mutual

/-- What only one place leads to comes before that place. -/
theorem followedBy_of_guarded {place ancestor : Location} (apart : ancestor ≠ place) :
    ∀ l : Lineage, l.guarded place ancestor = true → FollowedBy place ancestor l.mergeOrder
  | node location _ parents, guarded => by
    rw [Lineage.guarded, Bool.or_eq_true, Bool.and_eq_true, beq_iff_eq, bne_iff_ne] at guarded
    rw [mergeOrder]
    rcases guarded with rfl | ⟨other, above⟩
    · exact followedBy_append_self apart _
    · exact (followedBy_of_guardedAll apart parents above).append (followedBy_singleton other)

theorem followedBy_of_guardedAll {place ancestor : Location} (apart : ancestor ≠ place) :
    ∀ parents : List Lineage, guardedAll place ancestor parents = true →
      FollowedBy place ancestor (mergeOrderAll parents)
  | [], _ => by simp [FollowedBy, mergeOrderAll]
  | parent :: rest, guarded => by
    rw [guardedAll, Bool.and_eq_true] at guarded
    rw [mergeOrderAll]
    exact (followedBy_of_guarded apart parent guarded.1).append (followedBy_of_guardedAll apart rest guarded.2)

end

end Lineage

namespace Surroundings

variable {s : Surroundings}

/-- What holds of loaded documents and is kept when parents are put before a
document holds of every ancestry. -/
theorem visit_induction (P : Ancestry → Prop)
    (node : ∀ files place d reference (parents : List Ancestry),
      (Document.load s.policy s.now files place).result = .ok d → (∀ parent ∈ parents, P parent) →
      P ⟨.node d.location reference (parents.map Ancestry.lineage), parents.flatMap Ancestry.documents ++ [d]⟩)
    {fuel : Nat} {files : FileTree} {above : List Location} {reference : Option String} {place : Location}
    {a : Ancestry} (visited : (s.visit fuel files above reference place).result = .ok a) : P a := by
  induction fuel generalizing files above reference place a with
  | zero => cases visited
  | succ fuel ih =>
    obtain ⟨d, parents, loaded, done, rfl⟩ := visit_eq_ok visited
    refine node files place d reference parents loaded fun parent member => ?_
    obtain ⟨_, _, before, ok⟩ := Outcome.inTurn_eq_ok done member
    obtain ⟨target, _, visited⟩ := visitParent_eq_ok ok
    exact ih visited

theorem ancestry_induction (P : Ancestry → Prop)
    (node : ∀ files place d reference (parents : List Ancestry),
      (Document.load s.policy s.now files place).result = .ok d → (∀ parent ∈ parents, P parent) →
      P ⟨.node d.location reference (parents.map Ancestry.lineage), parents.flatMap Ancestry.documents ++ [d]⟩)
    {files : FileTree} {root : Location} {a : Ancestry} (resolved : (s.ancestry files root).result = .ok a) :
    P a := by
  unfold ancestry at resolved
  dsimp only at resolved
  split at resolved
  · exact visit_induction P node resolved
  · cases resolved

/-- The documents of an ancestry stand in the order of its tree, parents first. -/
theorem map_location_documents {files : FileTree} {root : Location} {a : Ancestry}
    (resolved : (s.ancestry files root).result = .ok a) :
    a.documents.map Document.location = a.lineage.mergeOrder := by
  refine ancestry_induction (fun a => a.documents.map Document.location = a.lineage.mergeOrder)
    (fun _ _ d reference parents _ above => ?_) resolved
  have same : (parents.flatMap Ancestry.documents).map Document.location =
      Lineage.mergeOrderAll (parents.map Ancestry.lineage) := by
    rw [Lineage.mergeOrderAll_eq_flatMap, List.map_flatMap, List.flatMap_map]
    exact List.flatMap_congr above
  rw [List.map_append, same, Lineage.mergeOrder]
  rfl

theorem wellFormed_of_ancestry {files : FileTree} {root : Location} {a : Ancestry}
    (resolved : (s.ancestry files root).result = .ok a) : ∀ d ∈ a.documents, d.WellFormed := by
  refine ancestry_induction (fun a => ∀ d ∈ a.documents, d.WellFormed)
    (fun _ _ d reference parents loaded above e member => ?_) resolved
  rcases List.mem_append.mp member with earlier | own
  · obtain ⟨parent, known, inside⟩ := List.mem_flatMap.mp earlier
    exact above parent known e inside
  · rw [List.mem_singleton.mp own]
    exact Document.wellFormed_of_load loaded

end Surroundings

end LayeredConfig
