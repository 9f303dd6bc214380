import LayeredConfig.Value.Basic

namespace LayeredConfig

mutual

/-- Lays a value over a base. Two objects combine key by key; in every other
case, lists and nulls included, the upper value replaces the base. -/
def Value.overlay (base : Value) : Value → Value
  | .object tops =>
    match base with
    | .object bases => .object (overlayFields bases tops)
    | _ => .object tops
  | top => top

/-- Lays fields over others. Base keys keep their places, and new keys follow
in the order of the upper fields. -/
def overlayFields (bases : Fields) : List (String × Value) → Fields
  | [] => bases
  | (key, top) :: rest =>
    overlayFields
      (match bases.lookup key with
        | some base => put key (base.overlay top) bases
        | none => bases ++ [(key, top)])
      rest

end

/-- Layers from the weakest to the strongest, over null. -/
def overlayAll (layers : List Value) : Value :=
  layers.foldl Value.overlay .null

end LayeredConfig
