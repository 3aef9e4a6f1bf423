/-
  Listings of tensors and figures, with all numbers in whole millionths.
-/
import ZXCircuits.Listing.Basic
import ZXCircuits.Tensor.Floating
import ZXCircuits.Drawing.Shapes

namespace ZXCircuits.Listing

def millionths (x : Float) : Json := .int (Float.floorInt (x * 1000000 + 0.50037))

def tensorMembers (t : Tensor FloatPair) : List (String × Json) :=
  [("shape", listing (List.replicate t.rank 2)), ("val", .arr (t.entries.toList.flatMap fun a => [millionths a.re, millionths a.im]))]

instance : Listed (Tensor FloatPair) := ⟨fun t => .obj (tensorMembers t)⟩

end ZXCircuits.Listing

namespace ZXCircuits.Listing

open Figure

def measures (xs : List Float) : Json := .arr (xs.map millionths)

instance : Listed Patch := ⟨fun
  | .circle c r colour => .arr [.str "Circle", measures [c.x, c.y, r], .str colour]
  | .rectangle c w h angle => .arr [.str "Rectangle", measures [c.x, c.y, w, h, angle]]
  | .curve a m b colour =>
    .arr [.str "PathPatch", measures [a.x, a.y, m.x, m.y, b.x, b.y], .str colour]⟩

instance : Listed Figure.Line := ⟨fun l =>
  .arr [measures [l.start.x, l.stop.x, l.start.y, l.stop.y], .str l.colour]⟩

instance : Listed Label := ⟨fun t =>
  .arr [measures [t.place.x, t.place.y], .str t.text, .str t.colour, listing t.size]⟩

instance : Listed Shapes := ⟨fun s =>
  .arr [listing s.patches, listing s.lines, listing s.texts]⟩

def markOf (name : String) : HadamardMark :=
  if name = "blue" then .blue else if name = "box" then .box else .none

instance : Readable Options := ⟨fun j => do
  let rows := (j.get? "rows").getD .null
  return { labels := truth ((j.get? "labels").getD .null)
           mark := match j.get? "h_edge_draw" with
             | some (.str name) => markOf name
             | some _ => .none
             | none => .blue
           rows := ← if truth rows then some <$> read rows else pure none }⟩

end ZXCircuits.Listing
