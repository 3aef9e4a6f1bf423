/-
  Listings of the places where rules apply, and of their effects.
-/
import ZXCircuits.Listing.Basic
import ZXCircuits.Rule.Fusion
import ZXCircuits.Rule.Pivot
import ZXCircuits.Rule.Gadget

namespace ZXCircuits.Listing

instance : Listed Bialgebra.Place := ⟨fun p =>
  .arr [listing p.first, listing p.second, listing p.firstNeighbours, listing p.secondNeighbours]⟩

instance : Readable Bialgebra.Place := ⟨fun j => do
  return ⟨← read (← item j 0), ← read (← item j 1), ← read (← item j 2), ← read (← item j 3)⟩⟩

instance : Listed Fusion.Place := ⟨fun p => .arr [listing p.keep, listing p.remove]⟩

instance : Readable Fusion.Place := ⟨fun j => do
  return ⟨← read (← item j 0), ← read (← item j 1)⟩⟩

instance : Listed Pivot.Place := ⟨fun p =>
  .arr [listing p.first, listing p.second, listing p.firstBoundary, listing p.secondBoundary]⟩

instance : Readable Pivot.Place := ⟨fun j => do
  return ⟨← read (← item j 0), ← read (← item j 1), ← read (← item j 2), ← read (← item j 3)⟩⟩

instance : Listed LocalComplement.Place := ⟨fun p =>
  .arr [listing p.vertex, listing p.neighbours]⟩

instance : Readable LocalComplement.Place := ⟨fun j => do
  return ⟨← read (← item j 0), ← read (← item j 1)⟩⟩

instance : Listed Identity.Place := ⟨fun p =>
  .arr [listing p.vertex, listing p.first, listing p.second, .int p.kind.code]⟩

instance : Readable Identity.Place := ⟨fun j => do
  return ⟨← read (← item j 0), ← read (← item j 1), ← read (← item j 2), .ofCode (← read (← item j 3))⟩⟩

instance : Listed Gadget.Place := ⟨fun p =>
  .arr [listing p.leaf, listing p.axle, listing p.phase, listing p.otherAxles, listing p.otherLeaves]⟩

instance : Readable Gadget.Place := ⟨fun j => do
  match ← items j with
  | [v, n, p, a, l] => return ⟨← read v, ← read n, ← read p, ← read a, ← read l⟩
  | _ => throw .badValue⟩

instance : Listed GadgetGroup.Site := ⟨fun
  | .gadget a l => listing (a, l)
  | .own v => listing v⟩

instance : Readable GadgetGroup.Site := ⟨fun
  | .arr [a, l] => do return .gadget (← read a) (← read l)
  | v => do return .own (← read v)⟩

instance : Listed GadgetGroup.Group := ⟨fun p =>
  .arr [listing p.vertices, listing (p.sites.mergeSort fun a b => GadgetGroup.setLe a.1 b.1)]⟩

instance : Readable GadgetGroup.Group := ⟨fun j => do
  return ⟨← read (← item j 0), ← read (← item j 1)⟩⟩

def tableListing (t : EdgeTable) : Json := listing t.sorted

instance : Listed Effect := ⟨fun e =>
  .arr [tableListing e.table, listing e.vertices, listing e.edges, .bool e.sweep]⟩

end ZXCircuits.Listing
