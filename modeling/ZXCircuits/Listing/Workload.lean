/-
  What workloads find, as listings.
-/
import ZXCircuits.Listing.Basic
import ZXCircuits.Workload

namespace ZXCircuits.Listing

instance : Listed GateCounts := ⟨fun n => listing [n.hadamards, n.pairs, n.rotations]⟩

instance : Listed Workload.Drawn := ⟨fun d =>
  listing [listing d.single, listing d.triple, listing d.colours, listing d.labels.1, listing d.vertices, listing d.labels.2]⟩

instance : Listed Workload.MatrixReport := ⟨fun r =>
  listing [listing r.rank, listing r.transposedRank, listing r.invertible, listing r.kernels, listing r.nots,
    listing r.fewestNots, listing r.assignment, listing r.factors, listing r.transposes, listing r.unit,
    listing r.textLength, listing r.reduction]⟩

instance : Listed Workload.Survey := ⟨fun r =>
  listing [listing r.stats, listing (r.summary ++ r.summary), listing r.composed, listing r.vertices,
    listing r.roomyEdges, listing r.edges, listing r.boundary, listing r.stored, listing r.rest]⟩

end ZXCircuits.Listing
