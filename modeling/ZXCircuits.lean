/-
  Circuits of quantum gates and their ZX-diagrams.
-/
import ZXCircuits.Circuit.Equality
import ZXCircuits.Diagram.Store
import ZXCircuits.Drawing.Arrange
import ZXCircuits.Drawing.Html
import ZXCircuits.Extract.Clifford
import ZXCircuits.Flow
import ZXCircuits.Listing.Circuit
import ZXCircuits.Listing.Comparison
import ZXCircuits.Listing.Diagram
import ZXCircuits.Listing.Figure
import ZXCircuits.Listing.Places
import ZXCircuits.Listing.Workload
import ZXCircuits.Main
import ZXCircuits.Polynomial.Terms
import ZXCircuits.Proofs.Format.ControlledNots
import ZXCircuits.Proofs.Format.Inlining
import ZXCircuits.Proofs.Layout.Reading
import ZXCircuits.Proofs.PhaseBlock.Partition
import ZXCircuits.Proofs.Strategy.TCount
import ZXCircuits.Proofs.Termination.FullReduce
import ZXCircuits.Todd.OnDiagram
import ZXCircuits.Proofs.Blocks.Unitary
import ZXCircuits.Proofs.Soundness.LocalComplement
import ZXCircuits.Proofs.Soundness.Fusion
import ZXCircuits.Proofs.Soundness.Colour
import ZXCircuits.Proofs.Layout.Ancillas
import ZXCircuits.Proofs.Format.Quipper
import ZXCircuits.Proofs.Blocks.Reducing
import ZXCircuits.Proofs.BitMatrix.Sums
import ZXCircuits.Proofs.BitMatrix.Matching
