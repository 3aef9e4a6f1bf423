/-
  No strategy makes more phases.

  `Simplifier` lists the strategies.  The number of phases that are no multiples of a quarter turn is not larger after any of
  them than before (`Simplifier.tCount_run_le`).
-/
import Mathlib
import ZXCircuits.Proofs.Strategy.Stuck

namespace ZXCircuits

open Diagram

/-! ## Rules -/

namespace Rule

variable {n : Nat} {g h : Diagram}

/-- The diagram is coherent and has at most so many phases that are no multiples of a quarter turn. -/
def FewPhases (n : Nat) (g : Diagram) : Prop := g.Coherent ∧ g.tCount ≤ n

lemma bialgebra_fewPhases : bialgebra.Keeps (FewPhases n) := by
  rintro g ⟨hg, hn⟩
  refine (bialgebra_round hg).mono fun x hx => ?_
  cases hx with
  | idle => exact ⟨hg, hn⟩
  | applied ha => exact ⟨ha.coherent, ha.tCount_le.trans hn⟩

variable (accept : Vertex → Bool)

lemma identity_fewPhases : (identity accept).Keeps (FewPhases n) := by
  rintro g ⟨hg, hn⟩
  refine (identity_round hg accept).mono fun x hx => ?_
  cases hx with
  | idle => exact ⟨hg, hn⟩
  | applied _ _ _ ha => exact ⟨ha.coherent, ha.tCount_le.trans hn⟩

lemma fusion_fewPhases (accept : Edge → Bool) : (fusion accept).Keeps (FewPhases n) := by
  rintro g ⟨hg, hn⟩
  refine (fusion_round hg accept).mono fun x hx => ?_
  cases hx with
  | idle => exact ⟨hg, hn⟩
  | applied _ _ _ card ha =>
    refine ⟨ha.coherent, le_trans ?_ hn⟩
    rw [tCount_eq_card, tCount_eq_card]
    exact (Finset.card_le_card ha.nonClifford).trans card

lemma localComplement_fewPhases : (localComplement accept).Keeps (FewPhases n) := by
  rintro g ⟨hg, hn⟩
  refine (localComplement_round hg accept).mono fun x hx => ?_
  cases hx with
  | idle => exact ⟨hg, hn⟩
  | applied _ spread _ ha =>
    refine ⟨ha.coherent, (ha.tCount_le.trans (tCount_le_of_subset ?_)).trans hn⟩
    rw [spread.rephased.nonClifford spread.quarters]

lemma PivotRound.tCount_le (hr : PivotRound g h) : h.Coherent ∧ h.tCount ≤ g.tCount := by
  cases hr with
  | applied _ _ _ collects ha =>
    refine ⟨ha.coherent, ha.tCount_le.trans (tCount_le_of_subset ?_)⟩
    rw [collects.rephased.nonClifford fun u => (collects.turned u).quarters_iff]

lemma pivot_fewPhases (accept : Edge → Bool) : (pivot accept).Keeps (FewPhases n) := by
  rintro g ⟨hg, hn⟩
  refine (pivot_round hg accept).mono fun x hx => ?_
  rcases hx with hx | hx
  · rw [hx]; exact ⟨hg, hn⟩
  · exact ⟨hx.tCount_le.1, hx.tCount_le.2.trans hn⟩

lemma PreparedRound.fewPhases (hg : FewPhases n g) (hr : PreparedRound g h) : FewPhases n h := by
  rcases hr with rfl | ⟨d, -, hd, hr⟩
  · exact hg
  · exact ⟨hr.tCount_le.1, (hr.tCount_le.2.trans hd).trans hg.2⟩

lemma pivotBoundary_fewPhases : (pivotBoundary accept).Keeps (FewPhases n) := fun _ hg =>
  (pivotBoundary_round hg.1 accept).mono fun _ hx => hx.fewPhases hg

lemma pivotGadget_fewPhases (accept : Edge → Bool) : (pivotGadget accept).Keeps (FewPhases n) := fun _ hg =>
  (pivotGadget_round hg.1 accept).mono fun _ hx => hx.fewPhases hg

lemma gadget_fewPhases : gadget.Keeps (FewPhases n) := fun _ hg => (gadget_round hg.1).mono fun _ hx => ⟨hx.1, hx.2.trans hg.2⟩

end Rule

/-! ## Strategies -/

namespace Strategy

open Rule

lemma reduceKeeps_fewPhases (n : Nat) : ReduceKeeps (FewPhases n) where
  coherent _ hg := hg.1
  identity := identity_fewPhases _
  fusion := fusion_fewPhases _
  pivot := pivot_fewPhases _
  localComplement := localComplement_fewPhases _
  green g h hg hr := by
    refine ⟨hr.coherent, (tCount_le_of_subset fun v hv => ?_).trans hg.2⟩
    rw [mem_nonClifford, hr.vertex, hr.phase] at hv
    exact mem_nonClifford.2 hv
  pivotBoundary := pivotBoundary_fewPhases _
  gadget := gadget_fewPhases
  pivotGadget := pivotGadget_fewPhases _

/-- The strategies: one rule with the places it may look at, or a combination of rules. -/
inductive Simplifier where
  | fusion (accept : Edge → Bool)
  | identity (accept : Vertex → Bool)
  | pivot (accept : Edge → Bool)
  | localComplement (accept : Vertex → Bool)
  | bialgebra
  | gadget
  | pivotGadget (accept : Edge → Bool)
  | pivotBoundary (accept : Vertex → Bool)
  | interiorClifford
  | clifford
  | fullReduce

/-- Runs a strategy; the number of rounds is left out. -/
def Simplifier.run (bound : Diagram → Nat) (verbose : Bool) (g : Diagram) : Simplifier → Run Diagram
  | .fusion accept => do return (← (Rule.fusion accept).exhaustWithin bound verbose g).1
  | .identity accept => do return (← (Rule.identity accept).exhaustWithin bound verbose g).1
  | .pivot accept => do return (← (Rule.pivot accept).exhaustWithin bound verbose g).1
  | .localComplement accept => do return (← (Rule.localComplement accept).exhaustWithin bound verbose g).1
  | .bialgebra => do return (← Rule.bialgebra.exhaustWithin bound verbose g).1
  | .gadget => do return (← Rule.gadget.exhaustWithin bound verbose g).1
  | .pivotGadget accept => do return (← (Rule.pivotGadget accept).exhaustWithin bound verbose g).1
  | .pivotBoundary accept => do return (← (Rule.pivotBoundary accept).exhaustWithin bound verbose g).1
  | .interiorClifford => do return (← interiorCliffordWithin bound verbose g).1
  | .clifford => cliffordWithin bound verbose g
  | .fullReduce => fullReduceWithin bound verbose g

variable {g h : Diagram} {n : Nat}

lemma exhaust_fewPhases {μ : Type} {r : Rule μ} (hk : r.Keeps (FewPhases n)) (hs : r.Settles) (bound : Diagram → Nat)
    (verbose : Bool) (hg : FewPhases n g) :
    Run.Ends (do return (← r.exhaustWithin bound verbose g).1) (FewPhases n) :=
  .bind (exhaustWithin_ends hk hs bound verbose hg) fun _ hx => .pure hx.1

lemma Simplifier.run_fewPhases (s : Simplifier) (bound : Diagram → Nat) (verbose : Bool) (hg : FewPhases n g) :
    Run.Ends (s.run bound verbose g) (FewPhases n) := by
  have hk := reduceKeeps_fewPhases n
  cases s with
  | fusion accept => exact exhaust_fewPhases (fusion_fewPhases accept) (fusion_settles accept) bound verbose hg
  | identity accept => exact exhaust_fewPhases (identity_fewPhases accept) (identity_settles accept) bound verbose hg
  | pivot accept => exact exhaust_fewPhases (pivot_fewPhases accept) (pivot_settles accept) bound verbose hg
  | localComplement accept =>
    exact exhaust_fewPhases (localComplement_fewPhases accept) (localComplement_settles accept) bound verbose hg
  | bialgebra => exact exhaust_fewPhases bialgebra_fewPhases bialgebra_settles bound verbose hg
  | gadget => exact exhaust_fewPhases gadget_fewPhases gadget_settles bound verbose hg
  | pivotGadget accept => exact exhaust_fewPhases (pivotGadget_fewPhases accept) (pivotGadget_settles accept) bound verbose hg
  | pivotBoundary accept => exact exhaust_fewPhases (pivotBoundary_fewPhases accept) (pivotBoundary_settles accept) bound verbose hg
  | interiorClifford => exact .bind (interiorClifford_ends hk.toInteriorKeeps bound verbose hg) fun _ hx => .pure hx.1
  | clifford => exact (clifford_ends hk.toCliffordKeeps bound verbose hg).mono fun _ hx => hx.1
  | fullReduce => exact (fullReduce_ends hk bound verbose hg).mono fun _ hx => hx.1

/-- **No strategy makes more phases**: if it returns, there are not more phases that are no multiples of a quarter turn than
    before. -/
theorem Simplifier.tCount_run_le (s : Simplifier) (bound : Diagram → Nat) (verbose : Bool) (hg : g.Coherent)
    (hr : (s.run bound verbose g).result = .ok h) : h.tCount ≤ g.tCount :=
  ((s.run_fewPhases bound verbose ⟨hg, le_rfl⟩).result hr).2

/-- Two gadgets with an eighth of a turn each on one vertex. -/
def twinGadgets : Diagram where
  adjacency := .ofList ([(0, [(1, .hadamard), (3, .hadamard), (5, .regular)]), (1, [(0, .hadamard), (2, .hadamard)]),
    (2, [(1, .hadamard)]), (3, [(0, .hadamard), (4, .hadamard)]), (4, [(3, .hadamard)]), (5, [(0, .regular)])] :
      List (Vertex × Table Vertex EdgeKind))
  kinds := .ofList ([(0, .z), (1, .z), (2, .z), (3, .z), (4, .z), (5, .boundary)] : List (Vertex × VertexKind))
  phases := .ofList ([(0, .int 0), (1, .int 0), (2, .ratio (1 / 4)), (3, .int 0), (4, .ratio (1 / 4)), (5, .int 0)] : List (Vertex × Exact))
  next := 6
  edgeCount := 5

/-- Merging the gadgets leaves a multiple of a quarter turn of two phases that were none. -/
theorem Simplifier.tCount_run_le_twinGadgets : ∃ h, (Simplifier.gadget.run stepBound false twinGadgets).result = .ok h ∧
    h.tCount ≤ twinGadgets.tCount ∧ twinGadgets.tCount = 2 ∧ h.tCount = 0 := by
  have hc : twinGadgets.Coherent := by decide +kernel
  have ht : (Simplifier.gadget.run stepBound false twinGadgets).result.map tCount = .ok 0 := by cbv
  have h₂ : twinGadgets.tCount = 2 := by cbv
  cases hr : (Simplifier.gadget.run stepBound false twinGadgets).result with
  | error e => rw [hr] at ht; cases ht
  | ok h =>
    rw [hr] at ht
    exact ⟨h, rfl, Simplifier.gadget.tCount_run_le stepBound false hc hr, h₂, Except.ok.inj ht⟩

end Strategy

end ZXCircuits

namespace ZXCircuits.Strategy

open Diagram

variable {g : Diagram}

/-- **A second run changes nothing**: what the Clifford strategy or the main simplification returns has no place for any of its
    rules, and a second run, with whatever bound that allows a round, reports no rewrite and returns it as it is. -/
theorem clifford_fullReduce_again (hg : g.Coherent) (bound bound' : Diagram → Nat) (hb : ∀ h, 0 < bound' h) (verbose : Bool) :
    (∀ h, (cliffordWithin bound verbose g).result = .ok h →
      CliffordStuck h ∧ (cliffordWithin bound' true h).outcome = (.ok h, "")) ∧
    ∀ h, (fullReduceWithin bound verbose g).result = .ok h →
      ReduceStuck h ∧ (fullReduceWithin bound' true h).outcome = (.ok h, "") := by
  have hk := reduceKeeps_fewPhases g.tCount
  refine ⟨fun h hr => ?_, fun h hr => ?_⟩
  · have hs := ((clifford_ends hk.toCliffordKeeps bound verbose ⟨hg, le_rfl⟩).result hr).2
    exact ⟨hs, (clifford_quiet hs (hb h) true).outcome⟩
  · have hs := ((fullReduce_ends hk bound verbose ⟨hg, le_rfl⟩).result hr).2
    exact ⟨hs, (fullReduce_quiet hs (hb h) true).outcome⟩

/-- Of six vertices two are left, and they stay. -/
theorem clifford_fullReduce_again_twinGadgets : ∃ h, (fullReduceWithin stepBound false twinGadgets).result = .ok h ∧
    h.numVertices = 2 ∧ (fullReduceWithin stepBound true h).outcome = (.ok h, "") := by
  have hc : twinGadgets.Coherent := by decide +kernel
  have hn : (fullReduceWithin stepBound false twinGadgets).result.map numVertices = .ok 2 := by cbv
  have hb : ∀ h : Diagram, 0 < h.stepBound := fun h => Nat.pow_pos (Nat.succ_pos _)
  cases hr : (fullReduceWithin stepBound false twinGadgets).result with
  | error e => rw [hr] at hn; cases hn
  | ok h =>
    rw [hr] at hn
    exact ⟨h, rfl, Except.ok.inj hn, ((clifford_fullReduce_again hc stepBound stepBound hb false).2 h hr).2⟩

end ZXCircuits.Strategy
