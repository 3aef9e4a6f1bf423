/-
  The normal form of the Clifford strategy.

  Where the rules are stuck in a tidy diagram there is one colour, spiders are joined by Hadamard edges only, and no identity, no
  quarter turn among spiders and no pair for pivoting is left (`CliffordForm`).  If there are multiples of a quarter turn only,
  a spider away from the boundary has neighbours only that are next to two boundary vertices (`Hemmed`).
-/
import ZXCircuits.Proofs.Strategy.Tidy
import ZXCircuits.Proofs.Strategy.TCount

namespace ZXCircuits

open List Pivot

namespace Diagram

variable {g : Diagram} {v w : Vertex}

/-- A vertex of one of the two colours. -/
def Spider (g : Diagram) (v : Vertex) : Prop := g.has v ∧ (g.kindD v = .z ∨ g.kindD v = .x)

/-- One colour, Hadamard edges between spiders, no identities, no quarter turns among spiders, and two boundary vertices at least
    next to two joined spiders without a phase of their own. -/
structure CliffordForm (g : Diagram) : Prop where
  green : ∀ v ∈ g.vertices, g.kindD v ≠ .x
  hadamard : ∀ v w, g.Spider v → g.Spider w → g.edgeKind (v, w) ≠ .regular
  identity : ∀ v ∈ g.vertices, (g.phase v).toRat = 0 → (g.nearby v).length ≠ 2
  quarter : ∀ v, g.Spider v → (∀ w ∈ g.nearby v, g.Spider w) → (g.phase v).toRat ≠ 1 / 2 ∧ (g.phase v).toRat ≠ 3 / 2
  pauli : ∀ v w, g.Spider v → g.Spider w → w ∈ g.nearby v → ((g.phase v).toRat = 0 ∨ (g.phase v).toRat = 1) →
    ((g.phase w).toRat = 0 ∨ (g.phase w).toRat = 1) → 2 ≤ ((g.borderOf v).toFinset ∪ (g.borderOf w).toFinset).card

/-- Every spider with a neighbour is next to the boundary, or next to vertices only that have two neighbours there. -/
def Hemmed (g : Diagram) : Prop := ∀ v, g.Spider v → g.nearby v ≠ [] →
  g.borderOf v ≠ [] ∨ ∀ w ∈ g.nearby v, 2 ≤ (g.borderOf w).length

lemma spider_of_neighbour (hg : g.Neat) (hj : g.Joined v w) (hb : g.kindD w ≠ .boundary) : g.Spider w := by
  have hw : g.has w := hg.coherent.vertex hj
  exact ⟨hw, (hg.kinds w hw).resolve_left hb⟩

lemma Spider.eq_z (hgr : g.Green) (hv : g.Spider v) : g.kindD v = .z := hv.2.resolve_right (hgr v hv.1)

lemma card_borderOf (hg : g.Coherent) (v : Vertex) : (g.borderOf v).toFinset.card = (g.borderOf v).length :=
  toFinset_card_of_nodup ((hg.nodup v).filter _)

lemma isPauli_iff : g.isPauli v ↔ (g.phase v).toRat = 0 ∨ (g.phase v).toRat = 1 := by simp [isPauli]

end Diagram

namespace Strategy

open Diagram Rule

variable {g h : Diagram} {v w : Vertex}

lemma places_of_stuck {μ : Type} {g : Diagram} {ps : List μ} (h : (Except.ok (g, ps) : Attempt _) = .ok (g, [])) : ps = [] :=
  (Prod.mk.inj (Except.ok.inj h)).2

lemma edgeKind_swap (hg : g.Coherent) (v w : Vertex) : g.edgeKind (v, w) = g.edgeKind (w, v) := by
  rw [edgeKind_eq, edgeKind_eq, hg.symm]

section

variable (hg : g.Neat) (hs : InteriorStuck g) (hgr : g.Green) (hv : g.Spider v)
include hg hs hgr hv

lemma hadamard_of_stuck (hw : g.Spider w) : g.edgeKind (v, w) ≠ .regular := by
  intro hr
  have hj : g.Joined v w := joined_of_edgeKind (by rw [hr]; decide)
  have upward : ∀ a b, a < b → g.Spider a → g.Spider b → g.Joined a b → g.edgeKind (a, b) ≠ .regular := by
    intro a b hab ha hb hj hr
    have he : (a, b) ∈ g.edges := mem_edges.2 ⟨hab, hj⟩
    have := Fusion.find_nil (places_of_stuck hs.fusion) he rfl hr ((ha.eq_z hgr).trans (hb.eq_z hgr).symm)
    rw [ha.eq_z hgr] at this
    cases this
  rcases Nat.lt_trichotomy v w with hlt | rfl | hlt
  · exact upward v w hlt hv hw hj hr
  · exact hg.loopless v hj
  · exact upward w v hlt hw hv (hg.coherent.back hj) (edgeKind_swap hg.coherent v w ▸ hr)

lemma edgeKind_of_joined (hw : g.Spider w) (hj : g.Joined v w) : g.edgeKind (v, w) = .hadamard := by
  have hr := hadamard_of_stuck hg hs hgr hv hw
  rw [edgeKind_eq] at hr ⊢
  obtain ⟨k, hk⟩ := Option.isSome_iff_exists.1 hj
  rw [hk] at hr ⊢
  exact (hg.plain v w k hk).resolve_left hr

lemma boundaryOf_spider : boundaryOf g v = some (g.borderOf v) := by
  refine boundaryOf_of_fine fun n hj => ?_
  by_cases hb : g.kindD n = .boundary
  · exact .inl hb
  have hn := spider_of_neighbour hg hj hb
  refine .inr ⟨hn.eq_z hgr, ?_⟩
  have hk := edgeKind_of_joined hg hs hgr hv hn hj
  unfold edge
  split
  · exact hk
  · exact edgeKind_swap hg.coherent v n ▸ hk

end

lemma quarter_of_stuck (hs : InteriorStuck g) (hgr : g.Green) (hv : g.Spider v) (hn : ∀ w ∈ g.nearby v, g.Spider w) :
    (g.phase v).toRat ≠ 1 / 2 ∧ (g.phase v).toRat ≠ 3 / 2 := by
  refine LocalComplement.find_nil (places_of_stuck hs.localComplement) hv.1 rfl fun n hm => ?_
  rw [(hn n hm).eq_z hgr, hv.eq_z hgr]

lemma pauli_of_stuck (hg : g.Neat) (hs : InteriorStuck g) (hgr : g.Green) (hv : g.Spider v) (hw : g.Spider w) (hj : g.Joined v w)
    (hpv : g.isPauli v) (hpw : g.isPauli w) :
    2 ≤ ((g.borderOf v).toFinset ∪ (g.borderOf w).toFinset).card := by
  have sum : ∀ a b, a < b → g.Spider a → g.Spider b → g.Joined a b → g.isPauli a → g.isPauli b →
      1 < (g.borderOf a).length + (g.borderOf b).length := by
    intro a b hab ha hb hj hpa hpb
    exact find_nil (places_of_stuck hs.pivot) (mem_edges.2 ⟨hab, hj⟩) rfl (edgeKind_of_joined hg hs hgr ha hb hj)
      ⟨ha.eq_z hgr, hb.eq_z hgr⟩ ⟨hpa, hpb⟩ (boundaryOf_spider hg hs hgr ha) (boundaryOf_spider hg hs hgr hb)
  have hne : v ≠ w := fun c => hg.loopless v (c ▸ hj)
  -- a boundary vertex is next to one vertex only
  have disjoint : Disjoint (g.borderOf v).toFinset (g.borderOf w).toFinset := by
    rw [Finset.disjoint_left]
    intro b hbv hbw
    rw [mem_toFinset, mem_borderOf] at hbv hbw
    exact hne (hg.single b v w hbv.2 (hg.coherent.back hbv.1) (hg.coherent.back hbw.1))
  rw [Finset.card_union_of_disjoint disjoint, card_borderOf hg.coherent, card_borderOf hg.coherent]
  rcases Nat.lt_or_gt_of_ne hne with hlt | hlt
  · exact sum v w hlt hv hw hj hpv hpw
  · have := sum w v hlt hw hv (hg.coherent.back hj) hpw hpv
    omega

lemma cliffordForm_of_stuck (hg : g.Tidy) (hs : CliffordStuck g) : g.CliffordForm where
  green v hv := hs.green v (mem_vertices.1 hv)
  hadamard v w hv hw := hadamard_of_stuck hg.toNeat hs.toInteriorStuck hs.green hv hw
  identity v hv hp := Identity.find_nil (places_of_stuck hs.identity) (mem_vertices.1 hv) rfl (by simpa [Exact.isZero] using hp)
  quarter v hv hn := quarter_of_stuck hs.toInteriorStuck hs.green hv hn
  pauli v w hv hw hj hpv hpw :=
    pauli_of_stuck hg.toNeat hs.toInteriorStuck hs.green hv hw (mem_nearby.1 hj) (isPauli_iff.2 hpv) (isPauli_iff.2 hpw)

/-! ## Multiples of a quarter turn -/

lemma isPauli_of_quarters (hq : (g.phase v).Quarters) (hr : (g.phase v).Reduced)
    (hn : (g.phase v).toRat ≠ 1 / 2 ∧ (g.phase v).toRat ≠ 3 / 2) : g.isPauli v := by
  obtain ⟨n, hq⟩ := hq
  rw [isPauli_iff, hq]
  rw [hq] at hn
  have h0 : 0 ≤ n := by exact_mod_cast (by linarith [hr.1] : (0 : ℚ) ≤ n)
  have h4 : n < 4 := by exact_mod_cast (by linarith [hr.2] : (n : ℚ) < 4)
  interval_cases n
  · exact .inl (by norm_num)
  · exact absurd (by norm_num) hn.1
  · exact .inr (by norm_num)
  · exact absurd (by norm_num) hn.2

section

variable (hg : g.Tidy) (hs : CliffordStuck g) (hq : ∀ u, g.has u → (g.phase u).Quarters)
include hg hs hq

lemma isPauli_of_stuck (hv : g.Spider v) (hn : g.borderOf v = []) : g.isPauli v := by
  refine isPauli_of_quarters (hq v hv.1) (hg.reduced v hv.1) (quarter_of_stuck hs.toInteriorStuck hs.green hv fun w hw => ?_)
  refine spider_of_neighbour hg.toNeat (mem_nearby.1 hw) fun hb => ?_
  have : w ∈ g.borderOf v := mem_borderOf.2 ⟨mem_nearby.1 hw, hb⟩
  rw [hn] at this
  cases this

/-- **A spider away from the boundary is hemmed in**: a neighbour with one boundary vertex would be a partner, and one with none
    would be a place for pivoting. -/
theorem hemmed_of_stuck : g.Hemmed := by
  intro v hv _
  by_cases hb : g.borderOf v = []
  swap
  · exact .inl hb
  right
  have hpv := isPauli_of_stuck hg hs hq hv hb
  have spiders : ∀ n ∈ g.nearby v, g.Spider n := fun n hn =>
    spider_of_neighbour hg.toNeat (mem_nearby.1 hn) fun hk => by
      have : n ∈ g.borderOf v := mem_borderOf.2 ⟨mem_nearby.1 hn, hk⟩
      rw [hb] at this
      cases this
  have some : ∀ n ∈ g.nearby v, g.borderOf n ≠ [] := by
    intro n hn hnb
    have := pauli_of_stuck hg.toNeat hs.toInteriorStuck hs.green hv (spiders n hn) (mem_nearby.1 hn) hpv
      (isPauli_of_stuck hg hs hq (spiders n hn) hnb)
    rw [hb, hnb] at this
    simp at this
  -- nothing rules out a partner: a neighbour has the spider and a boundary vertex for neighbours
  have opens : ∀ n ∈ g.nearby v, Pivot.Open { diagram := g } n ∧ n ≠ 0 := by
    intro n hn
    have hk : g.kindD n ≠ .boundary := by rw [(spiders n hn).eq_z hs.green]; decide
    refine ⟨⟨hk, fun hl => ?_, Std.TreeSet.contains_emptyc⟩, fun c => hk (c ▸ hg.zero (c ▸ (spiders n hn).1))⟩
    obtain ⟨m, hm⟩ := length_eq_one_iff.1 hl
    obtain ⟨b, hbn⟩ := exists_mem_of_ne_nil _ (some n hn)
    have h1 : v ∈ g.nearby n := mem_nearby.2 (hg.coherent.back (mem_nearby.1 hn))
    have h2 : b ∈ g.nearby n := mem_nearby.2 (mem_borderOf.1 hbn).1
    have hbv : b = v := by
      rw [hm, mem_singleton] at h1 h2
      rw [h1, h2]
    have := (mem_borderOf.1 hbn).2
    rw [hbv, hv.eq_z hs.green] at this
    cases this
  have none := partnerOf_of_boundaryAt
    ((findBoundary_nil g anything _ hs.pivotBoundary rfl).2 v (mem_vertexCandidates.2 ⟨hv.1, rfl⟩)) (hv.eq_z hs.green) hpv
  intro n hn
  have h1 := (partnerOf_eq_none _ none opens (by simp)).2 n hn
  have h0 := length_pos_iff.2 (some n hn)
  have h1 : (g.borderOf n).length ≠ 1 := h1
  omega

end

/-- **The normal form of the Clifford strategy**, for a well-formed diagram with vertex zero on the boundary; the second half
    for multiples of a quarter turn. -/
theorem clifford_normalForm (hg : g.WellFormed) (h₀ : g.has 0 = true) (hk : g.kindD 0 = .boundary)
    (bound : Diagram → Nat) (verbose : Bool) (hr : (cliffordWithin bound verbose g).result = .ok h) :
    h.CliffordForm ∧ ((∀ v ∈ g.vertices, (g.phase v).Quarters) → h.Hemmed) := by
  obtain ⟨ht, hs⟩ := (clifford_ends cliffordKeeps_tidy bound verbose (hg.tidy h₀ hk)).result hr
  refine ⟨cliffordForm_of_stuck ht hs, fun hq => hemmed_of_stuck ht hs ?_⟩
  have few : FewPhases 0 g := ⟨hg.coherent, le_of_eq (tCount_eq_zero_iff.2 fun v hv => hq v (mem_vertices.2 hv))⟩
  obtain ⟨hf, -⟩ := (clifford_ends (reduceKeeps_fewPhases 0).toCliffordKeeps bound verbose few).result hr
  exact tCount_eq_zero_iff.1 (Nat.le_zero.1 hf.2)

/-- Quarter turns of both colours and a half turn, in a row between two vertices of the boundary. -/
def quarterChain : Diagram where
  adjacency := .ofList ([(0, [(1, .regular)]), (1, [(0, .regular), (2, .regular)]), (2, [(1, .regular), (3, .hadamard)]),
    (3, [(2, .hadamard), (4, .regular)]), (4, [(3, .regular)])] : List (Vertex × Table Vertex EdgeKind))
  kinds := .ofList ([(0, .boundary), (1, .x), (2, .z), (3, .z), (4, .boundary)] : List (Vertex × VertexKind))
  phases := .ofList ([(0, .int 0), (1, .ratio (1 / 2)), (2, .ratio (1 / 2)), (3, .int 1), (4, .int 0)] : List (Vertex × Exact))
  next := 5
  edgeCount := 4

/-- One spider is left between the two vertices of the boundary. -/
theorem clifford_normalForm_quarterChain : ∃ h, (cliffordWithin stepBound false quarterChain).result = .ok h ∧
    quarterChain.vertices.length = 5 ∧ h.vertices.length = 3 ∧ h.CliffordForm ∧ h.Hemmed := by
  have hg : quarterChain.WellFormed :=
    by constructor <;> decide +kernel
  have hq : ∀ v ∈ quarterChain.vertices, (quarterChain.phase v).Quarters := by
    have hd : ∀ v ∈ quarterChain.vertices, (quarterChain.phase v).den ≤ 2 := by decide +kernel
    exact fun v hv => Exact.den_le_two_iff.1 (hd v hv)
  have hn : (cliffordWithin stepBound false quarterChain).result.map (fun h => h.vertices.length) = .ok 3 := by cbv
  cases hr : (cliffordWithin stepBound false quarterChain).result with
  | error e => rw [hr] at hn; cases hn
  | ok h =>
    rw [hr] at hn
    have := clifford_normalForm hg (by decide +kernel) (by decide +kernel) stepBound false hr
    exact ⟨h, rfl, by decide +kernel, Except.ok.inj hn, this.1, this.2 hq⟩

end Strategy

end ZXCircuits
