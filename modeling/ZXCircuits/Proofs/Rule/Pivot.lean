/-
  Local complementation and pivoting.

  The places of local complementation are vertices with a quarter turn among vertices of their kind (`LocalComplement.find_spec`).  It
  changes phases and edges among the neighbours of these vertices, and phases by quarter turns only (`LocalComplement.effect_spec`).

  The ends of the places to pivot at have whole phases, so that pivoting changes phases by half turns only.  New edges go from a neighbour
  of one end to a neighbour of the other, or from an end that stays to the boundary, in the place of an edge that is taken away
  (`Pivot.effect_spec`).  `Pivot.find_spec` says what the places between vertices without a phase of their own are.
-/
import ZXCircuits.Rule.Pivot
import ZXCircuits.Proofs.Rule.Scan
import ZXCircuits.Proofs.Diagram.Effect

namespace ZXCircuits.LocalComplement

open List Diagram

variable {g h : Diagram} {p : Place} {ps : List Place} {v : Vertex} {e : Edge} {u : Vertex}

/-- A vertex with a quarter turn, and its neighbours, which are of its kind. -/
structure Fits (g : Diagram) (p : Place) : Prop where
  neighbours : p.neighbours = g.nearby p.vertex
  vertex : g.has p.vertex
  phase : (g.phase p.vertex).toRat = 1 / 2 ∨ (g.phase p.vertex).toRat = 3 / 2
  kind : ∀ n ∈ p.neighbours, g.kindD n = g.kindD p.vertex

lemma Fits.quarters (hp : Fits g p) : (g.phase p.vertex).Quarters := by
  rcases hp.phase with h | h
  · exact ⟨1, by rw [h]; norm_num⟩
  · exact ⟨3, by rw [h]; norm_num⟩

def look (g : Diagram) (onlyHadamard : Bool) (v : Vertex) : Option (Sighting Unit Vertex Place) :=
  (placeAt g onlyHadamard v).map fun p => ⟨(), p, p.neighbours⟩

lemma find_none_eq (g : Diagram) (accept : Vertex → Bool) (onlyHadamard : Bool) :
    find g accept none onlyHadamard = placesOf (look g onlyHadamard) (g.vertexCandidates accept) none := rfl

lemma placeAt_eq_some {onlyHadamard : Bool} (hv : g.has v) (h : placeAt g onlyHadamard v = some p) : Fits g p := by
  unfold placeAt at h
  dsimp only at h
  split at h
  · rename_i hc
    cases h
    simp only [Bool.and_eq_true, Bool.or_eq_true, beq_iff_eq, all_eq_true] at hc
    exact ⟨rfl, hv, hc.1.1, hc.2⟩
  · cases h

lemma find_spec (g : Diagram) (accept : Vertex → Bool) (onlyHadamard : Bool) : ∀ p ∈ find g accept none onlyHadamard, Fits g p := by
  intro p hm
  obtain ⟨ws, e, hws, -⟩ := placesOf_spec (look g onlyHadamard) (g.vertexCandidates accept) none
  rw [find_none_eq, e] at hm
  obtain ⟨w, hw, rfl⟩ := mem_map.1 hm
  obtain ⟨q, hq, e⟩ := Option.map_eq_some_iff.1 (hws w hw).2
  rw [← e]
  exact placeAt_eq_some (mem_vertexCandidates.1 (hws w hw).1).1 hq

lemma find_nil {accept : Vertex → Bool} (h : find g accept none false = []) (hv : g.has v)
    (ha : accept v) (hk : ∀ n ∈ g.nearby v, g.kindD n = g.kindD v) :
    (g.phase v).toRat ≠ 1 / 2 ∧ (g.phase v).toRat ≠ 3 / 2 := by
  have hn := placesOf_nil (find_none_eq g accept false ▸ h) v (mem_vertexCandidates.2 ⟨hv, ha⟩)
  rw [look, Option.map_eq_none_iff, placeAt] at hn
  split at hn
  · cases hn
  rename_i hc
  rw [← not_or]
  intro hp
  refine hc ?_
  simp only [Bool.and_eq_true, Bool.or_eq_true, beq_iff_eq, all_eq_true]
  exact ⟨⟨hp, by simp⟩, hk⟩

/-! ## The effect -/

lemma mem_pairs {vs : List Vertex} (hn : vs.Nodup) (he : e ∈ pairs vs) : e.1 ∈ vs ∧ e.2 ∈ vs ∧ e.1 < e.2 := by
  induction vs with
  | nil => cases he
  | cons v rest ih =>
    obtain ⟨hv, hn⟩ := nodup_cons.1 hn
    rw [pairs, mem_append, mem_map] at he
    rcases he with ⟨w, hw, rfl⟩ | he
    · have hne : v ≠ w := fun c => hv (c ▸ hw)
      unfold edge
      split
      · exact ⟨by simp, by simp [hw], ‹_›⟩
      · exact ⟨by simp [hw], by simp, lt_of_le_of_ne (not_lt.1 ‹_›) hne.symm⟩
    · obtain ⟨h1, h2, h3⟩ := ih hn he
      exact ⟨by simp [h1], by simp [h2], h3⟩

lemma mem_keys_table {sets : List (List Vertex)} (he : e ∈ Table.keys (table sets)) : ∃ vs ∈ sets, e ∈ pairs vs := by
  refine List.foldlRecOn (motive := fun t : EdgeTable => e ∈ Table.keys t → ∃ vs ∈ sets, e ∈ pairs vs) sets _
    (by simp [Table.keys]) (fun t ht vs hvs => ?_) he
  refine List.foldlRecOn (motive := fun t : EdgeTable => e ∈ Table.keys t → ∃ vs ∈ sets, e ∈ pairs vs) (pairs vs) _ ht
    fun t' ht' f hf hm => ?_
  rcases (Table.mem_keys_insert _ _ _ _).1 hm with rfl | hm
  · exact ⟨vs, hvs, hf⟩
  · exact ht' hm

/-- What local complementation makes of a diagram before its edges are changed. -/
structure Spread (g : Diagram) (ps : List Place) (h : Diagram) : Prop where
  rephased : Rephased g h
  quarters : SameQuarters g h
  away : ∀ u, (∀ p ∈ ps, u ∉ p.neighbours) → h.phase u = g.phase u
  reduced : ∀ u, (g.phase u).Reduced → (h.phase u).Reduced

lemma spread_spec (hh : Spread g ps h) (hp : p ∈ ps) (hf : (g.phase p.vertex).Quarters) : Spread g ps (spread h p) := by
  have hq : (h.phase p.vertex).neg.Quarters := ((hh.quarters _).2 hf).neg
  obtain ⟨r, ha, hr⟩ := foldl_addToPhase_spec h p.neighbours (h.phase p.vertex).neg
  refine ⟨hh.rephased.trans r, hh.quarters.trans (foldl_addToPhase_quarters h _ hq), fun u hu => ?_, fun u hu => ?_⟩
  · exact (ha u (hu p hp)).trans (hh.away u hu)
  · exact hr u (hh.reduced u hu)

lemma effect_spec (hg : g.Coherent) (hf : ∀ p ∈ ps, Fits g p) :
    Spread g ps (effect g ps).1 ∧ (effect g ps).2.vertices = ps.map (·.vertex) ∧ (effect g ps).2.edges = [] ∧
      ∀ e ∈ Table.keys (effect g ps).2.table, e.1 ≠ e.2 ∧ ∃ p ∈ ps, e.1 ∈ p.neighbours ∧ e.2 ∈ p.neighbours := by
  refine ⟨?_, rfl, rfl, fun e he => ?_⟩
  · refine List.foldlRecOn ps spread ⟨.refl g, .refl g, fun _ _ => rfl, fun _ => id⟩ ?_
    exact fun h hh p hp => spread_spec hh hp (hf p hp).quarters
  obtain ⟨vs, hvs, he⟩ := mem_keys_table he
  obtain ⟨p, hp, rfl⟩ := mem_map.1 hvs
  obtain ⟨h1, h2, h3⟩ := mem_pairs ((hf p hp).neighbours ▸ hg.nodup _) he
  exact ⟨h3.ne, p, hp, h1, h2⟩

lemma foldl_spread_away (ps : List Place) (hu : ∀ p ∈ ps, u ∉ p.neighbours) (g : Diagram) : (ps.foldl spread g).phase u = g.phase u :=
  List.foldlRecOn (motive := fun h => h.phase u = g.phase u) ps spread rfl fun h hh p hp =>
    ((foldl_addToPhase_spec h p.neighbours _).2.1 u (hu p hp)).trans hh

lemma effect_once (hg : g.Coherent) (hn : (ps.map (·.vertex)).Nodup) (hf : ∀ q ∈ ps, Fits g q) (hp : p ∈ ps)
    (hv : ∀ q ∈ ps, p.vertex ∉ q.neighbours) (hu : u ∈ p.neighbours) (ho : ∀ q ∈ ps, u ∈ q.neighbours → q = p) :
    ∃ n : ℤ, ((effect g ps).1.phase u).toRat = (g.phase u).toRat + n + 1 / 2 := by
  show ∃ n : ℤ, ((ps.foldl spread g).phase u).toRat = _
  have hns : p.neighbours.Nodup := (hf p hp).neighbours ▸ hg.nodup _
  have hph := (hf p hp).phase
  obtain ⟨as, bs, rfl⟩ := append_of_mem hp
  rw [map_append, map_cons] at hn
  have ha : ∀ q ∈ as, u ∉ q.neighbours := by
    intro q hq c
    obtain rfl := ho q (by simp [hq]) c
    exact (nodup_append.1 hn).2.2 _ (mem_map_of_mem hq) _ (by simp) rfl
  have hb : ∀ q ∈ bs, u ∉ q.neighbours := by
    intro q hq c
    obtain rfl := ho q (by simp [hq]) c
    exact (nodup_cons.1 (nodup_append.1 hn).2.1).1 (mem_map_of_mem hq)
  rw [foldl_append, foldl_cons, foldl_spread_away bs hb, spread, foldl_addToPhase_once _ hns hu,
    foldl_spread_away as ha, foldl_spread_away as fun q hq => hv q (by simp [hq])]
  obtain ⟨m, hm⟩ := Exact.modTwo_eq ((g.phase u).add (g.phase p.vertex).neg)
  rw [hm, Exact.toRat_add, Exact.toRat_neg]
  rcases hph with c | c
  · exact ⟨m - 1, by rw [c]; push_cast; ring⟩
  · exact ⟨m - 2, by rw [c]; push_cast; ring⟩

end ZXCircuits.LocalComplement

namespace ZXCircuits.Pivot

open List Diagram Table

variable {g h : Diagram} {p q : Place} {ps : List Place} {v w a b : Vertex}

/-! ## The effect -/

def Phaseless (g : Diagram) (p : Place) : Prop := (g.phase p.first).Whole ∧ (g.phase p.second).Whole

/-- One end, the other one, and the vertex that is kept apart at the first. -/
def End (p : Place) (v other b : Vertex) : Prop :=
  (v = p.first ∧ other = p.second ∧ p.firstBoundary.head? = some b) ∨ (v = p.second ∧ other = p.first ∧ p.secondBoundary.head? = some b)

/-- An end that goes, as nothing is kept apart at the other one. -/
def Goes (p : Place) (u : Vertex) : Prop := (u = p.first ∧ p.secondBoundary = []) ∨ (u = p.second ∧ p.firstBoundary = [])

/-- A neighbour of an end, other than the other end and the vertex that is kept apart there. -/
def Reaches (g : Diagram) (v other : Vertex) (boundary : List Vertex) (n : Vertex) : Prop := g.Joined v n ∧ n ≠ other ∧ boundary ≠ [n]

/-- Two vertices, one of them a neighbour of the first end and the other one of the second. -/
def Crosses (g : Diagram) (p : Place) (a b : Vertex) : Prop :=
  a ≠ b ∧ ((Reaches g p.first p.second p.firstBoundary a ∧ Reaches g p.second p.first p.secondBoundary b) ∨
    (Reaches g p.second p.first p.secondBoundary a ∧ Reaches g p.first p.second p.firstBoundary b))

lemma Crosses.symm (h : Crosses g p a b) : Crosses g p b a := ⟨h.1.symm, h.2.symm.imp And.symm And.symm⟩

lemma Crosses.reaches (h : Crosses g p a b) :
    Reaches g p.first p.second p.firstBoundary a ∨ Reaches g p.second p.first p.secondBoundary a := h.2.imp And.left And.left

/-- What has been collected at some places. -/
structure Collects (g : Diagram) (ps : List Place) (c : Collected) : Prop where
  rephased : Rephased g c.diagram
  turned : ∀ u, Exact.HalfTurns (g.phase u) (c.diagram.phase u)
  table : ∀ f ∈ Table.keys c.table,
    (∃ p ∈ ps, ∃ v other b, End p v other b ∧ f = edge other b ∧ edge v b ∈ c.edges) ∨ ∃ p ∈ ps, Crosses g p f.1 f.2
  edges : ∀ f ∈ c.edges, ∃ p ∈ ps, ∃ v other b, End p v other b ∧ f = edge v b
  vertices : ∀ u ∈ c.vertices, ∃ p ∈ ps, Goes p u

variable {c : Collected} {e : Edge} {f : Edge}

lemma Collects.mono {qs : List Place} (hc : Collects g qs c) (hs : ∀ q ∈ qs, q ∈ ps) : Collects g ps c where
  rephased := hc.rephased
  turned := hc.turned
  table f hf := (hc.table f hf).imp (fun ⟨q, hq, h⟩ => ⟨q, hs q hq, h⟩) fun ⟨q, hq, h⟩ => ⟨q, hs q hq, h⟩
  edges f hf := (hc.edges f hf).imp fun q h => ⟨hs q h.1, h.2⟩
  vertices u hu := (hc.vertices u hu).imp fun q h => ⟨hs q h.1, h.2⟩

lemma without_spec (v : Vertex) (vs : List Vertex) : Gives (without v vs) fun ws => ∀ w, w ∈ ws ↔ w ∈ vs ∧ w ≠ v := by
  refine .ite (fun _ => .ok fun w => ?_) fun _ => .error _
  simp

lemma sideOf_spec (g : Diagram) (v other : Vertex) (boundary : List Vertex) :
    Gives (sideOf g v other boundary) fun ns => ∀ n ∈ ns, Reaches g v other boundary n := by
  refine .bind (gives_neighbours g v) ?_
  rintro _ rfl
  refine .bind (without_spec other _) fun ns hns => ?_
  have joined : ∀ n ∈ ns, g.Joined v n ∧ n ≠ other := fun n hn =>
    ⟨mem_nearby.1 (mem_ascending.1 ((hns n).1 hn).1), ((hns n).1 hn).2⟩
  split
  · refine (without_spec _ ns).mono fun ms hms n hn => ⟨(joined n ((hms n).1 hn).1).1, (joined n ((hms n).1 hn).1).2, fun c => ?_⟩
    exact ((hms n).1 hn).2 (List.cons.inj c).1.symm
  · rename_i hb
    exact .pure fun n hn => ⟨(joined n hn).1, (joined n hn).2, fun c => hb n c⟩

lemma Crosses.edge (h : Crosses g p a b) : Crosses g p (edge a b).1 (edge a b).2 := by
  unfold ZXCircuits.Diagram.edge
  split
  · exact h
  · exact h.symm

lemma mem_allEdges {vs ws : List Vertex} (he : e ∈ allEdges vs ws) : ∃ v ∈ vs, ∃ w ∈ ws, e = edge v w := by
  obtain ⟨v, hv, he⟩ := mem_flatMap.1 he
  obtain ⟨w, hw, rfl⟩ := mem_map.1 he
  exact ⟨v, hv, w, hw, rfl⟩

lemma crosses_of_mem {n0 n1 both : List Vertex} (h0 : ∀ n ∈ n0, Reaches g p.first p.second p.firstBoundary n)
    (h1 : ∀ n ∈ n1, Reaches g p.second p.first p.secondBoundary n) (hb : ∀ n, n ∈ both ↔ n ∈ n0 ∧ n ∈ n1)
    (hf : f ∈ allEdges (n0.filter fun v => !both.contains v) (n1.filter fun v => !both.contains v) ++
      allEdges (n1.filter fun v => !both.contains v) both ++ allEdges (n0.filter fun v => !both.contains v) both) :
    Crosses g p f.1 f.2 := by
  have rest : ∀ {ns : List Vertex} {n : Vertex}, n ∈ ns.filter (fun v => !both.contains v) ↔ n ∈ ns ∧ n ∉ both := by simp
  have cross : ∀ {a b}, a ∈ n0 → b ∈ n1 → a ≠ b → Crosses g p a b := fun ha hb hne => ⟨hne, .inl ⟨h0 _ ha, h1 _ hb⟩⟩
  rw [mem_append, mem_append] at hf
  rcases hf with (hf | hf) | hf <;> obtain ⟨v, hv, w, hw, rfl⟩ := mem_allEdges hf <;> rw [rest] at hv
  · rw [rest] at hw
    exact (cross hv.1 hw.1 fun c => hv.2 ((hb v).2 ⟨hv.1, c ▸ hw.1⟩)).edge
  · exact (cross ((hb w).1 hw).1 hv.1 fun c => hv.2 (c ▸ hw)).symm.edge
  · exact (cross hv.1 ((hb w).1 hw).2 fun c => hv.2 (c ▸ hw)).edge

lemma mem_keys_foldl_addHadamard {es : List Edge} {t : EdgeTable} (hf : f ∈ keys (es.foldl addHadamard t)) : f ∈ keys t ∨ f ∈ es := by
  refine List.foldlRecOn (motive := fun t' : EdgeTable => f ∈ keys t' → f ∈ keys t ∨ f ∈ es) es _ .inl (fun t' ht' e he hm => ?_) hf
  rcases (mem_keys_insert _ _ _ _).1 hm with rfl | hm
  · exact .inr he
  · exact ht' hm

lemma Collects.addPhases (hc : Collects g ps c) (vs : List Vertex) {a : Exact} (ha : a.Whole) :
    Collects g ps { c with diagram := addPhases c.diagram vs a } :=
  ⟨hc.rephased.trans (foldl_addToPhase_spec c.diagram vs a).1,
    fun u => (hc.turned u).trans (foldl_addToPhase_halfTurns c.diagram vs ha u), hc.table, hc.edges, hc.vertices⟩

lemma Collects.settleEnd (hc : Collects g ps c) (hp : p ∈ ps) (hv : (g.phase v).Whole)
    {other : Vertex} {boundary far both : List Vertex} (ho : boundary = [] → Goes p other)
    (he : ∀ b, boundary.head? = some b → End p v other b) : Collects g ps (settleEnd c v other boundary far both) := by
  have ha : (c.diagram.phase v).Whole := (hc.turned v).isWhole hv
  have hc' := (hc.addPhases far ha).addPhases both ha
  unfold Pivot.settleEnd
  split
  · refine ⟨hc'.rephased, hc'.turned, hc'.table, hc'.edges, fun u hu => ?_⟩
    rcases mem_append.1 hu with hu | hu
    · exact hc.vertices u hu
    · rw [mem_singleton.1 hu]
      exact ⟨p, hp, ho rfl⟩
  rename_i b _
  refine ⟨hc'.rephased, hc'.turned, fun f hf => ?_, fun f hf => ?_, hc.vertices⟩
  · rcases (mem_keys_insert _ _ _ _).1 hf with rfl | hf
    · exact .inl ⟨p, hp, v, other, b, he b rfl, rfl, by simp⟩
    rcases hc.table f hf with ⟨q, hq, v', o', b', h1, h2, h3⟩ | hi
    · exact .inl ⟨q, hq, v', o', b', h1, h2, by simp [h3]⟩
    · exact .inr hi
  · rcases mem_append.1 hf with hf | hf
    · exact hc.edges f hf
    · exact ⟨p, hp, v, other, b, he b rfl, mem_singleton.1 hf⟩

/-- **One place** changes phases by half turns, and joins neighbours of its ends. -/
theorem settle_spec (hc : Collects g ps c) (hp : p ∈ ps) (hw : Phaseless g p) : Gives (settle c p) (Collects g ps) := by
  refine .bind (swapPhaseIndex_spec c.diagram p.first p.second) fun d ⟨r, hd⟩ => ?_
  have hr := hc.rephased.trans r
  refine .bind (sideOf_spec d p.first p.second p.firstBoundary) fun n0 h0 => ?_
  refine .bind (sideOf_spec d p.second p.first p.secondBoundary) fun n1 h1 => .pure ?_
  have hc0 : Collects g ps { c with diagram := d } := ⟨hr, fun u => phase_congr hd u ▸ hc.turned u, hc.table, hc.edges, hc.vertices⟩
  have hc1 := hc0.addPhases (n0.filter n1.contains) (Exact.whole_int 1)
  set both := n0.filter n1.contains with hb
  have hboth : ∀ n, n ∈ both ↔ n ∈ n0 ∧ n ∈ n1 := fun n => by rw [hb, mem_filter, contains_iff_mem]
  have hc2 : Collects g ps (settleEnd _ p.first p.second p.firstBoundary (n1.filter fun v => !both.contains v) both) :=
    hc1.settleEnd hp hw.1 (fun hn => .inr ⟨rfl, hn⟩) fun b hb => .inl ⟨rfl, rfl, hb⟩
  have hc3 : Collects g ps (settleEnd _ p.second p.first p.secondBoundary (n0.filter fun v => !both.contains v) both) :=
    hc2.settleEnd hp hw.2 (fun hn => .inl ⟨rfl, hn⟩) fun b hb => .inr ⟨rfl, rfl, hb⟩
  refine ⟨hc3.rephased, hc3.turned, fun f hf => ?_, hc3.edges, hc3.vertices⟩
  rcases mem_keys_foldl_addHadamard hf with hf | hf
  · exact hc3.table f hf
  · exact .inr ⟨p, hp, crosses_of_mem (fun n hn => ⟨hr.joined.1 (h0 n hn).1, (h0 n hn).2⟩)
      (fun n hn => ⟨hr.joined.1 (h1 n hn).1, (h1 n hn).2⟩) hboth hf⟩

lemma effect_spec (hw : ∀ p ∈ ps, Phaseless g p) : Gives (effect g ps) fun x =>
    Collects g ps { diagram := x.1, table := x.2.table, vertices := x.2.vertices, edges := x.2.edges } := by
  refine .bind ?_ fun c hc => .pure hc
  refine .foldlM ⟨.refl g, fun _ => .refl _, by simp [Table.keys], by simp, by simp⟩ fun c p hp hc => ?_
  exact settle_spec hc hp (hw p hp)

/-! ## Places between vertices without a phase of their own -/

lemma whole_of_isPauli (hv : g.isPauli v) : (g.phase v).Whole := by
  simp only [isPauli, Bool.or_eq_true, beq_iff_eq] at hv
  rcases hv with h | h
  · exact ⟨0, by rw [h]; norm_num⟩
  · exact ⟨1, by rw [h]; norm_num⟩

/-- The two places have no end in common. -/
def Apart (p q : Place) : Prop := p.first ≠ q.first ∧ p.first ≠ q.second ∧ p.second ≠ q.first ∧ p.second ≠ q.second

instance : Std.Symm Apart := ⟨fun _ _ ⟨h1, h2, h3, h4⟩ => ⟨h1.symm, h3.symm, h2.symm, h4.symm⟩⟩

/-- The ends of a place are joined and away from the boundary but for a vertex that is kept apart, at one of them at most. -/
structure Fits (g : Diagram) (p : Place) : Prop where
  joined : g.Joined p.first p.second
  ne : p.first ≠ p.second
  few : p.firstBoundary.length + p.secondBoundary.length ≤ 1
  first_inner : g.kindD p.first ≠ .boundary
  second_inner : g.kindD p.second ≠ .boundary
  first_boundary : ∀ n, g.Joined p.first n → g.kindD n = .boundary → p.firstBoundary = [n]
  second_boundary : ∀ n, g.Joined p.second n → g.kindD n = .boundary → p.secondBoundary = [n]
  apart : ∀ v other b, End p v other b → g.Joined v b ∧ b ≠ other

def Bound (g : Diagram) (p : Place) : Prop := ∀ v other b, End p v other b → g.kindD b = .boundary

def look (g : Diagram) (anyEdge : Bool) (e : Edge) : Option (Sighting Unit Edge Place) :=
  if !anyEdge && g.edgeKind e != .hadamard then none
  else (placeAt g e).map fun p => ⟨(), p, g.edgesAt (g.nearby p.first) ++ g.edgesAt (g.nearby p.second)⟩

lemma find_eq (g : Diagram) (accept : Edge → Bool) (limit : Limit) (anyEdge : Bool) :
    find g accept limit anyEdge = placesOf (look g anyEdge) (g.edgeCandidates accept) limit := rfl

lemma boundaryOf_eq_some {bs : List Vertex} (h : boundaryOf g v = some bs) : bs = g.borderOf v := by
  unfold boundaryOf at h
  dsimp only at h
  split at h
  · exact (Option.some.inj h).symm
  · cases h

lemma boundaryOf_of_fine (h : ∀ n, g.Joined v n → g.kindD n = .boundary ∨
    (g.kindD n = .z ∧ g.edgeKind (edge v n) = .hadamard)) : boundaryOf g v = some (g.borderOf v) := by
  refine if_pos (all_eq_true.2 fun n hn => ?_)
  simpa using h n (mem_nearby.1 hn)

lemma placeAt_eq_some (h : placeAt g e = some p) : p.first = e.1 ∧ p.second = e.2 ∧ g.kindD e.1 = .z ∧ g.kindD e.2 = .z ∧ Phaseless g p ∧
      boundaryOf g e.1 = some p.firstBoundary ∧ boundaryOf g e.2 = some p.secondBoundary ∧
      p.firstBoundary.length + p.secondBoundary.length ≤ 1 := by
  unfold placeAt at h
  dsimp only at h
  split at h
  · rename_i hc
    simp only [Bool.and_eq_true, beq_iff_eq] at hc
    obtain ⟨⟨⟨hv, hw⟩, hpv⟩, hpw⟩ := hc
    split at h
    · rename_i bv bw hbv hbw
      split at h
      · cases h
        exact ⟨rfl, rfl, hv, hw, ⟨whole_of_isPauli hpv, whole_of_isPauli hpw⟩, hbv, hbw, ‹_›⟩
      · cases h
    · cases h
  · cases h

lemma look_eq_some {anyEdge : Bool} {s : Sighting Unit Edge Place} (h : look g anyEdge e = some s) :
    placeAt g e = some s.place ∧ s.touched = g.edgesAt (g.nearby e.1) ++ g.edgesAt (g.nearby e.2) := by
  unfold look at h
  split at h
  · cases h
  obtain ⟨p, hp, rfl⟩ := Option.map_eq_some_iff.1 h
  obtain ⟨h1, h2, -⟩ := placeAt_eq_some hp
  exact ⟨hp, by rw [h1, h2]⟩

/-- **The places of pivoting** are joined vertices without a phase of their own, without common ends. -/
theorem find_spec (hg : g.Coherent) (accept : Edge → Bool) (limit : Limit) (anyEdge : Bool) :
    (∀ p ∈ find g accept limit anyEdge, Fits g p ∧ Phaseless g p ∧ Bound g p) ∧ (find g accept limit anyEdge).Pairwise Apart := by
  obtain ⟨ws, e, hws, hp⟩ := placesOf_spec (look g anyEdge) (g.edgeCandidates accept) limit
  rw [find_eq, e]
  refine ⟨fun p hm => ?_, pairwise_map.2 (hp.imp_of_mem fun {w w'} hw hw' hn => ?_)⟩
  · obtain ⟨w, hw, rfl⟩ := mem_map.1 hm
    obtain ⟨hc, hl⟩ := hws w hw
    obtain ⟨h1, h2, k1, k2, hph, b1, b2, hb⟩ := placeAt_eq_some (look_eq_some hl).1
    obtain ⟨hlt, hj⟩ := mem_edges.1 (mem_edgeCandidates.1 hc).1
    -- each end has one neighbour on the boundary at most
    have single : ∀ {bs : List Vertex} {n : Vertex}, bs.length ≤ 1 → n ∈ bs → bs = [n] := by
      intro bs n hl hn
      match bs, hl, hn with
      | [m], _, hn => rw [mem_singleton.1 hn]
    have ends : ∀ v other b, End w.2.place v other b → g.Joined v b ∧ g.kindD b = .boundary ∧ g.kindD other ≠ .boundary := by
      rintro v other b (⟨rfl, rfl, hb⟩ | ⟨rfl, rfl, hb⟩)
      · obtain ⟨hj, hk⟩ := mem_borderOf.1 (boundaryOf_eq_some b1 ▸ mem_of_mem_head? hb)
        exact ⟨h1 ▸ hj, hk, by rw [h2, k2]; decide⟩
      · obtain ⟨hj, hk⟩ := mem_borderOf.1 (boundaryOf_eq_some b2 ▸ mem_of_mem_head? hb)
        exact ⟨h2 ▸ hj, hk, by rw [h1, k1]; decide⟩
    refine ⟨⟨?_, ?_, hb, ?_, ?_, fun n hn hk => ?_, fun n hn hk => ?_, fun v other b he => ?_⟩, hph, fun v other b he =>
      (ends v other b he).2.1⟩
    · rw [h1, h2]; exact hj
    · rw [h1, h2]; exact Nat.ne_of_lt hlt
    · rw [h1, k1]; decide
    · rw [h2, k2]; decide
    · exact single (by omega) (boundaryOf_eq_some b1 ▸ mem_borderOf.2 ⟨h1 ▸ hn, hk⟩)
    · exact single (by omega) (boundaryOf_eq_some b2 ▸ mem_borderOf.2 ⟨h2 ▸ hn, hk⟩)
    · obtain ⟨hj, hk, ho⟩ := ends v other b he
      exact ⟨hj, fun c => ho (c ▸ hk)⟩
  · obtain ⟨hc, hl⟩ := hws w hw
    obtain ⟨hc', hl'⟩ := hws w' hw'
    rw [(look_eq_some hl).2] at hn
    obtain ⟨h1, h2, -⟩ := placeAt_eq_some (look_eq_some hl).1
    obtain ⟨h1', h2', -⟩ := placeAt_eq_some (look_eq_some hl').1
    rw [Apart, h1, h2, h1', h2']
    exact edges_apart hg (mem_edgeCandidates.1 hc).1 (mem_edgeCandidates.1 hc').1 hn

lemma find_nil {accept : Edge → Bool} (h : find g accept none false = []) (he : e ∈ g.edges)
    (ha : accept e) (hk : g.edgeKind e = .hadamard) (hz : g.kindD e.1 = .z ∧ g.kindD e.2 = .z)
    (hp : g.isPauli e.1 ∧ g.isPauli e.2) {bv bw : List Vertex} (hv : boundaryOf g e.1 = some bv)
    (hw : boundaryOf g e.2 = some bw) : 1 < bv.length + bw.length := by
  have hn := placesOf_nil (find_eq g accept none false ▸ h) e (mem_edgeCandidates.2 ⟨he, ha⟩)
  by_contra hl
  simp [look, placeAt, hk, hz.1, hz.2, hp.1, hp.2, hv, hw, Nat.not_lt.1 hl] at hn

end ZXCircuits.Pivot
