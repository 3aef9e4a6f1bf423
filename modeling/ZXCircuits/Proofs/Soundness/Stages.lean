/-
  Rules that work off one place after another.

  What is still to be summed while places are worked off (`Diagram.stage`) is the sum of the diagram at the start and that of the
  result at the end (`Diagram.Balanced.proportional`).  A place changes it by a scalar if it changes the sum over its own vertices by
  that (`Diagram.stage_step`), so the linear map stays up to a scalar unless it is zero (`Diagram.Scaled`, `Rule.exhaust_scaled`).
-/
import ZXCircuits.Proofs.Strategy.Returning
import ZXCircuits.Proofs.Strategy.Tidy

namespace ZXCircuits

open List Function

namespace Diagram

variable {g h k : Diagram} {t t' : EdgeTable} {ω ω' ρ : Vertex → ℂ} {V B K R D S : List Vertex} {c : ℂ} {v w : Vertex}
  {k0 : Diagram} {e : Effect}

/-! ## What is still to be summed -/

def others (g : Diagram) (V : List Vertex) : List Vertex := g.vertices.filter fun v => v ∉ V

/-- The sum over what is left when some vertices go and the edges of a table are added. -/
noncomputable def stage (g : Diagram) (t : EdgeTable) (ω : Vertex → ℂ) (V : List Vertex) : Valuation :=
  totalOver (g.inner.filter fun v => v ∉ V) (g.edgesOf t * body g.tie ω (g.others V))

lemma mem_others : v ∈ g.others V ↔ g.has v ∧ v ∉ V := by
  rw [others, mem_filter, mem_vertices, decide_eq_true_eq]

lemma nodup_others (g : Diagram) (V : List Vertex) : (g.others V).Nodup := g.nodup_vertices.filter _

lemma nodup_inner (g : Diagram) : g.inner.Nodup := g.nodup_vertices.filter _

lemma stage_nil (g : Diagram) (ω : Vertex → ℂ) : g.stage [] ω [] = g.value ω := by
  have edges : g.edgesOf [] = 1 := funext fun β => by simp [edgesOf]
  rw [stage, others, edges, one_mul, filter_eq_self.2 (by simp), filter_eq_self.2 (by simp), value]

lemma edge_lt (hne : v ≠ w) : (edge v w).1 < (edge v w).2 := by
  unfold edge
  split
  · assumption
  · exact lt_of_le_of_ne (not_lt.1 ‹_›) hne.symm

lemma edgesOf_free (h : ∀ e ∈ Table.keys t, e.1 ∉ V ∧ e.2 ∉ V) : FreeOf V (g.edgesOf t) := by
  intro v hv β b
  rw [edgesOf, edgesOf]
  refine congrArg _ (map_congr_left fun q hq => ?_)
  obtain ⟨h1, h2⟩ := h q.1 (mem_map_of_mem hq)
  have n1 : q.1.1 ≠ v := fun c => h1 (c ▸ hv)
  have n2 : q.1.2 ≠ v := fun c => h2 (c ▸ hv)
  rw [update_of_ne n1, update_of_ne n2]

section

variable (hg : g.Coherent) (hB : B.Nodup) (hi : ∀ v ∈ B, v ∈ g.inner ∧ v ∉ V)
include hg hB hi

lemma stage_split : g.stage t ω V = totalOver (g.inner.filter fun v => v ∉ V ++ B)
      (totalOver B (g.edgesOf t * fringe g.tie ω B (g.others (V ++ B))) * body g.tie ω (g.others (V ++ B))) := by
  have split : ∀ L : List Vertex, L.Nodup → (∀ v ∈ B, v ∈ L) → (L.filter fun v => v ∉ V).Perm ((L.filter fun v => v ∉ V ++ B) ++ B) := by
    intro L hL hs
    refine (perm_ext_iff_of_nodup (hL.filter _) ?_).2 fun v => ?_
    · refine nodup_append.2 ⟨hL.filter _, hB, fun a ha b hb c => ?_⟩
      exact of_decide_eq_true (mem_filter.1 ha).2 (mem_append_right _ (c ▸ hb))
    simp only [mem_append, mem_filter, decide_eq_true_eq, not_or]
    have outside := fun c => (hi v c).2
    tauto
  have inner := split g.inner g.nodup_inner fun v hv => (hi v hv).1
  have all : (g.others V).Perm (B ++ g.others (V ++ B)) :=
    (split g.vertices g.nodup_vertices fun v hv => mem_vertices.2 (mem_inner.1 (hi v hv).1).1).trans perm_append_comm
  have free : FreeOf B (body g.tie ω (g.others (V ++ B))) := body_free fun v hv c => (mem_others.1 c).2 (mem_append_right _ hv)
  rw [stage, total_perm inner, total_append, body_perm (tie_even hg) all, body_append, ← mul_assoc, mul_comm _ (body _ _ _),
    total_mul free, mul_comm]

/-- **One place**, some vertices of which go while others are kept, with factors for what is left. -/
theorem stage_step (hp : B.Perm (D ++ S)) (hω : ∀ v ∈ g.others (V ++ B), ω' v = ω v * ρ v)
    (hs : totalOver S (g.edgesOf t' * fringe g.tie ω' S (g.others (V ++ B))) *
      (fun β => ((g.others (V ++ B)).map fun v => if β v then ρ v else 1).prod) =
        c • totalOver B (g.edgesOf t * fringe g.tie ω B (g.others (V ++ B)))) :
    g.stage t' ω' (V ++ D) = c • g.stage t ω V := by
  have mem : ∀ v, v ∈ V ++ D ++ S ↔ v ∈ V ++ B := fun v => by
    rw [append_assoc, mem_append, ← hp.mem_iff, mem_append]
  have same : ∀ L : List Vertex, (L.filter fun v => v ∉ V ++ D ++ S) = L.filter fun v => v ∉ V ++ B := fun L =>
    filter_congr fun v _ => decide_eq_decide.2 (not_congr (mem v))
  obtain ⟨-, nodup, apart⟩ := nodup_append.1 (hp.nodup_iff.1 hB)
  have inside : ∀ v ∈ S, v ∈ g.inner ∧ v ∉ V ++ D := by
    intro v hv
    obtain ⟨h1, h2⟩ := hi v (hp.mem_iff.2 (mem_append_right _ hv))
    refine ⟨h1, fun c => ?_⟩
    rcases mem_append.1 c with c | c
    · exact h2 c
    · exact apart v c v hv rfl
  have turned : body g.tie ω' (g.others (V ++ B)) =
      (fun β => ((g.others (V ++ B)).map fun v => if β v then ρ v else 1).prod) * body g.tie ω (g.others (V ++ B)) := by
    funext β
    rw [Pi.mul_apply, ← body_turned]
    exact congrFun (body_congr hω (fun _ _ _ _ _ => rfl) (g.nodup_others _)) β
  rw [stage_split hg nodup inside, stage_split hg hB hi, others, same, same, ← others, turned, ← mul_assoc, hs, smul_mul_assoc, total_smul]

end

/-- An effect that can be made and that keeps the sum: the first diagram is the one that was searched, the second one has the new
    phases. -/
structure Balanced (g k0 : Diagram) (e : Effect) : Prop where
  rephased : Rephased g k0
  apart : e.table.Pairwise Entry.Apart
  ends : ∀ f ∈ Table.keys e.table, g.has f.1 ∧ g.has f.2 ∧ f.1 ∉ e.vertices ∧ f.2 ∉ e.vertices
  worth : ∀ q ∈ e.table, g.Worth q
  edges : ∀ f ∈ e.edges, g.Joined f.1 f.2 ∧ (f.1 ∈ e.vertices ∨ f.2 ∈ e.vertices)
  single : e.edges.Pairwise fun f f' => ¬ Between f f'.1 f'.2
  vertices : ∀ v ∈ e.vertices, g.has v ∧ g.kindD v ≠ .boundary
  nodup : e.vertices.Nodup
  sums : ∃ c : ℂ, c ≠ 0 ∧ g.stage e.table k0.turns e.vertices = c • g.value g.turns

namespace Balanced

variable {k0 d : Diagram} {e : Effect} (hb : Balanced g k0 e)

include hb

lemma plain (hp : g.Plain) : k0.Plain := fun v w k hk => hp v w k (hb.rephased.link v w ▸ hk)

lemma returns (hg : g.Neat) (hn : g.Noted) : Returns (k0.applyEffect e) := by
  have r := hb.rephased
  have noted : k0.Noted := fun v hv => by
    rw [r]
    exact hn v (r.has v ▸ hv)
  refine applyEffect_returns (r.coherent hg.coherent) (hb.plain hg.plain) (fun v c => hg.loopless v (r.joined.1 c)) noted
    ⟨hb.apart, fun f hf => ?_, fun f hf => ?_, hb.single, fun v hv => r.has v ▸ (hb.vertices v hv).1, hb.nodup⟩
  · obtain ⟨h1, h2, -, -⟩ := hb.ends f hf
    obtain ⟨q, hq, rfl⟩ := mem_map.1 hf
    exact ⟨r.has _ ▸ h1, r.has _ ▸ h2, (hb.worth q hq).ne⟩
  obtain ⟨hj, hv⟩ := hb.edges f hf
  refine ⟨r.joined.2 hj, fun c => hg.loopless f.1 (by rw [← c] at hj; exact hj), ?_⟩
  rintro ⟨f', hf', ⟨e1, e2⟩ | ⟨e1, e2⟩⟩
  · rw [e1, e2] at hv
    exact hv.elim (hb.ends f' hf').2.2.1 (hb.ends f' hf').2.2.2
  · rw [e1, e2] at hv
    exact hv.elim (hb.ends f' hf').2.2.2 (hb.ends f' hf').2.2.1

/-- **What a rule leaves** has the sum that is left at the end. -/
theorem proportional (hg : g.Coherent) (hp : g.Plain) (hw : Wrought k0 e k d) : Proportional g d := by
  have r := hb.rephased
  have left : Left g e.vertices d := .of_rephased r <| hw.left fun v hv => r.kindD v ▸ (hb.vertices v hv).2
  have inside : ∀ q ∈ e.table, q.1.1 ∈ d.vertices ∧ q.1.2 ∈ d.vertices := fun q hq => by
    obtain ⟨h1, h2, h3, h4⟩ := hb.ends q.1 (mem_map_of_mem hq)
    exact ⟨mem_vertices.2 ((left.vertex _).2 ⟨h1, h3⟩), mem_vertices.2 ((left.vertex _).2 ⟨h2, h4⟩)⟩
  have kind : k0.kindD = g.kindD := funext r.kindD
  have edgeKind : k0.edgeKind = g.edgeKind := funext r.edgeKind
  have same : ∀ q ∈ e.table, k0.Worth q := fun q hq => by
    have made : k0.mergedAt q = g.mergedAt q := by rw [mergedAt, mergedAt, kind, edgeKind]
    obtain ⟨h1, h2, h3⟩ := hb.worth q hq
    exact ⟨h1, by rwa [made, kind], by rwa [made, kind, edgeKind]⟩
  obtain ⟨a, ha, body1⟩ := hw.body_eq (r.coherent hg) (hb.plain hp) (fun f hf => (hb.edges f hf).2) hb.apart inside same fun _ => 1
  obtain ⟨c, hc, sums⟩ := hb.sums
  have edges : k0.edgesOf e.table = g.edgesOf e.table := by
    funext β
    rw [edgesOf, edgesOf, kind]
  have ties : k0.tie = g.tie := funext fun a => funext fun b => tie_eq_of_link r.kindD (r.link a b)
  have rest : d.vertices.Perm (g.others e.vertices) := (perm_ext_iff_of_nodup d.nodup_vertices (g.nodup_others _)).2 fun v => by
    rw [mem_vertices, mem_others, left.vertex]
  have inner : d.inner.Perm (g.inner.filter fun v => v ∉ e.vertices) :=
    (perm_ext_iff_of_nodup d.nodup_inner (g.nodup_inner.filter _)).2 fun v => by
      rw [mem_inner, mem_filter, mem_inner, decide_eq_true_eq, left.vertex]
      constructor
      · rintro ⟨hv, hk⟩
        exact ⟨⟨hv.1, left.kind v ((left.vertex v).2 hv) ▸ hk⟩, hv.2⟩
      · rintro ⟨⟨hv, hk⟩, hn⟩
        exact ⟨⟨hv, hn⟩, (left.kind v ((left.vertex v).2 ⟨hv, hn⟩)).symm ▸ hk⟩
  refine ⟨hw.coherent, left.border, ⟨hw.ends.1.trans (by rw [r]), hw.ends.2.trans (by rw [r])⟩, a * c, mul_ne_zero ha hc, ?_⟩
  simp only [mul_one] at body1
  rw [value, body1, edges, ties, total_smul, total_perm inner, body_perm (tie_even hg) rest, mul_smul, ← sums, stage]

end Balanced

/-! ## Vertices without neighbours -/

lemma value_of_isolated (hg : g.Coherent) (hl : Left g R h) (hn : ∀ v ∈ R, ∀ w, ¬ g.Joined v w)
    (hω : ∀ v ∈ h.vertices, ω' v = ω v) (ht : ∀ v ∈ h.vertices, ∀ w ∈ h.vertices, h.tie v w = g.tie v w) :
    g.value ω = (R.map fun v => 1 + ω v).prod • h.value ω' := by
  have lone : ∀ v ∈ R, ∀ w, g.tie v w = 1 := fun v hv w => by
    funext x y
    exact tie_of_not_joined (hn v hv w) x y
  have ones : ∀ v ∈ R, ∀ x, ∀ β : Vertex → Bool, (h.vertices.map fun w => g.tie v w x (β w)).prod = (1 : ℂ) := by
    intro v hv x β
    refine prod_eq_one fun y hy => ?_
    obtain ⟨w, -, rfl⟩ := mem_map.1 hy
    rw [lone v hv]
    rfl
  have sums : ∀ v ∈ R, sumOut v (star g.tie ω v h.vertices) = fun _ => 1 + ω v := by
    intro v hv
    funext β
    rw [sumOut_star (hl.apart v hv), ones v hv, ones v hv, mul_one]
  have product : (R.map fun v => sumOut v (star g.tie ω v h.vertices)).prod = fun _ => (R.map fun v => 1 + ω v).prod := by
    rw [map_congr_left sums]
    clear * -
    induction R with
    | nil => rfl
    | cons v R ih => rw [map_cons, prod_cons, ih]; funext β; simp
  have untied : R.Pairwise fun v w => g.tie v w = 1 := pairwise_of_forall_mem_list fun v hv w _ => lone v hv w
  have same : body h.tie ω' h.vertices = body g.tie ω h.vertices := body_congr hω (fun v hv w hw _ => ht v hv w hw) h.nodup_vertices
  rw [value, total_perm hl.inner_perm, total_append, body_perm (tie_even hg) hl.perm, total_body hl.apart,
    total_fringe hl.nodup hl.apart untied, product, value, same, ← total_smul]
  rfl

/-- The diagrams have the same boundary, and the sum of the first one is a multiple of that of the second. -/
structure Scaled (g h : Diagram) : Prop where
  coherent : h.Coherent
  border : ∀ v, v ∈ h.border ↔ v ∈ g.border
  ends : h.inputs = g.inputs ∧ h.outputs = g.outputs
  value : ∃ c : ℂ, g.value g.turns = c • h.value h.turns

namespace Scaled

lemma refl (hg : g.Coherent) : Scaled g g := ⟨hg, fun _ => Iff.rfl, ⟨rfl, rfl⟩, 1, (one_smul ℂ _).symm⟩

lemma trans (h1 : Scaled g h) (h2 : Scaled h k) : Scaled g k := by
  obtain ⟨c, e1⟩ := h1.value
  obtain ⟨c', e2⟩ := h2.value
  exact ⟨h2.coherent, fun v => (h2.border v).trans (h1.border v), ⟨h2.ends.1.trans h1.ends.1, h2.ends.2.trans h1.ends.2⟩,
    c * c', by rw [e1, e2, smul_smul]⟩

/-- **If the linear map is not zero** it stays the same up to a scalar. -/
theorem linearMap_eq (hs : Scaled g h) (hg : g.Coherent) (hio : ∀ v, v ∈ g.inputs ∨ v ∈ g.outputs → v ∈ g.border) {n m : ℕ}
    (hn : g.linearMap n m ≠ 0) : ∃ c : ℂ, c ≠ 0 ∧ h.linearMap n m = c • g.linearMap n m := by
  obtain ⟨c, e⟩ := hs.value
  have ends : ∀ v, v ∈ h.inputs ∨ v ∈ h.outputs → v ∈ h.border := by
    rw [hs.ends.1, hs.ends.2]
    exact fun v hv => (hs.border v).2 (hio v hv)
  have map := linearMap_of_value hs.coherent hg e (fun v => (hs.border v).symm) hs.ends.1.symm hs.ends.2.symm ends n m
  have hc : c ≠ 0 := fun h0 => hn (by rw [map, h0, zero_smul])
  exact ⟨c⁻¹, inv_ne_zero hc, by rw [map, smul_smul, inv_mul_cancel₀ hc, one_smul]⟩

end Scaled

lemma Proportional.scaled (hp : Proportional g h) : Scaled g h := by
  obtain ⟨c, hc, e⟩ := hp.value
  exact ⟨hp.coherent, hp.border, hp.ends, c⁻¹, by rw [e, smul_smul, inv_mul_cancel₀ hc, one_smul]⟩

lemma Without.scaled (hg : g.Coherent) (hw : Without g g.isolated h) (hb : ∀ v ∈ g.isolated, g.kindD v ≠ .boundary)
    (ends : h.inputs = g.inputs ∧ h.outputs = g.outputs) : Scaled g h := by
  have left : Left g g.isolated h := ⟨hw.present, hw.nodup, hb, hw.vertex, fun v hv => hw.kindD ((hw.vertex v).1 hv).2⟩
  have stays : ∀ v ∈ h.vertices, v ∉ g.isolated := fun v hv => ((hw.vertex v).1 (mem_vertices.1 hv)).2
  refine ⟨hw.coherent, left.border, ends, _, value_of_isolated hg left (fun v hv w hj => ?_) (fun v hv => ?_) fun v hv w hw' => ?_⟩
  · rw [isolated, List.mem_filter, List.isEmpty_iff] at hv
    rw [← mem_nearby, hv.2] at hj
    cases hj
  · rw [turns, turns, hw.kindD (stays v hv), hw.phase (stays v hv)]
  · funext x y
    rw [tie, tie, hw.link, if_neg (not_or.2 ⟨stays v hv, stays w hw'⟩), hw.kindD (stays v hv), hw.kindD (stays w hw')]

/-- **An effect that keeps the sum**, if the sweep at its end leaves the boundary alone. -/
theorem Balanced.scaled (hb : Balanced g k0 e) (hg : g.Coherent) (hp : g.Plain) :
    Gives (k0.applyEffect e) fun h => (∀ b ∈ g.border, h.has b) → Scaled g h := by
  refine (applyEffect_wrought (hb.rephased.coherent hg) (hb.plain hp) hb.apart).mono ?_
  rintro h ⟨k, d, hw, hd⟩ border
  have made := hb.proportional hg hp hw
  split at hd
  · obtain ⟨without, ends⟩ := hd
    refine made.scaled.trans (without.scaled hw.coherent (fun v hv c => ?_) ⟨?_, ?_⟩)
    · have there := ((without.vertex v).1 (border v ((made.border v).1 (mem_border.2 ⟨?_, c⟩)))).2
      · exact there hv
      · exact without.present v hv
    · rw [ends.1, hw.ends.1]
    · rw [ends.2, hw.ends.2]
  · exact hd ▸ made.scaled

/-! ## What effects leave alone -/

lemma mergeEntry_master {c : EdgeChanges} (hc : c.diagram.Coherent) (entry : Edge × (Int × Int)) :
    Gives (mergeEntry c entry) fun c' => c'.diagram.Coherent ∧ c'.diagram.master = c.diagram.master := by
  have turned : (c.diagram.halved entry).master = c.diagram.master := by
    unfold halved
    split <;> rfl
  refine ((mergeEntry_noted hc entry).and (EdgeChanges.mergeEntry_records hc entry)).mono fun c' made => ⟨made.1.1, ?_⟩
  cases made.2 with
  | keep | remove | regular | hadamard => exact turned
  | change _ _ set => exact (setEdgeKind_spec _ _ _ _ set).1.ends.2.2.trans turned

lemma applyEffect_master (hg : g.Coherent) (e : Effect) : Gives (g.applyEffect e) fun h => h.master = g.master := by
  have table : Gives (g.addEdgeTable e.table) fun h => h.master = g.master := by
    have entries : Gives (e.table.foldlM mergeEntry { diagram := g }) fun c => c.diagram.Coherent ∧ c.diagram.master = g.master :=
      .foldlM ⟨hg, rfl⟩ fun c entry _ hc => (mergeEntry_master hc.1 entry).mono fun c' hc' => ⟨hc'.1, hc'.2.trans hc.2⟩
    refine .bind entries fun c hc => .bind (removeEdges_spec hc.1 _) fun d1 h1 => ?_
    refine .bind (addEdges_link _ _ d1) fun d2 h2 => (addEdges_link _ _ d2).mono fun d3 h3 => ?_
    exact ((h1.1.trans h2.1).trans h3.1).ends.2.2.trans hc.2
  refine .bind (table.and (addEdgeTable_spec hg e.table)) fun k hk => .bind (removeEdges_spec hk.2.coherent e.edges) fun k' h1 => ?_
  refine .bind ((removeVertices_spec h1.2.1 e.vertices).and (removeVertices_ends h1.2.1 e.vertices)) fun d hd => ?_
  have here : d.master = g.master := (hd.2.2.2.trans h1.1.ends.2.2).trans hk.1
  cases hs : e.sweep with
  | false => exact .pure here
  | true => exact (removeVertices_ends hd.1.coherent _).mono fun h hh => hh.2.2.trans here

lemma WellFormed.tied (hg : g.WellFormed) {b : Vertex} (hb : b ∈ g.border) : ∃ w, g.Hangs b w := by
  obtain ⟨hv, hk⟩ := mem_border.1 hb
  obtain ⟨w, hw⟩ := length_eq_one_iff.1 (hg.boundary b (mem_vertices.2 hv) hk).1
  exact ⟨w, fun y => by rw [← mem_nearby, hw, mem_singleton]⟩

lemma Applied.length_lt (ha : Applied g e h) (hv : g.has v) (hm : v ∈ e.vertices) : h.vertices.length < g.vertices.length := by
  have sub : h.vertices ⊆ g.vertices.erase v := fun u hu => by
    obtain ⟨there, stays⟩ := ha.vertex u (mem_vertices.1 hu)
    exact g.nodup_vertices.mem_erase_iff.2 ⟨fun c => stays (c ▸ hm), mem_vertices.2 there⟩
  have fewer := (h.nodup_vertices.subperm sub).length_le
  have here := mem_vertices.2 hv
  rw [length_erase_of_mem here] at fewer
  have := length_pos_of_mem here
  omega

/-- **One round**: an effect that keeps the sum and leaves the boundary alone. -/
theorem Balanced.gives (hb : Balanced g k0 e) (hg : g.Coherent) (hp : g.Plain) (hn : g.Noted) :
    Gives (k0.applyEffect e) fun h => h.Noted ∧ h.master = k0.master ∧ ((∀ b ∈ g.border, h.has b) → Scaled g h) ∧
      (e.vertices ≠ [] → h.vertices.length < g.vertices.length) := by
  have r := hb.rephased
  have hg0 := r.coherent hg
  have noted : k0.Noted := fun v hv => by
    rw [r]
    exact hn v (r.has v ▸ hv)
  refine ((applyEffect_noted hg0 noted e).and ((hb.scaled hg hp).and ((applyEffect_master hg0 e).and (applyEffect_spec hg0 e)))).mono
    fun h found => ?_
  obtain ⟨h1, h2, h3, applied⟩ := found
  refine ⟨h1, h3, h2, fun hne => ?_⟩
  obtain ⟨v, hv⟩ := exists_mem_of_ne_nil _ hne
  have fewer := applied.length_lt ((r.has v).trans (hb.vertices v hv).1) hv
  have same : k0.vertices = g.vertices := by
    rw [Diagram.vertices, r.adjacency]
    rfl
  rwa [same] at fewer

end Diagram

/-! ## Repetition -/

namespace Rule

open Diagram

/-- **A rule** whose rounds return, lower a measure and keep the sum can be repeated to its end, where it is stuck. -/
theorem exhaust_scaled {μ : Type} {r : Rule μ} {P : Diagram → Prop} {m : Diagram → ℕ} {g : Diagram} (settles : r.Settles)
    (returns : ∀ h, P h → Returns (r.round h))
    (step : ∀ h, P h → Gives (r.round h) fun x => x.2 ≠ 0 → P x.1 ∧ Scaled h x.1 ∧ m x.1 < m h) (coherent : g.Coherent) (hg : P g)
    (bound : m g < g.stepBound) (verbose : Bool) : ∃ h rounds text, (r.exhaust verbose g).outcome = (.ok (h, rounds), text) ∧
      P h ∧ r.Stuck h ∧ Scaled g h := by
  have descends : r.Descends (fun h => P h ∧ Scaled g h) fun h k => m k < m h := fun h hh =>
    (step h hh.1).mono fun x hx hn => ⟨⟨(hx hn).1, hh.2.trans (hx hn).2.1⟩, (hx hn).2.2⟩
  have start : P g ∧ Scaled g g := ⟨hg, .refl coherent⟩
  have succeeds : Run.Succeeds (r.exhaust verbose g) :=
    exhaustWithin_succeeds (fun h hh => returns h hh.1) descends (fun lower => lower) verbose start bound
  obtain ⟨⟨h, rounds⟩, text, e, ⟨hP, hs⟩, stuck, -⟩ := succeeds.exists_outcome
    (exhaustWithin_descends descends (fun h1 h2 => lt_trans h2 h1) settles stepBound verbose start)
  exact ⟨h, rounds, text, e, hP, stuck, hs⟩

end Rule

end ZXCircuits
