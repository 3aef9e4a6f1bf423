/-
  Vertices that are taken away.

  The vertices that a rule takes away are summed over first, with what ties them to the others (`fringe`).  Vertices that are not tied
  to each other are summed over one by one (`total_fringe`).  What an effect makes of a diagram is worth its table (`Wrought.body_eq`).
-/
import ZXCircuits.Proofs.Soundness.Merging

namespace ZXCircuits

open List Function

variable {T : Ties} {ω : Vertex → ℂ} {r : Vertex} {R K M : List Vertex}

/-- Some vertices with their ties to each other and to others. -/
noncomputable def fringe (T : Ties) (ω : Vertex → ℂ) : List Vertex → List Vertex → Valuation
  | [], _ => 1
  | r :: R, K => star T ω r (R ++ K) * fringe T ω R K

lemma body_append (R K : List Vertex) : body T ω (R ++ K) = fringe T ω R K * body T ω K := by
  induction R with
  | nil => exact (one_mul _).symm
  | cons r R ih => rw [List.cons_append, body_cons, ih, fringe, mul_assoc]

lemma fringe_free (hR : ∀ v ∈ M, v ∉ R) (hK : ∀ v ∈ M, v ∉ K) : FreeOf M (fringe T ω R K) := by
  induction R with
  | nil => exact fun _ _ _ _ => rfl
  | cons r R ih =>
    have hr : r ∉ M := fun c => hR r c (by simp)
    have hR' : ∀ v ∈ M, v ∉ R := fun v hv c => hR v hv (by simp [c])
    have first : FreeOf M (star T ω r (R ++ K)) := star_free hr fun v hv c => (mem_append.1 c).elim (hR' v hv) (hK v hv)
    intro v hv β b
    simp [fringe, Pi.mul_apply, first v hv, ih hR' v hv]

lemma total_body (hK : ∀ v ∈ R, v ∉ K) : totalOver R (body T ω (R ++ K)) = totalOver R (fringe T ω R K) * body T ω K := by
  rw [body_append, mul_comm, total_mul (body_free hK), mul_comm]

lemma star_append (hT : ∀ w ∈ R, T r w = 1) : star T ω r (R ++ K) = star T ω r K := by
  funext β
  have ones : (R.map fun w => T r w (β r) (β w)).prod = 1 := by
    refine prod_eq_one fun x hx => ?_
    obtain ⟨w, hw, rfl⟩ := mem_map.1 hx
    rw [hT w hw]
    rfl
  rw [star, star, map_append, prod_append, ones, one_mul]

/-- **Vertices that are not tied to each other** are summed over one by one. -/
theorem total_fringe (hR : R.Nodup) (hK : ∀ v ∈ R, v ∉ K) (hT : R.Pairwise fun v w => T v w = 1) :
    totalOver R (fringe T ω R K) = (R.map fun r => sumOut r (star T ω r K)).prod := by
  induction R with
  | nil => rfl
  | cons r R ih =>
    obtain ⟨hr, hR⟩ := nodup_cons.1 hR
    obtain ⟨hrT, hT⟩ := pairwise_cons.1 hT
    have hK' : ∀ v ∈ R, v ∉ K := (forall_mem_cons.1 hK).2
    have rest : FreeOf [r] (totalOver R (fringe T ω R K)) := by
      refine total_free (fringe_free ?_ ?_)
      · rintro v hv
        rwa [mem_singleton.1 hv]
      rintro v hv
      rw [mem_singleton.1 hv]
      exact hK r (by simp)
    rw [fringe, star_append hrT, total_cons, total_mul (star_free hr hK'), mul_comm, sumOut_mul (rest r (by simp)), ih hR hK' hT,
      map_cons, prod_cons, mul_comm]

lemma prod_of_subset {N : List Vertex} (hK : K.Nodup) (hN : N.Nodup) (hs : ∀ v ∈ N, v ∈ K) {f : Vertex → ℂ}
    (hf : ∀ v ∈ K, v ∉ N → f v = 1) : (K.map f).prod = (N.map f).prod := by
  rw [← prod_toFinset f hK, ← prod_toFinset f hN]
  refine (Finset.prod_subset (fun v hv => ?_) fun v hv hn => ?_).symm
  · exact mem_toFinset.2 (hs v (mem_toFinset.1 hv))
  · exact hf v (mem_toFinset.1 hv) fun c => hn (mem_toFinset.2 c)

lemma body_turned (T : Ties) (ω ρ : Vertex → ℂ) (L : List Vertex) (β : Vertex → Bool) :
    body T (fun v => ω v * ρ v) L β = (L.map fun v => if β v then ρ v else 1).prod * body T ω L β := by
  induction L with
  | nil => simp
  | cons v L ih =>
    simp only [body_cons, Pi.mul_apply, ih, star, map_cons, prod_cons]
    split <;> ring

lemma sumOut_star (hr : r ∉ K) (β : Vertex → Bool) : sumOut r (star T ω r K) β =
    (K.map fun w => T r w false (β w)).prod + ω r * (K.map fun w => T r w true (β w)).prod := by
  have others : ∀ x, (K.map fun w => T r w x (update β r x w)).prod = (K.map fun w => T r w x (β w)).prod := by
    intro x
    refine congrArg _ (map_congr_left fun w hw => ?_)
    have hne : w ≠ r := fun c => hr (c ▸ hw)
    rw [update_of_ne hne]
  simp [sumOut, star, update_self, Bool.false_eq_true, one_mul, others]

namespace Diagram

variable {g h k : Diagram} {ω' : Vertex → ℂ} {c : ℂ} {e : Effect} {d : Diagram}

lemma prod_tie (hg : g.Coherent) (hK : K.Nodup) (hs : ∀ w, g.Joined r w → w ∈ K) (x : Bool) (β : Vertex → Bool) :
    (K.map fun w => g.tie r w x (β w)).prod = ((g.nearby r).map fun w => g.tie r w x (β w)).prod :=
  prod_of_subset hK (hg.nodup r) (fun w hw => hs w (mem_nearby.1 hw)) fun _ _ hw =>
    tie_of_not_joined (fun c => hw (mem_nearby.2 c)) _ _

/-! ## What is left of a diagram -/

/-- The second diagram has the vertices of the first one but for some spiders. -/
structure Left (g : Diagram) (R : List Vertex) (h : Diagram) : Prop where
  present : ∀ v ∈ R, g.has v
  nodup : R.Nodup
  spider : ∀ v ∈ R, g.kindD v ≠ .boundary
  vertex : ∀ v, h.has v ↔ g.has v ∧ v ∉ R
  kind : ∀ v, h.has v → h.kindD v = g.kindD v

namespace Left

variable (hl : Left g R h)
include hl

lemma apart : ∀ v ∈ R, v ∉ h.vertices := fun v hv c => ((hl.vertex v).1 (mem_vertices.1 c)).2 hv

lemma perm : g.vertices.Perm (R ++ h.vertices) := by
  refine (perm_ext_iff_of_nodup g.nodup_vertices ?_).2 fun v => ?_
  · exact nodup_append.2 ⟨hl.nodup, h.nodup_vertices, fun a ha b hb c => hl.apart a ha (c ▸ hb)⟩
  rw [mem_append, mem_vertices, mem_vertices, hl.vertex]
  by_cases hv : v ∈ R
  · simp [hv, hl.present v hv]
  · simp [hv]

lemma inner_perm : g.inner.Perm (h.inner ++ R) := by
  have rest : h.vertices.filter (fun v => g.kindD v ≠ .boundary) = h.inner :=
    filter_congr fun v hv => by rw [hl.kind v (mem_vertices.1 hv)]
  have removed : R.filter (fun v => g.kindD v ≠ .boundary) = R := filter_eq_self.2 fun v hv => decide_eq_true (hl.spider v hv)
  have h := hl.perm.filter fun v => decide (g.kindD v ≠ .boundary)
  rw [filter_append, rest, removed] at h
  exact h.trans perm_append_comm

lemma border (v : Vertex) : v ∈ h.border ↔ v ∈ g.border := by
  rw [mem_border, mem_border]
  constructor
  · rintro ⟨hv, hb⟩
    exact ⟨((hl.vertex v).1 hv).1, hl.kind v hv ▸ hb⟩
  rintro ⟨hv, hb⟩
  have hv := (hl.vertex v).2 ⟨hv, fun c => hl.spider v c hb⟩
  exact ⟨hv, (hl.kind v hv).trans hb⟩

end Left

/-! ## Effects -/

lemma pairwise_apart {t : EdgeTable} (hn : (Table.keys t).Nodup) (hs : ∀ e ∈ Table.keys t, (e.2, e.1) ∉ Table.keys t) :
    t.Pairwise Entry.Apart := by
  refine (pairwise_map.1 hn).imp_of_mem fun {p q} hp hq hne a b hb hb' => hne ?_
  have back := hs p.1 (mem_map_of_mem hp)
  have hq : q.1 ∈ Table.keys t := mem_map_of_mem hq
  rcases hb with ⟨h1, h2⟩ | ⟨h1, h2⟩ <;> rcases hb' with ⟨h3, h4⟩ | ⟨h3, h4⟩
  · exact Prod.ext (h1.symm.trans h3) (h2.symm.trans h4)
  · refine absurd hq ?_
    rwa [show q.1 = (p.1.2, p.1.1) from Prod.ext (h4.symm.trans h2) (h3.symm.trans h1)]
  · refine absurd hq ?_
    rwa [show q.1 = (p.1.2, p.1.1) from Prod.ext (h3.symm.trans h1) (h4.symm.trans h2)]
  · exact Prod.ext (h2.symm.trans h4) (h1.symm.trans h3)

lemma worth_of_lone {q : Edge × (Int × Int)} (hne : q.1.1 ≠ q.1.2) (ho : g.edgeKind q.1 = .absent) (hn : Lone q.2) : g.Worth q := by
  obtain ⟨⟨a, b⟩, n⟩ := q
  have made : g.mergedAt ((a, b), n) = (if n = (1, 0) then .regular else .hadamard, false) := by
    rw [mergedAt, ho]
    rcases hn with rfl | rfl <;> cases g.kindD a == g.kindD b <;> rfl
  refine ⟨hne, fun c => ?_, 1, one_ne_zero, fun x y => ?_⟩
  · rw [made] at c
    cases c
  · rw [made, ho]
    rcases hn with rfl | rfl <;> simp [bond?]

lemma Relinked.ends (r : Relinked g h) : h.inputs = g.inputs ∧ h.outputs = g.outputs ∧ h.master = g.master := by
  rw [r.beside]
  exact ⟨rfl, rfl, rfl⟩

lemma removeVertices_ends (hg : g.Coherent) (vs : List Vertex) :
    Gives (g.removeVertices vs) fun h => h.inputs = g.inputs ∧ h.outputs = g.outputs ∧ h.master = g.master := by
  unfold removeVertices
  induction vs generalizing g with
  | nil => exact .pure ⟨rfl, rfl, rfl⟩
  | cons v vs ih =>
    have one : Gives (g.removeVertex v) fun h => h.inputs = g.inputs ∧ h.outputs = g.outputs ∧ h.master = g.master :=
      .bind (.self _) fun ns _ => .bind (removeLinks_spec hg v ns) fun h relinked => .pure relinked.1.ends
    refine .bind ((removeVertex_spec hg v).and one) fun h1 found => (ih found.1.coherent).mono fun h2 e2 => ?_
    exact ⟨e2.1.trans found.2.1, e2.2.1.trans found.2.2.1, e2.2.2.trans found.2.2.2⟩

/-- What an effect makes of a diagram before vertices without neighbours go: the table makes the second diagram, and the third one is
    without the edges and vertices that are taken away. -/
structure Wrought (g : Diagram) (e : Effect) (k h : Diagram) : Prop where
  tabled : Tabled g e.table k
  present : ∀ v ∈ e.vertices, g.has v
  nodup : e.vertices.Nodup
  coherent : h.Coherent
  vertex : ∀ v, h.has v ↔ g.has v ∧ v ∉ e.vertices
  link : ∀ a b, a ∉ e.vertices → b ∉ e.vertices → h.link a b = if Spanned e.edges a b then none else k.link a b
  kind : ∀ v, v ∉ e.vertices → h.kindD v = g.kindD v
  phase : ∀ v, v ∉ e.vertices → h.phase v = k.phase v
  ends : h.inputs = g.inputs ∧ h.outputs = g.outputs

def isolated (g : Diagram) : List Vertex := g.vertices.filter fun v => (g.nearby v).isEmpty

lemma applyEffect_wrought (hg : g.Coherent) (hp : g.Plain) (ht : e.table.Pairwise Entry.Apart) :
    Gives (g.applyEffect e) fun h => ∃ k d, Wrought g e k d ∧ if e.sweep then Without d d.isolated h ∧
      h.inputs = g.inputs ∧ h.outputs = g.outputs else h = d := by
  refine .bind (addEdgeTable_tabled hg hp ht) fun k tk => ?_
  refine .bind (removeEdges_spec tk.merged.coherent e.edges) fun k' found => ?_
  obtain ⟨r, c, l⟩ := found
  refine .bind ((removeVertices_spec c e.vertices).and (removeVertices_ends c e.vertices)) fun d found => ?_
  obtain ⟨w, ends⟩ := found
  have kept := tk.merged.kept.trans r.kept
  have wrought : Wrought g e k d := {
    tabled := tk
    present := fun v hv => (kept.vertex v).symm.trans (w.present v hv)
    nodup := w.nodup
    coherent := w.coherent
    vertex := fun v => by rw [w.vertex, kept.vertex]
    link := fun a b ha hb => by
      rw [w.link, if_neg (not_or.2 ⟨ha, hb⟩), l]
      rfl
    kind := fun v hv => by rw [w.kindD hv, kept.kindD]
    phase := fun v hv => by rw [w.phase hv, r.phase]
    ends := ⟨ends.1.trans (r.ends.1.trans tk.ends.1), ends.2.1.trans (r.ends.2.1.trans tk.ends.2)⟩ }
  cases hs : e.sweep with
  | false => exact .pure ⟨k, d, wrought, rfl⟩
  | true =>
    refine ((removeVertices_spec w.coherent _).and (removeVertices_ends w.coherent _)).mono fun h found => ?_
    obtain ⟨w', ends'⟩ := found
    exact ⟨k, d, wrought, w', ends'.1.trans wrought.ends.1, ends'.2.1.trans wrought.ends.2⟩

lemma Wrought.left (hw : Wrought g e k d) (hs : ∀ v ∈ e.vertices, g.kindD v ≠ .boundary) : Left g e.vertices d :=
  ⟨hw.present, hw.nodup, hs, hw.vertex, fun v hv => hw.kind v ((hw.vertex v).1 hv).2⟩

lemma Wrought.body_eq (hg : g.Coherent) (hp : g.Plain) (hw : Wrought g e k d) (he : ∀ f ∈ e.edges, f.1 ∈ e.vertices ∨ f.2 ∈ e.vertices)
    (apart : e.table.Pairwise Entry.Apart) (hm : ∀ q ∈ e.table, q.1.1 ∈ d.vertices ∧ q.1.2 ∈ d.vertices)
    (worth : ∀ q ∈ e.table, g.Worth q) (δ : Vertex → ℂ) : ∃ c : ℂ, c ≠ 0 ∧ body d.tie (fun v => d.turns v * δ v) d.vertices =
      c • (g.edgesOf e.table * body g.tie (fun v => g.turns v * δ v) d.vertices) := by
  have stays : ∀ v ∈ d.vertices, v ∉ e.vertices := fun v hv => ((hw.vertex v).1 (mem_vertices.1 hv)).2
  have kind : ∀ v ∈ d.vertices, d.kindD v = k.kindD v := fun v hv => by rw [hw.kind v (stays v hv), hw.tabled.merged.kept.kindD]
  have same : body d.tie (fun v => d.turns v * δ v) d.vertices = body k.tie (fun v => k.turns v * δ v) d.vertices := by
    refine body_congr (fun v hv => ?_) (fun v hv w hw' _ => ?_) d.nodup_vertices
    · rw [turns, turns, kind v hv, hw.phase v (stays v hv)]
    have hn : ¬ Spanned e.edges v w := by
      rintro ⟨f, hf, ⟨rfl, rfl⟩ | ⟨rfl, rfl⟩⟩
      · exact (he f hf).elim (stays _ hv) (stays _ hw')
      · exact (he f hf).elim (stays _ hw') (stays _ hv)
    funext x y
    rw [tie, tie, hw.link v w (stays v hv) (stays w hw'), if_neg hn, kind v hv, kind w hw']
  rw [same]
  exact hw.tabled.body_eq hg hp apart d.nodup_vertices hm worth δ

lemma Left.of_rephased (r : Rephased g k) (hl : Left k R h) : Left g R h :=
  ⟨fun v hv => r.has v ▸ hl.present v hv, hl.nodup, fun v hv => r.kindD v ▸ hl.spider v hv,
    fun v => r.has v ▸ hl.vertex v, fun v hv => r.kindD v ▸ hl.kind v hv⟩

/-! ## Linear maps up to a scalar -/

/-- The diagrams have the same boundary and the same sum up to a scalar. -/
structure Proportional (g h : Diagram) : Prop where
  coherent : h.Coherent
  border : ∀ v, v ∈ h.border ↔ v ∈ g.border
  ends : h.inputs = g.inputs ∧ h.outputs = g.outputs
  value : ∃ c : ℂ, c ≠ 0 ∧ h.value h.turns = c • g.value g.turns

namespace Proportional

lemma refl (hg : g.Coherent) : Proportional g g := ⟨hg, fun _ => Iff.rfl, ⟨rfl, rfl⟩, 1, one_ne_zero, (one_smul ℂ _).symm⟩

lemma trans (h1 : Proportional g h) (h2 : Proportional h k) : Proportional g k := by
  obtain ⟨c, hc, e⟩ := h1.value
  obtain ⟨c', hc', e'⟩ := h2.value
  exact ⟨h2.coherent, fun v => (h2.border v).trans (h1.border v), ⟨h2.ends.1.trans h1.ends.1, h2.ends.2.trans h1.ends.2⟩,
    c' * c, mul_ne_zero hc' hc, by rw [e', e, smul_smul]⟩

lemma linearMap_eq (hp : Proportional g h) (hg : g.Coherent) (hio : ∀ v, v ∈ g.inputs ∨ v ∈ g.outputs → v ∈ g.border) (n m : ℕ) :
    ∃ c : ℂ, c ≠ 0 ∧ h.linearMap n m = c • g.linearMap n m := by
  obtain ⟨c, hc, hv⟩ := hp.value
  exact ⟨c, hc, linearMap_of_value hg hp.coherent hv hp.border hp.ends.1 hp.ends.2 hio n m⟩

end Proportional

end Diagram

end ZXCircuits
