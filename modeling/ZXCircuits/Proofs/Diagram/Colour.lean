/-
  Turning all vertices to the first colour.

  Vertices of the second colour get the first one, and edges change between the two kinds; all else stays (`toGreen_spec`).
-/
import ZXCircuits.Strategy.Reduce
import ZXCircuits.Proofs.Diagram.Effect

namespace ZXCircuits.Diagram

variable {g h k : Diagram} {v : Vertex} {e : Edge}

/-- No vertex has the second colour. -/
def Green (g : Diagram) : Prop := ∀ v, g.has v → g.kindD v ≠ .x

/-- The second diagram has the vertices, phases and neighbours of the first one, and its kinds but for vertices that have got the
    first colour. -/
structure Recoloured (g h : Diagram) : Prop where
  coherent : h.Coherent
  vertex : ∀ u, h.has u = g.has u
  phase : ∀ u, h.phase u = g.phase u
  joined : ∀ a b, h.Joined a b ↔ g.Joined a b
  kind : ∀ u, h.kindD u = g.kindD u ∨ (g.kindD u = .x ∧ h.kindD u = .z)
  plain : g.Plain → h.Plain
  next : h.next = g.next

namespace Recoloured

lemma refl (hg : g.Coherent) : Recoloured g g := ⟨hg, fun _ => rfl, fun _ => rfl, fun _ _ => Iff.rfl, fun _ => .inl rfl, id, rfl⟩

lemma trans (h1 : Recoloured g h) (h2 : Recoloured h k) : Recoloured g k := by
  refine ⟨h2.coherent, fun u => (h2.vertex u).trans (h1.vertex u), fun u => (h2.phase u).trans (h1.phase u),
    fun a b => (h2.joined a b).trans (h1.joined a b), fun u => ?_, h2.plain ∘ h1.plain, h2.next.trans h1.next⟩
  rcases h1.kind u with c1 | ⟨c1, c1'⟩
  · rw [← c1]; exact h2.kind u
  rcases h2.kind u with c2 | ⟨c2, -⟩
  · exact .inr ⟨c1, c2.trans c1'⟩
  · rw [c2] at c1'; cases c1'

lemma ne_x (hr : Recoloured g h) (hv : g.kindD v ≠ .x) : h.kindD v ≠ .x := by
  rcases hr.kind v with c | ⟨-, c⟩
  · rw [c]; exact hv
  · rw [c]; decide

end Recoloured

section

variable (hg : g.Coherent)
include hg

lemma setKind_recoloured (hv : g.kindD v = .x) : Recoloured g (g.setKind v .z) ∧ (g.setKind v .z).kindD v = .z := by
  have kind : ∀ u, (g.setKind v .z).kindD u = if u = v then .z else g.kindD u := by
    intro u
    simp only [kindD, setKind, get?_insert_vertex]
    split <;> rfl
  refine ⟨⟨⟨hg.nodup, hg.symm, hg.below⟩, fun _ => rfl, fun _ => rfl, fun _ _ => Iff.rfl, fun u => ?_, id, rfl⟩, ?_⟩
  · rw [kind]
    split
    · rename_i hu
      exact .inr ⟨hu ▸ hv, rfl⟩
    · exact .inl rfl
  · rw [kind, if_pos rfl]

lemma setEdgeKind_recoloured (hj : g.Joined e.1 e.2) {k : EdgeKind} (hk : k = .regular ∨ k = .hadamard) :
    Gives (g.setEdgeKind e k) (Recoloured g) := by
  refine (setEdgeKind_spec g e k).mono fun h ⟨r, l, c⟩ => ?_
  refine ⟨c hg, r.vertex, r.phase, fun a b => ?_, fun u => .inl (r.kindD u), fun hp v w k' hk' => ?_, r.next⟩
  · rw [Joined, l]
    split
    · rename_i hb
      refine ⟨fun _ => ?_, fun _ => rfl⟩
      rcases hb with ⟨rfl, rfl⟩ | ⟨rfl, rfl⟩
      · exact hj
      · exact hg.back hj
    · rfl
  rw [l] at hk'
  split at hk'
  · cases hk'; exact hk
  · exact hp v w k' hk'

lemma exchangeEdge_recoloured (e : Edge) : Gives (g.exchangeEdge e) (Recoloured g) := by
  unfold exchangeEdge
  split
  · rename_i hk
    exact setEdgeKind_recoloured hg (joined_of_edgeKind (by rw [hk]; decide)) (.inl rfl)
  · rename_i hk
    exact setEdgeKind_recoloured hg (joined_of_edgeKind (by rw [hk]; decide)) (.inr rfl)
  · exact .ok (.refl hg)

lemma greenVertex_spec (v : Vertex) : Gives (g.greenVertex v) fun h => Recoloured g h ∧ h.kindD v ≠ .x := by
  refine .ite (fun hk => .pure ⟨.refl hg, by simpa using hk⟩) fun hk => ?_
  refine .bind (.self _) fun es _ => ?_
  obtain ⟨hs, hz⟩ := setKind_recoloured hg (by simpa using hk : g.kindD v = .x)
  have fold : Gives (es.foldlM exchangeEdge (g.setKind v .z)) (Recoloured (g.setKind v .z)) := by
    refine .foldlM (.refl hs.coherent) fun h e _ hh => ?_
    exact (exchangeEdge_recoloured hh.coherent e).mono fun h' hh' => hh.trans hh'
  exact fold.mono fun h hh => ⟨hs.trans hh, hh.ne_x (by rw [hz]; decide)⟩

lemma toGreen_spec : Gives g.toGreen fun h => Recoloured g h ∧ h.Green := by
  have fold : ∀ (vs : List Vertex) {g : Diagram}, g.Coherent →
      Gives (vs.foldlM greenVertex g) fun h => Recoloured g h ∧ ∀ v ∈ vs, h.kindD v ≠ .x := by
    intro vs
    induction vs with
    | nil => exact fun hg => .pure ⟨.refl hg, by simp⟩
    | cons v vs ih =>
      intro g hg
      rw [List.foldlM_cons]
      refine .bind (greenVertex_spec hg v) fun h ⟨hr, hv⟩ => (ih hr.coherent).mono fun k ⟨hr', hvs⟩ => ⟨hr.trans hr', ?_⟩
      exact List.forall_mem_cons.2 ⟨hr'.ne_x hv, hvs⟩
  refine (fold g.vertices hg).mono fun h ⟨hr, hv⟩ => ⟨hr, fun v hh => hv v ?_⟩
  exact mem_vertices.2 ((hr.vertex v).symm.trans hh)

end

lemma toGreen_of_green (hg : g.Green) : g.toGreen = .ok g := by
  have fold : ∀ vs : List Vertex, (∀ v ∈ vs, g.kindD v ≠ .x) → vs.foldlM greenVertex g = .ok g := by
    intro vs
    induction vs with
    | nil => exact fun _ => rfl
    | cons v vs ih =>
      intro hv
      rw [List.foldlM_cons, greenVertex, if_pos (by simpa using hv v (by simp))]
      exact ih (List.forall_mem_cons.1 hv).2
  exact fold g.vertices fun v hv => hg v (mem_vertices.1 hv)

end ZXCircuits.Diagram
