/-
  Edits that do not fail, and rules that can be repeated to the end.

  An edit fails only where a vertex, a link or a note that it asks for is missing.  `Returns x` says that a computation returns something;
  with what it gives (`Gives`) it is built up along the steps.  If no round of a rule fails and every round with places lowers a
  measure, then its repetition returns within the bound (`Rule.exhaust_succeeds`).
-/
import ZXCircuits.Proofs.Soundness.Effect
import ZXCircuits.Proofs.Strategy.Rounds

namespace ZXCircuits

open List

namespace Diagram

variable {g h : Diagram} {v w : Vertex} {e : Edge} {k : EdgeKind} {es : List Edge} {vs : List Vertex} {c : EdgeChanges}
  {entry : Edge × (Int × Int)} {t : EdgeTable}

/-! ## Edges -/

lemma has_edge (h1 : g.has v) (h2 : g.has w) : g.has (edge v w).1 ∧ g.has (edge v w).2 := by
  unfold edge
  split
  · exact ⟨h1, h2⟩
  · exact ⟨h2, h1⟩

lemma addEdges_returns (he : ∀ e ∈ es, g.has e.1 ∧ g.has e.2) : Returns (g.addEdges es k) := by
  refine .foldlM (I := fun h => ∀ v, h.has v = g.has v) (fun h e hm hv => ?_) (fun h e _ hv => ?_) fun _ => rfl
  · exact addEdge_returns ((hv _).trans (he e hm).1) ((hv _).trans (he e hm).2) k
  · exact (addEdge_spec h e k).mono fun h' hh u => (hh.1.vertex u).trans (hv u)

lemma dropHalf_returns (hj : g.Joined v w) : Returns (g.dropHalf v w) := by
  obtain ⟨t, ht⟩ := has_iff.1 hj.has
  have hw : t.has w := by rwa [Joined, link, ht] at hj
  refine .bind (P := fun t' => t' = t) (adjacent_returns hj.has) (fun t' e => ?_) ?_
  · rw [adjacent, ht] at e
    cases e
    rfl
  rintro _ rfl
  refine .bind ?_ (.self _) fun _ _ => .pure _
  rw [dropNeighbour, if_pos hw]
  exact .ok _

lemma removeEdge_returns (hg : g.Coherent) (hj : g.Joined e.1 e.2) (hne : e.1 ≠ e.2) : Returns (g.removeEdge e) := by
  refine .bind (dropHalf_returns hj) (dropHalf_spec g e.1 e.2) fun h found => ?_
  obtain ⟨_, _, hh⟩ := found
  refine .bind (dropHalf_returns ?_) (.self _) fun _ _ => .pure _
  rw [Joined, (hh (hg.nodup _)).1, if_neg fun c => hne c.2]
  exact hg.back hj

lemma removeEdges_returns (hg : g.Coherent) (hj : ∀ e ∈ es, g.Joined e.1 e.2 ∧ e.1 ≠ e.2)
    (apart : es.Pairwise fun e f => ¬ Between e f.1 f.2) : Returns (g.removeEdges es) := by
  unfold removeEdges
  induction es generalizing g with
  | nil => exact .pure _
  | cons e es ih =>
    obtain ⟨he, hes⟩ := pairwise_cons.1 apart
    refine .bind (removeEdge_returns hg (hj e (by simp)).1 (hj e (by simp)).2) (removeEdge_spec hg e) fun h found => ?_
    obtain ⟨_, c, l⟩ := found
    refine ih c (fun f hf => ⟨?_, (hj f (by simp [hf])).2⟩) hes
    rw [Joined, l, if_neg (he f hf)]
    exact (hj f (by simp [hf])).1

/-! ## Vertices -/

lemma removeVertex_returns (hg : g.Coherent) (hn : ¬ g.Joined v v) (hv : g.has v) : Returns (g.removeVertex v) := by
  refine .bind (neighbours_returns hv) (gives_neighbours g v) ?_
  rintro _ rfl
  refine .bind ?_ (.self _) fun _ _ => .pure _
  have links : (g.nearby v).foldlM (fun g w => g.removeEdge (v, w)) g = g.removeEdges ((g.nearby v).map fun w => (v, w)) := by
    rw [removeEdges, foldlM_map]
  have ne : ∀ w ∈ g.nearby v, v ≠ w := fun w hw c => hn (by have := mem_nearby.1 hw; rwa [← c] at this)
  rw [links]
  refine removeEdges_returns hg (fun e he => ?_) (pairwise_map.2 ((hg.nodup v).imp_of_mem fun {a b} ha _ hab => ?_))
  · obtain ⟨w, hw, rfl⟩ := mem_map.1 he
    exact ⟨mem_nearby.1 hw, ne w hw⟩
  rintro (⟨-, c⟩ | ⟨c, -⟩)
  · exact hab c.symm
  · exact ne a ha c

lemma Without.loopless (hw : Without g vs h) (hn : ∀ v, ¬ g.Joined v v) (v : Vertex) : ¬ h.Joined v v := fun hj => by
  rw [Joined, hw.link] at hj
  split at hj
  · cases hj
  · exact hn v hj

section

variable (hg : g.Coherent) (hn : ∀ v, ¬ g.Joined v v)
include hg hn

lemma removeVertices_returns (hv : ∀ v ∈ vs, g.has v) (nodup : vs.Nodup) : Returns (g.removeVertices vs) := by
  unfold removeVertices
  induction vs generalizing g with
  | nil => exact .pure _
  | cons v vs ih =>
    obtain ⟨hm, hd⟩ := nodup_cons.1 nodup
    refine .bind (removeVertex_returns hg (hn v) (hv v (by simp))) (removeVertex_spec hg v) fun h w => ?_
    refine ih w.coherent (w.loopless hn) (fun u hu => (w.vertex u).2 ⟨hv u (by simp [hu]), ?_⟩) hd
    rw [mem_singleton]
    exact fun c => hm (c ▸ hu)

lemma removeIsolated_returns : Returns g.removeIsolated :=
  removeVertices_returns hg hn (fun _ hv => mem_vertices.1 (mem_filter.1 hv).1) (g.nodup_vertices.filter _)

end

/-! ## Edge tables -/

/-- A kind is noted for every vertex. -/
def Noted (g : Diagram) : Prop := ∀ v, g.has v → (g.kinds.get? v).isSome

lemma Kept.noted (hn : g.Noted) (hk : Kept g h) : h.Noted := fun v hv => by
  rw [hk.kinds]
  exact hn v (hk.vertex v ▸ hv)

lemma Without.noted (hn : g.Noted) (hw : Without g vs h) : h.Noted := fun v hv => by
  obtain ⟨hv, hm⟩ := (hw.vertex v).1 hv
  rw [hw.kinds v hm]
  exact hn v hv

/-- What the edges that wait to be changed need: new ones join vertices that are there, and old ones are there, one for each pair. -/
structure EdgeChanges.Ready (g : Diagram) (t : EdgeTable) (c : EdgeChanges) : Prop where
  added : ∀ e ∈ c.regular ++ c.hadamard, g.has e.1 ∧ g.has e.2
  removed : ∀ e ∈ c.remove, c.diagram.Joined e.1 e.2 ∧ ∃ q ∈ t, e = edge q.1.1 q.1.2
  apart : c.remove.Pairwise fun e f => ¬ Between e f.1 f.2

lemma mergeEntry_returns (hn : g.Noted) (kept : Kept g c.diagram)
    (hv : g.has entry.1.1 ∧ g.has entry.1.2) : Returns (mergeEntry c entry) := by
  obtain ⟨e, n1, n2⟩ := entry
  have kind : ∀ v, g.has v → Returns (c.diagram.kind v) := fun v h => .orAbsent (kept.noted hn v ((kept.vertex v).trans h))
  refine .bind (kind _ hv.1) (.self _) fun _ _ => .bind (kind _ hv.2) (.self _) fun _ _ => ?_
  refine .ite (fun _ => .ite (fun _ => .pure _) fun _ => .pure _) fun _ => .ite (fun _ => .ite (fun _ => .pure _) fun _ => .pure _)
    fun _ => .ite (fun _ => .pure _) fun _ => ?_
  have present : ∀ v, g.has v → ∀ b : Bool, (if b then c.diagram.addToPhase e.1 (.int 1) else c.diagram).has v := by
    intro v h b
    cases b <;> exact (kept.vertex v).trans h
  have ends := has_edge hv.1 hv.2
  exact .bind (setEdgeKind_returns (present _ ends.1 _) (present _ ends.2 _)) (.self _) fun _ _ => .pure _

/-- **One entry** asks for edges that are there, at its own pair only. -/
theorem mergeEntry_ready (hc : c.diagram.Coherent) (hr : c.Ready g t)
    (apart : ∀ q ∈ t, Entry.Apart q entry) (hv : g.has entry.1.1 ∧ g.has entry.1.2) :
    Gives (mergeEntry c entry) (EdgeChanges.Ready g (t ++ [entry])) := by
  have next : ∀ f ∈ c.remove, ¬ Between (edge entry.1.1 entry.1.2) f.1 f.2 := by
    intro f hf hb
    obtain ⟨-, q, hq, rfl⟩ := hr.removed f hf
    rw [between_edge] at hb
    have self : Between (edge q.1.1 q.1.2) (edge q.1.1 q.1.2).1 (edge q.1.1 q.1.2).2 := .inl ⟨rfl, rfl⟩
    exact apart q hq _ _ (between_edge.1 self) hb
  -- what waits to be taken away is still there, since other pairs are as they were
  have still : ∀ d : Diagram, (∀ a b, ¬ Between (edge entry.1.1 entry.1.2) a b → d.link a b = c.diagram.link a b) →
      ∀ f ∈ c.remove, d.Joined f.1 f.2 ∧ ∃ q ∈ t ++ [entry], f = edge q.1.1 q.1.2 := fun d hd f hf => by
    obtain ⟨hj, q, hq, hf'⟩ := hr.removed f hf
    refine ⟨?_, q, by simp [hq], hf'⟩
    rw [Joined, hd _ _ (next f hf)]
    exact hj
  have r := c.diagram.halved_rephased entry
  have wider := still _ fun a b _ => r.link a b
  refine (EdgeChanges.mergeEntry_records hc entry).mono fun c' made => ?_
  cases made with
  | keep => exact ⟨hr.added, wider, hr.apart⟩
  | remove old =>
    refine ⟨hr.added, forall_mem_cons.2 ⟨⟨?_, entry, by simp, rfl⟩, wider⟩, pairwise_cons.2 ⟨next, hr.apart⟩⟩
    rw [← edgeKind_edge_eq hc] at old
    exact r.joined.2 (joined_of_edgeKind old)
  | regular => exact ⟨forall_mem_cons.2 ⟨hv, hr.added⟩, wider, hr.apart⟩
  | hadamard =>
    refine ⟨fun f hf => ?_, wider, hr.apart⟩
    rcases mem_append.1 hf with hf | hf
    · exact hr.added f (by simp [hf])
    rcases mem_cons.1 hf with rfl | hf
    · exact hv
    · exact hr.added f (by simp [hf])
  | change _ _ made =>
    obtain ⟨_, l, -⟩ := setEdgeKind_spec _ _ _ _ made
    exact ⟨hr.added, still _ fun a b hn => by rw [l, if_neg hn, r.link], hr.apart⟩

/-- **An edge table** with an entry for each pair at most can be added. -/
theorem addEdgeTable_returns (hg : g.Coherent) (hp : g.Plain) (hn : g.Noted) (apart : t.Pairwise Entry.Apart)
    (ht : ∀ q ∈ t, g.has q.1.1 ∧ g.has q.1.2 ∧ q.1.1 ≠ q.1.2) : Returns (g.addEdgeTable t) := by
  have hv : ∀ q ∈ t, g.has q.1.1 ∧ g.has q.1.2 := fun q hq => ⟨(ht q hq).1, (ht q hq).2.1⟩
  have returns : Returns (t.foldlM mergeEntry { diagram := g }) :=
    .foldlM (I := EdgeChanges.Within g (Table.keys t)) (fun c entry hm hc => mergeEntry_returns hn hc.merged.kept (hv entry hm))
      (fun c entry hm hc => mergeEntry_spec hc (mem_map_of_mem hm)) ⟨.refl hg _, by simp, by simp, by simp⟩
  have ready : Gives (t.foldlM mergeEntry { diagram := g }) fun c => c.Worked g t ∧ c.Ready g t :=
    foldlM_entries (I := fun t c => c.Worked g t ∧ c.Ready g t) t (fun entry hm own hc => (mergeEntry_worked hg hp hc.1 own).and
      (mergeEntry_ready hc.1.within.merged.coherent hc.2 own (hv entry hm))) apart [] ⟨worked_nil hg, by simp, by simp, .nil⟩ (by simp)
  refine .bind returns ready fun c found => ?_
  obtain ⟨hc, hr⟩ := found
  have merged := hc.within.merged
  have ends : ∀ {d : Diagram}, (∀ v, d.has v = g.has v) → ∀ es : List Edge, (∀ e ∈ es, e ∈ c.regular ++ c.hadamard) →
      ∀ e ∈ es.reverse, d.has e.1 ∧ d.has e.2 := fun hd es hs e he => by
    rw [hd, hd]
    exact hr.added e (hs e (mem_reverse.1 he))
  refine .bind (removeEdges_returns merged.coherent (fun e he => ?_) ?_) (removeEdges_spec merged.coherent _) fun d1 removed => ?_
  · obtain ⟨hj, q, hq, rfl⟩ := hr.removed e (mem_reverse.1 he)
    refine ⟨hj, ?_⟩
    rw [edge]
    split
    · exact (ht q hq).2.2
    · exact (ht q hq).2.2.symm
  rw [pairwise_reverse]
  refine hr.apart.imp fun {e f} hn hb => hn ?_
  rcases hb with ⟨h1, h2⟩ | ⟨h1, h2⟩
  · exact .inl ⟨h1.symm, h2.symm⟩
  · exact .inr ⟨h2.symm, h1.symm⟩
  have v1 : ∀ v, d1.has v = g.has v := fun v => (removed.1.vertex v).trans (merged.kept.vertex v)
  refine .bind (addEdges_returns (ends v1 _ fun e he => by simp [he])) (addEdges_link _ _ d1) fun d2 found => ?_
  obtain ⟨r2, _⟩ := found
  exact addEdges_returns (ends (fun v => (r2.vertex v).trans (v1 v)) _ fun e he => by simp [he])

/-! ## Effects -/

/-- What an effect needs: its edges and vertices are there, each of them once, and its table has an entry for each pair at most. -/
structure ReadyFor (g : Diagram) (e : Effect) : Prop where
  apart : e.table.Pairwise Entry.Apart
  ends : ∀ f ∈ Table.keys e.table, g.has f.1 ∧ g.has f.2 ∧ f.1 ≠ f.2
  edges : ∀ f ∈ e.edges, g.Joined f.1 f.2 ∧ f.1 ≠ f.2 ∧ ¬ Spanned (Table.keys e.table) f.1 f.2
  single : e.edges.Pairwise fun f f' => ¬ Between f f'.1 f'.2
  vertices : ∀ v ∈ e.vertices, g.has v
  nodup : e.vertices.Nodup

/-- **An effect** whose edges and vertices are there can be made. -/
theorem applyEffect_returns (hg : g.Coherent) (hp : g.Plain) (hl : ∀ v, ¬ g.Joined v v) (hn : g.Noted) {e : Effect} (he : g.ReadyFor e) :
    Returns (g.applyEffect e) := by
  have table := addEdgeTable_returns hg hp hn he.apart fun q hq => he.ends q.1 (mem_map_of_mem hq)
  refine .bind table (addEdgeTable_spec hg e.table) fun k mk => ?_
  have edges : ∀ f ∈ e.edges, k.Joined f.1 f.2 ∧ f.1 ≠ f.2 := fun f hf => by
    obtain ⟨hj, hne, hs⟩ := he.edges f hf
    rw [Joined, mk.link _ _ hs]
    exact ⟨hj, hne⟩
  refine .bind (removeEdges_returns mk.coherent edges he.single) (removeEdges_spec mk.coherent e.edges) fun k' found => ?_
  obtain ⟨r, c, l⟩ := found
  have loopless : ∀ v, ¬ k'.Joined v v := by
    intro v hj
    rw [Joined, l] at hj
    split at hj
    · cases hj
    refine hl v ?_
    rwa [Joined, ← mk.link v v]
    rintro ⟨f, hf, ⟨rfl, h⟩ | ⟨rfl, h⟩⟩
    · exact (he.ends f hf).2.2 h
    · exact (he.ends f hf).2.2 h.symm
  have kept := mk.kept.trans r.kept
  refine .bind (removeVertices_returns c loopless (fun v hv => (kept.vertex v).trans (he.vertices v hv)) he.nodup)
    (removeVertices_spec c e.vertices) fun d w => ?_
  exact .ite (fun _ => removeIsolated_returns w.coherent (w.loopless loopless)) fun _ => .pure _

lemma applyEffect_noted (hg : g.Coherent) (hn : g.Noted) (e : Effect) : Gives (g.applyEffect e) Noted := by
  refine .bind (addEdgeTable_spec hg e.table) fun k mk => ?_
  refine .bind (removeEdges_spec mk.coherent e.edges) fun k' found => ?_
  obtain ⟨r, c, _⟩ := found
  refine .bind (removeVertices_spec c e.vertices) fun d w => ?_
  have noted : d.Noted := w.noted ((mk.kept.trans r.kept).noted hn)
  exact .ite (fun _ => (removeVertices_spec w.coherent _).mono fun _ w' => w'.noted noted) fun _ => .pure noted

end Diagram

open Diagram

variable {α β : Type}

namespace Run

def Succeeds (r : Run α) : Prop := ∀ text, ∃ a text', (ExceptT.run r).run text = (.ok a, text')

namespace Succeeds

variable {r : Run α} {f : α → Run β} {P : α → Prop}

lemma pure (a : α) : Succeeds (pure a) := fun text => ⟨a, text, rfl⟩

lemma bind (h : Succeeds r) (he : Ends r P) (hf : ∀ a, P a → Succeeds (f a)) : Succeeds (r >>= f) := by
  intro text
  obtain ⟨a, text', ha⟩ := h text
  obtain ⟨b, text'', hb⟩ := hf a (he text a text' ha) text'
  refine ⟨b, text'', ?_⟩
  rw [ExceptT.run_bind, StateT.run_bind, ha]
  exact hb

lemma lift_bind {x : Attempt α} {a : α} (e : x = .ok a) (h : Succeeds (f a)) : Succeeds (liftM x >>= f) := by
  subst e
  exact h

lemma sayIf (verbose : Bool) (text : String) : Succeeds (sayIf verbose text) := by
  intro before
  cases verbose with
  | false => exact ⟨(), before, rfl⟩
  | true => exact ⟨(), before ++ text, rfl⟩

lemma exists_outcome (h : Succeeds r) (he : Ends r P) : ∃ a text, r.outcome = (.ok a, text) ∧ P a := by
  obtain ⟨a, text, ha⟩ := h ""
  exact ⟨a, text, ha, he "" a text ha⟩

end Succeeds

end Run

namespace Rule

variable {μ : Type} {r : Rule μ} {P : Diagram → Prop} {R : Diagram → Diagram → Prop} {m : Diagram → ℕ} {g : Diagram}

lemma round_returns (hf : Returns (r.find g)) (he : Gives (r.find g) fun x => x.2 ≠ [] → Returns (r.effect x.1 x.2) ∧
    Gives (r.effect x.1 x.2) fun y => Returns (y.1.applyEffect y.2)) : Returns (r.round g) := by
  refine .bind hf he fun x hx => .ite (fun _ => .pure _) fun hn => ?_
  obtain ⟨h1, h2⟩ := hx fun c => hn (by simp [c])
  exact .bind h1 h2 fun y hy => .bind hy (.self _) fun _ _ => .pure _

lemma exists_of_round (h : Returns (r.round g)) : ∃ k ps, r.find g = .ok (k, ps) ∧
    (ps ≠ [] → ∃ k1 e k2, r.effect k ps = .ok (k1, e) ∧ k1.applyEffect e = .ok k2) := by
  obtain ⟨out, h⟩ := h
  rw [round] at h
  cases hf : r.find g with
  | error er => rw [hf] at h; cases h
  | ok x =>
    obtain ⟨k, ps⟩ := x
    refine ⟨k, ps, rfl, fun hp => ?_⟩
    rw [hf] at h
    have h : (r.effect k ps >>= fun y => y.1.applyEffect y.2 >>= fun k' => pure (k', ps.length)) = .ok out := by
      cases ps with
      | nil => exact absurd rfl hp
      | cons p ps => exact h
    cases he : r.effect k ps with
    | error er => rw [he] at h; cases h
    | ok y =>
      obtain ⟨k1, e⟩ := y
      rw [he] at h
      cases ha : k1.applyEffect e with
      | error er =>
        have h : (k1.applyEffect e >>= fun k' => pure (k', ps.length)) = .ok out := h
        rw [ha] at h
        cases h
      | ok k2 => exact ⟨k1, e, k2, rfl, ha⟩

section

variable (returns : ∀ g, P g → Returns (r.round g)) (hd : r.Descends P R) (hm : ∀ {g h}, R g h → m h < m g) (verbose : Bool)
include returns hd hm

lemma repeatFrom_succeeds (fuel : Nat) :
    ∀ {done : Nat} {g : Diagram}, P g → m g < fuel → Run.Succeeds (r.repeatFrom verbose fuel done g) := by
  induction fuel with
  | zero => exact fun _ hlt => absurd hlt (Nat.not_lt_zero _)
  | succ fuel ih =>
    intro done g hg hlt
    obtain ⟨k, ps, hf, hp⟩ := exists_of_round (returns g hg)
    refine .lift_bind hf ?_
    dsimp only
    split
    · exact .pure _
    rename_i he
    have he : ps ≠ [] := fun c => he (by simp [c])
    obtain ⟨k1, e, k2, h1, h2⟩ := hp he
    obtain ⟨hP, hR⟩ := hd g hg _ (round_of_places hf he h1 h2) (by simpa using he)
    refine .bind (.sayIf _ _) (.sayIf _ _) fun _ _ => .bind (.sayIf _ _) (.sayIf _ _) fun _ _ => ?_
    refine .lift_bind h1 (.lift_bind h2 ?_)
    refine .bind (.sayIf _ _) (.sayIf _ _) fun _ _ => ih hP ?_
    have lower : m _ < m g := hm hR
    exact Nat.lt_of_lt_of_le lower (Nat.lt_succ_iff.1 hlt)

/-- **Repeating a rule** whose rounds return and lower a measure returns within a bound that is larger than the measure. -/
theorem exhaustWithin_succeeds {bound : Diagram → Nat} (hg : P g) (hb : m g < bound g) : Run.Succeeds (r.exhaustWithin bound verbose g) :=
  .bind (repeatFrom_succeeds returns hd hm verbose _ hg hb) (fun _ _ _ _ => trivial) fun _ _ =>
    .bind (.sayIf _ _) (.sayIf _ _) fun _ _ => .pure _

end

lemma length_vertices_lt_stepBound (g : Diagram) : g.vertices.length < g.stepBound := by
  have size : g.vertices.length = g.numVertices := Std.TreeMap.length_keys
  rw [size, stepBound]
  calc g.numVertices < g.numVertices + 4 := by omega
    _ = (g.numVertices + 4) ^ 1 := (pow_one _).symm
    _ ≤ (g.numVertices + 4) ^ 3 := Nat.pow_le_pow_right (by omega) (by omega)

/-- **A rule whose rounds return and take vertices away** can be repeated to its end within the bound that programs use. -/
theorem exhaust_succeeds (returns : ∀ g, P g → Returns (r.round g)) (hd : r.Descends P R)
    (hm : ∀ {g h}, R g h → h.vertices.length < g.vertices.length) (verbose : Bool) (hg : P g) : Run.Succeeds (r.exhaust verbose g) :=
  exhaustWithin_succeeds returns hd hm verbose hg (length_vertices_lt_stepBound g)

end Rule

end ZXCircuits
