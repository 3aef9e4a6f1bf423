/-
  Tables of edges and changes of colour in the linear map.

  What a table makes of a diagram has, up to a scalar, the linear map of the diagram with the edges of the table in parallel to those that
  are there (`Diagram.linearMapWith`).  The count of edges stays right, since the edges that wait to be added or taken away are the entries
  that get or lose an edge (`EdgeChanges.Counted`).

  A spider may get the other colour if its edges get the other kind; an edge between two spiders that do is changed twice.  `Repainted g h`
  says so by the colours before and after alone, whatever the order of the changes, and the two colours settle the edges.
-/
import ZXCircuits.Proofs.Soundness.Stages

namespace ZXCircuits.Diagram

open List

variable {g h : Diagram} {t : EdgeTable}

/-- The linear map of a diagram with the edges of a table in parallel to its own. -/
noncomputable def linearMapWith (g : Diagram) (t : EdgeTable) (n m : ℕ) : Matrix (Fin m → Bool) (Fin n → Bool) ℂ := fun y x =>
  ∑ s ∈ g.vertices.toFinset.powerset, g.edgesOf t (fun v => decide (v ∈ s)) * g.weight (fun v => decide (v ∈ s)) *
    g.legs (g.inputs.zip (List.ofFn x) ++ g.outputs.zip (List.ofFn y)) fun v => decide (v ∈ s)

/-- **The linear map** of what a table makes of a diagram. -/
theorem Tabled.linearMap_eq (hg : g.Coherent) (hp : g.Plain) (ht : Tabled g t h) (apart : t.Pairwise Entry.Apart)
    (hm : ∀ q ∈ t, g.has q.1.1 ∧ g.has q.1.2) (hw : ∀ q ∈ t, g.Worth q) :
    ∃ c : ℂ, c ≠ 0 ∧ ∀ n m, h.linearMap n m = c • g.linearMapWith t n m := by
  have kept := ht.merged.kept
  have vertices := vertices_congr kept.vertex
  obtain ⟨c, hc, body⟩ := ht.body_eq hg hp apart g.nodup_vertices
    (fun q hq => ⟨mem_vertices.2 (hm q hq).1, mem_vertices.2 (hm q hq).2⟩) hw fun _ => 1
  simp only [mul_one] at body
  have weight : ∀ β, h.weight β = c * (g.edgesOf t β * g.weight β) := fun β => by
    rw [weight_eq_body ht.merged.coherent, weight_eq_body hg, vertices, body]
    rfl
  have legs : ∀ ls β, h.legs ls β = g.legs ls β := fun ls β => by simp [Diagram.legs, kept.kindD]
  refine ⟨c, hc, fun n m => ?_⟩
  ext y x
  rw [Matrix.smul_apply, linearMap, linearMapWith, amplitude, vertices, ht.ends.1, ht.ends.2, smul_eq_mul, Finset.mul_sum]
  refine Finset.sum_congr rfl fun s _ => ?_
  rw [weight, legs]
  ring

/-! ## Counting edges -/

lemma nodup_edges (hg : g.Coherent) : g.edges.Nodup := by
  refine nodup_flatMap.2 ⟨fun x hx => ?_, Std.TreeMap.distinct_keys_toList.imp fun {x y} hne e he he' => ?_⟩
  · have keys : g.nearby x.1 = x.2.keys := by
      rw [nearby, Std.TreeMap.get?_eq_getElem?, Std.TreeMap.mem_toList_iff_getElem?_eq_some.1 hx]
    exact ((keys ▸ hg.nodup x.1).filter _).map fun _ _ h => (Prod.mk.inj h).2
  · obtain ⟨_, -, rfl⟩ := mem_map.1 he
    obtain ⟨_, -, h⟩ := mem_map.1 he'
    exact hne (by rw [(Prod.mk.inj h).1]; exact Std.ReflCmp.compare_self)

lemma length_edges (hg : g.Coherent) (apart : t.Pairwise Entry.Apart) (ne : ∀ q ∈ t, q.1.1 ≠ q.1.2) : g.edges.length =
    (t.countP fun q => (g.link q.1.1 q.1.2).isSome) + (g.edges.filter fun e => !decide (Spanned (Table.keys t) e.1 e.2)).length := by
  have ends : ∀ q : Edge × (Int × Int), Between q.1 (edge q.1.1 q.1.2).1 (edge q.1.1 q.1.2).2 := fun q => between_edge.1 (.inl ⟨rfl, rfl⟩)
  have pairs : (g.edges.filter fun e => decide (Spanned (Table.keys t) e.1 e.2)).Perm
      ((t.filter fun q => (g.link q.1.1 q.1.2).isSome).map fun q => edge q.1.1 q.1.2) := by
    refine (perm_ext_iff_of_nodup ((nodup_edges hg).filter _) ?_).2 fun e => ?_
    · refine pairwise_map.2 ((apart.filter _).imp fun {p q} hpq c => hpq _ _ (ends p) ?_)
      rw [c]
      exact ends q
    simp only [mem_filter, mem_map, mem_edges, decide_eq_true_eq]
    constructor
    · rintro ⟨⟨hlt, hj⟩, f, hf, hb⟩
      obtain ⟨q, hq, rfl⟩ := mem_map.1 hf
      rcases hb with ⟨h1, h2⟩ | ⟨h1, h2⟩
      · exact ⟨q, ⟨hq, by rwa [h1, h2] at hj⟩, by rw [edge, ← h1, ← h2, if_pos hlt]⟩
      refine ⟨q, ⟨hq, ?_⟩, by rw [edge, ← h1, ← h2, if_neg (Nat.lt_asymm hlt)]⟩
      rw [h1, h2] at hj
      exact hg.back hj
    rintro ⟨q, ⟨hq, hj⟩, rfl⟩
    refine ⟨⟨edge_lt (ne q hq), ?_⟩, q.1, mem_map_of_mem hq, ends q⟩
    rcases ends q with ⟨h1, h2⟩ | ⟨h1, h2⟩
    · rwa [h1, h2]
    · rw [h1, h2]
      exact hg.back hj
  rw [length_eq_length_filter_add fun e => decide (Spanned (Table.keys t) e.1 e.2), pairs.length_eq, length_map, countP_eq_length_filter]

/-- The edges that wait to be added or taken away are as many as the entries that get or lose an edge. -/
structure EdgeChanges.Counted (g : Diagram) (t : EdgeTable) (c : EdgeChanges) : Prop where
  edges : c.diagram.edgeCount = g.edgeCount
  waiting : c.regular.length + c.hadamard.length + (t.countP fun q => g.edgeKind q.1 ≠ .absent) =
    c.remove.length + t.countP fun q => (g.mergedAt q).1 ≠ .absent

lemma setEdgeKind_count (g : Diagram) (e : Edge) (k : EdgeKind) : Gives (g.setEdgeKind e k) fun h => h.edgeCount = g.edgeCount := by
  have half : ∀ (g : Diagram) (v w : Vertex), Gives (g.setHalf v w k) fun h => h.edgeCount = g.edgeCount := fun g v w =>
    .bind (.self _) fun _ _ => .pure rfl
  exact .bind (half g _ _) fun h hh => (half h _ _).mono fun k hk => hk.trans hh

lemma foldlM_count {f : Diagram → Edge → Attempt Diagram} {n : ℤ} (step : ∀ g e, Gives (f g e) fun h => h.edgeCount = g.edgeCount + n)
    (es : List Edge) : ∀ g : Diagram, Gives (es.foldlM f g) fun h => h.edgeCount = g.edgeCount + n * es.length := by
  induction es with
  | nil => exact fun g => .pure (by simp)
  | cons e es ih =>
    intro g
    refine .bind (step g e) fun h hh => (ih h).mono fun d hd => ?_
    rw [hd, hh, length_cons]
    push_cast
    ring

lemma addEdges_count (g : Diagram) (es : List Edge) (k : EdgeKind) : Gives (g.addEdges es k) fun h => h.edgeCount = g.edgeCount + 1 * es.length :=
  foldlM_count (fun g e => .bind (setEdgeKind_count g e k) fun h hh => .pure (by rw [hh])) es g

lemma removeEdges_count (g : Diagram) (es : List Edge) : Gives (g.removeEdges es) fun h => h.edgeCount = g.edgeCount + -1 * es.length := by
  have half : ∀ (g : Diagram) (v w : Vertex), Gives (g.dropHalf v w) fun h => h.edgeCount = g.edgeCount := fun g v w =>
    .bind (.self _) fun _ _ => .bind (.self _) fun _ _ => .pure rfl
  refine foldlM_count (fun g e => .bind (half g _ _) fun h1 e1 => .bind (half h1 _ _) fun h2 e2 => .pure ?_) es g
  rw [e2, e1]
  rfl

lemma mergeEntry_counted {c : EdgeChanges} {entry : Edge × (Int × Int)} (hw : c.Worked g t) (hc : c.Counted g t)
    (apart : ∀ q ∈ t, Entry.Apart q entry) : Gives (mergeEntry c entry) (EdgeChanges.Counted g (t ++ [entry])) := by
  obtain ⟨old, merged⟩ := hw.unchanged apart
  have half : (c.diagram.halved entry).edgeCount = g.edgeCount := by rw [c.diagram.halved_rephased entry, hc.edges]
  have waiting := hc.waiting
  refine (EdgeChanges.mergeEntry_records hw.within.merged.coherent entry).mono fun c' hr => ?_
  cases hr with
  | keep same =>
    refine ⟨half, ?_⟩
    rw [merged, old] at same
    simp only [countP_append, countP_singleton, same]
    omega
  | change was is made =>
    refine ⟨(setEdgeKind_count _ _ _ _ made).trans half, ?_⟩
    rw [old] at was
    rw [merged] at is
    simp only [countP_append, countP_singleton, decide_eq_true was, decide_eq_true is]
    omega
  | remove was is | regular was is | hadamard was is =>
    refine ⟨half, ?_⟩
    rw [old] at was
    rw [merged] at is
    simp [was, is] at waiting ⊢
    omega

lemma addEdgeTable_count (hg : g.Coherent) (hp : g.Plain) (apart : t.Pairwise Entry.Apart) : Gives (g.addEdgeTable t) fun h =>
    h.edgeCount + (t.countP fun q => g.edgeKind q.1 ≠ .absent) = g.edgeCount + t.countP fun q => (g.mergedAt q).1 ≠ .absent := by
  refine .bind (foldlM_entries (I := fun t c => c.Worked g t ∧ c.Counted g t) t (fun entry _ own hc =>
    (mergeEntry_worked hg hp hc.1 own).and (mergeEntry_counted hc.1 hc.2 own)) apart [] ⟨worked_nil hg, rfl, rfl⟩ (by simp)) fun c hc => ?_
  refine .bind (removeEdges_count _ _) fun d1 h1 => .bind (addEdges_count _ _ _) fun d2 h2 => (addEdges_count _ _ _).mono fun d3 h3 => ?_
  have edges := hc.2.edges
  have waiting := hc.2.waiting
  rw [length_reverse] at h1 h2 h3
  rw [nil_append] at waiting
  omega

lemma Tabled.edgeCount_eq (hg : g.Coherent) (hp : g.Plain) (ht : Tabled g t h) (apart : t.Pairwise Entry.Apart) (ne : ∀ q ∈ t, q.1.1 ≠ q.1.2)
    (count : h.edgeCount + (t.countP fun q => g.edgeKind q.1 ≠ .absent) = g.edgeCount + t.countP fun q => (g.mergedAt q).1 ≠ .absent)
    (before : g.edgeCount = g.edges.length) : h.edgeCount = h.edges.length := by
  have others : (h.edges.filter fun e => !decide (Spanned (Table.keys t) e.1 e.2)).length =
      (g.edges.filter fun e => !decide (Spanned (Table.keys t) e.1 e.2)).length := by
    refine ((perm_ext_iff_of_nodup ((nodup_edges ht.merged.coherent).filter _) ((nodup_edges hg).filter _)).2 fun e => ?_).length_eq
    simp only [mem_filter, mem_edges, Bool.not_eq_true', decide_eq_false_iff_not, Joined]
    exact and_congr_left fun hs => by rw [ht.merged.link _ _ hs]
  have old : (t.countP fun q => (g.link q.1.1 q.1.2).isSome) = t.countP fun q => g.edgeKind q.1 ≠ .absent := countP_congr fun q _ => by
    rw [link_of_edgeKind hp]
    cases g.edgeKind q.1 <;> simp [toLink]
  have made : (t.countP fun q => (h.link q.1.1 q.1.2).isSome) = t.countP fun q => (g.mergedAt q).1 ≠ .absent := countP_congr fun q hq => by
    rw [ht.made q hq _ _ (.inl ⟨rfl, rfl⟩)]
    cases (g.mergedAt q).1 <;> simp [toLink]
  have := length_edges hg apart ne
  have := length_edges ht.merged.coherent apart ne
  omega

/-- **Parallel edges.**  A table with an entry for each pair of spiders at most can be added.  What comes of it has, up to a scalar, the
linear map of the diagram with the edges of the table beside its own; it is symmetric, its edge count is right if it was, and no kind and
no other edge is changed. -/
theorem addEdgeTable_parallel (hg : g.WellFormed) (hn : g.Noted) (apart : t.Pairwise Entry.Apart)
    (spiders : ∀ q ∈ t, q.1.1 ≠ q.1.2 ∧ (g.kindD q.1.1).isSpider ∧ (g.kindD q.1.2).isSpider)
    (there : ∀ q ∈ t, g.has q.1.1 ∧ g.has q.1.2) (counts : ∀ q ∈ t, 0 ≤ q.2.1 ∧ 0 ≤ q.2.2) :
    ∃ h, g.addEdgeTable t = .ok h ∧ (∃ c : ℂ, c ≠ 0 ∧ ∀ n m, h.linearMap n m = c • g.linearMapWith t n m) ∧ h.Coherent ∧
      (g.edgeCount = g.edges.length → h.edgeCount = h.edges.length) ∧ h.kinds = g.kinds ∧
      ∀ a b, ¬ Spanned (Table.keys t) a b → h.link a b = g.link a b := by
  have hp := hg.neat.plain
  obtain ⟨h, e⟩ := addEdgeTable_returns hg.coherent hp hn apart fun q hq => ⟨(there q hq).1, (there q hq).2, (spiders q hq).1⟩
  have ht := addEdgeTable_tabled hg.coherent hp apart h e
  have count := addEdgeTable_count hg.coherent hp apart h e
  have worth : ∀ q ∈ t, g.Worth q := fun q hq => worth_of_spiders hp (spiders q hq).1 (spiders q hq).2.1 (spiders q hq).2.2 (counts q hq)
  exact ⟨h, e, ht.linearMap_eq hg.coherent hp apart there worth, ht.merged.coherent,
    ht.edgeCount_eq hg.coherent hp apart (fun q hq => (spiders q hq).1) count, ht.merged.kept.kinds, ht.merged.link⟩

/-- A spider of each colour between an input and an output. -/
def twoColours : Diagram where
  adjacency := .ofList ([(0, [(1, .regular)]), (1, [(0, .regular), (2, .regular)]), (2, [(1, .regular), (3, .regular)]),
    (3, [(2, .regular)])] : List (Vertex × Table Vertex EdgeKind))
  kinds := .ofList ([(0, .boundary), (1, .z), (2, .x), (3, .boundary)] : List (Vertex × VertexKind))
  phases := .ofList ([(0, .int 0), (1, .ratio (1 / 4)), (2, .int 0), (3, .int 0)] : List (Vertex × Exact))
  next := 4
  edgeCount := 3
  inputs := [0]
  outputs := [3]

lemma twoColours_wellFormed : twoColours.WellFormed :=
  by constructor <;> decide +kernel

lemma twoColours_noted : twoColours.Noted := fun v hv =>
  have noted : ∀ v ∈ twoColours.vertices, (twoColours.kinds.get? v).isSome := by decide +kernel
  noted v (mem_vertices.2 hv)

/-- A second edge between them takes away the first, and a Hadamard edge stays. -/
theorem addEdgeTable_parallel_twoColours : twoColours.edgeCount = twoColours.edges.length ∧ ∃ h, twoColours.addEdgeTable [((1, 2), (1, 1))] = .ok h ∧
    h.edgeCount = h.edges.length ∧ ∃ c : ℂ, c ≠ 0 ∧ h.linearMap 1 1 = c • twoColours.linearMapWith [((1, 2), (1, 1))] 1 1 := by
  have count : twoColours.edgeCount = twoColours.edges.length := by decide +kernel
  obtain ⟨h, e, ⟨c, hc, map⟩, -, edges, -⟩ := addEdgeTable_parallel (t := [((1, 2), (1, 1))]) twoColours_wellFormed twoColours_noted (by simp)
    (by decide +kernel) (by decide +kernel) (by decide)
  exact ⟨count, h, e, edges count, c, hc, map 1 1⟩

end ZXCircuits.Diagram

namespace ZXCircuits.Diagram

open List VertexKind EdgeKind

variable {g h k : Diagram} {v w : Vertex} {e : EdgeKind}

lemma toggle_plain (he : e = .regular ∨ e = .hadamard) : (e.toggle = .regular ∨ e.toggle = .hadamard) ∧ e.toggle.toggle = e := by
  rcases he with rfl | rfl <;> decide

/-- Spiders have changed their colour, and edges with one end that has changed their kind. -/
structure Repainted (g h : Diagram) : Prop where
  coherent : h.Coherent
  vertex : ∀ u, h.has u = g.has u
  phase : ∀ u, h.phase u = g.phase u
  ends : h.inputs = g.inputs ∧ h.outputs = g.outputs
  kind : ∀ u, h.kindD u = g.kindD u ∨ (g.kindD u).isSpider ∧ (h.kindD u).isSpider
  link : ∀ a b, h.link a b = if h.kindD a = g.kindD a ↔ h.kindD b = g.kindD b then g.link a b else (g.link a b).map EdgeKind.toggle

namespace Repainted

lemma refl (hg : g.Coherent) : Repainted g g := ⟨hg, fun _ => rfl, fun _ => rfl, ⟨rfl, rfl⟩, fun _ => .inl rfl, fun _ _ => by simp⟩

lemma plain (hr : Repainted g h) (hp : g.Plain) : h.Plain := fun a b e he => by
  rw [hr.link] at he
  split at he
  · exact hp a b e he
  · obtain ⟨e', he', rfl⟩ := Option.map_eq_some_iff.1 he
    exact (toggle_plain (hp a b e' he')).1

lemma joined (hr : Repainted g h) (a b : Vertex) : h.Joined a b ↔ g.Joined a b := by
  rw [Joined, Joined, hr.link]
  split <;> simp

lemma kind_iff (h1 : Repainted g h) (h2 : Repainted h k) (u : Vertex) :
    k.kindD u = g.kindD u ↔ (h.kindD u = g.kindD u ↔ k.kindD u = h.kindD u) := by
  rcases h1.kind u with c | ⟨c1, c2⟩
  · simp [c]
  rcases h2.kind u with c | ⟨-, c3⟩
  · simp [c]
  · revert c1 c2 c3
    cases g.kindD u <;> cases h.kindD u <;> cases k.kindD u <;> simp [isSpider]

lemma trans (hp : g.Plain) (h1 : Repainted g h) (h2 : Repainted h k) : Repainted g k := by
  refine ⟨h2.coherent, fun u => (h2.vertex u).trans (h1.vertex u), fun u => (h2.phase u).trans (h1.phase u),
    ⟨h2.ends.1.trans h1.ends.1, h2.ends.2.trans h1.ends.2⟩, fun u => ?_, fun a b => ?_⟩
  · rcases h1.kind u with c | c
    · rw [← c]
      exact h2.kind u
    rcases h2.kind u with c' | c'
    · exact .inr ⟨c.1, c' ▸ c.2⟩
    · exact .inr ⟨c.1, c'.2⟩
  have twice : ((g.link a b).map EdgeKind.toggle).map EdgeKind.toggle = g.link a b := by
    cases hl : g.link a b with
    | none => rfl
    | some e => exact congrArg some (toggle_plain (hp a b e hl)).2
  simp only [h2.link, h1.link, h1.kind_iff h2]
  by_cases c1 : h.kindD a = g.kindD a <;> by_cases c2 : h.kindD b = g.kindD b <;> by_cases c3 : k.kindD a = h.kindD a <;>
    by_cases c4 : k.kindD b = h.kindD b <;> simp [c1, c2, c3, c4, twice]

/-! ## The linear map -/

lemma bond_toggle {k k' : VertexKind} (hk : k.isSpider) (hk' : k'.isSpider) (ne : k' ≠ k)
    (he : e = .regular ∨ e = .hadamard) (l : VertexKind) : bond k' e.toggle l = bond k e l := by
  refine congrArg (· * l.leg) ?_
  rcases he with rfl | rfl <;> cases k <;> cases k' <;> simp_all [isSpider, leg, EdgeKind.toggle, wire, mixing_mul_mixing]

lemma bond_eq (hr : Repainted g h) (a b : Vertex) (he : e = .regular ∨ e = .hadamard) (x y : Bool) :
    bond (h.kindD a) (if h.kindD a = g.kindD a ↔ h.kindD b = g.kindD b then e else e.toggle) (h.kindD b) x y =
      bond (g.kindD a) e (g.kindD b) x y := by
  obtain ⟨he', twice⟩ := toggle_plain he
  by_cases ha : h.kindD a = g.kindD a <;> by_cases hb : h.kindD b = g.kindD b
  · simp [ha, hb]
  · obtain ⟨sb, sb'⟩ := (hr.kind b).resolve_left hb
    simp only [ha, hb, iff_false, not_true, if_false]
    rw [bond_comm, bond_toggle sb sb' hb he, bond_comm]
  · obtain ⟨sa, sa'⟩ := (hr.kind a).resolve_left ha
    simp only [ha, hb, iff_true, if_false]
    rw [bond_toggle sa sa' ha he]
  · obtain ⟨sa, sa'⟩ := (hr.kind a).resolve_left ha
    obtain ⟨sb, sb'⟩ := (hr.kind b).resolve_left hb
    simp only [ha, hb, if_true]
    rw [← twice, bond_toggle sa sa' ha he', bond_comm, bond_toggle sb sb' hb he, bond_comm, twice]

lemma tie_eq (hp : g.Plain) (hr : Repainted g h) (a b : Vertex) : h.tie a b = g.tie a b := by
  funext x y
  cases hl : g.link a b with
  | none =>
    have hn : ¬ g.Joined a b := by simp [Joined, hl]
    rw [tie_of_not_joined hn, tie_of_not_joined ((hr.joined a b).not.2 hn)]
  | some e =>
    have made : h.link a b = some (if h.kindD a = g.kindD a ↔ h.kindD b = g.kindD b then e else e.toggle) := by
      rw [hr.link, hl]
      split <;> rfl
    rw [tie_of_link made, tie_of_link hl, hr.bond_eq a b (hp a b e hl)]

lemma linearMap_eq (hg : g.Coherent) (hp : g.Plain) (hr : Repainted g h) (hio : ∀ v, v ∈ g.inputs ∨ v ∈ g.outputs → v ∈ g.border)
    (n m : ℕ) : h.linearMap n m = g.linearMap n m := by
  have boundary : ∀ u, h.kindD u = .boundary ↔ g.kindD u = .boundary := fun u => by
    rcases hr.kind u with c | ⟨c1, c2⟩
    · rw [c]
    · constructor <;> intro c <;> simp_all [isSpider]
  have turns : h.turns = g.turns := funext fun u => by
    rw [Diagram.turns, Diagram.turns, hr.phase]
    rcases hr.kind u with c | ⟨c1, c2⟩
    · rw [c]
    · rw [if_pos c1, if_pos c2]
  have vertices := vertices_congr hr.vertex
  have inner : h.inner = g.inner := by simp [Diagram.inner, vertices, boundary]
  have value : h.value h.turns = (1 : ℂ) • g.value g.turns := by
    rw [one_smul, Diagram.value, Diagram.value, inner, vertices, turns, funext fun a => funext fun b => hr.tie_eq hp a b]
  have border : ∀ v, v ∈ h.border ↔ v ∈ g.border := fun v => by rw [mem_border, mem_border, hr.vertex, boundary]
  rw [linearMap_of_value hg hr.coherent value border hr.ends.1 hr.ends.2 hio, one_smul]

lemma unique (hs : ∀ v, g.has v → g.kindD v = .boundary ∨ g.kindD v = .z ∨ g.kindD v = .x) (h1 : Repainted g h)
    (h2 : Repainted g k) (green : h.Green) (green' : k.Green) :
    (∀ v, g.has v → k.kindD v = h.kindD v) ∧ ∀ a b, k.link a b = h.link a b := by
  have colour : ∀ {h : Diagram}, Repainted g h → h.Green → ∀ v, g.has v → h.kindD v = if g.kindD v = .boundary then .boundary else .z := by
    intro h hr hh v hv
    have ne := hh v ((hr.vertex v).trans hv)
    rcases hr.kind v with c | ⟨c1, c2⟩
    · grind
    · revert c1 c2 ne
      cases g.kindD v <;> cases h.kindD v <;> simp [isSpider]
  have kinds : ∀ v, g.has v → k.kindD v = h.kindD v := fun v hv => (colour h2 green' v hv).trans (colour h1 green v hv).symm
  refine ⟨kinds, fun a b => ?_⟩
  rw [h1.link, h2.link]
  cases hl : g.link a b with
  | none => simp
  | some e =>
    have hj : g.Joined a b := by rw [Joined, hl]; rfl
    have hj' := (h1.joined b a).1 (h1.coherent.back ((h1.joined a b).2 hj))
    rw [kinds a hj.has, kinds b hj'.has]

end Repainted

/-! ## Spiders one by one -/

def Toggles (f : Diagram → Edge → Attempt Diagram) : Prop :=
  ∀ g e, g.edgeKind e = .regular ∨ g.edgeKind e = .hadamard → f g e = g.setEdgeKind e (g.edgeKind e).toggle

lemma exchangeEdge_toggles : Toggles exchangeEdge := fun g e he => by rcases he with he | he <;> rw [exchangeEdge, he] <;> rfl

lemma flipEdge_toggles : Toggles flipEdge := fun g e he => by rcases he with he | he <;> rw [flipEdge, he] <;> rfl

variable {f : Diagram → Edge → Attempt Diagram}

lemma Toggles.edge (hf : Toggles f) (hg : g.Coherent) (hp : g.Plain) (joined : g.Joined v w) : ∃ h, f g (edge v w) = .ok h ∧
    Relinked g h ∧ h.Coherent ∧ h.Plain ∧
      ∀ a b, h.link a b = if a = v ∧ b = w ∨ a = w ∧ b = v then (g.link a b).map EdgeKind.toggle else g.link a b := by
  obtain ⟨e, he⟩ := Option.isSome_iff_exists.1 joined
  have kind : g.edgeKind (Diagram.edge v w) = e := by rw [edgeKind_edge_eq hg (v, w), edgeKind_eq, he]; rfl
  have ends := has_edge joined.has (hg.vertex joined)
  obtain ⟨h, made⟩ := setEdgeKind_returns ends.1 ends.2
  obtain ⟨r, l, c⟩ := setEdgeKind_spec g _ _ h made
  refine ⟨h, ?_, r, c hg, fun a b e' he' => ?_, fun a b => ?_⟩
  · rw [hf g _ (by rw [kind]; exact hp v w e he), kind, made]
  · rw [l] at he'
    split at he'
    · exact Option.some.inj he' ▸ (toggle_plain (hp v w e he)).1
    · exact hp a b e' he'
  · rw [l]
    refine if_ctx_congr between_edge (fun hb => ?_) fun _ => rfl
    rcases hb with ⟨rfl, rfl⟩ | ⟨rfl, rfl⟩
    · rw [he]; rfl
    · rw [hg.symm, he]; rfl

lemma Toggles.foldlM (hf : Toggles f) (ws : List Vertex) : ∀ {g : Diagram}, g.Coherent → g.Plain → ws.Nodup →
    (∀ w ∈ ws, w ≠ v ∧ g.Joined v w) → ∃ h, (ws.map (Diagram.edge v)).foldlM f g = .ok h ∧ Relinked g h ∧ h.Coherent ∧
      ∀ a b, h.link a b = if a = v ∧ b ∈ ws ∨ b = v ∧ a ∈ ws then (g.link a b).map EdgeKind.toggle else g.link a b := by
  induction ws with
  | nil => exact fun {g} hg _ _ _ => ⟨g, rfl, .refl g, hg, fun a b => by simp⟩
  | cons w ws ih =>
    intro g hg hp nodup hj
    obtain ⟨hw, nodup⟩ := nodup_cons.1 nodup
    obtain ⟨⟨wv, joined⟩, hj⟩ := forall_mem_cons.1 hj
    obtain ⟨h, made, r, c, plain, link⟩ := hf.edge hg hp joined
    have still : ∀ u ∈ ws, u ≠ v ∧ h.Joined v u := fun u hu => by
      refine ⟨(hj u hu).1, ?_⟩
      rw [Joined, link, if_neg (by rintro (⟨-, rfl⟩ | ⟨rfl, -⟩); exacts [hw hu, wv rfl])]
      exact (hj u hu).2
    obtain ⟨k, run, r', c', l'⟩ := ih c plain nodup still
    refine ⟨k, ?_, r.trans r', c', fun a b => ?_⟩
    · rw [map_cons, foldlM_cons, made]
      exact run
    have hv : v ∉ ws := fun hu => (hj v hu).1 rfl
    have split : a = v ∧ b ∈ w :: ws ∨ b = v ∧ a ∈ w :: ws ↔ (a = v ∧ b = w ∨ a = w ∧ b = v) ∨ (a = v ∧ b ∈ ws ∨ b = v ∧ a ∈ ws) := by
      simp only [mem_cons]
      tauto
    simp only [l', link, split]
    by_cases hb : a = v ∧ b = w ∨ a = w ∧ b = v
    · have rest : ¬ (a = v ∧ b ∈ ws ∨ b = v ∧ a ∈ ws) := by
        rcases hb with ⟨rfl, rfl⟩ | ⟨rfl, rfl⟩ <;> simp [hv, hw]
      simp [rest]
    · simp [hb]

/-- **A spider** gets the other colour, and its edges the other kind. -/
theorem Toggles.repainted (hf : Toggles f) (hg : g.Coherent) (hp : g.Plain) (hl : ∀ v, ¬ g.Joined v v) (hv : g.has v) {c : VertexKind}
    (old : (g.kindD v).isSpider) (new : c.isSpider) (ne : c ≠ g.kindD v) :
    ∃ h, (g.incidentEdges v >>= fun es => es.foldlM f (g.setKind v c)) = .ok h ∧ Repainted g h := by
  obtain ⟨ws, run⟩ := neighbours_returns hv
  obtain rfl := gives_neighbours g v ws run
  have joined : ∀ w ∈ g.nearby v, w ≠ v ∧ g.Joined v w := fun w hw =>
    have hj := mem_nearby.1 hw
    ⟨fun e => hl v (e ▸ hj :), hj⟩
  obtain ⟨h, made, r, coherent, link⟩ := hf.foldlM (g := g.setKind v c) _ ⟨hg.nodup, hg.symm, hg.below⟩ hp (hg.nodup v) joined
  have kind : ∀ u, h.kindD u = if u = v then c else g.kindD u := fun u => by
    rw [r.kindD u]
    simp only [kindD, setKind, get?_insert_vertex]
    split <;> rfl
  refine ⟨h, ?_, coherent, r.vertex, r.phase, ⟨r.ends.1, r.ends.2.1⟩, fun u => ?_, fun a b => ?_⟩
  · rw [incidentEdges, run]
    exact made
  · rw [kind]
    split
    · exact .inr ⟨‹u = v› ▸ old, new⟩
    · exact .inl rfl
  · have same : ∀ u, h.kindD u = g.kindD u ↔ u ≠ v := fun u => by
      rw [kind]
      split <;> simp_all
    have none : ∀ {a b}, b ∉ g.nearby a → g.link a b = none := fun hn => by simpa [Joined] using mem_nearby.not.1 hn
    rw [link]
    show (if _ then (g.link a b).map EdgeKind.toggle else g.link a b) = _
    simp only [same]
    by_cases ha : a = v <;> by_cases hb : b = v
    · rw [ha, hb, none (mem_nearby.not.2 (hl v))]
      simp
    · by_cases hj : b ∈ g.nearby v
      · simp [hb, hj]
      · simp [ha, none hj]
    · by_cases hj : a ∈ g.nearby v
      · simp [ha, hj]
      · simp [hb, hg.symm a v, none hj]
    · simp [ha, hb]

lemma foldlM_repainted {f : Diagram → Vertex → Attempt Diagram} (step : ∀ {g : Diagram}, g.Coherent → g.Plain → (∀ v, ¬ g.Joined v v) →
    ∀ v, g.has v → ∃ h, f g v = .ok h ∧ Repainted g h) (vs : List Vertex) : ∀ {g : Diagram}, g.Coherent → g.Plain →
      (∀ v, ¬ g.Joined v v) → (∀ v ∈ vs, g.has v) → ∃ h, vs.foldlM f g = .ok h ∧ Repainted g h := by
  induction vs with
  | nil => exact fun {g} hg _ _ _ => ⟨g, rfl, .refl hg⟩
  | cons v vs ih =>
    intro g hg hp hl hv
    obtain ⟨h, made, hr⟩ := step hg hp hl v (hv v (by simp))
    obtain ⟨k, run, hr'⟩ := ih hr.coherent (hr.plain hp) (fun u => (hr.joined u u).not.2 (hl u)) fun u hu => (hr.vertex u).trans (hv u (by simp [hu]))
    refine ⟨k, ?_, hr.trans hp hr'⟩
    rw [foldlM_cons, made]
    exact run

lemma toGreen_repainted (hg : g.Coherent) (hp : g.Plain) (hl : ∀ v, ¬ g.Joined v v) : ∃ h, g.toGreen = .ok h ∧ Repainted g h := by
  refine foldlM_repainted (fun {g} hg hp hl v hv => ?_) g.vertices hg hp hl fun v hv => mem_vertices.1 hv
  unfold greenVertex
  split
  · exact ⟨g, rfl, .refl hg⟩
  · have hx : g.kindD v = .x := by simp_all
    exact exchangeEdge_toggles.repainted hg hp hl hv (by rw [hx]; rfl) rfl (by rw [hx]; decide)

lemma toRed_repainted (select : Diagram → Vertex → Bool) (hg : g.Coherent) (hp : g.Plain) (hl : ∀ v, ¬ g.Joined v v) :
    ∃ h, g.toRed select = .ok h ∧ Repainted g h := by
  refine foldlM_repainted (fun {g} hg hp hl v hv => ?_) g.vertices hg hp hl fun v hv => mem_vertices.1 hv
  by_cases hs : select g v
  · rw [if_pos hs, changeColour]
    split
    · rename_i hk
      exact flipEdge_toggles.repainted hg hp hl hv (by rw [hk]; rfl) rfl (by rw [hk]; decide)
    · rename_i hk
      exact flipEdge_toggles.repainted hg hp hl hv (by rw [hk]; rfl) rfl (by rw [hk]; decide)
    · exact ⟨g, rfl, .refl hg⟩
  · rw [if_neg hs]
    exact ⟨g, rfl, .refl hg⟩

/-- **Colours may be changed.**  Turning a diagram green, and changing the colours of any spiders while they are looked at, leave its
linear map as it is.  In a green diagram no vertex has the second colour, and colours that were changed before make no difference. -/
theorem recolouring_sound (hg : g.WellFormed) (hio : ∀ v, v ∈ g.inputs ∨ v ∈ g.outputs → v ∈ g.border) (select : Diagram → Vertex → Bool) :
    ∃ h r k, g.toGreen = .ok h ∧ g.toRed select = .ok r ∧ r.toGreen = .ok k ∧
      (∀ n m, h.linearMap n m = g.linearMap n m ∧ r.linearMap n m = g.linearMap n m) ∧ h.Green ∧
      (∀ v, g.has v → k.kindD v = h.kindD v) ∧ ∀ a b, k.link a b = h.link a b := by
  have neat := hg.neat
  obtain ⟨h, green, hr⟩ := toGreen_repainted hg.coherent neat.plain neat.loopless
  obtain ⟨r, red, hr'⟩ := toRed_repainted select hg.coherent neat.plain neat.loopless
  obtain ⟨k, again, hr''⟩ := toGreen_repainted hr'.coherent (hr'.plain neat.plain) fun v => (hr'.joined v v).not.2 (neat.loopless v)
  have first := (toGreen_spec hg.coherent h green).2
  refine ⟨h, r, k, green, red, again, fun n m => ⟨hr.linearMap_eq hg.coherent neat.plain hio n m, hr'.linearMap_eq hg.coherent neat.plain hio n m⟩,
    first, hr.unique neat.kinds (hr'.trans neat.plain hr'') first (toGreen_spec hr'.coherent k again).2⟩

/-- Every spider that is looked at changes its colour, and the diagram is turned green. -/
theorem recolouring_sound_twoColours : twoColours.kindD 2 = .x ∧ ∃ h r k, twoColours.toGreen = .ok h ∧ twoColours.toRed (fun _ _ => true) = .ok r ∧
    r.toGreen = .ok k ∧ h.linearMap 1 1 = twoColours.linearMap 1 1 ∧ r.linearMap 1 1 = twoColours.linearMap 1 1 ∧ k.link 1 2 = h.link 1 2 := by
  have ends : ∀ v ∈ twoColours.inputs ++ twoColours.outputs, v ∈ twoColours.border := by decide +kernel
  obtain ⟨h, r, k, green, red, again, maps, -, -, links⟩ :=
    recolouring_sound twoColours_wellFormed (fun v hv => ends v (mem_append.2 hv)) fun _ _ => true
  exact ⟨by decide +kernel, h, r, k, green, red, again, (maps 1 1).1, (maps 1 1).2, links 1 2⟩

end ZXCircuits.Diagram
