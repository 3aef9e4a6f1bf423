/-
  How edits change what is seen of a diagram.

  A diagram is seen through its vertices, the links between them (`Diagram.link`), and the kinds and phases noted for them.
  Every edit has one lemma that says what becomes of the links.  A diagram is coherent if links go both ways, no neighbour
  is listed twice and numbers of vertices are below the next number; edits keep this.
-/
import ZXCircuits.Rule.Basic
import ZXCircuits.Proofs.Outcome
import Mathlib.Tactic.Common

namespace ZXCircuits

open List Table Std

/-! ## Maps by vertices -/

section Maps

variable {β : Type} (m : TreeMap Vertex β) (v w : Vertex) (x : β)

lemma get?_insert_vertex : (m.insert v x).get? w = if w = v then some x else m.get? w := by
  rw [TreeMap.get?_eq_getElem?, TreeMap.getElem?_insert]
  simp only [Nat.compare_eq_eq, eq_comm (a := v)]
  rfl

lemma get?_erase_vertex : (m.erase v).get? w = if w = v then none else m.get? w := by
  rw [TreeMap.get?_eq_getElem?, TreeMap.getElem?_erase]
  simp only [Nat.compare_eq_eq, eq_comm (a := v)]
  rfl

lemma contains_iff_get? : m.contains v = (m.get? v).isSome := by
  rw [TreeMap.get?_eq_getElem?, TreeMap.isSome_getElem?_eq_contains]

end Maps

namespace Diagram

variable {g h k : Diagram} {a b u v w : Vertex} {e : Edge}

/-! ## The view -/

/-- The edge between two vertices, as it is noted at the first one. -/
def link (g : Diagram) (v w : Vertex) : Option EdgeKind := (g.adjacency.get? v).bind fun t => Table.find? t w

def Joined (g : Diagram) (v w : Vertex) : Prop := (g.link v w).isSome

/-- The second vertex is the only neighbour of the first. -/
def Hangs (g : Diagram) (v w : Vertex) : Prop := ∀ y, g.Joined v y ↔ y = w

lemma Hangs.joined (hv : g.Hangs v w) : g.Joined v w := (hv w).2 rfl

lemma joined_iff_ne_none : g.Joined v w ↔ g.link v w ≠ none := Option.isSome_iff_ne_none

lemma mem_vertices : v ∈ g.vertices ↔ g.has v := by
  rw [vertices, TreeMap.mem_keys, TreeMap.mem_iff_contains, has]

lemma nodup_vertices (g : Diagram) : g.vertices.Nodup := TreeMap.nodup_keys

lemma has_iff : g.has v ↔ ∃ t, g.adjacency.get? v = some t := by
  rw [has, contains_iff_get?, Option.isSome_iff_exists]

lemma Joined.has (hj : g.Joined v w) : g.has v := by
  rw [has_iff]
  rw [Joined, link] at hj
  cases ht : g.adjacency.get? v with
  | none => rw [ht] at hj; cases hj
  | some t => exact ⟨t, rfl⟩

lemma mem_nearby : w ∈ g.nearby v ↔ g.Joined v w := by
  rw [nearby, Joined, link]
  cases g.adjacency.get? v with
  | none => simp
  | some t => simp [find?_isSome_iff]

lemma gives_neighbours (g : Diagram) (v : Vertex) : Gives (g.neighbours v) fun ws => ws = g.nearby v := by
  refine .bind (gives_orAbsent _) fun t ht => .pure ?_
  rw [nearby, ht]

lemma neighbours_hasVertex (g : Diagram) (v : Vertex) : Gives (g.neighbours v) fun _ => g.has v :=
  .bind (gives_orAbsent _) fun t ht => .pure (has_iff.2 ⟨t, ht⟩)

lemma edgeKind_eq (g : Diagram) (e : Edge) : g.edgeKind e = (g.link e.1 e.2).getD .absent := by
  rw [edgeKind, link]
  cases g.adjacency.get? e.1 <;> rfl

lemma joined_of_edgeKind (hk : g.edgeKind e ≠ .absent) : g.Joined e.1 e.2 := by
  rw [edgeKind_eq] at hk
  rw [joined_iff_ne_none]
  exact fun c => hk (by rw [c]; rfl)

lemma mem_edges : e ∈ g.edges ↔ e.1 < e.2 ∧ g.Joined e.1 e.2 := by
  obtain ⟨v, w⟩ := e
  rw [edges, mem_flatMap]
  constructor
  · rintro ⟨⟨x, t⟩, hx, he⟩
    rw [TreeMap.mem_toList_iff_getElem?_eq_some] at hx
    obtain ⟨y, hy, e⟩ := mem_map.1 he
    obtain ⟨rfl, rfl⟩ := Prod.mk.inj e
    obtain ⟨hk, hlt⟩ := mem_filter.1 hy
    refine ⟨by simpa using hlt, ?_⟩
    rw [Joined, link, TreeMap.get?_eq_getElem?, hx]
    exact (find?_isSome_iff t y).2 hk
  rintro ⟨hlt, hj⟩
  obtain ⟨t, ht⟩ := has_iff.1 hj.has
  refine ⟨(v, t), TreeMap.mem_toList_iff_getElem?_eq_some.2 ht, ?_⟩
  refine mem_map.2 ⟨w, mem_filter.2 ⟨?_, by simpa using hlt⟩, rfl⟩
  rw [Joined, link, ht] at hj
  exact (find?_isSome_iff t w).1 hj

def borderOf (g : Diagram) (v : Vertex) : List Vertex := (g.nearby v).filter fun b => g.kindD b == .boundary

lemma mem_borderOf : b ∈ g.borderOf v ↔ g.Joined v b ∧ g.kindD b = .boundary := by
  rw [borderOf, mem_filter, mem_nearby, beq_iff_eq]

/-- The kinds and phases noted for the vertices, and which vertices there are, do not depend on the edges. -/
structure Relinked (g h : Diagram) : Prop where
  beside : h = { g with adjacency := h.adjacency, edgeCount := h.edgeCount }
  vertex : ∀ v, h.has v = g.has v

namespace Relinked

lemma refl (g : Diagram) : Relinked g g := ⟨rfl, fun _ => rfl⟩

lemma trans (h1 : Relinked g h) (h2 : Relinked h k) : Relinked g k := by
  refine ⟨?_, fun v => (h2.vertex v).trans (h1.vertex v)⟩
  rw [h2.beside, h1.beside]

variable (r : Relinked g h)
include r

lemma kinds : h.kinds = g.kinds := by rw [r.beside]

lemma phases : h.phases = g.phases := by rw [r.beside]

lemma next : h.next = g.next := by rw [r.beside]

lemma kindD (v : Vertex) : h.kindD v = g.kindD v := by rw [Diagram.kindD, r.kinds]; rfl

lemma phase (v : Vertex) : h.phase v = g.phase v := by rw [Diagram.phase, r.phases]; rfl

end Relinked

/-- Links go both ways, no neighbour is listed twice, and vertices have numbers below the next one. -/
structure Coherent (g : Diagram) : Prop where
  nodup : ∀ v, (g.nearby v).Nodup
  symm : ∀ v w, g.link v w = g.link w v
  below : ∀ v, g.has v → v < g.next

lemma Coherent.joined_comm (hg : g.Coherent) : g.Joined v w ↔ g.Joined w v := by
  rw [Joined, Joined, hg.symm]

lemma Coherent.back (hg : g.Coherent) (hj : g.Joined v w) : g.Joined w v := hg.joined_comm.1 hj

lemma Coherent.vertex (hg : g.Coherent) (hj : g.Joined v w) : g.has w := (hg.back hj).has

lemma Coherent.nearby_of_hangs (hg : g.Coherent) (hv : g.Hangs v w) : g.nearby v = [w] := by
  refine perm_singleton.1 ((perm_ext_iff_of_nodup (hg.nodup v) (nodup_cons.2 ⟨by simp, .nil⟩)).2 fun y => ?_)
  rw [mem_nearby, mem_singleton]
  exact hv y

lemma coherent_iff : g.Coherent ↔ ∀ v ∈ g.vertices, (g.nearby v).Nodup ∧ v < g.next ∧
    ∀ w ∈ g.nearby v, g.link v w = g.link w v := by
  constructor
  · exact fun hg v hv => ⟨hg.nodup v, hg.below v (mem_vertices.1 hv), fun w _ => hg.symm v w⟩
  intro hc
  have symm : ∀ v w, g.Joined v w → g.link v w = g.link w v := fun v w hj =>
    (hc v (mem_vertices.2 hj.has)).2.2 w (mem_nearby.2 hj)
  refine ⟨fun v => ?_, fun v w => ?_, fun v hv => (hc v (mem_vertices.2 hv)).2.1⟩
  · by_cases hv : g.has v
    · exact (hc v (mem_vertices.2 hv)).1
    have : g.nearby v = [] := eq_nil_iff_forall_not_mem.2 fun w hw => hv (mem_nearby.1 hw).has
    rw [this]
    exact nodup_nil
  by_cases hj : g.Joined v w
  · exact symm v w hj
  by_cases hj' : g.Joined w v
  · exact (symm w v hj').symm
  · rw [joined_iff_ne_none, not_not] at hj hj'
    rw [hj, hj']

instance : Decidable g.Coherent := decidable_of_iff _ coherent_iff.symm

def Between (e : Edge) (a b : Vertex) : Prop := (a = e.1 ∧ b = e.2) ∨ (a = e.2 ∧ b = e.1)

instance : Decidable (Between e a b) := inferInstanceAs (Decidable (_ ∨ _))

lemma between_comm : Between e a b ↔ Between e b a := by
  unfold Between
  tauto

lemma between_edge : Between (edge v w) a b ↔ Between (v, w) a b := by
  unfold Between edge
  split
  · rfl
  · tauto

/-! ## Setting edges -/

section

variable (g : Diagram)

lemma setHalf_spec (v w : Vertex) (k : EdgeKind) :
    Gives (g.setHalf v w k) fun h => Relinked g h ∧ (∀ a b, h.link a b = if a = v ∧ b = w then some k else g.link a b) ∧
      ∀ a, (g.nearby a).Nodup → (h.nearby a).Nodup := by
  refine .bind (gives_orAbsent _) fun t ht => .pure ⟨⟨rfl, fun x => ?_⟩, fun a b => ?_, fun a hn => ?_⟩
  · simp only [has, contains_iff_get?, get?_insert_vertex]
    by_cases hx : x = v
    · rw [if_pos hx, hx, ht]; rfl
    · rw [if_neg hx]
  · simp only [link, get?_insert_vertex]
    by_cases ha : a = v
    · subst ha
      rw [if_pos rfl, ht, Option.bind_some, Option.bind_some]
      by_cases hb : b = w
      · subst hb
        rw [find?_insert_self, if_pos ⟨rfl, rfl⟩]
      · rw [find?_insert_of_ne _ hb, if_neg fun c => hb c.2]
    · rw [if_neg ha, if_neg fun c => ha c.1]
  · simp only [nearby, get?_insert_vertex] at hn ⊢
    by_cases ha : a = v
    · subst ha
      rw [ht] at hn
      rw [if_pos rfl]
      exact nodup_insert hn w k
    · simpa only [if_neg ha] using hn

/-- **Setting an edge** sets the link between its ends, in both directions. -/
theorem setEdgeKind_spec (e : Edge) (k : EdgeKind) :
    Gives (g.setEdgeKind e k) fun h => Relinked g h ∧ (∀ a b, h.link a b = if Between e a b then some k else g.link a b) ∧
      (g.Coherent → h.Coherent) := by
  refine .bind (setHalf_spec g e.1 e.2 k) fun h1 ⟨r1, l1, n1⟩ => ?_
  refine (setHalf_spec h1 e.2 e.1 k).mono fun h2 ⟨r2, l2, n2⟩ => ?_
  have link : ∀ a b, h2.link a b = if Between e a b then some k else g.link a b := by
    intro a b
    simp only [l2, Between]
    grind
  have r := r1.trans r2
  refine ⟨r, link, fun hg => ⟨fun v => n2 v (n1 v (hg.nodup v)), fun v w => ?_, fun v hv => ?_⟩⟩
  · rw [link, link, hg.symm v w]
    simp [between_comm]
  · rw [r.next]
    exact hg.below v (r.vertex v ▸ hv)

lemma addEdge_spec (e : Edge) (k : EdgeKind) :
    Gives (g.addEdge e k) fun h => Relinked g h ∧ (∀ a b, h.link a b = if Between e a b then some k else g.link a b) ∧
      (g.Coherent → h.Coherent) := by
  refine .bind (setEdgeKind_spec g e k) fun h ⟨r, l, c⟩ => .pure ⟨⟨?_, r.vertex⟩, l, fun hg => ?_⟩
  · rw [r.beside]
  · exact ⟨(c hg).nodup, (c hg).symm, (c hg).below⟩

/-! ## Removing edges -/

lemma dropHalf_spec (v w : Vertex) : Gives (g.dropHalf v w) fun h => Relinked g h ∧ g.Joined v w ∧ ((g.nearby v).Nodup →
      (∀ a b, h.link a b = if a = v ∧ b = w then none else g.link a b) ∧
      ∀ a, (g.nearby a).Nodup → (h.nearby a).Nodup) := by
  refine .bind (gives_orAbsent _) fun t ht => ?_
  refine .bind (P := fun t' => t.has w ∧ t' = t.erase w) (.ite (fun hw => .ok ⟨hw, rfl⟩) fun _ => .error _) ?_
  rintro _ ⟨hw, rfl⟩
  refine .pure ⟨⟨rfl, fun x => ?_⟩, ?_, fun hv => ?_⟩
  · simp only [has, contains_iff_get?, get?_insert_vertex]
    by_cases hx : x = v
    · rw [if_pos hx, hx, ht]; rfl
    · rw [if_neg hx]
  · rw [Joined, link, ht]
    exact hw
  · have hk : (Table.keys t).Nodup := by rwa [nearby, ht] at hv
    refine ⟨fun a b => ?_, fun a hn => ?_⟩
    · simp only [link, get?_insert_vertex]
      by_cases ha : a = v
      · subst ha
        rw [if_pos rfl, ht, Option.bind_some, Option.bind_some]
        by_cases hb : b = w
        · subst hb
          rw [find?_erase_self hk, if_pos ⟨rfl, rfl⟩]
        · rw [find?_erase_of_ne _ hb, if_neg fun c => hb c.2]
      · rw [if_neg ha, if_neg fun c => ha c.1]
    simp only [nearby, get?_insert_vertex] at hn ⊢
    by_cases ha : a = v
    · simpa only [if_pos ha] using nodup_erase hk w
    · simpa only [if_neg ha] using hn

end

/-- **Removing an edge** takes the link between its ends away, in both directions. -/
theorem removeEdge_spec (hg : g.Coherent) (e : Edge) : Gives (g.removeEdge e) fun h => Relinked g h ∧ h.Coherent ∧
      ∀ a b, h.link a b = if Between e a b then none else g.link a b := by
  refine .bind (dropHalf_spec g e.1 e.2) fun h1 ⟨r1, _, l1⟩ => ?_
  obtain ⟨l1, n1⟩ := l1 (hg.nodup _)
  refine .bind (dropHalf_spec h1 e.2 e.1) fun h2 ⟨r2, _, l2⟩ => ?_
  obtain ⟨l2, n2⟩ := l2 (n1 _ (hg.nodup _))
  have link : ∀ a b, h2.link a b = if Between e a b then none else g.link a b := by
    intro a b
    simp only [l2, Between]
    grind
  have r := r1.trans r2
  refine .pure ⟨⟨?_, r.vertex⟩, ⟨fun v => n2 v (n1 v (hg.nodup v)), fun v w => ?_, fun v hv => ?_⟩, link⟩
  · rw [r.beside]
  · show h2.link v w = h2.link w v
    rw [link, link, hg.symm v w]
    simp [between_comm]
  · rw [r.next]
    exact hg.below v (r.vertex v ▸ hv)

lemma removeEdges_spec (hg : g.Coherent) (es : List Edge) : Gives (g.removeEdges es) fun h => Relinked g h ∧ h.Coherent ∧
      ∀ a b, h.link a b = if ∃ e ∈ es, Between e a b then none else g.link a b := by
  unfold removeEdges
  induction es generalizing g with
  | nil => exact .pure ⟨.refl g, hg, fun a b => by simp⟩
  | cons e es ih =>
    refine .bind (removeEdge_spec hg e) fun h1 ⟨r1, c1, l1⟩ => (ih c1).mono fun h2 ⟨r2, c2, l2⟩ => ?_
    refine ⟨r1.trans r2, c2, fun a b => ?_⟩
    rw [l2, l1]
    by_cases he : Between e a b
    · rw [if_pos he, ite_self, if_pos ⟨e, by simp, he⟩]
    · rw [if_neg he]
      exact if_congr (by simp [he]) rfl rfl

/-! ## Removing vertices -/

/-- The second diagram is the first one without some vertices, which were there. -/
structure Without (g : Diagram) (vs : List Vertex) (h : Diagram) : Prop where
  present : ∀ u ∈ vs, g.has u
  nodup : vs.Nodup
  coherent : h.Coherent
  vertex : ∀ u, h.has u ↔ g.has u ∧ u ∉ vs
  link : ∀ a b, h.link a b = if a ∈ vs ∨ b ∈ vs then none else g.link a b
  kinds : ∀ u, u ∉ vs → h.kinds.get? u = g.kinds.get? u
  phases : ∀ u, u ∉ vs → h.phases.get? u = g.phases.get? u
  next : h.next = g.next

lemma Without.kindD {vs : List Vertex} (hw : Without g vs h) (hu : u ∉ vs) : h.kindD u = g.kindD u := by
  rw [Diagram.kindD, hw.kinds u hu]; rfl

lemma Without.phase {vs : List Vertex} (hw : Without g vs h) (hu : u ∉ vs) : h.phase u = g.phase u := by
  rw [Diagram.phase, hw.phases u hu]; rfl

lemma removeLinks_spec (hg : g.Coherent) (v : Vertex) (ws : List Vertex) :
    Gives (ws.foldlM (fun g w => g.removeEdge (v, w)) g) fun h => Relinked g h ∧ h.Coherent ∧
      ∀ a b, h.link a b = if ∃ w ∈ ws, Between (v, w) a b then none else g.link a b := by
  have e : ws.foldlM (fun g w => g.removeEdge (v, w)) g = g.removeEdges (ws.map fun w => (v, w)) := by
    rw [removeEdges, foldlM_map]
  rw [e]
  refine (removeEdges_spec hg _).mono fun h ⟨r, c, l⟩ => ⟨r, c, fun a b => ?_⟩
  rw [l]
  simp

/-- **Removing a vertex** takes away the vertex with its links and what is noted for it. -/
theorem removeVertex_spec (hg : g.Coherent) (v : Vertex) : Gives (g.removeVertex v) (Without g [v]) := by
  refine .bind ((gives_neighbours g v).and (neighbours_hasVertex g v)) ?_
  rintro _ ⟨rfl, hv⟩
  refine .bind (removeLinks_spec hg v _) fun h ⟨r, c, l⟩ => .pure ?_
  have gone : ∀ a b, a = v ∨ b = v → h.link a b = none := by
    intro a b hab
    rw [l]
    split
    · rfl
    rename_i hn
    by_contra hc
    rcases hab with rfl | rfl
    · exact hn ⟨b, mem_nearby.2 (joined_iff_ne_none.2 hc), .inl ⟨rfl, rfl⟩⟩
    · rw [hg.symm] at hc
      exact hn ⟨a, mem_nearby.2 (joined_iff_ne_none.2 hc), .inr ⟨rfl, rfl⟩⟩
  have kept : ∀ a b, a ≠ v → b ≠ v → h.link a b = g.link a b := by
    intro a b ha hb
    rw [l, if_neg]
    rintro ⟨w, -, ⟨rfl, -⟩ | ⟨-, rfl⟩⟩
    · exact ha rfl
    · exact hb rfl
  have link : ∀ a b, ((h.adjacency.erase v).get? a).bind (fun t => Table.find? t b) =
      if a ∈ [v] ∨ b ∈ [v] then none else g.link a b := by
    intro a b
    rw [get?_erase_vertex]
    by_cases ha : a = v
    · simp [ha]
    rw [if_neg ha]
    show h.link a b = _
    by_cases hb : b = v
    · simp [hb, gone]
    · rw [kept a b ha hb]
      simp [ha, hb]
  have vertex : ∀ u, (h.adjacency.erase v).contains u ↔ h.has u ∧ u ∉ [v] := by
    intro u
    rw [contains_iff_get?, get?_erase_vertex, Diagram.has]
    by_cases hu : u = v
    · simp [hu]
    · simp [hu]
  refine ⟨by simpa using hv, by simp, ⟨fun u => ?_, fun a b => ?_, fun u hu => ?_⟩, fun u => ?_, link, fun u hu => ?_,
    fun u hu => ?_, r.next⟩
  · have hn := c.nodup u
    simp only [nearby, get?_erase_vertex] at hn ⊢
    by_cases hu : u = v
    · simp [if_pos hu]
    · simpa only [if_neg hu] using hn
  · show ((h.adjacency.erase v).get? a).bind _ = ((h.adjacency.erase v).get? b).bind _
    rw [link, link, hg.symm a b]
    simp [or_comm]
  · exact c.below u (vertex u |>.1 hu).1
  · rw [← r.vertex u]
    exact vertex u
  · rw [get?_erase_vertex, if_neg (by simpa using hu), r.kinds]
  · rw [get?_erase_vertex, if_neg (by simpa using hu), r.phases]

lemma removeVertices_spec (hg : g.Coherent) (vs : List Vertex) : Gives (g.removeVertices vs) (Without g vs) := by
  unfold removeVertices
  induction vs generalizing g with
  | nil => exact .pure ⟨by simp, .nil, hg, fun u => by simp, fun a b => by simp, fun _ _ => rfl, fun _ _ => rfl, rfl⟩
  | cons v vs ih =>
    refine .bind (removeVertex_spec hg v) fun h1 w1 => (ih w1.coherent).mono fun h2 w2 => ?_
    refine ⟨fun u hu => ?_, nodup_cons.2 ⟨fun hv => ?_, w2.nodup⟩, w2.coherent, fun u => ?_, fun a b => ?_, fun u hu => ?_,
      fun u hu => ?_, w2.next.trans w1.next⟩
    · rcases mem_cons.1 hu with rfl | hu
      · exact w1.present u (by simp)
      · exact ((w1.vertex u).1 (w2.present u hu)).1
    · -- what is taken away cannot be taken away once more
      exact ((w1.vertex v).1 (w2.present v hv)).2 (by simp)
    · rw [w2.vertex, w1.vertex]
      simp only [mem_cons]
      tauto
    · rw [w2.link, w1.link]
      by_cases ha : a = v <;> by_cases hb : b = v <;> simp [ha, hb]
    · rw [w2.kinds u fun hm => hu (by simp [hm]), w1.kinds u fun hm => hu (by simp at hm; simp [hm])]
    · rw [w2.phases u fun hm => hu (by simp [hm]), w1.phases u fun hm => hu (by simp at hm; simp [hm])]

/-! ## Adding vertices -/

/-- The second diagram is the first one with one more vertex, which has no neighbours. -/
structure Grown (g : Diagram) (k : VertexKind) (p : Rat) (h : Diagram) : Prop where
  vertex : ∀ u, h.has u ↔ u = g.next ∨ g.has u
  adjacency : ∀ u, h.adjacency.get? u = if u = g.next then some [] else g.adjacency.get? u
  kind : ∀ u, h.kindD u = if u = g.next then k else g.kindD u
  phase_next : (h.phase g.next).toRat = Rat.modTwo p
  phase : ∀ u, u ≠ g.next → h.phase u = g.phase u
  next : h.next = g.next + 1

lemma addBare_grown (g : Diagram) : Grown g .boundary 0 g.addBare := by
  refine ⟨fun u => ?_, fun u => ?_, fun u => ?_, ?_, fun u hu => ?_, rfl⟩
  · simp only [has, contains_iff_get?, addBare, get?_insert_vertex]
    by_cases hu : u = g.next
    · simp [hu]
    · simp [hu]
  · simp only [addBare, get?_insert_vertex]
  · simp only [kindD, addBare, get?_insert_vertex]
    split <;> rfl
  · simp only [phase, addBare, get?_insert_vertex, if_true]
    rw [Rat.modTwo]
    have : ((0 : Rat) / 2).floor = 0 := by decide +kernel
    decide +kernel
  · simp only [phase, addBare, get?_insert_vertex, if_neg hu]

lemma addVertex_spec (g : Diagram) (k : VertexKind) (q r : Coord) (p : Exact) :
    (g.addVertex k q r p).2 = g.next ∧ Grown g k p.toRat (g.addVertex k q r p).1 := by
  refine ⟨rfl, ?_⟩
  have h0 := addBare_grown g
  -- one step after another notes the kind, the position, the phase and the phase number
  set g1 := if k = .boundary then g.addBare else g.addBare.setKind g.next k with e1
  have h1 : Grown g k 0 g1 := by
    rw [e1]
    split
    · rename_i hk; subst hk; exact h0
    refine ⟨h0.vertex, h0.adjacency, fun u => ?_, h0.phase_next, h0.phase, h0.next⟩
    have := h0.kind u
    simp only [kindD, setKind, get?_insert_vertex] at this ⊢
    split
    · rfl
    · rw [this, if_neg ‹_›]
  set g2 := if q.same unset then g1 else g1.setQubit g.next q with e2
  have h2 : Grown g k 0 g2 := by
    rw [e2]
    split
    · exact h1
    · exact ⟨h1.vertex, h1.adjacency, h1.kind, h1.phase_next, h1.phase, h1.next⟩
  set g3 := if r.same unset then g2 else g2.setRow g.next r with e3
  have h3 : Grown g k 0 g3 := by
    rw [e3]
    split
    · exact h2
    · exact ⟨h2.vertex, h2.adjacency, h2.kind, h2.phase_next, h2.phase, h2.next⟩
  set g4 := if p.isZero then g3 else g3.setPhase g.next p with e4
  have h4 : Grown g k p.toRat g4 := by
    rw [e4]
    split
    · rename_i hp
      have hp : p.toRat = 0 := by simpa [Exact.isZero] using hp
      exact ⟨h3.vertex, h3.adjacency, h3.kind, hp ▸ h3.phase_next, h3.phase, h3.next⟩
    refine ⟨h3.vertex, h3.adjacency, h3.kind, ?_, fun u hu => ?_, h3.next⟩
    · simp only [phase, setPhase, get?_insert_vertex]; rfl
    · rw [← h3.phase u hu]
      simp only [phase, setPhase, get?_insert_vertex, if_neg hu]
  show Grown g k p.toRat (g4.startTracking g.next)
  unfold startTracking
  split
  · exact ⟨h4.vertex, h4.adjacency, h4.kind, h4.phase_next, h4.phase, h4.next⟩
  · exact h4

namespace Grown

variable {k : VertexKind} {p : Rat}

variable (hg : Grown g k p h)
include hg

lemma link (a b : Vertex) : h.link a b = if a = g.next then none else g.link a b := by
  rw [Diagram.link, hg.adjacency]
  split <;> rfl

lemma nearby (u : Vertex) : h.nearby u = if u = g.next then [] else g.nearby u := by
  rw [Diagram.nearby, hg.adjacency]
  by_cases hu : u = g.next
  · rw [if_pos hu, if_pos hu]; rfl
  · rw [if_neg hu, if_neg hu]; rfl

lemma link_of_coherent (hc : g.Coherent) (a b : Vertex) : h.link a b = g.link a b := by
  rw [hg.link]
  split
  · rename_i ha
    subst ha
    by_contra hn
    exact Nat.lt_irrefl _ (hc.below _ (Joined.has (joined_iff_ne_none.2 (Ne.symm hn))))
  · rfl

lemma coherent (hc : g.Coherent) : h.Coherent := by
  refine ⟨fun v => ?_, fun v w => ?_, fun v hv => ?_⟩
  · rw [hg.nearby]
    split
    · exact nodup_nil
    · exact hc.nodup v
  · rw [hg.link_of_coherent hc, hg.link_of_coherent hc, hc.symm]
  · rw [hg.next]
    rcases (hg.vertex v).1 hv with rfl | hv
    · exact Nat.lt_succ_self _
    · exact Nat.lt_succ_of_lt (hc.below v hv)

end Grown

/-! ## Phases and their numbers -/

/-- The two diagrams differ in their phases and the numbers of these only. -/
def Rephased (g h : Diagram) : Prop :=
  h = { g with phases := h.phases, phaseIndex := h.phaseIndex, phaseMult := h.phaseMult, master := h.master }

namespace Rephased

lemma refl (g : Diagram) : Rephased g g := rfl

lemma trans (h1 : Rephased g h) (h2 : Rephased h k) : Rephased g k := by
  unfold Rephased at *
  rw [h2, h1]

variable (r : Rephased g h)
include r

lemma adjacency : h.adjacency = g.adjacency := by rw [r]

lemma next : h.next = g.next := by rw [r]

lemma link (a b : Vertex) : h.link a b = g.link a b := by
  rw [Diagram.link, r.adjacency]; rfl

lemma joined : h.Joined a b ↔ g.Joined a b := by rw [Joined, r.link]; rfl

lemma nearby (v : Vertex) : h.nearby v = g.nearby v := by
  rw [Diagram.nearby, r.adjacency]; rfl

lemma has (v : Vertex) : h.has v = g.has v := by
  rw [Diagram.has, r.adjacency]; rfl

lemma kindD (v : Vertex) : h.kindD v = g.kindD v := by rw [r]; rfl

lemma edgeKind (e : Edge) : h.edgeKind e = g.edgeKind e := by
  rw [edgeKind_eq, edgeKind_eq, r.link]

lemma coherent (hg : g.Coherent) : h.Coherent := by
  refine ⟨fun v => ?_, fun v w => ?_, fun v hv => ?_⟩
  · rw [r.nearby]; exact hg.nodup v
  · rw [r.link, r.link, hg.symm]
  · rw [r.next]; exact hg.below v (r.has v ▸ hv)

end Rephased

lemma phase_congr (hp : h.phases = g.phases) (u : Vertex) : h.phase u = g.phase u := by rw [phase, hp]; rfl

variable (g : Diagram)

lemma setPhase_rephased (v : Vertex) (p : Exact) : Rephased g (g.setPhase v p) := rfl

lemma addToPhase_rephased (v : Vertex) (p : Exact) : Rephased g (g.addToPhase v p) := rfl

lemma swapPhaseIndex_spec (v w : Vertex) : Gives (g.swapPhaseIndex v w) fun h => Rephased g h ∧ h.phases = g.phases := by
  refine .ite (fun _ => .pure ⟨rfl, rfl⟩) fun _ => ?_
  exact .bind (.self _) fun i _ => .bind (.self _) fun j _ => .pure ⟨rfl, rfl⟩

lemma negatePhase_spec (v : Vertex) : Gives (g.negatePhase v) fun h => Rephased g h ∧ h.phases = g.phases := by
  unfold negatePhase
  split
  · exact .pure ⟨rfl, rfl⟩
  · exact .bind (.self _) fun m _ => .pure ⟨rfl, rfl⟩

lemma combine_spec (m : PhaseMaster) (x y : Fused) : Gives (g.combine m x y) fun h => Rephased g h ∧ h.phases = g.phases := by
  refine .ite (fun _ => .throw _) fun _ => .pure ⟨rfl, rfl⟩

lemma fuseInMaster_spec (m : PhaseMaster) (i j : Nat) : Gives (g.fuseInMaster m i j) fun h => Rephased g h ∧ h.phases = g.phases := by
  unfold fuseInMaster
  split
  · refine .bind (.self _) fun m1 _ => .bind (.self _) fun m2 _ => ?_
    dsimp only
    split
    · exact .pure ⟨rfl, rfl⟩
    refine .ite (fun _ => ?_) fun _ => combine_spec g _ _ _
    split
    · exact .bind (.self _) fun m3 _ => combine_spec g _ _ _
    · exact .pure ⟨rfl, rfl⟩
  · exact .pure ⟨rfl, rfl⟩

lemma fusePhases_spec (v w : Vertex) : Gives (g.fusePhases v w) fun h => Rephased g h ∧ h.phases = g.phases := by
  unfold fusePhases
  split
  · split
    · exact .bind (fuseInMaster_spec g _ _ _) fun h hr => .pure ⟨hr.1.trans rfl, hr.2⟩
    · exact .pure ⟨rfl, rfl⟩
  · exact .pure ⟨rfl, rfl⟩

end Diagram

/-! ## Edits that return -/

variable {α β σ : Type}

def Returns (x : Attempt α) : Prop := ∃ a, x = .ok a

namespace Returns

variable {x : Attempt α} {f : α → Attempt β} {P Q : α → Prop}

lemma ok (a : α) : Returns (.ok a : Attempt α) := ⟨a, rfl⟩

lemma pure (a : α) : Returns (pure a : Attempt α) := ok a

lemma bind (hx : Returns x) (hp : Gives x P) (hf : ∀ a, P a → Returns (f a)) : Returns (x >>= f) := by
  obtain ⟨a, rfl⟩ := hx
  exact hf a (hp a rfl)

lemma ite {c : Prop} [Decidable c] {y : Attempt α} (hx : c → Returns x) (hy : ¬ c → Returns y) : Returns (if c then x else y) := by
  split
  · exact hx ‹_›
  · exact hy ‹_›

lemma foldlM {l : List β} {f : σ → β → Attempt σ} {I : σ → Prop} (hr : ∀ s, ∀ b ∈ l, I s → Returns (f s b))
    (hg : ∀ s, ∀ b ∈ l, I s → Gives (f s b) I) : ∀ {s : σ}, I s → Returns (l.foldlM f s) := by
  intro s hs
  obtain ⟨t, e, -⟩ := Makes.foldlM (d := []) (fun _ s b hb hs => (hr s b hb hs).imp fun t e => ⟨e, hg s b hb hs t e⟩) hs
  exact ⟨t, e⟩

lemma orAbsent {o : Option α} (h : o.isSome) : Returns (orAbsent o) := by
  obtain ⟨a, rfl⟩ := Option.isSome_iff_exists.1 h
  exact ok a

end Returns

namespace Diagram

variable {g : Diagram} {v w : Vertex} {e : Edge} {k : EdgeKind}

section

variable (hv : g.has v)
include hv

lemma adjacent_returns : Returns (g.adjacent v) := by
  obtain ⟨t, ht⟩ := has_iff.1 hv
  exact .orAbsent (by rw [ht]; rfl)

lemma neighbours_returns : Returns (g.neighbours v) := .bind (adjacent_returns hv) (.self _) fun _ _ => .pure _

lemma setHalf_returns : Returns (g.setHalf v w k) := .bind (adjacent_returns hv) (.self _) fun _ _ => .pure _

end

lemma setEdgeKind_returns (h1 : g.has e.1) (h2 : g.has e.2) : Returns (g.setEdgeKind e k) :=
  .bind (setHalf_returns h1) (setHalf_spec g _ _ k) fun _ hh => setHalf_returns ((hh.1.vertex _).trans h2)

lemma addEdge_returns (hv : g.has v) (hw : g.has w) (k : EdgeKind) : Returns (g.addEdge (v, w) k) :=
  .bind (setEdgeKind_returns hv hw) (.self _) fun _ _ => .pure _

end Diagram

end ZXCircuits
