/-
  Moving phases out of the way.

  Before pivoting at a vertex with a phase of its own, that phase is moved to a new vertex.  `Pivot.Grafted` says what has been
  added while places are collected, and `Pivot.Budded` what the diagram is once the new edges are in.
-/
import ZXCircuits.Proofs.Rule.Pivot
import Mathlib.Data.List.Pairwise

namespace ZXCircuits.Pivot

open List Diagram Exact

variable {g h : Diagram} {p q : Place} {ps : List Place} {v w b : Vertex} {ts : List Stalk} {s : Consuming} {d : Diagram}
  {t : Stalk} {x : Sighting Consuming Vertex Place} {es : List Edge} {n : Vertex} {e : Edge} {d d' : Diagram} {axle : Vertex}
  {u : Vertex}

/-! ## New vertices -/

/-- The second diagram has the vertices of the first one; more vertices are of the first colour, and whole phases stay whole. -/
structure Larger (g d : Diagram) : Prop where
  coherent : d.Coherent
  vertex : ∀ u, g.has u → d.has u
  fresh : ∀ u, d.has u → g.has u ∨ (g.next ≤ u ∧ d.kindD u = .z)
  kind : ∀ u, g.has u → d.kindD u = g.kindD u
  whole : ∀ u, g.has u → (g.phase u).Whole → (d.phase u).Whole
  reduced : (∀ u, g.has u → (g.phase u).Reduced) → ∀ u, d.has u → (d.phase u).Reduced
  next : g.next ≤ d.next

lemma Larger.trans {d d' : Diagram} (h1 : Larger g d) (h2 : Larger d d') : Larger g d' := by
  refine ⟨h2.coherent, fun u hu => h2.vertex u (h1.vertex u hu), fun u hu => ?_,
    fun u hu => (h2.kind u (h1.vertex u hu)).trans (h1.kind u hu), fun u hu hw => ?_, fun hr => h2.reduced (h1.reduced hr),
    h1.next.trans h2.next⟩
  · rcases h2.fresh u hu with hd | ⟨hn, hz⟩
    · exact (h1.fresh u hd).imp id fun ⟨hn, hz⟩ => ⟨hn, (h2.kind u hd).trans hz⟩
    · exact .inr ⟨h1.next.trans hn, hz⟩
  · exact h2.whole u (h1.vertex u hu) (h1.whole u hu hw)

/-- New vertices have no edges. -/
structure Extended (g d : Diagram) : Prop extends Larger g d where
  link : ∀ a b, d.link a b = g.link a b

namespace Extended

variable {d d' : Diagram}

lemma refl (hg : g.Coherent) : Extended g g := ⟨⟨hg, fun _ => id, fun _ => .inl, fun _ _ => rfl, fun _ _ => id, id, le_rfl⟩, fun _ _ => rfl⟩

lemma trans (h1 : Extended g d) (h2 : Extended d d') : Extended g d' :=
  ⟨h1.toLarger.trans h2.toLarger, fun a b => (h2.link a b).trans (h1.link a b)⟩

lemma joined {a b : Vertex} (h1 : Extended g d) : d.Joined a b ↔ g.Joined a b := by rw [Diagram.Joined, h1.link]; rfl

end Extended

lemma addVertex_extended (hg : g.Coherent) (q r : Coord) (x : Exact) :
    Extended g (g.addVertex .z q r x).1 ∧ ((g.addVertex .z q r x).1.phase g.next).toRat = Rat.modTwo x.toRat ∧
      ∀ u, u ≠ g.next → (g.addVertex .z q r x).1.phase u = g.phase u := by
  obtain ⟨-, hgr⟩ := addVertex_spec g .z q r x
  have old : ∀ u, g.has u → u ≠ g.next := fun u hu => Nat.ne_of_lt (hg.below u hu)
  refine ⟨⟨⟨hgr.coherent hg, fun u hu => (hgr.vertex u).2 (.inr hu), fun u hu => ?_, fun u hu => ?_, fun u hu hw => ?_,
    fun hr u hu => ?_, ?_⟩, hgr.link_of_coherent hg⟩, hgr.phase_next, hgr.phase⟩
  · rcases (hgr.vertex u).1 hu with rfl | hu
    · exact .inr ⟨le_rfl, by rw [hgr.kind, if_pos rfl]⟩
    · exact .inl hu
  · rw [hgr.kind, if_neg (old u hu)]
  · rw [hgr.phase u (old u hu)]; exact hw
  · rcases (hgr.vertex u).1 hu with rfl | hu
    · rw [Reduced, hgr.phase_next]
      exact ⟨Rat.modTwo_nonneg _, Rat.modTwo_lt_two _⟩
    · rw [hgr.phase u (old u hu)]; exact hr u hu
  · rw [hgr.next]; exact Nat.le_succ _

lemma clearPhase_extended (hg : g.Coherent) (w : Vertex) : Extended g (g.setPhase w (.int 0)) := by
  have r := setPhase_rephased g w (.int 0)
  refine ⟨⟨r.coherent hg, fun _ => id, fun _ => .inl, fun _ _ => rfl, fun u _ hw => ?_, fun hr u hu => ?_, le_rfl⟩, fun _ _ => rfl⟩
  · rw [phase_setPhase]
    split
    · exact (whole_int 0).modTwo
    · exact hw
  rw [phase_setPhase]
  split
  · exact ⟨Rat.modTwo_nonneg _, Rat.modTwo_lt_two _⟩
  · exact hr u hu

lemma extended_of_rephased (r : Rephased g h) (hp : h.phases = g.phases) (hg : g.Coherent) : Extended g h :=
  ⟨⟨r.coherent hg, fun u hu => (r.has u).trans hu, fun u hu => .inl ((r.has u).symm.trans hu), fun u _ => r.kindD u,
    fun u _ hw => phase_congr hp u ▸ hw, fun hr u hu => phase_congr hp u ▸ hr u ((r.has u).symm.trans hu), r.next.ge⟩, r.link⟩

/-- The second diagram has the phase of a vertex on a new one, the leaf; other new vertices have none. -/
structure MovedOut (g : Diagram) (w leaf : Vertex) (news : List Vertex) (h : Diagram) : Prop where
  extended : Extended g h
  vertex : ∀ u, h.has u ↔ g.has u ∨ u ∈ news
  new : ∀ u ∈ news, g.next ≤ u ∧ (u = leaf ∨ (h.phase u).Whole)
  listed : leaf ∈ news
  moved : HalfTurns (g.phase w) (h.phase leaf)
  cleared : (h.phase w).Whole
  phase : ∀ u, g.has u → u ≠ w → h.phase u = g.phase u

namespace MovedOut

variable {d : Diagram} {leaf : Vertex} {news : List Vertex}

lemma card_le (hm : MovedOut g w leaf news h) (hw : g.has w) : h.nonClifford.card ≤ g.nonClifford.card := by
  refine card_nonClifford_le_of_move w leaf fun u hu hq => ⟨fun c => hq (c ▸ hm.cleared.quarters), ?_⟩
  by_cases hv : g.has u
  · right
    have hne : u ≠ w := fun c => hq (c ▸ hm.cleared.quarters)
    rw [hm.phase u hv hne] at hq
    exact mem_nonClifford.2 ⟨hv, hq⟩
  · left
    have hl := (hm.new u (((hm.vertex u).1 hu).resolve_left hv)).2.resolve_right fun c => hq c.quarters
    exact ⟨hl, mem_nonClifford.2 ⟨hw, fun c => hq (hl ▸ hm.moved.quarters_iff.2 c)⟩⟩

lemma inner (hm : MovedOut g w leaf news h) (hg : g.Coherent) (hu : u ∈ news) : h.has u ∧ h.kindD u ≠ .boundary := by
  have hv := (hm.vertex u).2 (.inr hu)
  refine ⟨hv, ?_⟩
  rw [((hm.extended.fresh u hv).resolve_left fun c => Nat.not_le.2 (hg.below u c) (hm.new u hu).1).2]
  decide

lemma congr (hm : MovedOut g w leaf news h) (he : Extended h d) (hv : ∀ u, d.has u = h.has u)
    (hp : ∀ u, d.phase u = h.phase u) : MovedOut g w leaf news d where
  extended := hm.extended.trans he
  vertex u := by rw [hv]; exact hm.vertex u
  new u hu := by rw [hp]; exact hm.new u hu
  listed := hm.listed
  moved := by rw [hp]; exact hm.moved
  cleared := by rw [hp]; exact hm.cleared
  phase u hu hne := by rw [hp]; exact hm.phase u hu hne

end MovedOut

lemma setQubit_extended (hg : g.Coherent) (v : Vertex) (q : Coord) : Extended g (g.setQubit v q) :=
  ⟨⟨⟨hg.nodup, hg.symm, hg.below⟩, fun _ => id, fun _ => .inl, fun _ _ => rfl, fun _ _ => id, id, le_rfl⟩, fun _ _ => rfl⟩

lemma has_of_addVertex (g : Diagram) (q r : Coord) (x : Exact) :
    (g.addVertex .z q r x).1.has g.next ∧ (g.addVertex .z q r x).1.kindD g.next ≠ .boundary := by
  obtain ⟨-, hgr⟩ := addVertex_spec g .z q r x
  refine ⟨(hgr.vertex _).2 (.inl rfl), ?_⟩
  rw [hgr.kind, if_pos rfl]
  decide

lemma movedOut_leaf (hg : g.Coherent) (hw : g.has w) (q r : Coord) :
    MovedOut g w g.next [g.next] ((g.addVertex .z q r (g.phase w)).1.setPhase w (.int 0)) := by
  obtain ⟨he, hn, hp⟩ := addVertex_extended hg q r (g.phase w)
  have hne : w ≠ g.next := Nat.ne_of_lt (hg.below w hw)
  have phase : ∀ u, u ≠ w → ((g.addVertex .z q r (g.phase w)).1.setPhase w (.int 0)).phase u =
      (g.addVertex .z q r (g.phase w)).1.phase u := fun u hu => by rw [phase_setPhase, if_neg hu]
  refine ⟨he.trans (clearPhase_extended he.coherent w), fun u => ?_, fun u hu => ?_, by simp, ?_, ?_, fun u hu huw => ?_⟩
  · rw [mem_singleton, or_comm]
    exact (addVertex_spec g .z q r (g.phase w)).2.vertex u
  · rw [mem_singleton.1 hu]
    exact ⟨le_rfl, .inl rfl⟩
  · rw [phase _ hne.symm]
    exact .of_modTwo hn
  · rw [phase_setPhase, if_pos rfl]
    exact (whole_int 0).modTwo
  · rw [phase u huw, hp u (Nat.ne_of_lt (hg.below u hu))]

lemma movedOut_axle (hg : g.Coherent) (hw : g.has w) (q r q' r' : Coord) :
    MovedOut g w g.next [g.next, (g.addVertex .z q r (g.phase w)).1.next]
      (((g.addVertex .z q r (g.phase w)).1.addVertex .z q' r' (.int 0)).1.setPhase w (.int 0)) := by
  obtain ⟨he, hn, hp⟩ := addVertex_extended hg q r (g.phase w)
  set d := (g.addVertex .z q r (g.phase w)).1 with hd
  obtain ⟨he', hn', hp'⟩ := addVertex_extended he.coherent q' r' (.int 0)
  set d' := (d.addVertex .z q' r' (.int 0)).1 with hd'
  have new := has_of_addVertex g q r (g.phase w)
  have hne : w ≠ g.next := Nat.ne_of_lt (hg.below w hw)
  have hnext : g.next ≠ d.next := Nat.ne_of_lt (he.coherent.below _ new.1)
  have old : ∀ u, g.has u → u ≠ d.next := fun u hu => Nat.ne_of_lt (he.coherent.below u (he.vertex u hu))
  have phase : ∀ u, u ≠ w → (d'.setPhase w (.int 0)).phase u = d'.phase u := fun u hu => by rw [phase_setPhase, if_neg hu]
  refine ⟨(he.trans he').trans (clearPhase_extended he'.coherent w), fun u => ?_, fun u hu => ?_, by simp, ?_, ?_, fun u hu huw => ?_⟩
  · have h1 := (addVertex_spec g .z q r (g.phase w)).2.vertex u
    have h2 := (addVertex_spec d .z q' r' (.int 0)).2.vertex u
    show d'.has u ↔ _
    simp only [mem_cons, not_mem_nil]
    tauto
  · simp only [mem_cons, not_mem_nil, or_false] at hu
    rcases hu with rfl | rfl
    · exact ⟨le_rfl, .inl rfl⟩
    refine ⟨he.next, .inr ?_⟩
    rw [phase _ (old w hw).symm, Whole, hn']
    exact (whole_int 0).modTwo
  · rw [phase _ hne.symm, hp' _ hnext]
    exact .of_modTwo hn
  · rw [phase_setPhase, if_pos rfl]
    exact (whole_int 0).modTwo
  · rw [phase u huw, hp' u (old u hu), hp u (Nat.ne_of_lt (hg.below u hu))]

/-! ## New edges -/

/-- An edge between different vertices that are not on the boundary. -/
structure Inside (d : Diagram) (e : Edge) : Prop where
  ne : e.1 ≠ e.2
  first : d.has e.1 ∧ d.kindD e.1 ≠ .boundary
  second : d.has e.2 ∧ d.kindD e.2 ≠ .boundary

lemma inside_edge (hne : v ≠ w) (hv : d.has v ∧ d.kindD v ≠ .boundary)
    (hw : d.has w ∧ d.kindD w ≠ .boundary) : Inside d (edge v w) := by
  unfold edge
  split
  · exact ⟨hne, hv, hw⟩
  · exact ⟨hne.symm, hw, hv⟩

lemma Inside.extended (hi : Inside d e) (he : Extended d d') : Inside d' e :=
  ⟨hi.ne, ⟨he.vertex _ hi.first.1, he.kind _ hi.first.1 ▸ hi.first.2⟩, he.vertex _ hi.second.1, he.kind _ hi.second.1 ▸ hi.second.2⟩

/-- A place with the vertex that takes on the phase of its second end, all new vertices and all new edges. -/
structure Stalk where
  place : Place
  leaf : Vertex
  news : List Vertex
  edges : List Edge

def Stalk.Distinct (t t' : Stalk) : Prop := ∀ u ∈ t.news, u ∉ t'.news

instance : Std.Symm Stalk.Distinct := ⟨fun _ _ h u hu hu' => h u hu' hu⟩

/-- What has been added for some places, but for the edges, which are listed. -/
structure Grafted (g : Diagram) (ts : List Stalk) (d : Diagram) (es : List Edge) : Prop where
  extended : Extended g d
  card : d.nonClifford.card ≤ g.nonClifford.card
  edges : ∀ e, e ∈ es ↔ ∃ t ∈ ts, e ∈ t.edges
  inside : ∀ e ∈ es, Inside d e
  vertex : ∀ u, d.has u → g.has u ∨ ∃ t ∈ ts, u ∈ t.news
  new : ∀ t ∈ ts, ∀ u ∈ t.news, g.next ≤ u ∧ d.has u ∧ (u = t.leaf ∨ (d.phase u).Whole)
  moved : ∀ t ∈ ts, t.leaf ∈ t.news ∧ HalfTurns (g.phase t.place.second) (d.phase t.leaf)
  cleared : ∀ t ∈ ts, (d.phase t.place.second).Whole
  phase : ∀ u, g.has u → (∀ t ∈ ts, u ≠ t.place.second) → d.phase u = g.phase u
  distinct : ts.Pairwise Stalk.Distinct

lemma Grafted.nil (hg : g.Coherent) : Grafted g [] g [] := by
  refine ⟨.refl hg, le_rfl, by simp, by simp, fun u hu => .inl hu, by simp, by simp, by simp, fun _ _ _ => rfl, .nil⟩

lemma Grafted.cons (hg : g.Coherent) (ht : Grafted g ts d es)
    (hm : MovedOut d t.place.second t.leaf t.news d') (hw : g.has t.place.second)
    (hne : ∀ t' ∈ ts, t'.place.second ≠ t.place.second) (hold : ∀ t' ∈ ts, g.has t'.place.second)
    (hi : ∀ e ∈ t.edges, Inside d' e) : Grafted g (t :: ts) d' (t.edges ++ es) := by
  have old : ∀ u, g.has u → ∀ t' ∈ ts, u ∉ t'.news := fun u hu t' ht' c => Nat.not_le.2 (hg.below u hu) (ht.new t' ht' u c).1
  have phase : ∀ t' ∈ ts, ∀ u ∈ t'.news, d'.phase u = d.phase u := fun t' ht' u hu =>
    hm.phase u (ht.new t' ht' u hu).2.1 fun c => old _ hw t' ht' (c ▸ hu)
  refine ⟨ht.extended.trans hm.extended, (hm.card_le (ht.extended.vertex _ hw)).trans ht.card, fun e => ?_, ?_,
    fun u hu => ?_, ?_, ?_, ?_, fun u hu huw => ?_, pairwise_cons.2 ⟨fun t' ht' u hu hu' => ?_, ht.distinct⟩⟩
  · simp [ht.edges]
  · exact forall_mem_append.2 ⟨hi, fun e he => (ht.inside e he).extended hm.extended⟩
  · simp only [mem_cons, exists_eq_or_imp]
    rcases (hm.vertex u).1 hu with hu | hu
    · exact (ht.vertex u hu).imp id .inr
    · exact .inr (.inl hu)
  · refine forall_mem_cons.2 ⟨fun u hu => ?_, fun t' ht' u hu => ?_⟩
    · exact ⟨ht.extended.next.trans (hm.new u hu).1, (hm.vertex u).2 (.inr hu), (hm.new u hu).2⟩
    · obtain ⟨h1, h2, h3⟩ := ht.new t' ht' u hu
      exact ⟨h1, (hm.vertex u).2 (.inl h2), by rw [phase t' ht' u hu]; exact h3⟩
  · refine forall_mem_cons.2 ⟨⟨hm.listed, ?_⟩, fun t' ht' => ⟨(ht.moved t' ht').1, ?_⟩⟩
    · rw [← ht.phase _ hw fun t' ht' => (hne t' ht').symm]
      exact hm.moved
    · rw [phase t' ht' _ (ht.moved t' ht').1]
      exact (ht.moved t' ht').2
  · refine forall_mem_cons.2 ⟨hm.cleared, fun t' ht' => ?_⟩
    rw [hm.phase _ (ht.extended.vertex _ (hold t' ht')) (hne t' ht')]
    exact ht.cleared t' ht'
  · obtain ⟨h1, h2⟩ := forall_mem_cons.1 huw
    rw [hm.phase u (ht.extended.vertex u hu) h1, ht.phase u hu h2]
  · exact Nat.not_le.2 (ht.extended.coherent.below u (ht.new t' ht' u hu').2.1) (hm.new u hu).1

/-- More edges are not at the boundary. -/
structure Grows (g h : Diagram) : Prop extends Larger g h where
  joined : ∀ a b, h.Joined a b → g.Joined a b ∨ (a ≠ b ∧ h.kindD a ≠ .boundary ∧ h.kindD b ≠ .boundary)
  plain : g.Plain → h.Plain

/-- The second diagram has all that the first one has, and a stalk for each of some places. -/
structure Budded (g : Diagram) (ts : List Stalk) (d : Diagram) : Prop where
  grows : Grows g d
  tCount : d.tCount ≤ g.tCount
  joined : ∀ a b, d.Joined a b ↔ g.Joined a b ∨ ∃ t ∈ ts, Spanned t.edges a b
  vertex : ∀ u, d.has u → g.has u ∨ ∃ t ∈ ts, u ∈ t.news
  new : ∀ t ∈ ts, ∀ u ∈ t.news, g.next ≤ u ∧ d.has u ∧ (u = t.leaf ∨ (d.phase u).Whole)
  moved : ∀ t ∈ ts, t.leaf ∈ t.news ∧ HalfTurns (g.phase t.place.second) (d.phase t.leaf)
  cleared : ∀ t ∈ ts, (d.phase t.place.second).Whole
  phase : ∀ u, g.has u → (∀ t ∈ ts, u ≠ t.place.second) → HalfTurns (g.phase u) (d.phase u)
  distinct : ts.Pairwise Stalk.Distinct

lemma Extended.grows (he : Extended g d) (hi : ∀ e ∈ es, Inside d e) (hm : Merged d es h) : Grows g h := by
  have listed : ∀ a b, Spanned es a b → a ≠ b ∧ d.kindD a ≠ .boundary ∧ d.kindD b ≠ .boundary := by
    rintro a b ⟨e, hes, ⟨rfl, rfl⟩ | ⟨rfl, rfl⟩⟩
    · exact ⟨(hi e hes).ne, (hi e hes).first.2, (hi e hes).second.2⟩
    · exact ⟨(hi e hes).ne.symm, (hi e hes).second.2, (hi e hes).first.2⟩
  have larger : Larger d h := ⟨hm.coherent, fun u => (hm.kept.vertex u).trans, fun u hu => .inl ((hm.kept.vertex u).symm.trans hu),
    fun u _ => hm.kept.kindD u, fun u _ => (hm.kept.phase u).isWhole,
    fun hr u hu => (hm.kept.phase u).reduced (hr u ((hm.kept.vertex u).symm.trans hu)), hm.kept.next.ge⟩
  refine ⟨he.toLarger.trans larger, fun a b hab => ?_, fun hp => hm.plain fun v w k hk => hp v w k (he.link v w ▸ hk)⟩
  rcases hm.joined hab with hab | hab
  · exact .inl (he.joined.1 hab)
  · rw [hm.kept.kindD, hm.kept.kindD]
    exact .inr (listed a b hab)

lemma Grafted.budded (ht : Grafted g ts d es) {k : EdgeKind}
    (hk : k = .regular ∨ k = .hadamard) : Gives (d.addEdges es.reverse k) (Budded g ts) := by
  have added : Gives (d.addEdges es.reverse k) (Merged d es.reverse) :=
    addEdges_merged ht.extended.coherent hk fun e he a b hb => ⟨e, he, hb⟩
  refine (added.and (addEdges_joined es.reverse k d)).mono fun d' ⟨hm, hj⟩ => ?_
  have spanned : ∀ a b, Spanned es.reverse a b ↔ ∃ t ∈ ts, Spanned t.edges a b := by
    intro a b
    constructor
    · rintro ⟨e, he, hb⟩
      obtain ⟨t, ht', he⟩ := (ht.edges e).1 (mem_reverse.1 he)
      exact ⟨t, ht', e, he, hb⟩
    · rintro ⟨t, ht', e, he, hb⟩
      exact ⟨e, mem_reverse.2 ((ht.edges e).2 ⟨t, ht', he⟩), hb⟩
  refine ⟨ht.extended.grows (fun e he => ht.inside e (mem_reverse.1 he)) hm, ?_, fun a b => ?_, fun u hu => ?_,
    fun t ht' u hu => ?_, fun t ht' => ⟨(ht.moved t ht').1, (ht.moved t ht').2.trans (hm.kept.phase _)⟩,
    fun t ht' => (hm.kept.phase _).isWhole (ht.cleared t ht'), fun u hu huw => ?_, ht.distinct⟩
  · rw [tCount_eq_card, tCount_eq_card, hm.kept.nonClifford]
    exact ht.card
  · rw [← spanned, ← ht.extended.joined]
    exact ⟨hm.joined, hj a b⟩
  · exact ht.vertex u ((hm.kept.vertex u).symm.trans hu)
  · obtain ⟨h1, h2, h3⟩ := ht.new t ht' u hu
    exact ⟨h1, (hm.kept.vertex u).trans h2, h3.imp id (hm.kept.phase u).isWhole⟩
  · rw [← ht.phase u hu huw]
    exact hm.kept.phase u

lemma Fits.budded (hg : g.Coherent) (hb : Budded g ts d) (hf : Fits g p) : Fits d p := by
  have old : ∀ {a b}, g.Joined a b → d.Joined a b := fun h => (hb.joined _ _).2 (.inl h)
  have back : ∀ {a n}, d.Joined a n → d.kindD n = .boundary → g.Joined a n ∧ g.kindD n = .boundary := by
    intro a n hn hk
    have hj := (hb.grows.joined a n hn).resolve_right fun c => c.2.2 hk
    exact ⟨hj, hb.grows.kind n (hg.vertex hj) ▸ hk⟩
  refine ⟨old hf.joined, hf.ne, hf.few, ?_, ?_, fun n hn hk => ?_, fun n hn hk => ?_, fun v other b he => ?_⟩
  · rw [hb.grows.kind _ hf.joined.has]; exact hf.first_inner
  · rw [hb.grows.kind _ (hg.vertex hf.joined)]; exact hf.second_inner
  · exact hf.first_boundary n (back hn hk).1 (back hn hk).2
  · exact hf.second_boundary n (back hn hk).1 (back hn hk).2
  · exact ⟨old (hf.apart v other b he).1, (hf.apart v other b he).2⟩

/-- Places with the diagram in which the phases of their second ends are on stalks. -/
structure Prepared (g : Diagram) (ts : List Stalk) (x : Diagram × List Place) : Prop where
  places : x.2.reverse = ts.map (·.place)
  budded : Budded g ts x.1
  apart : ts.Pairwise fun t t' => Apart t.place t'.place

namespace Prepared

variable {ts : List Stalk} {x : Diagram × List Place} {t t' : Stalk}

variable (hx : Prepared g ts x)
include hx

lemma stalk (hp : p ∈ x.2) : ∃ t ∈ ts, t.place = p := mem_map.1 (hx.places ▸ mem_reverse.2 hp)

lemma place (ht : t ∈ ts) : t.place ∈ x.2 := mem_reverse.1 (hx.places ▸ mem_map_of_mem ht)

lemma pairwise : x.2.Pairwise Apart := by
  have reversed : x.2.reverse.Pairwise Apart := hx.places ▸ pairwise_map.2 hx.apart
  exact (pairwise_reverse.1 reversed).imp fun h => Std.Symm.symm _ _ h

lemma first_ne (hf : ∀ t ∈ ts, t.place.first ≠ t.place.second) (ht : t ∈ ts) (ht' : t' ∈ ts) : t.place.first ≠ t'.place.second := by
  by_cases hc : t = t'
  · exact hc ▸ hf t ht
  · exact (hx.apart.forall ht ht' hc).2.1

lemma phaseless (hf : ∀ t ∈ ts, Fits x.1 t.place) (ht : t ∈ ts) (hv : g.has t.place.first)
    (hw : (g.phase t.place.first).Whole) : Phaseless x.1 t.place :=
  ⟨(hx.budded.phase _ hv fun _ ht' => hx.first_ne (fun t ht => (hf t ht).ne) ht ht').isWhole hw, hx.budded.cleared t ht⟩

end Prepared

lemma Budded.stalk_unique {t t' : Stalk} (hb : Budded g ts d) (ht : t ∈ ts)
    (ht' : t' ∈ ts) (hu : u ∈ t.news) (hu' : u ∈ t'.news) : t = t' := by
  by_contra hne
  exact hb.distinct.forall ht ht' hne u hu hu'

lemma Budded.not_old (hg : g.Coherent) (hb : Budded g ts d) (ht : t ∈ ts)
    (hu : u ∈ t.news) : ¬ g.has u := fun c => Nat.not_le.2 (hg.below u c) (hb.new t ht u hu).1

lemma isPauli_congr (hp : d.phase v = g.phase v) : d.isPauli v = g.isPauli v := by
  rw [isPauli, isPauli, hp]

/-! ## Places away from the boundary -/

lemma isInterior_spec (hg : g.Coherent) (hv : isInterior g v) : ∀ n, g.Joined v n → g.kindD n = .z ∧ ∀ y, ¬ g.Hangs n y := by
  intro n hn
  simp only [isInterior, Bool.and_eq_true, all_eq_true, beq_iff_eq, bne_iff_ne] at hv
  obtain ⟨hk, hl⟩ := hv.2 n (mem_nearby.2 hn)
  exact ⟨hk, fun y hy => hl (by rw [hg.nearby_of_hangs hy]; rfl)⟩

/-- What is seen at an edge between a vertex without a phase of its own and one with another phase. -/
structure Lifted (s : Pending) (e : Edge) (x : Sighting Pending Edge Place) : Prop where
  between : Between e x.place.first x.place.second
  kind : s.diagram.kindD x.place.first = .z ∧ s.diagram.kindD x.place.second = .z
  whole : (s.diagram.phase x.place.first).Whole
  own : s.diagram.isPauli x.place.second = false
  inner : ∀ n, s.diagram.Joined x.place.first n ∨ s.diagram.Joined x.place.second n → s.diagram.kindD n = .z ∧ ∀ y, ¬ s.diagram.Hangs n y
  boundary : x.place.firstBoundary = [] ∧ x.place.secondBoundary = [s.diagram.next]
  moved : MovedOut s.diagram x.place.second s.diagram.next [s.diagram.next] x.state.diagram
  edges : x.state.edges = edge s.diagram.next x.place.second :: s.edges
  touched : x.touched = s.diagram.edgesAt (s.diagram.nearby x.place.first) ++ s.diagram.edgesAt (s.diagram.nearby x.place.second)

/-- **A phase moved away from the boundary** comes on a new vertex. -/
theorem gadgetAt_spec {s : Pending} (hs : s.diagram.Coherent) (h1 : s.diagram.has e.1)
    (h2 : s.diagram.has e.2) : Gives (gadgetAt s e) fun o => ∀ x, o = some x → Lifted s e x := by
  refine .ite (fun _ => .pure fun x hx => by cases hx) fun hz => ?_
  simp only [Bool.or_eq_true, bne_iff_ne, not_or, not_not] at hz
  have ends : ∀ v w, pauliFirst s.diagram e = some (v, w) → Between e v w ∧ s.diagram.isPauli v ∧ s.diagram.isPauli w = false := by
    intro v w hvw
    unfold pauliFirst at hvw
    split at hvw
    · cases hvw; exact ⟨.inl ⟨rfl, rfl⟩, ‹_›, ‹_›⟩
    · cases hvw; exact ⟨.inr ⟨rfl, rfl⟩, ‹_›, ‹_›⟩
    · cases hvw
  split
  · exact .pure fun x hx => by cases hx
  rename_i v w hvw
  obtain ⟨hbt, hpv, hpw⟩ := ends v w hvw
  have hw : s.diagram.has w := by
    rcases hbt with ⟨-, rfl⟩ | ⟨-, rfl⟩
    · exact h2
    · exact h1
  have kind : s.diagram.kindD v = .z ∧ s.diagram.kindD w = .z := by
    rcases hbt with ⟨rfl, rfl⟩ | ⟨rfl, rfl⟩
    · exact hz
    · exact hz.symm
  refine .ite (fun _ => .pure fun x hx => by cases hx) fun hin => ?_
  simp only [Bool.or_eq_true, Bool.not_eq_true', not_or, Bool.not_eq_false] at hin
  refine .bind (.self _) fun row _ => ?_
  have hm := movedOut_leaf hs hw (.int (-2)) row
  have hq := setQubit_extended hm.extended.coherent v unset
  refine .bind (swapPhaseIndex_spec _ w _) fun d ⟨r, hd⟩ => .pure ?_
  rintro _ ⟨rfl⟩
  refine ⟨hbt, kind, whole_of_isPauli hpv, hpw, fun n hn => hn.elim ?_ ?_, ⟨rfl, rfl⟩, ?_, rfl, rfl⟩
  · exact isInterior_spec hs hin.1 n
  · exact isInterior_spec hs hin.2 n
  · exact hm.congr (hq.trans (extended_of_rephased r hd hq.coherent)) r.has (phase_congr hd)

/-- A place in the diagram away from the boundary, and its stalk: the leaf is the vertex that is kept apart. -/
structure Lifts (g : Diagram) (t : Stalk) : Prop where
  joined : g.Joined t.place.first t.place.second
  ne : t.place.first ≠ t.place.second
  kind : g.kindD t.place.first = .z ∧ g.kindD t.place.second = .z
  whole : (g.phase t.place.first).Whole
  own : g.isPauli t.place.second = false
  inner : ∀ n, g.Joined t.place.first n ∨ g.Joined t.place.second n → g.kindD n = .z ∧ ∀ y, ¬ g.Hangs n y
  boundary : t.place.firstBoundary = [] ∧ t.place.secondBoundary = [t.leaf]
  news : t.news = [t.leaf]
  edges : t.edges = [edge t.leaf t.place.second]

/-- What has been seen while places away from the boundary are collected. -/
structure Raised (g : Diagram) (s : Pending) (gone : Std.TreeSet Edge) (ts : List Stalk) : Prop where
  grafted : Grafted g ts s.diagram s.edges
  lifts : ∀ t ∈ ts, Lifts g t
  apart : ts.Pairwise fun t t' => Apart t.place t'.place
  used : ∀ t ∈ ts, ∀ n, g.Joined t.place.first n ∨ g.Joined t.place.second n → ∀ e ∈ g.edges, n = e.1 ∨ n = e.2 → gone.contains e = true

lemma Raised.cons {s : Pending} {gone : Std.TreeSet Edge} {x : Sighting Pending Edge Place}
    (hg : g.Coherent) (hs : Raised g s gone ts) (he : e ∈ g.edges) (hn : gone.contains e = false) (hx : Lifted s e x) :
    Raised g x.state (gone.insertMany x.touched)
      (⟨x.place, s.diagram.next, [s.diagram.next], [edge s.diagram.next x.place.second]⟩ :: ts) := by
  have hext := hs.grafted.extended
  obtain ⟨hlt, hj⟩ := mem_edges.1 he
  -- the ends of the edge are not next to an earlier place, and so they are no ends of one
  have free : ∀ t ∈ ts, ∀ n, g.Joined t.place.first n ∨ g.Joined t.place.second n → n ≠ x.place.first ∧ n ≠ x.place.second := by
    intro t ht n hnt
    have away : ∀ m, m = e.1 ∨ m = e.2 → n ≠ m := fun m hm c => by
      have := hs.used t ht n hnt e he (c ▸ hm)
      rw [hn] at this
      cases this
    rcases hx.between with ⟨h1, h2⟩ | ⟨h1, h2⟩
    · exact ⟨away _ (.inl h1), away _ (.inr h2)⟩
    · exact ⟨away _ (.inr h1), away _ (.inl h2)⟩
  have apart : ∀ t ∈ ts, Apart x.place t.place := by
    intro t ht
    have h1 := free t ht _ (.inr (hg.back (hs.lifts t ht).joined))
    have h2 := free t ht _ (.inl (hs.lifts t ht).joined)
    exact ⟨h1.1.symm, h2.1.symm, h1.2.symm, h2.2.symm⟩
  have joined : g.Joined x.place.first x.place.second := by
    rcases hx.between with ⟨h1, h2⟩ | ⟨h1, h2⟩ <;> rw [h1, h2]
    · exact hj
    · exact hg.back hj
  have ne : x.place.first ≠ x.place.second := by
    rcases hx.between with ⟨h1, h2⟩ | ⟨h1, h2⟩ <;> rw [h1, h2]
    · exact Nat.ne_of_lt hlt
    · exact Nat.ne_of_gt hlt
  have hv := joined.has
  have hw := hg.vertex joined
  have pv : s.diagram.phase x.place.first = g.phase x.place.first := hs.grafted.phase _ hv fun t ht => (apart t ht).2.1
  have pw : s.diagram.phase x.place.second = g.phase x.place.second := hs.grafted.phase _ hw fun t ht => (apart t ht).2.2.2
  refine ⟨?_, forall_mem_cons.2 ⟨?_, hs.lifts⟩, pairwise_cons.2 ⟨apart, hs.apart⟩, forall_mem_cons.2 ⟨?_, ?_⟩⟩
  · rw [hx.edges]
    refine hs.grafted.cons hg hx.moved hw (fun t ht => (apart t ht).2.2.2.symm) (fun t ht => hg.vertex (hs.lifts t ht).joined) ?_
    intro f hf
    rw [mem_singleton.1 hf]
    have below := hext.coherent.below _ (hext.vertex _ hw)
    refine inside_edge (Nat.ne_of_gt below) (hx.moved.inner hext.coherent (by simp)) ⟨hx.moved.extended.vertex _ (hext.vertex _ hw), ?_⟩
    rw [hx.moved.extended.kind _ (hext.vertex _ hw), hx.kind.2]; decide
  · refine ⟨joined, ne, ?_, pv ▸ hx.whole, isPauli_congr pw ▸ hx.own, fun n hnn => ?_, hx.boundary, rfl, rfl⟩
    · rw [← hext.kind _ hv, ← hext.kind _ hw]
      exact hx.kind
    have hnv : g.has n := hnn.elim hg.vertex hg.vertex
    obtain ⟨hk, hh⟩ := hx.inner n (hnn.imp hext.joined.2 hext.joined.2)
    exact ⟨hext.kind n hnv ▸ hk, fun y hy => hh y fun z => hext.joined.trans (hy z)⟩
  · intro n hnn f hf hnf
    rw [contains_insertMany_iff, hx.touched, mem_append]
    right
    by_contra hc
    rw [not_or] at hc
    have hf' : f ∈ s.diagram.edges := by
      rw [mem_edges] at hf ⊢
      exact ⟨hf.1, hext.joined.2 hf.2⟩
    have h1 := ends_of_not_mem_edgesAt hext.coherent hf' hc.1
    have h2 := ends_of_not_mem_edgesAt hext.coherent hf' hc.2
    rw [mem_nearby, mem_nearby, hext.joined, hext.joined] at h1 h2
    rcases hnf with rfl | rfl
    · exact hnn.elim h1.1 h2.1
    · exact hnn.elim h1.2 h2.2
  · intro t ht n hnt f hf hnf
    rw [contains_insertMany_iff]
    exact .inl (hs.used t ht n hnt f hf hnf)

lemma Lifts.hangs (hg : g.Coherent) (hb : Budded g ts d) (hl : ∀ t ∈ ts, Lifts g t) (ht : t ∈ ts) : d.Hangs t.leaf t.place.second := by
  have new := hb.not_old hg ht (hb.moved t ht).1
  intro y
  rw [hb.joined]
  constructor
  · rintro (hj | ⟨t', ht', e, he, hbt⟩)
    · exact absurd hj.has new
    rw [(hl t' ht').edges, mem_singleton] at he
    rw [he] at hbt
    rcases between_edge.1 hbt with ⟨hleaf, rfl⟩ | ⟨hleaf, -⟩
    · rw [hb.stalk_unique ht ht' (hb.moved t ht).1 (by rw [hleaf]; exact (hb.moved t' ht').1)]
    · exact absurd (hleaf ▸ (hg.back (hl t' ht').joined).has) new
  rintro rfl
  refine .inr ⟨t, ht, edge t.leaf t.place.second, ?_, between_edge.2 (.inl ⟨rfl, rfl⟩)⟩
  rw [(hl t ht).edges]
  simp

lemma Lifts.end_eq (hl : Lifts g t) {v other b : Vertex} (he : End t.place v other b) :
    v = t.place.second ∧ other = t.place.first ∧ b = t.leaf := by
  rcases he with ⟨-, -, hb⟩ | ⟨h1, h2, hb⟩
  · rw [hl.boundary.1] at hb; cases hb
  · rw [hl.boundary.2] at hb
    exact ⟨h1, h2, (Option.some.inj hb).symm⟩

lemma Lifts.fits (hg : g.Coherent) (hb : Budded g ts d) (hl : ∀ t ∈ ts, Lifts g t) (ht : t ∈ ts) : Fits d t.place := by
  have hlt := hl t ht
  have hv := hlt.joined.has
  have hw := hg.vertex hlt.joined
  -- the vertices next to an end are of the first colour, also the new ones
  have inner : ∀ a n, a = t.place.first ∨ a = t.place.second → d.Joined a n → d.kindD n ≠ .boundary := by
    intro a n ha hn hk
    have hj := (hb.grows.joined a n hn).resolve_right fun c => c.2.2 hk
    have hkn := hlt.inner n (ha.imp (fun c => by rwa [c] at hj) fun c => by rwa [c] at hj)
    rw [hb.grows.kind n (hg.vertex hj), hkn.1] at hk
    cases hk
  refine ⟨(hb.joined _ _).2 (.inl hlt.joined), hlt.ne, ?_, ?_, ?_, fun n hn hk => ?_, fun n hn hk => ?_, fun v other b he => ?_⟩
  · simp [hlt.boundary.1, hlt.boundary.2]
  · rw [hb.grows.kind _ hv, hlt.kind.1]; decide
  · rw [hb.grows.kind _ hw, hlt.kind.2]; decide
  · exact absurd hk (inner _ n (.inl rfl) hn)
  · exact absurd hk (inner _ n (.inr rfl) hn)
  · obtain ⟨rfl, rfl, rfl⟩ := hlt.end_eq he
    refine ⟨hb.grows.coherent.back (Lifts.hangs hg hb hl ht).joined, fun c => ?_⟩
    exact hb.not_old hg ht (hb.moved t ht).1 (c ▸ hv)

/-- **Places away from the boundary**: the phases of their second ends are on leaves. -/
theorem findGadget_spec (hg : g.Coherent) (accept : Edge → Bool) (limit : Limit) :
    Gives (findGadget g accept limit) fun x => ∃ ts, Prepared g ts x ∧ ∀ t ∈ ts, Lifts g t := by
  have run : Gives (scan gadgetAt (g.edgeCandidates accept) limit { diagram := g } ∅ []) fun r =>
      ∃ gone, ∃ ts, r.2.reverse = ts.map (·.place) ∧ Raised g r.1 gone ts := by
    refine scan_spec (I := fun s gone found => ∃ ts, found = ts.map (·.place) ∧ Raised g s gone ts) _ limit
      (s := { diagram := g }) ⟨[], rfl, .nil hg, by simp, .nil, by simp⟩ ?_
    rintro s gone _ e he hn ⟨ts, rfl, hs⟩
    have he := (mem_edgeCandidates.1 he).1
    have hj := (mem_edges.1 he).2
    have hext := hs.grafted.extended
    refine (gadgetAt_spec hext.coherent (hext.vertex _ hj.has) (hext.vertex _ (hg.vertex hj))).mono ?_
    exact fun o ho x hx => ⟨_, rfl, hs.cons hg he hn (ho x hx)⟩
  refine .bind run ?_
  rintro ⟨s, found⟩ ⟨gone, ts, hf, hs⟩
  refine .bind (hs.grafted.budded (.inl rfl)) fun d hd => .pure ⟨ts, ⟨hf, hd, hs.apart⟩, hs.lifts⟩

lemma findGadget_nil (g : Diagram) (accept : Edge → Bool) : Gives (findGadget g accept none) fun x => x.2 = [] → x.1 = g := by
  refine .bind (scan_nil (g.edgeCandidates accept) ({ diagram := g } : Pending)) ?_
  rintro ⟨s, found⟩ hs
  by_cases hf : found = []
  · obtain ⟨rfl, -⟩ := hs hf
    exact .bind (P := fun d => d = g) (.pure rfl) fun d hd => .pure fun _ => hd
  · exact .bind (.self _) fun d _ => .pure fun c => absurd c hf

/-! ## Places next to the boundary -/

/-- A neighbour that does not rule out the search for a partner. -/
structure Open (s : Consuming) (n : Vertex) : Prop where
  inner : s.diagram.kindD n ≠ .boundary
  joint : (s.diagram.nearby n).length ≠ 1
  unused : s.consumed.contains n = false

lemma partnerOf_cons_of_open (hn : Open s n) (rest : List Vertex) (best : Option Partner) :
    partnerOf s (n :: rest) best = match s.diagram.borderOf n with
      | [b] => if (s.diagram.phase n).den == 2 || !(best.filter (·.vertex != 0)).isSome then partnerOf s rest (some ⟨n, b⟩)
          else partnerOf s rest best
      | _ => partnerOf s rest best := by
  rw [partnerOf, if_neg (by simp [hn.inner, hn.joint, hn.unused])]
  rfl

lemma open_of_partnerOf {rest : List Vertex} {best : Option Partner} {x : Partner}
    (h : partnerOf s (n :: rest) best = some x) : Open s n := by
  rw [partnerOf] at h
  split at h
  · cases h
  rename_i hc
  simp only [Bool.or_eq_true, beq_iff_eq, not_or, Bool.not_eq_true] at hc
  exact ⟨hc.1.1, hc.1.2, hc.2⟩

/-- **A partner** is a neighbour with one neighbour on the boundary, and there is one only if no neighbour rules it out. -/
theorem partnerOf_eq_some {x : Partner} (l : List Vertex) : ∀ {best : Option Partner}, partnerOf s l best = some x → (∀ n ∈ l, Open s n) ∧
      (best = some x ∨ (x.vertex ∈ l ∧ s.diagram.borderOf x.vertex = [x.bound])) := by
  induction l with
  | nil => exact fun h => ⟨by simp, .inl (Option.eq_some_of_filter_eq_some h)⟩
  | cons n rest ih =>
    intro best h
    have hn := open_of_partnerOf h
    rw [partnerOf_cons_of_open hn] at h
    have keep : partnerOf s rest best = some x → (∀ m ∈ n :: rest, Open s m) ∧
        (best = some x ∨ (x.vertex ∈ n :: rest ∧ s.diagram.borderOf x.vertex = [x.bound])) := fun h =>
      ⟨forall_mem_cons.2 ⟨hn, (ih h).1⟩, (ih h).2.imp id fun ⟨h1, h2⟩ => ⟨by simp [h1], h2⟩⟩
    split at h
    · rename_i b hb
      split at h
      · obtain ⟨hr, hx⟩ := ih h
        refine ⟨forall_mem_cons.2 ⟨hn, hr⟩, .inr ?_⟩
        rcases hx with hx | ⟨h1, h2⟩
        · cases hx
          exact ⟨by simp, hb⟩
        · exact ⟨by simp [h1], h2⟩
      · exact keep h
    · exact keep h

lemma partnerOf_eq_none (l : List Vertex) : ∀ {best : Option Partner},
    partnerOf s l best = none → (∀ n ∈ l, Open s n ∧ n ≠ 0) → (∀ x, best = some x → x.vertex ≠ 0) →
      best = none ∧ ∀ n ∈ l, (s.diagram.borderOf n).length ≠ 1 := by
  induction l with
  | nil =>
    intro best h _ hb
    refine ⟨?_, by simp⟩
    cases best with
    | none => rfl
    | some x => simp [partnerOf, hb x rfl] at h
  | cons n rest ih =>
    intro best h hl hb
    obtain ⟨⟨hn, h0⟩, hl⟩ := forall_mem_cons.1 hl
    rw [partnerOf_cons_of_open hn] at h
    split at h
    · split at h
      · -- a partner that has been taken is never given up
        have := (ih h hl fun x hx => by cases hx; exact h0).1
        cases this
      · rename_i hc
        have hnone := (ih h hl hb).1
        simp [hnone] at hc
    rename_i hne
    obtain ⟨h1, h2⟩ := ih h hl hb
    refine ⟨h1, forall_mem_cons.2 ⟨fun hlen => ?_, h2⟩⟩
    obtain ⟨b, hb⟩ := length_eq_one_iff.1 hlen
    exact hne b hb

lemma Open.not_hangs (hs : s.diagram.Coherent) (hn : Open s n) : ∀ y, ¬ s.diagram.Hangs n y :=
  fun _ hy => hn.joint (by rw [hs.nearby_of_hangs hy]; rfl)

/-- What is seen at a vertex next to one at the boundary. -/
structure Sighted (s : Consuming) (v : Vertex) (x : Sighting Consuming Vertex Place) (axle : Vertex) : Prop where
  first : x.place.first = v
  kind : s.diagram.kindD v = .z
  whole : (s.diagram.phase v).Whole
  joined : s.diagram.Joined v x.place.second
  opens : ∀ n, s.diagram.Joined v n → Open s n
  firstBoundary : x.place.firstBoundary = []
  secondBoundary : s.diagram.borderOf x.place.second = x.place.secondBoundary ∧ x.place.secondBoundary.length = 1
  moved : MovedOut s.diagram x.place.second s.diagram.next [s.diagram.next, axle] x.state.diagram
  edges : x.state.edges = edge s.diagram.next axle :: edge x.place.second axle :: s.edges
  axle : s.diagram.next < axle
  touched : ∀ n, n ∈ x.touched ↔ s.diagram.Joined v n ∨ s.diagram.Joined x.place.second n
  consumed : x.state.consumed = s.consumed.insertMany x.touched

/-- **A phase moved away next to the boundary** comes on a new vertex behind another new one. -/
theorem boundaryAt_spec (hs : s.diagram.Coherent) (v : Vertex) :
    Gives (boundaryAt s v) fun o => ∀ x, o = some x → ∃ axle, Sighted s v x axle := by
  refine .ite (fun _ => .pure fun x hx => by cases hx) fun hv => ?_
  simp only [Bool.or_eq_true, bne_iff_ne, Bool.not_eq_true', not_or, not_not, Bool.not_eq_false] at hv
  split
  · exact .pure fun x hx => by cases hx
  rename_i w bound hp
  obtain ⟨hopen, hx⟩ := partnerOf_eq_some _ hp
  obtain ⟨hwv, hwb⟩ := hx.resolve_left (by simp)
  have hj : s.diagram.Joined v w := mem_nearby.1 hwv
  have hw : s.diagram.has w := hs.vertex hj
  refine .bind (.self _) fun row0 _ => ?_
  generalize row0.add _ = row
  have hm := movedOut_axle hs hw (.int (-2)) row unset row
  refine .bind (swapPhaseIndex_spec _ w _) fun d ⟨r, hd⟩ => .pure ?_
  rintro _ ⟨rfl⟩
  have hm' := hm.congr (extended_of_rephased r hd hm.extended.coherent) r.has (phase_congr hd)
  obtain ⟨-, hgr⟩ := addVertex_spec s.diagram .z (.int (-2)) row (s.diagram.phase w)
  refine ⟨_, rfl, hv.1, whole_of_isPauli hv.2, hj, fun n hn => hopen n (mem_nearby.2 hn), rfl, ⟨hwb, rfl⟩, hm', rfl, ?_,
    fun n => ?_, rfl⟩
  · rw [hgr.next]; exact Nat.lt_succ_self _
  · rw [mem_append, mem_nearby, mem_nearby, hm'.extended.joined, hm'.extended.joined]

/-- A place next to the boundary, and its stalk: the leaf is on an axle next to the second end. -/
structure Borders (g : Diagram) (t : Stalk) : Prop where
  fits : Fits g t.place
  bound : Bound g t.place
  kind : g.kindD t.place.first = .z
  whole : (g.phase t.place.first).Whole
  opens : ∀ n, g.Joined t.place.first n → g.kindD n ≠ .boundary ∧ ∀ y, ¬ g.Hangs n y
  boundary : t.place.firstBoundary = [] ∧ t.place.secondBoundary.length = 1
  stalk : ∃ axle, t.news = [t.leaf, axle] ∧ t.edges = [edge t.leaf axle, edge t.place.second axle] ∧ t.leaf ≠ axle

/-- What has been seen while places next to the boundary are collected. -/
structure Seen (g : Diagram) (s : Consuming) (gone : Std.TreeSet Vertex) (ts : List Stalk) : Prop where
  grafted : Grafted g ts s.diagram s.edges
  borders : ∀ t ∈ ts, Borders g t
  apart : ts.Pairwise fun t t' => Apart t.place t'.place
  used : ∀ t ∈ ts, ∀ n, g.Joined t.place.first n ∨ g.Joined t.place.second n → gone.contains n = true ∧ s.consumed.contains n = true

lemma Sighted.fits (hg : g.Coherent) (he : Extended g s.diagram) (hx : Sighted s v x axle) : Fits g x.place ∧ Bound g x.place := by
  have hj : g.Joined v x.place.second := he.joined.1 hx.joined
  have hborder : ∀ b, b ∈ x.place.secondBoundary ↔ g.Joined x.place.second b ∧ g.kindD b = .boundary := by
    intro b
    rw [← hx.secondBoundary.1, mem_borderOf, he.joined]
    exact and_congr_right fun h => by rw [he.kind b (hg.vertex h)]
  have inner : ∀ n, g.Joined v n → g.kindD n ≠ .boundary := fun n hn hk =>
    (hx.opens n (he.joined.2 hn)).inner ((he.kind n (hg.vertex hn)).trans hk)
  have first : g.kindD x.place.first ≠ .boundary := by
    rw [hx.first, ← he.kind v hj.has, hx.kind]
    decide
  have ends : ∀ v other b, End x.place v other b → other = x.place.first ∧ g.Joined v b ∧ g.kindD b = .boundary := by
    rintro v other b (⟨-, -, hb⟩ | ⟨rfl, rfl, hb⟩)
    · rw [hx.firstBoundary] at hb; cases hb
    · exact ⟨rfl, (hborder b).1 (mem_of_mem_head? hb)⟩
  obtain ⟨b, hb⟩ := length_eq_one_iff.1 hx.secondBoundary.2
  refine ⟨⟨hx.first ▸ hj, ?_, ?_, first, inner _ hj, fun n hn hk => ?_, fun n hn hk => ?_, fun v other b he => ?_⟩,
    fun v other b he => (ends v other b he).2.2⟩
  · -- a partner has two neighbours, or one on the boundary besides the vertex itself
    intro c
    rw [hx.first] at c
    obtain ⟨hjb, hkb⟩ := (hborder b).1 (by simp [hb])
    rw [← c] at hjb
    exact inner b hjb hkb
  · simp [hx.firstBoundary, hb]
  · exact absurd hk (inner n (hx.first ▸ hn))
  · have := (hborder n).2 ⟨hn, hk⟩
    rw [hb, mem_singleton] at this
    rw [hb, this]
  · obtain ⟨rfl, hj, hk⟩ := ends v other b he
    exact ⟨hj, fun c => first (c ▸ hk)⟩

lemma Seen.cons {gone : Std.TreeSet Vertex}
    (hg : g.Coherent) (hs : Seen g s gone ts) (hv : gone.contains v = false) (hx : Sighted s v x axle) :
    Seen g x.state (gone.insertMany x.touched) (⟨x.place, s.diagram.next, [s.diagram.next, axle],
      [edge s.diagram.next axle, edge x.place.second axle]⟩ :: ts) := by
  have hext := hs.grafted.extended
  obtain ⟨hfit, hbound⟩ := hx.fits hg hext
  have hj := hfit.joined
  have hw : g.has x.place.second := hg.vertex hj
  -- neither end is next to an earlier place, and the ends of a place are next to each other
  have apart : ∀ t ∈ ts, Apart x.place t.place := by
    intro t ht
    have hjt := (hs.borders t ht).fits.joined
    have used1 := hs.used t ht t.place.first (.inr (hg.back hjt))
    have used2 := hs.used t ht t.place.second (.inl hjt)
    have hopen := (hx.opens _ hx.joined).unused
    rw [Apart, hx.first]
    refine ⟨fun c => ?_, fun c => ?_, fun c => ?_, fun c => ?_⟩
    · rw [← c, hv] at used1; cases used1.1
    · rw [← c, hv] at used2; cases used2.1
    · rw [← c, hopen] at used1; cases used1.2
    · rw [← c, hopen] at used2; cases used2.2
  have pv : s.diagram.phase v = g.phase v := hs.grafted.phase v (hx.first ▸ hj.has) fun t ht => hx.first ▸ (apart t ht).2.1
  have new := fun u => hx.moved.inner (u := u) hext.coherent
  refine ⟨?_, forall_mem_cons.2 ⟨?_, hs.borders⟩, pairwise_cons.2 ⟨apart, hs.apart⟩, forall_mem_cons.2 ⟨?_, ?_⟩⟩
  · rw [hx.edges]
    refine hs.grafted.cons (t := ⟨x.place, s.diagram.next, [s.diagram.next, axle],
      [edge s.diagram.next axle, edge x.place.second axle]⟩) hg hx.moved hw (fun t ht => (apart t ht).2.2.2.symm)
      (fun t ht => hg.vertex (hs.borders t ht).fits.joined) fun e he => ?_
    have below := hext.coherent.below _ (hext.vertex _ hw)
    have second : x.state.diagram.kindD x.place.second ≠ .boundary := by
      rw [hx.moved.extended.kind _ (hext.vertex _ hw)]
      exact (hx.opens _ hx.joined).inner
    simp only [mem_cons, not_mem_nil, or_false] at he
    rcases he with rfl | rfl
    · exact inside_edge (Nat.ne_of_lt hx.axle) (new _ (by simp)) (new _ (by simp))
    · exact inside_edge (Nat.ne_of_lt (below.trans hx.axle)) ⟨hx.moved.extended.vertex _ (hext.vertex _ hw), second⟩ (new _ (by simp))
  · refine ⟨hfit, hbound, ?_, ?_, fun n hn => ?_, ⟨hx.firstBoundary, hx.secondBoundary.2⟩, axle, rfl, rfl, Nat.ne_of_lt hx.axle⟩
    · rw [hx.first, ← hext.kind v (hx.first ▸ hj.has)]
      exact hx.kind
    · rw [hx.first, ← pv]
      exact hx.whole
    · have hn : g.Joined v n := hx.first ▸ hn
      have hopen := hx.opens n (hext.joined.2 hn)
      refine ⟨fun c => hopen.inner ((hext.kind n (hg.vertex hn)).trans c), fun y hy => ?_⟩
      exact hopen.not_hangs hext.coherent y fun z => hext.joined.trans (hy z)
  · intro n hn
    have : n ∈ x.touched := by
      rw [hx.touched, hext.joined, hext.joined, ← hx.first]
      exact hn
    rw [hx.consumed, contains_insertMany_iff, contains_insertMany_iff]
    exact ⟨.inr this, .inr this⟩
  · intro t ht n hn
    rw [hx.consumed, contains_insertMany_iff, contains_insertMany_iff]
    exact ⟨.inl (hs.used t ht n hn).1, .inl (hs.used t ht n hn).2⟩

/-- **Places next to the boundary**: the phases of their second ends are on leaves behind axles. -/
theorem findBoundary_spec (hg : g.Coherent) (accept : Vertex → Bool) (limit : Limit) :
    Gives (findBoundary g accept limit) fun x => ∃ ts, Prepared g ts x ∧ ∀ t ∈ ts, Borders g t := by
  have run : Gives (scan boundaryAt (g.vertexCandidates accept) limit { diagram := g } ∅ []) fun r =>
      ∃ gone, ∃ ts, r.2.reverse = ts.map (·.place) ∧ Seen g r.1 gone ts := by
    refine scan_spec (I := fun s gone found => ∃ ts, found = ts.map (·.place) ∧ Seen g s gone ts) _ limit
      (s := { diagram := g }) ⟨[], rfl, .nil hg, by simp, .nil, by simp⟩ ?_
    rintro s gone _ v - hv ⟨ts, rfl, hs⟩
    refine (boundaryAt_spec hs.grafted.extended.coherent v).mono fun o ho x hx => ?_
    obtain ⟨axle, hx⟩ := ho x hx
    exact ⟨_, rfl, hs.cons hg hv hx⟩
  refine .bind run ?_
  rintro ⟨s, found⟩ ⟨gone, ts, hf, hs⟩
  refine .bind (hs.grafted.budded (.inr rfl)) fun d hd => .pure ⟨ts, ⟨hf, hd, hs.apart⟩, hs.borders⟩

lemma partnerOf_of_boundaryAt (h : boundaryAt s v = .ok none) (hk : s.diagram.kindD v = .z)
    (hp : s.diagram.isPauli v) : partnerOf s (s.diagram.nearby v) none = none := by
  cases hx : partnerOf s (s.diagram.nearby v) none with
  | none => rfl
  | some x =>
    have some : Gives (boundaryAt s v) fun o => o ≠ none := by
      rw [boundaryAt, if_neg (by simp [hk, hp])]
      simp only [hx]
      refine .bind (.self _) fun row _ => .bind (.self _) fun d _ => .pure ?_
      simp
    exact absurd rfl (some _ h)

lemma findBoundary_nil (g : Diagram) (accept : Vertex → Bool) : Gives (findBoundary g accept none) fun x =>
      x.2 = [] → x.1 = g ∧ ∀ v ∈ g.vertexCandidates accept, boundaryAt { diagram := g } v = .ok none := by
  refine .bind (scan_nil (g.vertexCandidates accept) ({ diagram := g } : Consuming)) ?_
  rintro ⟨s, found⟩ hs
  by_cases hf : found = []
  · obtain ⟨rfl, hl⟩ := hs hf
    exact .bind (P := fun d => d = g) (.pure rfl) fun d hd => .pure fun _ => ⟨hd, hl⟩
  · exact .bind (.self _) fun d _ => .pure fun c => absurd c hf

end ZXCircuits.Pivot
