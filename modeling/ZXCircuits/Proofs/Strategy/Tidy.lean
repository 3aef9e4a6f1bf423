/-
  Well-formed diagrams stay tidy.

  `Diagram.WellFormed` is what callers promise.  The Clifford strategy keeps a little less: a vertex of the boundary may lose its
  neighbour or get half a turn (`Diagram.Neat`, `Diagram.Tidy`).  A rule keeps the boundary neat because a new neighbour of a boundary vertex
  takes the place of an old one that goes, and nothing else does (`Neat.applied`).
-/
import ZXCircuits.Proofs.Strategy.Stuck

namespace ZXCircuits

open List

namespace Diagram

variable {g h k : Diagram}

/-- Edges go both ways between different vertices and are regular ones or Hadamard edges, vertices are of the boundary or
    coloured, phases are below a full turn, and a vertex of the boundary has one neighbour and no phase. -/
structure WellFormed (g : Diagram) : Prop where
  coherent : g.Coherent
  edges : ∀ v ∈ g.vertices, ∀ w ∈ g.nearby v, w ≠ v ∧ (g.edgeKind (v, w) = .regular ∨ g.edgeKind (v, w) = .hadamard)
  kinds : ∀ v ∈ g.vertices, g.kindD v = .boundary ∨ g.kindD v = .z ∨ g.kindD v = .x
  phases : ∀ v ∈ g.vertices, 0 ≤ (g.phase v).toRat ∧ (g.phase v).toRat < 2
  boundary : ∀ v ∈ g.vertices, g.kindD v = .boundary → (g.nearby v).length = 1 ∧ (g.phase v).toRat = 0

/-- What is left of it while rules are applied. -/
structure Neat (g : Diagram) : Prop where
  coherent : g.Coherent
  plain : g.Plain
  loopless : ∀ v, ¬ g.Joined v v
  kinds : ∀ v, g.has v → g.kindD v = .boundary ∨ g.kindD v = .z ∨ g.kindD v = .x
  reduced : ∀ v, g.has v → (g.phase v).Reduced
  single : ∀ b x y, g.kindD b = .boundary → g.Joined b x → g.Joined b y → x = y
  whole : ∀ b, g.has b → g.kindD b = .boundary → (g.phase b).Whole

/-- The same for a diagram with vertex zero on the boundary. -/
structure Tidy (g : Diagram) : Prop extends Neat g where
  zero : g.has 0 → g.kindD 0 = .boundary
  next : 0 < g.next

lemma WellFormed.neat (hg : g.WellFormed) : g.Neat where
  coherent := hg.coherent
  plain v w k hvw := by
    have hj : g.Joined v w := by rw [Joined, hvw]; rfl
    have := (hg.edges v (mem_vertices.2 hj.has) w (mem_nearby.2 hj)).2
    rwa [edgeKind_eq, hvw] at this
  loopless v hj := (hg.edges v (mem_vertices.2 hj.has) v (mem_nearby.2 hj)).1 rfl
  kinds v hv := hg.kinds v (mem_vertices.2 hv)
  reduced v hv := hg.phases v (mem_vertices.2 hv)
  single b x y hb hx hy := by
    obtain ⟨n, hn⟩ := length_eq_one_iff.1 (hg.boundary b (mem_vertices.2 hx.has) hb).1
    rw [← mem_nearby, hn, mem_singleton] at hx hy
    rw [hx, hy]
  whole b hb hk := ⟨0, by rw [(hg.boundary b (mem_vertices.2 hb) hk).2]; simp⟩

lemma WellFormed.tidy (hg : g.WellFormed) (h0 : g.has 0) (hk : g.kindD 0 = .boundary) : g.Tidy :=
  ⟨hg.neat, fun _ => hk, hg.coherent.below 0 h0⟩

lemma Neat.rephased (hg : g.Neat) (hr : Rephased g k) (hred : ∀ v, (g.phase v).Reduced → (k.phase v).Reduced)
    (hw : ∀ b, g.kindD b = .boundary → (g.phase b).Whole → (k.phase b).Whole) : k.Neat where
  coherent := hr.coherent hg.coherent
  plain v w c hc := hg.plain v w c (hr.link v w ▸ hc)
  loopless v hj := hg.loopless v (hr.joined.1 hj)
  kinds v hv := by rw [hr.kindD]; exact hg.kinds v ((hr.has v).symm.trans hv)
  reduced v hv := hred v (hg.reduced v ((hr.has v).symm.trans hv))
  single b x y hb hx hy := hg.single b x y (hr.kindD b ▸ hb) (hr.joined.1 hx) (hr.joined.1 hy)
  whole b hb hk := by
    rw [hr.kindD] at hk
    exact hw b hk (hg.whole b ((hr.has b).symm.trans hb) hk)

/-- **An effect keeps a diagram neat** if its pairs are pairs of different vertices, and a pair at the boundary replaces an old
    neighbour that goes, by one that the old neighbour determines. -/
theorem Neat.applied {e : Effect} (hg : g.Neat) (ha : Applied g e h) (hne : ∀ f ∈ Table.keys e.table, f.1 ≠ f.2)
    (R : Vertex → Vertex → Vertex → Prop)
    (replaces : ∀ b x, g.kindD b = .boundary → Spanned (Table.keys e.table) b x →
      ∃ o, g.Joined b o ∧ (o ∈ e.vertices ∨ Spanned e.edges b o) ∧ R b o x)
    (unique : ∀ b o x y, R b o x → R b o y → x = y) : h.Neat where
  coherent := ha.coherent
  plain := ha.plain hg.plain
  loopless v hj := by
    rcases (ha.joined v v hj).1 with hj | ⟨f, hf, ⟨h1, h2⟩ | ⟨h1, h2⟩⟩
    · exact hg.loopless v hj
    · exact hne f hf (h1.symm.trans h2)
    · exact hne f hf (h2.symm.trans h1)
  kinds v hv := by rw [ha.kind v hv]; exact hg.kinds v (ha.vertex v hv).1
  reduced v hv := (ha.phase v hv).reduced (hg.reduced v (ha.vertex v hv).1)
  single b x y hb hx hy := by
    rw [ha.kind b hx.has] at hb
    have stays : ∀ n, h.Joined b n → n ∉ e.vertices ∧ ¬ Spanned e.edges b n := fun n hn =>
      ⟨(ha.vertex n (ha.coherent.vertex hn)).2, (ha.joined b n hn).2⟩
    have gone : ∀ n o, h.Joined b n → g.Joined b n → g.Joined b o → o ∈ e.vertices ∨ Spanned e.edges b o → False := by
      intro n o hn hgn hgo ho
      obtain rfl := hg.single b n o hb hgn hgo
      exact ho.elim (stays n hn).1 (stays n hn).2
    -- two old neighbours are one, an old one is not replaced, and two new ones replace the same
    rcases (ha.joined b x hx).1 with hx' | hx' <;> rcases (ha.joined b y hy).1 with hy' | hy'
    · exact hg.single b x y hb hx' hy'
    · obtain ⟨o, ho, hgo, -⟩ := replaces b y hb hy'
      exact (gone x o hx hx' ho hgo).elim
    · obtain ⟨o, ho, hgo, -⟩ := replaces b x hb hx'
      exact (gone y o hy hy' ho hgo).elim
    · obtain ⟨o, ho, -, rx⟩ := replaces b x hb hx'
      obtain ⟨o', ho', -, ry⟩ := replaces b y hb hy'
      obtain rfl := hg.single b o o' hb ho ho'
      exact unique b o x y rx ry
  whole b hb hk := by
    rw [ha.kind b hb] at hk
    exact (ha.phase b hb).isWhole (hg.whole b (ha.vertex b hb).1 hk)

lemma Tidy.of_applied {e : Effect} (hg : g.Tidy) (hr : Rephased g k) (ha : Applied k e h) (hn : h.Neat) : h.Tidy where
  toNeat := hn
  zero hv := by
    rw [ha.kind 0 hv, hr.kindD]
    exact hg.zero ((hr.has 0).symm.trans (ha.vertex 0 hv).1)
  next := by
    rw [ha.next, hr.next]
    exact hg.next

lemma Neat.recoloured (hg : g.Neat) (hr : Recoloured g h) : h.Neat := by
  have border : ∀ b, h.kindD b = .boundary → g.kindD b = .boundary := by
    intro b hb
    rcases hr.kind b with c | ⟨-, c⟩
    · exact c ▸ hb
    · rw [c] at hb; cases hb
  refine ⟨hr.coherent, hr.plain hg.plain, fun v hj => hg.loopless v ((hr.joined v v).1 hj), fun v hv => ?_, fun v hv => ?_,
    fun b x y hb hx hy => ?_, fun b hb hk => ?_⟩
  · rcases hr.kind v with c | ⟨-, c⟩
    · rw [c]; exact hg.kinds v ((hr.vertex v).symm.trans hv)
    · exact .inr (.inl c)
  · rw [hr.phase]; exact hg.reduced v ((hr.vertex v).symm.trans hv)
  · exact hg.single b x y (border b hb) ((hr.joined b x).1 hx) ((hr.joined b y).1 hy)
  · rw [hr.phase]; exact hg.whole b ((hr.vertex b).symm.trans hb) (border b hk)

lemma Tidy.recoloured (hg : g.Tidy) (hr : Recoloured g h) : h.Tidy where
  toNeat := hg.toNeat.recoloured hr
  zero hv := by
    have hz := hg.zero ((hr.vertex 0).symm.trans hv)
    rcases hr.kind 0 with c | ⟨c, -⟩
    · exact c.trans hz
    · rw [hz] at c; cases c
  next := hr.next ▸ hg.next

lemma Neat.grows (hg : g.Neat) (hh : Pivot.Grows g h) : h.Neat := by
  have old : ∀ b, h.has b → h.kindD b = .boundary → g.has b ∧ g.kindD b = .boundary := by
    intro b hb hk
    rcases hh.fresh b hb with hv | ⟨-, hz⟩
    · exact ⟨hv, hh.kind b hv ▸ hk⟩
    · rw [hz] at hk; cases hk
  have joined : ∀ b x, h.kindD b = .boundary → h.Joined b x → g.Joined b x := fun b x hb hx =>
    (hh.joined b x hx).resolve_right fun c => c.2.1 hb
  refine ⟨hh.coherent, hh.plain hg.plain, fun v hj => ?_, fun v hv => ?_, hh.reduced hg.reduced, fun b x y hb hx hy => ?_,
    fun b hb hk => ?_⟩
  · rcases hh.joined v v hj with hj | hj
    · exact hg.loopless v hj
    · exact hj.1 rfl
  · rcases hh.fresh v hv with hv | ⟨-, hz⟩
    · rw [hh.kind v hv]; exact hg.kinds v hv
    · exact .inr (.inl hz)
  · exact hg.single b x y (old b hx.has hb).2 (joined b x hb hx) (joined b y hb hy)
  · exact hh.whole b (old b hb hk).1 (hg.whole b (old b hb hk).1 (old b hb hk).2)

lemma Tidy.grows (hg : g.Tidy) (hh : Pivot.Grows g h) : h.Tidy where
  toNeat := hg.toNeat.grows hh
  zero hv := by
    rcases hh.fresh 0 hv with hv | ⟨hn, -⟩
    · rw [hh.kind 0 hv]; exact hg.zero hv
    · exact absurd hg.next (Nat.not_lt.2 hn)
  next := hg.next.trans_le hh.next

end Diagram

/-! ## Rules -/

namespace Rule

open Diagram

variable {g h : Diagram}

lemma FusionRound.neat (hg : g.Neat) (hr : FusionRound g h) : h.Neat := by
  cases hr with
  | idle => exact hg
  | @applied ps k _ e fits apart fused _ ha =>
    have inner : ∀ p ∈ ps, ∀ b, g.kindD b = .boundary → b ≠ p.keep := by
      rintro p hp b hb rfl
      exact (fits p hp).inner hb
    have hk : k.Neat := hg.rephased fused.rephased fused.reduced fun b hb hw => by
      rw [fused.away b fun p hp => inner p hp b hb]; exact hw
    refine hk.applied ha (fun f hf => ?_) (fun _ o x => ∃ p ∈ ps, o = p.remove ∧ x = p.keep) ?_ ?_
    · obtain ⟨p, -, h1, h2, -⟩ := fused.moves f hf
      exact h1 ▸ h2.symm
    · rintro b x hb ⟨f, hf, hbx⟩
      rw [fused.rephased.kindD] at hb
      obtain ⟨p, hp, h1, h2, h3⟩ := fused.moves f hf
      rcases hbx with ⟨rfl, rfl⟩ | ⟨rfl, rfl⟩
      · exact absurd h1 (inner p hp _ hb)
      refine ⟨p.remove, fused.rephased.joined.2 (hg.coherent.back h3), .inl ?_, p, hp, rfl, h1⟩
      rw [fused.vertices]
      exact mem_map_of_mem hp
    · rintro b o x y ⟨p, hp, rfl, rfl⟩ ⟨q, hq, hr, rfl⟩
      by_contra hne
      exact (apart.forall hp hq fun c => hne (c ▸ rfl)).2.2.2 hr

lemma fusion_tidy (accept : Edge → Bool) : (fusion accept).Keeps Tidy := by
  intro g hg
  refine (fusion_round hg.coherent accept).mono fun x hx => ?_
  have hn := hx.neat hg.toNeat
  cases hx with
  | idle => exact hg
  | applied _ _ fused _ ha => exact hg.of_applied fused.rephased ha hn

lemma IdentityRound.neat (hg : g.Neat) (hr : IdentityRound g h) : h.Neat := by
  cases hr with
  | idle => exact hg
  | @applied ps _ e fits vertices table ha =>
    have ne : ∀ p ∈ ps, p.first ≠ p.second := by
      intro p hp c
      have := hg.coherent.nodup p.vertex
      rw [(fits p hp).neighbours, c] at this
      simp at this
    have joined : ∀ p ∈ ps, g.Joined p.first p.vertex ∧ g.Joined p.second p.vertex := by
      intro p hp
      rw [hg.coherent.joined_comm, hg.coherent.joined_comm (w := p.vertex), ← mem_nearby, ← mem_nearby, (fits p hp).neighbours]
      simp
    refine hg.applied ha (fun f hf => ?_) (fun b o x => ∃ p ∈ ps, o = p.vertex ∧ Between (p.first, p.second) b x) ?_ ?_
    · obtain ⟨p, hp, rfl⟩ := table f hf
      exact ne p hp
    · rintro b x - ⟨f, hf, hbx⟩
      obtain ⟨p, hp, rfl⟩ := table f hf
      refine ⟨p.vertex, ?_, .inl (vertices ▸ mem_map_of_mem hp), p, hp, rfl, hbx⟩
      rcases hbx with ⟨rfl, -⟩ | ⟨rfl, -⟩
      · exact (joined p hp).1
      · exact (joined p hp).2
    · rintro b o x y ⟨p, hp, rfl, hx⟩ ⟨q, hq, hpq, hy⟩
      -- a place is determined by its vertex
      obtain rfl : p = q := Option.some.inj ((fits p hp).place.symm.trans (hpq ▸ (fits q hq).place))
      rcases hx with ⟨h1, h2⟩ | ⟨h1, h2⟩ <;> rcases hy with ⟨h3, h4⟩ | ⟨h3, h4⟩ <;> grind

variable (accept : Vertex → Bool)

lemma identity_tidy : (identity accept).Keeps Tidy := by
  intro g hg
  refine (identity_round hg.coherent accept).mono fun x hx => ?_
  have hn := hx.neat hg.toNeat
  cases hx with
  | idle => exact hg
  | applied _ _ _ ha => exact hg.of_applied (.refl g) ha hn

lemma ComplementRound.neat (hg : g.Neat) (hr : ComplementRound g h) : h.Neat := by
  cases hr with
  | idle => exact hg
  | @applied ps k _ e fits spread table ha =>
    -- a quarter turn is not on the boundary, and so its neighbours are not
    have inner : ∀ p ∈ ps, ∀ n ∈ p.neighbours, g.kindD n ≠ .boundary := by
      intro p hp n hn hb
      rw [(fits p hp).kind n hn] at hb
      obtain ⟨m, hm⟩ := hg.whole p.vertex (fits p hp).vertex hb
      rcases (fits p hp).phase with c | c
      · have : (1 : ℚ) = ((2 * m : ℤ) : ℚ) := by push_cast; linarith
        have : (1 : ℤ) = 2 * m := by exact_mod_cast this
        omega
      · have : (3 : ℚ) = ((2 * m : ℤ) : ℚ) := by push_cast; linarith
        have : (3 : ℤ) = 2 * m := by exact_mod_cast this
        omega
    have hk : k.Neat := hg.rephased spread.rephased spread.reduced fun b hb hw => by
      rw [spread.away b fun p hp hm => inner p hp b hm hb]; exact hw
    refine hk.applied ha (fun f hf => (table f hf).1) (fun _ _ _ => False) ?_ (by tauto)
    rintro b x hb ⟨f, hf, hbx⟩
    rw [spread.rephased.kindD] at hb
    obtain ⟨-, p, hp, h1, h2⟩ := table f hf
    rcases hbx with ⟨rfl, -⟩ | ⟨rfl, -⟩
    · exact absurd hb (inner p hp _ h1)
    · exact absurd hb (inner p hp _ h2)

lemma localComplement_tidy : (localComplement accept).Keeps Tidy := by
  intro g hg
  refine (localComplement_round hg.coherent accept).mono fun x hx => ?_
  have hn := hx.neat hg.toNeat
  cases hx with
  | idle => exact hg
  | applied _ spread _ ha => exact hg.of_applied spread.rephased ha hn

/-- **Pivoting keeps the boundary neat**: a boundary vertex next to an end gets the other end for a neighbour. -/
theorem PivotRound.neat (hg : g.Neat) (hr : PivotRound g h) : h.Neat := by
  cases hr with
  | @applied ps k _ e _ fits apart collects ha =>
    have hk : k.Neat := hg.rephased collects.rephased (fun v => (collects.turned v).reduced) fun b _ => (collects.turned b).isWhole
    have inner : ∀ p ∈ ps, ∀ a b, Pivot.Crosses g p a b → g.kindD a ≠ .boundary := by
      intro p hp a b hc hb
      rcases hc.reaches with ⟨hj, -, hn⟩ | ⟨hj, -, hn⟩
      · exact hn ((fits p hp).first_boundary a hj hb)
      · exact hn ((fits p hp).second_boundary a hj hb)
    have ends : ∀ p ∈ ps, ∀ v other b, Pivot.End p v other b → g.kindD other ≠ .boundary := by
      rintro p hp v other b (⟨-, rfl, -⟩ | ⟨-, rfl, -⟩)
      · exact (fits p hp).second_inner
      · exact (fits p hp).first_inner
    refine hk.applied ha (fun f hf => ?_) (fun b o x => ∃ p ∈ ps, Pivot.End p o x b) ?_ ?_
    · rcases collects.table f hf with ⟨p, hp, v, other, b, he, rfl, -⟩ | ⟨p, -, hc⟩
      · have hne := ((fits p hp).apart v other b he).2
        unfold edge
        split
        · exact hne.symm
        · exact hne
      · exact hc.1
    · rintro b x hb ⟨f, hf, hbx⟩
      rw [collects.rephased.kindD] at hb
      rcases collects.table f hf with ⟨p, hp, v, other, b', he, rfl, hedge⟩ | ⟨p, hp, hc⟩
      · have hj := ((fits p hp).apart v other b' he).1
        rcases between_edge.1 hbx with ⟨rfl, -⟩ | ⟨rfl, rfl⟩
        · exact absurd hb (ends p hp v _ b' he)
        · refine ⟨v, collects.rephased.joined.2 (hg.coherent.back hj), .inr ?_, p, hp, he⟩
          exact ⟨edge v b, hedge, between_edge.2 (.inr ⟨rfl, rfl⟩)⟩
      · rcases hbx with ⟨rfl, -⟩ | ⟨rfl, -⟩
        · exact absurd hb (inner p hp _ _ hc)
        · exact absurd hb (inner p hp _ _ hc.symm)
    · rintro b o x y ⟨p, hp, hx⟩ ⟨q, hq, hy⟩
      by_cases hpq : p = q
      · subst hpq
        rcases hx with ⟨h1, h2, -⟩ | ⟨h1, h2, -⟩ <;> rcases hy with ⟨h3, h4, -⟩ | ⟨h3, h4, -⟩ <;> grind
      · obtain ⟨a1, a2, a3, a4⟩ := apart.forall hp hq hpq
        rcases hx with ⟨h1, -⟩ | ⟨h1, -⟩ <;> rcases hy with ⟨h3, -⟩ | ⟨h3, -⟩ <;> grind

lemma PivotRound.tidy (hg : g.Tidy) (hr : PivotRound g h) : h.Tidy := by
  have hn := hr.neat hg.toNeat
  cases hr with
  | applied _ _ _ collects ha => exact hg.of_applied collects.rephased ha hn

lemma pivot_tidy (accept : Edge → Bool) : (pivot accept).Keeps Tidy := by
  intro g hg
  refine (pivot_round hg.coherent accept).mono fun x hx => ?_
  rcases hx with hx | hx
  · rw [hx]; exact hg
  · exact hx.tidy hg

lemma pivotBoundary_tidy : (pivotBoundary accept).Keeps Tidy := by
  intro g hg
  refine (pivotBoundary_round hg.coherent accept).mono fun x hx => ?_
  rcases hx with hx | ⟨d, hd, -, hx⟩
  · rw [hx]; exact hg
  · exact hx.tidy (hg.grows hd)

end Rule

lemma Strategy.cliffordKeeps_tidy : CliffordKeeps Diagram.Tidy where
  coherent _ hg := hg.coherent
  identity := Rule.identity_tidy _
  fusion := Rule.fusion_tidy _
  pivot := Rule.pivot_tidy _
  localComplement := Rule.localComplement_tidy _
  green _ _ hg hr := hg.recoloured hr
  pivotBoundary := Rule.pivotBoundary_tidy _

end ZXCircuits
