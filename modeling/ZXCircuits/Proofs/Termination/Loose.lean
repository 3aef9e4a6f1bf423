/-
  Loose vertices.

  A vertex away from the boundary is loose if no leaf with a phase of its own hangs on it.  Under the rules for the interior the
  number of vertices that are loose or have a phase which is no multiple of a quarter turn does not grow (`Diagram.Lower`).  If it
  stays the same and a quarter turn was left away from the boundary, one is left after the rule (`Diagram.Restless`).
-/
import ZXCircuits.Proofs.Strategy.Tidy
import Mathlib.Data.Prod.Lex

namespace ZXCircuits

open Finset

namespace Exact

variable {p q : Exact}

/-- The number is a whole number of quarter turns, but not of half turns. -/
def Odd (p : Exact) : Prop := p.Quarters ∧ ¬ p.Whole

lemma HalfTurns.whole_iff (h : HalfTurns p q) : q.Whole ↔ p.Whole := by
  refine ⟨?_, h.isWhole⟩
  rintro ⟨m, hm⟩
  obtain ⟨n, hn⟩ := h.whole
  exact ⟨m - n, by push_cast; linarith⟩

lemma HalfTurns.odd_iff (h : HalfTurns p q) : q.Odd ↔ p.Odd := by rw [Odd, Odd, h.quarters_iff, h.whole_iff]

lemma odd_iff : p.Odd ↔ ∃ n : ℤ, p.toRat = n + 1 / 2 := by
  constructor
  · rintro ⟨⟨n, hn⟩, hw⟩
    rcases Int.even_or_odd' n with ⟨m, rfl | rfl⟩
    · exact absurd ⟨m, by rw [hn]; push_cast; ring⟩ hw
    · exact ⟨m, by rw [hn]; push_cast; ring⟩
  rintro ⟨n, hn⟩
  refine ⟨⟨2 * n + 1, by rw [hn]; push_cast; ring⟩, ?_⟩
  rintro ⟨m, hm⟩
  have : ((2 * m : ℤ) : ℚ) = ((2 * n + 1 : ℤ) : ℚ) := by push_cast; linarith
  have : (2 * m : ℤ) = 2 * n + 1 := by exact_mod_cast this
  omega

lemma Odd.add_whole (hp : p.Odd) (hq : q.Whole) : (p.add q).Odd := by
  obtain ⟨m, hm⟩ := odd_iff.1 hp
  obtain ⟨n, hn⟩ := hq
  exact odd_iff.2 ⟨m + n, by rw [toRat_add, hm, hn]; push_cast; ring⟩

lemma Whole.add (hp : p.Whole) (hq : q.Whole) : (p.add q).Whole := by
  obtain ⟨m, hm⟩ := hp
  obtain ⟨n, hn⟩ := hq
  exact ⟨m + n, by rw [toRat_add, hm, hn]; push_cast; ring⟩

lemma HalfTurns.add_comm {r : Exact} (h : HalfTurns (p.add q) r) : HalfTurns (q.add p) r := by
  have e : (q.add p).toRat = (p.add q).toRat := by rw [toRat_add, toRat_add, Rat.add_comm]
  exact ⟨by rw [e]; exact h.whole, fun c => h.reduced (by rwa [Reduced, e] at c)⟩

lemma Quarters.of_add (hp : p.Quarters) (hs : (p.add q).Quarters) : q.Quarters := by
  obtain ⟨m, hm⟩ := hp
  obtain ⟨n, hn⟩ := hs
  rw [toRat_add, hm] at hn
  exact ⟨n - m, by push_cast; linarith⟩

end Exact

namespace Diagram

variable {g h k : Diagram} {v w x y : Vertex}

/-- A vertex that is neither on the boundary nor next to it. -/
structure Inland (g : Diagram) (v : Vertex) : Prop where
  vertex : g.has v
  inner : g.kindD v ≠ .boundary
  away : ∀ b, g.Joined v b → g.kindD b ≠ .boundary

def Axle (g : Diagram) (v : Vertex) : Prop := ∃ l, g.Hangs l v ∧ ¬ (g.phase l).Whole

/-- A vertex with neighbours, away from the boundary, on which no leaf with a phase of its own hangs. -/
structure Loose (g : Diagram) (v : Vertex) : Prop where
  inland : g.Inland v
  joined : ∃ x, g.Joined v x
  axle : ¬ g.Axle v

lemma Neat.hangs (hg : g.Neat) (hj : g.Joined v w) (hw : g.kindD w = .boundary) : g.Hangs w v := fun y =>
  ⟨fun hy => hg.single w y v hw hy (hg.coherent.back hj), fun e => e ▸ hg.coherent.back hj⟩

lemma Inland.of_hangs (hg : g.Neat) (hh : h.Coherent) (vertex : g.has v) (kind : ∀ x, h.has x → h.kindD x = g.kindD x)
    (stays : ∀ b, g.Hangs b v → g.kindD b = .boundary → h.Joined b v) (hv : h.Inland v) : g.Inland v where
  vertex := vertex
  inner := by rw [← kind v hv.vertex]; exact hv.inner
  away b hj hk := by
    have hb := stays b (hg.hangs hj hk) hk
    exact hv.away b (hh.back hb) ((kind b hb.has).trans hk)

/-- A vertex that is loose or has a phase that is no multiple of a quarter turn. -/
def Heavy (g : Diagram) (v : Vertex) : Prop := g.has v ∧ ((g.phase v).Quarters → g.Loose v)

lemma Loose.heavy (hv : g.Loose v) : g.Heavy v := ⟨hv.inland.vertex, fun _ => hv⟩

lemma heavy_of_phase (hv : g.has v) (hp : ¬ (g.phase v).Quarters) : g.Heavy v := ⟨hv, fun c => absurd c hp⟩

def support (g : Diagram) : Finset Vertex := ⟨g.vertices, g.nodup_vertices⟩

lemma mem_support : v ∈ g.support ↔ g.has v := mem_vertices

open Classical in
noncomputable def heavy (g : Diagram) : Finset Vertex := g.support.filter g.Heavy

open Classical in
lemma mem_heavy : v ∈ g.heavy ↔ g.Heavy v := by
  rw [heavy, mem_filter, mem_support]
  exact and_iff_right_of_imp fun hv => hv.1

/-- A vertex that is heavy was so before, or it takes the place of one that was. -/
structure Traces (g h : Diagram) (R : Vertex → Vertex → Prop) : Prop where
  heavy : ∀ x, h.Heavy x → g.Heavy x ∨ ∃ z, R x z ∧ g.Heavy z
  lost : ∀ x z, R x z → ¬ h.Heavy z
  unique : ∀ x y z, R x z → R y z → x = y

namespace Traces

variable {R : Vertex → Vertex → Prop} {x : Vertex} {z : Vertex}

open Classical in
/-- The vertex whose place a vertex takes, itself if it was heavy before. -/
noncomputable def origin (ht : Traces g h R) (x : Vertex) : Vertex :=
  if hx : h.Heavy x ∧ ¬ g.Heavy x then ((ht.heavy x hx.1).resolve_left hx.2).choose else x

variable (ht : Traces g h R)
include ht

lemma origin_of_old (hx : g.Heavy x) : ht.origin x = x := dif_neg fun c => c.2 hx

lemma origin_of_new (hx : h.Heavy x) (hn : ¬ g.Heavy x) : R x (ht.origin x) ∧ g.Heavy (ht.origin x) := by
  rw [origin, dif_pos ⟨hx, hn⟩]
  exact ((ht.heavy x hx).resolve_left hn).choose_spec

lemma mapsTo_origin : Set.MapsTo ht.origin h.heavy g.heavy := by
  intro x hx
  rw [mem_coe, mem_heavy] at hx ⊢
  by_cases hg : g.Heavy x
  · rwa [ht.origin_of_old hg]
  · exact (ht.origin_of_new hx hg).2

lemma injOn_origin : Set.InjOn ht.origin h.heavy := by
  intro x hx y hy e
  rw [mem_coe, mem_heavy] at hx hy
  by_cases hgx : g.Heavy x <;> by_cases hgy : g.Heavy y
  · rwa [ht.origin_of_old hgx, ht.origin_of_old hgy] at e
  · rw [ht.origin_of_old hgx] at e
    exact absurd (e ▸ hx) (ht.lost y _ (ht.origin_of_new hy hgy).1)
  · rw [ht.origin_of_old hgy] at e
    exact absurd (e ▸ hy) (ht.lost x _ (ht.origin_of_new hx hgx).1)
  · exact ht.unique x y _ (ht.origin_of_new hx hgx).1 (e ▸ (ht.origin_of_new hy hgy).1)

lemma card_le : h.heavy.card ≤ g.heavy.card := card_le_card_of_injOn ht.origin ht.mapsTo_origin ht.injOn_origin

lemma onto (hc : h.heavy.card = g.heavy.card) (hz : g.Heavy z) : h.Heavy z ∨ ∃ x, h.Heavy x ∧ ¬ g.Heavy x ∧ R x z ∧ ht.origin x = z := by
  obtain ⟨x, hx, e⟩ := surjOn_of_injOn_of_card_le ht.origin ht.mapsTo_origin ht.injOn_origin hc.ge (mem_heavy.2 hz)
  rw [mem_coe, mem_heavy] at hx
  by_cases hg : g.Heavy x
  · rw [ht.origin_of_old hg] at e
    exact .inl (e ▸ hx)
  · exact .inr ⟨x, hx, hg, e ▸ (ht.origin_of_new hx hg).1, e⟩

lemma card_lt (hz : g.Heavy z) (hn : ¬ h.Heavy z) (hr : ∀ x, ¬ R x z) : h.heavy.card < g.heavy.card := by
  refine lt_of_le_of_ne ht.card_le fun hc => ?_
  rcases ht.onto hc hz with c | ⟨x, -, -, c, -⟩
  · exact hn c
  · exact hr x c

end Traces

/-- Every quarter turn away from the boundary is on a loose vertex. -/
def Calm (g : Diagram) : Prop := ∀ v, g.Inland v → (g.phase v).Odd → g.Loose v

/-- Every quarter turn away from the boundary is on a loose vertex, and there is one. -/
structure Restless (g : Diagram) : Prop where
  calm : g.Calm
  odd : ∃ v, g.Inland v ∧ (g.phase v).Odd

def Even (g : Diagram) : Prop := ∀ v, g.Inland v → ¬ (g.phase v).Odd

lemma Even.calm (hg : g.Even) : g.Calm := fun v hv ho => absurd ho (hg v hv)

lemma Restless.not_even (hg : g.Restless) : ¬ g.Even := fun he => hg.odd.elim fun v hv => he v hv.1 hv.2

/-- There are no more phases and no more heavy vertices; if there are as many, quarter turns away from the boundary do not get
    lost. -/
structure Lower (g h : Diagram) : Prop where
  tCount : h.tCount ≤ g.tCount
  heavy : h.heavy.card ≤ g.heavy.card
  restless : h.heavy.card = g.heavy.card → g.Restless → h.Restless

namespace Lower

lemma refl (g : Diagram) : Lower g g := ⟨le_rfl, le_rfl, fun _ => id⟩

lemma trans (h1 : Lower g h) (h2 : Lower h k) : Lower g k := by
  refine ⟨h2.tCount.trans h1.tCount, h2.heavy.trans h1.heavy, fun hc hg => ?_⟩
  have e1 : h.heavy.card = g.heavy.card := le_antisymm h1.heavy (hc.ge.trans h2.heavy)
  exact h2.restless (hc.trans e1.symm) (h1.restless e1 hg)

lemma of_loose (vertex : ∀ x, h.has x → g.has x)
    (phase : ∀ x, h.has x → Exact.HalfTurns (g.phase x) (h.phase x)) (inland : ∀ x, h.Inland x → g.Inland x)
    (loose : ∀ x, h.Loose x → g.Loose x) : Lower g h := by
  have traces : Traces g h fun _ _ => False := by
    refine ⟨fun x hx => .inl ⟨vertex x hx.1, fun hq => loose x (hx.2 ?_)⟩, fun _ _ => False.elim, fun _ _ _ => False.elim⟩
    exact (phase x hx.1).quarters_iff.2 hq
  refine ⟨tCount_le_of_subset fun x hx => ?_, traces.card_le, fun hc hg => ?_⟩
  · rw [mem_nonClifford] at hx ⊢
    exact ⟨vertex x hx.1, fun hq => hx.2 ((phase x hx.1).quarters_iff.2 hq)⟩
  -- a loose vertex with a quarter turn is still heavy, and so it is still loose
  have stays : ∀ x, g.Loose x → (g.phase x).Odd → h.Loose x := by
    intro x hx ho
    obtain hy := (traces.onto hc hx.heavy).resolve_right fun ⟨_, _, _, c, _⟩ => c
    exact hy.2 ((phase x hy.1).quarters_iff.2 ho.1)
  refine ⟨fun x hx ho => ?_, ?_⟩
  · have ho' := (phase x hx.vertex).odd_iff.1 ho
    exact stays x (hg.calm x (inland x hx) ho') ho'
  obtain ⟨v, hv, ho⟩ := hg.odd
  have hl := stays v (hg.calm v hv ho) ho
  exact ⟨v, hl.inland, (phase v hl.inland.vertex).odd_iff.2 ho⟩

end Lower

/-! ## The burden of a diagram -/

lemma support_card_lt (sub : ∀ x, h.has x → g.has x) (hv : g.has v)
    (hn : ¬ h.has v) : h.support.card < g.support.card := by
  refine card_lt_card ⟨fun x hx => mem_support.2 (sub x (mem_support.1 hx)), fun c => hn (mem_support.1 (c (mem_support.2 hv)))⟩

/-- The number of phases that are no multiples of a quarter turn, and then the number of heavy vertices. -/
noncomputable def cost (g : Diagram) : ℕ ×ₗ ℕ := toLex (g.tCount, g.heavy.card)

def phased (g : Diagram) : Finset Vertex := g.support.filter fun v => ¬ (g.phase v).isZero

noncomputable def burden (g : Diagram) : (ℕ ×ₗ ℕ) ×ₗ (ℕ ×ₗ ℕ) := toLex (g.cost, toLex (g.support.card, g.phased.card))

lemma cost_lt_of_heavy (ht : h.tCount ≤ g.tCount) (hs : h.heavy.card < g.heavy.card) : h.cost < g.cost := by
  rcases ht.lt_or_eq with ht | ht
  · exact Prod.Lex.lt_iff.2 (.inl ht)
  · exact Prod.Lex.lt_iff.2 (.inr ⟨ht, hs⟩)

lemma cost_le (ht : h.tCount ≤ g.tCount) (hs : h.heavy.card ≤ g.heavy.card) : h.cost ≤ g.cost := by
  rcases hs.lt_or_eq with hs | hs
  · exact (cost_lt_of_heavy ht hs).le
  rcases ht.lt_or_eq with ht | ht
  · exact (Prod.Lex.lt_iff.2 (.inl ht) : h.cost < g.cost).le
  · rw [cost, cost, ht, hs]

lemma burden_lt_of_cost (hc : h.cost < g.cost) : h.burden < g.burden := Prod.Lex.lt_iff.2 (.inl hc)

lemma burden_lt_of_le (hc : h.cost ≤ g.cost) (hs : h.support.card < g.support.card ∨
    (h.support.card = g.support.card ∧ h.phased.card < g.phased.card)) : h.burden < g.burden := by
  rcases hc.lt_or_eq with hc | hc
  · exact burden_lt_of_cost hc
  · exact Prod.Lex.lt_iff.2 (.inr ⟨hc, Prod.Lex.lt_iff.2 hs⟩)

/-- Fewer vertices, with no more phases and no more heavy vertices. -/
structure Sinks (g h : Diagram) : Prop extends Lower g h where
  support : h.support.card < g.support.card

lemma Sinks.trans (h1 : Sinks g h) (h2 : Sinks h k) : Sinks g k := ⟨h1.toLower.trans h2.toLower, h2.support.trans h1.support⟩

lemma Lower.cost_le (hl : Lower g h) : h.cost ≤ g.cost := Diagram.cost_le hl.tCount hl.heavy

lemma Sinks.burden_lt (hs : Sinks g h) : h.burden < g.burden := burden_lt_of_le hs.cost_le (.inl hs.support)

end Diagram

end ZXCircuits
