/-
  Pivoting with phases out of the way.

  Away from the boundary the first end of a place becomes the axle of a leaf, and so there is one loose vertex less
  (`Rule.pivotGadget_falls`).  Next to the boundary the first end comes to the boundary, and the leaf is a loose vertex in its
  place; if its phase is a quarter turn, that is one away from the boundary (`Rule.pivotBoundary_stirs`).
-/
import ZXCircuits.Proofs.Termination.Pivoting

namespace ZXCircuits

open List

namespace Pivot

open Diagram

variable {g h : Diagram} {ts : List Stalk} {t t' : Stalk} {y : Diagram × List Place} {l x : Vertex}

/-- A stalk at the second end of a place, which is not a leaf; the first end has no phase of its own, and nothing is kept apart at
    it. -/
structure Rooted (g : Diagram) (t : Stalk) : Prop where
  joined : g.Joined t.place.first t.place.second
  firm : ∀ y, ¬ g.Hangs t.place.second y
  first : t.place.firstBoundary = []
  whole : (g.phase t.place.first).Whole
  edges : ∀ a b, Spanned t.edges a b → a ∈ t.news ∨ a = t.place.second

section Rooted

variable (hg : g.Coherent) (hb : Budded g ts h) (hr : ∀ t ∈ ts, Rooted g t)

include hg hb hr

lemma Budded.hangs (hl : g.Hangs l x) : h.Hangs l x := by
  intro y
  rw [hb.joined, ← hl y]
  refine or_iff_left ?_
  rintro ⟨t, ht, hs⟩
  rcases (hr t ht).edges l y hs with hn | rfl
  · exact hb.not_old hg ht hn hl.joined.has
  · exact (hr t ht).firm x hl

omit hr in
lemma Budded.inland (hv : g.has x) (hx : h.Inland x) : g.Inland x where
  vertex := hv
  inner := by rw [← hb.grows.kind x hv]; exact hx.inner
  away b hj hk := by
    refine hx.away b ((hb.joined x b).2 (.inl hj)) ?_
    rw [hb.grows.kind b (hg.vertex hj)]
    exact hk

lemma Budded.loose (hv : g.has x) (hx : h.Loose x) : g.Loose x := by
  refine ⟨hb.inland hg hv hx.inland, ?_, ?_⟩
  · obtain ⟨y, hy⟩ := hx.joined
    rcases (hb.joined x y).1 hy with hj | ⟨t, ht, hs⟩
    · exact ⟨y, hj⟩
    rcases (hr t ht).edges x y hs with hn | rfl
    · exact absurd hv (hb.not_old hg ht hn)
    · exact ⟨_, hg.back (hr t ht).joined⟩
  · rintro ⟨l, hl, hw⟩
    refine hx.axle ⟨l, hb.hangs hg hr hl, fun c => hw ((hb.phase l hl.joined.has fun t ht e => ?_).whole_iff.1 c)⟩
    exact (hr t ht).firm x (e ▸ hl)

end Rooted

/-- A round of pivoting with stalks. -/
structure Staked (g : Diagram) (ts : List Stalk) (y : Diagram × List Place) (h : Diagram) : Prop where
  prepared : Prepared g ts y
  neat : y.1.Neat
  rooted : ∀ t ∈ ts, Rooted g t
  parted : ∀ p ∈ y.2, Parted y.1 p
  turned : Turned y.1 y.2 h

/-- **A round with stalks** is one of these, if nothing but leaves and the boundary is kept apart. -/
theorem effect_staked (hg : g.Neat) (hx : Prepared g ts y) (hr : ∀ t ∈ ts, Rooted g t) (hp : ∀ p ∈ y.2, Parted y.1 p) :
    Gives (effect y.1 y.2) fun z => Gives (z.1.applyEffect z.2) (Staked g ts y) := by
  have hd := hg.grows hx.budded.grows
  have phaseless : ∀ p ∈ y.2, Phaseless y.1 p := by
    intro p hm
    obtain ⟨t, ht, rfl⟩ := hx.stalk hm
    exact hx.phaseless (fun t ht => (hp _ (hx.place ht)).toFits) ht (hr t ht).joined.has (hr t ht).whole
  exact (effect_turned hd (fun p hm => ⟨phaseless p hm, hp p hm⟩) hx.pairwise).mono fun z hz => hz.mono fun h ht =>
    ⟨hx, hd, hr, hp, ht⟩

lemma Prepared.ne_nil (hx : Prepared g ts y) (hn : y.2 ≠ []) : ts ≠ [] := by
  rintro rfl
  exact hn (reverse_eq_nil_iff.1 hx.places)

namespace Staked

variable (hs : Staked g ts y h)

include hs

lemma tCount_le : h.tCount ≤ g.tCount := hs.turned.tCount_le.trans hs.prepared.budded.tCount

lemma gone (ht : t ∈ ts) : ¬ h.has t.place.second := fun c =>
  (hs.turned.vertex _ c).2 t.place (hs.prepared.place ht) (.inr ⟨rfl, (hs.rooted t ht).first⟩)

lemma ne_second (hx : h.has x) (ht : t ∈ ts) : x ≠ t.place.second := fun c => hs.gone ht (c ▸ hx)

lemma phase (hv : g.has x) (hx : h.has x) : Exact.HalfTurns (g.phase x) (h.phase x) :=
  (hs.prepared.budded.phase x hv fun _ ht => hs.ne_second hx ht).trans (hs.turned.phase x hx)

lemma leaf_phase (ht : t ∈ ts) (hx : h.has t.leaf) : Exact.HalfTurns (g.phase t.place.second) (h.phase t.leaf) :=
  (hs.prepared.budded.moved t ht).2.trans (hs.turned.phase _ hx)

lemma old_or_new (hx : h.has x) : g.has x ∨ ∃ t ∈ ts, x ∈ t.news := hs.prepared.budded.vertex x (hs.turned.vertex x hx).1

section

variable (ht : t ∈ ts) (ht' : t' ∈ ts)
include ht ht'

lemma first_ne : t.place.first ≠ t'.place.second := hs.prepared.first_ne (fun _ ht => (hs.parted _ (hs.prepared.place ht)).ne) ht ht'

lemma apart (hne : t ≠ t') : Apart t.place t'.place := by
  exact hs.prepared.apart.forall ht ht' hne

lemma eq_of_first (e : t.place.first = t'.place.first) : t = t' := by
  by_contra hne
  exact (hs.apart ht ht' hne).1 e

lemma eq_of_second (e : t.place.second = t'.place.second) : t = t' := by
  by_contra hne
  exact (hs.apart ht ht' hne).2.2.2 e

end

lemma inland (hg : g.Coherent) (hv : g.has x) (hx : h.Inland x) : g.Inland x :=
  hs.prepared.budded.inland hg hv (hs.turned.inland hs.neat hs.parted hx)

lemma loose (hg : g.Coherent) (hn : ∀ t ∈ ts, ¬ h.Loose t.place.first) (hv : g.has x) (hx : h.Loose x) : g.Loose x := by
  refine hs.prepared.budded.loose hg hs.rooted hv (hs.turned.loose hs.neat hs.parted (fun p hp v other b he => ?_) hx)
  obtain ⟨t, ht, rfl⟩ := hs.prepared.stalk hp
  rcases he with ⟨-, -, hb⟩ | ⟨-, rfl, -⟩
  · rw [(hs.rooted t ht).first] at hb; cases hb
  · exact hn t ht

end Staked

/-! ## Away from the boundary -/

lemma isPauli_of_whole {v : Vertex} (hr : (g.phase v).Reduced) (hw : (g.phase v).Whole) : g.isPauli v := by
  obtain ⟨n, hn⟩ := hw
  rw [Exact.Reduced, hn] at hr
  have h0 : 0 ≤ n := by exact_mod_cast hr.1
  have h2 : n < 2 := by exact_mod_cast hr.2
  simp only [isPauli, hn, Bool.or_eq_true]
  obtain rfl | rfl : n = 0 ∨ n = 1 := by omega
  · exact .inl (by norm_num)
  · exact .inr (by norm_num)

namespace Lifts

lemma rooted (hl : Lifts g t) : Rooted g t where
  joined := hl.joined
  firm := (hl.inner _ (.inl hl.joined)).2
  first := hl.boundary.1
  whole := hl.whole
  edges a b hs := by
    obtain ⟨e, he, hab⟩ := hs
    rw [hl.edges, mem_singleton] at he
    subst he
    rw [hl.news, mem_singleton]
    rcases between_edge.1 hab with ⟨h1, -⟩ | ⟨h1, -⟩
    · exact .inl h1
    · exact .inr h1

lemma loose_first (hg : g.Coherent) (hl : Lifts g t) : g.Loose t.place.first := by
  refine ⟨⟨hl.joined.has, by rw [hl.kind.1]; decide, fun b hb hk => ?_⟩, ⟨_, hl.joined⟩, ?_⟩
  · rw [(hl.inner b (.inl hb)).1] at hk; cases hk
  · rintro ⟨l, hlx, -⟩
    exact (hl.inner l (.inl (hg.back hlx.joined))).2 _ hlx

lemma not_quarters (hg : g.Neat) (he : g.Even) (hl : Lifts g t) : ¬ (g.phase t.place.second).Quarters := by
  intro hq
  have hv := hg.coherent.vertex hl.joined
  refine he t.place.second ⟨hv, by rw [hl.kind.2]; decide, fun b hb hk => ?_⟩ ⟨hq, fun hw => ?_⟩
  · rw [(hl.inner b (.inr hb)).1] at hk; cases hk
  have := hl.own
  rw [isPauli_of_whole (hg.reduced _ hv) hw] at this
  cases this

lemma parted (hg : g.Coherent) (hx : Prepared g ts y) (hl : ∀ t ∈ ts, Lifts g t) : ∀ p ∈ y.2, Parted y.1 p := by
  intro p hp
  obtain ⟨t, ht, rfl⟩ := hx.stalk hp
  refine ⟨Lifts.fits hg hx.budded hl ht, fun v other b he => ?_⟩
  obtain ⟨rfl, -, rfl⟩ := (hl t ht).end_eq he
  exact Lifts.hangs hg hx.budded hl ht

end Lifts

namespace Staked

variable (hg : g.Neat) (he : g.Even) (hl : ∀ t ∈ ts, Lifts g t) (hs : Staked g ts y h)

include hl hs

lemma hangs_leaf (ht : t ∈ ts) : h.Hangs t.leaf t.place.first := by
  refine hs.turned.hangs_taken hs.neat hs.parted hs.prepared.pairwise (hs.prepared.place ht) (.inr ⟨rfl, rfl, ?_⟩)
  rw [(hl t ht).boundary.2]
  rfl

include hg he

lemma leaf_not_quarters (ht : t ∈ ts) : ¬ (h.phase t.leaf).Quarters := fun c =>
  (hl t ht).not_quarters hg he ((hs.leaf_phase ht (hs.hangs_leaf hl ht).joined.has).quarters_iff.1 c)

lemma first_not_loose (ht : t ∈ ts) : ¬ h.Loose t.place.first := fun c =>
  c.axle ⟨t.leaf, hs.hangs_leaf hl ht, fun hw => hs.leaf_not_quarters hg he hl ht hw.quarters⟩

lemma gadget_traces : Traces g h fun x z => ∃ t ∈ ts, x = t.leaf ∧ z = t.place.second where
  heavy x hx := by
    rcases hs.old_or_new hx.1 with hv | ⟨t, ht, hn⟩
    · refine .inl ⟨hv, fun hq => hs.loose hg.coherent (fun t ht => hs.first_not_loose hg he hl ht) hv (hx.2 ?_)⟩
      exact (hs.phase hv hx.1).quarters_iff.2 hq
    rw [(hl t ht).news, mem_singleton] at hn
    refine .inr ⟨_, ⟨t, ht, hn, rfl⟩, heavy_of_phase ?_ ((hl t ht).not_quarters hg he)⟩
    exact (hg.coherent.back (hl t ht).joined).has
  lost := by
    rintro x z ⟨t, ht, -, rfl⟩ hz
    exact hs.gone ht hz.1
  unique := by
    rintro x x' z ⟨t, ht, rfl, rfl⟩ ⟨t', ht', rfl, e⟩
    rw [hs.eq_of_second ht ht' e]

/-- **One loose vertex less** with each place away from the boundary. -/
theorem gadget_heavy_lt (hn : ts ≠ []) : h.heavy.card < g.heavy.card := by
  obtain ⟨t, ht⟩ := exists_mem_of_ne_nil _ hn
  refine (hs.gadget_traces hg he hl).card_lt ((hl t ht).loose_first hg.coherent).heavy (fun c => ?_) ?_
  · refine hs.first_not_loose hg he hl ht (c.2 ?_)
    exact ((hs.phase (hl t ht).joined.has c.1).isWhole (hl t ht).whole).quarters
  · rintro x ⟨t', ht', -, e⟩
    exact hs.first_ne ht ht' e

lemma gadget_even : h.Even := by
  intro x hx ho
  rcases hs.old_or_new hx.vertex with hv | ⟨t, ht, hn⟩
  · exact he x (hs.inland hg.coherent hv hx) ((hs.phase hv hx.vertex).odd_iff.1 ho)
  · rw [(hl t ht).news, mem_singleton] at hn
    exact hs.leaf_not_quarters hg he hl ht (hn ▸ ho.1)

end Staked

/-! ## Next to the boundary -/

end Pivot

namespace Diagram

variable {g : Diagram} {v w : Vertex}

def Forked (g : Diagram) (w : Vertex) : Prop :=
  ∃ b b', b ≠ b' ∧ (g.Joined w b ∧ g.kindD b = .boundary) ∧ (g.Joined w b' ∧ g.kindD b' = .boundary)

lemma Forked.not_inland (hw : g.Forked w) : ¬ g.Inland w := fun c => by
  obtain ⟨b, -, -, ⟨hj, hk⟩, -⟩ := hw
  exact c.away b hj hk

/-- Two joined vertices without a phase of their own, one of them away from the boundary: the other is next to two vertices of the
    boundary. -/
def Paired (g : Diagram) : Prop := ∀ v w, g.Inland v → (g.phase v).Whole → g.Joined v w → (g.phase w).Whole → g.Forked w

open Classical in
noncomputable def idle (g : Diagram) : Finset Vertex := g.support.filter fun v => g.Loose v ∧ (g.phase v).Whole

open Classical in
lemma mem_idle : v ∈ g.idle ↔ g.Loose v ∧ (g.phase v).Whole := by
  rw [idle, Finset.mem_filter, mem_support]
  exact and_iff_right_of_imp fun hv => hv.1.inland.vertex

end Diagram

namespace Pivot

open Diagram

variable {g h : Diagram} {ts : List Stalk} {t t' : Stalk} {y : Diagram × List Place} {axle x : Vertex}

namespace Borders

lemma rooted (hb : Borders g t) : Rooted g t where
  joined := hb.fits.joined
  firm := (hb.opens _ hb.fits.joined).2
  first := hb.boundary.1
  whole := hb.whole
  edges a b hs := by
    obtain ⟨axle, hn, he, -⟩ := hb.stalk
    obtain ⟨e, hm, hab⟩ := hs
    simp only [he, mem_cons, not_mem_nil, or_false] at hm
    simp only [hn, mem_cons, not_mem_nil, or_false]
    rcases hm with rfl | rfl <;> rcases between_edge.1 hab with ⟨h1, -⟩ | ⟨h1, -⟩
    · exact .inl (.inl h1)
    · exact .inl (.inr h1)
    · exact .inr h1
    · exact .inl (.inr h1)

lemma loose_first (hg : g.Coherent) (hb : Borders g t) : g.Loose t.place.first := by
  refine ⟨⟨hb.fits.joined.has, hb.fits.first_inner, fun b hj => (hb.opens b hj).1⟩, ⟨_, hb.fits.joined⟩, ?_⟩
  rintro ⟨l, hl, -⟩
  exact (hb.opens l (hg.back hl.joined)).2 _ hl

lemma not_whole (hg : g.Coherent) (hp : g.Paired) (hb : Borders g t) : ¬ (g.phase t.place.second).Whole := by
  intro hw
  obtain ⟨b, b', hne, ⟨hj, hk⟩, hj', hk'⟩ := hp _ _ (hb.loose_first hg).inland hb.whole hb.fits.joined hw
  have := (hb.fits.second_boundary b hj hk).symm.trans (hb.fits.second_boundary b' hj' hk')
  exact hne (List.cons.inj this).1

lemma parted (hg : g.Neat) (hx : Prepared g ts y) (hb : ∀ t ∈ ts, Borders g t) : ∀ p ∈ y.2, Bound y.1 p ∧ Parted y.1 p := by
  intro p hp
  obtain ⟨t, ht, rfl⟩ := hx.stalk hp
  have bound : Bound y.1 t.place := fun v other b he => by
    have hj := ((hb t ht).fits.apart v other b he).1
    rw [hx.budded.grows.kind b (hg.coherent.vertex hj)]
    exact (hb t ht).bound v other b he
  exact ⟨bound, parted_of_bound (hg.grows hx.budded.grows) ((hb t ht).fits.budded hg.coherent hx.budded) bound⟩

end Borders

/-- The axle of a stalk next to the boundary: the leaf hangs on it, and its only other neighbour was the second end. -/
structure Shoot (t : Stalk) (d h : Diagram) (axle : Vertex) : Prop where
  news : t.news = [t.leaf, axle]
  joined : ∀ z, d.Joined axle z ↔ z = t.leaf ∨ z = t.place.second
  hangs : h.Hangs t.leaf axle
  whole : (h.phase axle).Whole
  inner : h.kindD axle ≠ .boundary ∧ h.kindD t.leaf ≠ .boundary

lemma Budded.joined_new {d : Diagram} (hg : g.Coherent) (hb : Budded g ts d) (hr : ∀ t ∈ ts, Rooted g t) (ht : t ∈ ts) {u : Vertex}
    (hu : u ∈ t.news) (z : Vertex) : d.Joined u z ↔ Spanned t.edges u z := by
  have new := hb.not_old hg ht hu
  rw [hb.joined]
  constructor
  · rintro (hj | ⟨t', ht', hs⟩)
    · exact absurd hj.has new
    rcases (hr t' ht').edges u z hs with hu' | rfl
    · rw [hb.stalk_unique ht ht' hu hu']
      exact hs
    · exact absurd (hg.back (hr t' ht').joined).has new
  · exact fun hs => .inr ⟨t, ht, hs⟩

namespace Staked

variable (hg : g.Neat) (hb : ∀ t ∈ ts, Borders g t) (hs : Staked g ts y h)

include hg hb hs

section

variable (ht : t ∈ ts)
include ht

lemma new_not_end (hx : x ∈ t.news) : ∀ p ∈ y.2, x ≠ p.first ∧ x ≠ p.second := by
  intro p hp
  obtain ⟨t', ht', rfl⟩ := hs.prepared.stalk hp
  have new := hs.prepared.budded.not_old hg.coherent ht hx
  have hj := (hb t' ht').fits.joined
  exact ⟨fun c => new (c ▸ hj.has), fun c => new (c ▸ hg.coherent.vertex hj)⟩

lemma exists_shoot : ∃ axle, Shoot t y.1 h axle := by
  have hbud := hs.prepared.budded
  obtain ⟨axle, hn, he, hne⟩ := (hb t ht).stalk
  have hleaf : t.leaf ∈ t.news := (hbud.moved t ht).1
  have haxle : axle ∈ t.news := by rw [hn]; simp
  have hw := (hg.coherent.back (hb t ht).fits.joined).has
  have old : ∀ u ∈ t.news, u ≠ t.place.second := fun u hu c => hbud.not_old hg.coherent ht hu (c ▸ hw)
  have spanned : ∀ u z, Spanned t.edges u z ↔ Between (t.leaf, axle) u z ∨ Between (t.place.second, axle) u z := by
    intro u z
    simp [Spanned, he, between_edge]
  have leaf : y.1.Hangs t.leaf axle := by
    intro z
    rw [hbud.joined_new hg.coherent hs.rooted ht hleaf, spanned]
    unfold Between
    grind
  have hangs := hs.turned.hangs hs.neat hs.parted leaf (hs.new_not_end hg hb ht haxle)
  have vertex : h.has axle := hs.turned.coherent.vertex hangs.joined
  have inner : ∀ u ∈ t.news, h.has u → h.kindD u ≠ .boundary := by
    intro u hu hv
    rw [hs.turned.kind u hv, ((hbud.grows.fresh u (hs.turned.vertex u hv).1).resolve_left (hbud.not_old hg.coherent ht hu)).2]
    decide
  refine ⟨axle, hn, fun z => ?_, hangs, ?_, inner _ haxle vertex, inner _ hleaf hangs.joined.has⟩
  · rw [hbud.joined_new hg.coherent hs.rooted ht haxle, spanned]
    unfold Between
    grind
  · exact (hs.turned.phase _ vertex).isWhole (((hbud.new t ht axle haxle).2.2).resolve_left hne.symm)

lemma first_not_loose_of_bound : ¬ h.Loose t.place.first := by
  have bound := fun p hp => (Borders.parted hg hs.prepared hb p hp).1
  obtain ⟨b, hb'⟩ := length_eq_one_iff.1 (hb t ht).boundary.2
  refine hs.turned.not_loose_of_bound (b := b) bound (hs.prepared.place ht) (.inr ⟨rfl, rfl, ?_⟩)
  rw [hb']
  rfl

lemma leaf_loose : h.Loose t.leaf := by
  obtain ⟨axle, ha⟩ := hs.exists_shoot hg hb ht
  refine ⟨⟨ha.hangs.joined.has, ha.inner.2, fun b hj => (ha.hangs b).1 hj ▸ ha.inner.1⟩, ⟨_, ha.hangs.joined⟩, ?_⟩
  rintro ⟨l, hl, hw⟩
  exact hw ((ha.hangs l).1 (hs.turned.coherent.back hl.joined) ▸ ha.whole)

end

lemma cases_vertex (hx : h.has x) : g.has x ∨ (∃ t ∈ ts, x = t.leaf) ∨ ∃ t ∈ ts, Shoot t y.1 h x := by
  rcases hs.old_or_new hx with hv | ⟨t, ht, hn⟩
  · exact .inl hv
  obtain ⟨axle, ha⟩ := hs.exists_shoot hg hb ht
  simp only [ha.news, mem_cons, not_mem_nil, or_false] at hn
  rcases hn with rfl | rfl
  · exact .inr (.inl ⟨t, ht, rfl⟩)
  · exact .inr (.inr ⟨t, ht, ha⟩)

lemma forked (hx : h.has x) (hf : g.Forked x) : h.Forked x := by
  have not_end : ∀ p ∈ y.2, x ≠ p.first ∧ x ≠ p.second := by
    intro p hm
    obtain ⟨t, ht, rfl⟩ := hs.prepared.stalk hm
    exact ⟨fun c => (c ▸ hf).not_inland ((hb t ht).loose_first hg.coherent).inland, hs.ne_second hx ht⟩
  have stays : ∀ b, g.Joined x b ∧ g.kindD b = .boundary → h.Joined x b ∧ h.kindD b = .boundary := by
    rintro b ⟨hj, hk⟩
    have hbx := hs.turned.hangs hs.neat hs.parted (hs.prepared.budded.hangs hg.coherent hs.rooted (hg.hangs hj hk)) not_end
    refine ⟨hs.turned.coherent.back hbx.joined, ?_⟩
    rw [hs.turned.kind b hbx.joined.has, hs.prepared.budded.grows.kind b (hg.coherent.vertex hj)]
    exact hk
  obtain ⟨b, b', hne, h1, h2⟩ := hf
  exact ⟨b, b', hne, stays b h1, stays b' h2⟩

variable (hp : g.Paired)

include hp

lemma leaf_not_whole (ht : t ∈ ts) : ¬ (h.phase t.leaf).Whole := by
  obtain ⟨axle, ha⟩ := hs.exists_shoot hg hb ht
  exact fun c => (hb t ht).not_whole hg.coherent hp ((hs.leaf_phase ht ha.hangs.joined.has).whole_iff.1 c)

lemma axle_not_loose (ht : t ∈ ts) (ha : Shoot t y.1 h axle) : ¬ h.Loose axle := fun c =>
  c.axle ⟨t.leaf, ha.hangs, hs.leaf_not_whole hg hb hp ht⟩

lemma boundary_traces : Traces g h fun x z => ∃ t ∈ ts, x = t.leaf ∧
    (((g.phase t.place.second).Quarters ∧ z = t.place.first) ∨ (¬ (g.phase t.place.second).Quarters ∧ z = t.place.second)) where
  heavy x hx := by
    rcases hs.cases_vertex hg hb hx.1 with hv | ⟨t, ht, rfl⟩ | ⟨t, ht, ha⟩
    · refine .inl ⟨hv, fun hq => hs.loose hg.coherent (fun t ht => hs.first_not_loose_of_bound hg hb ht) hv (hx.2 ?_)⟩
      exact (hs.phase hv hx.1).quarters_iff.2 hq
    · right
      by_cases hq : (g.phase t.place.second).Quarters
      · exact ⟨_, ⟨t, ht, rfl, .inl ⟨hq, rfl⟩⟩, ((hb t ht).loose_first hg.coherent).heavy⟩
      · refine ⟨_, ⟨t, ht, rfl, .inr ⟨hq, rfl⟩⟩, heavy_of_phase ?_ hq⟩
        exact (hg.coherent.back (hb t ht).fits.joined).has
    · exact absurd (hx.2 ha.whole.quarters) (hs.axle_not_loose hg hb hp ht ha)
  lost := by
    rintro x z ⟨t, ht, -, ⟨-, rfl⟩ | ⟨-, rfl⟩⟩ hz
    · refine hs.first_not_loose_of_bound hg hb ht (hz.2 ?_)
      exact ((hs.phase (hb t ht).fits.joined.has hz.1).isWhole (hb t ht).whole).quarters
    · exact hs.gone ht hz.1
  unique := by
    rintro x x' z ⟨t, ht, rfl, hz⟩ ⟨t', ht', rfl, hz'⟩
    rcases hz with ⟨-, e⟩ | ⟨-, e⟩ <;> rcases hz' with ⟨-, e'⟩ | ⟨-, e'⟩ <;> rw [e] at e'
    · rw [hs.eq_of_first ht ht' e']
    · exact absurd e' (hs.first_ne ht ht')
    · exact absurd e'.symm (hs.first_ne ht' ht)
    · rw [hs.eq_of_second ht ht' e']

lemma quarters_of_card (hc : h.heavy.card = g.heavy.card) (ht : t ∈ ts) : (g.phase t.place.second).Quarters := by
  by_contra hq
  have traces := hs.boundary_traces hg hb hp
  refine absurd hc (traces.card_lt ((hb t ht).loose_first hg.coherent).heavy (fun c => ?_) ?_).ne
  · refine hs.first_not_loose_of_bound hg hb ht (c.2 ?_)
    exact ((hs.phase (hb t ht).fits.joined.has c.1).isWhole (hb t ht).whole).quarters
  rintro x ⟨t', ht', -, ⟨hq', e⟩ | ⟨-, e⟩⟩
  · exact hq (hs.eq_of_first ht ht' e ▸ hq')
  · exact hs.first_ne ht ht' e

/-- **A quarter turn comes away from the boundary**, or there are fewer heavy vertices. -/
theorem boundary_restless (hn : ts ≠ []) (hc : h.heavy.card = g.heavy.card) (hcalm : g.Calm) : h.Restless := by
  have quarters : ∀ t ∈ ts, (h.phase t.leaf).Odd := by
    intro t ht
    have hv := (hs.leaf_loose hg hb ht).inland.vertex
    exact ⟨(hs.leaf_phase ht hv).quarters_iff.2 (hs.quarters_of_card hg hb hp hc ht), hs.leaf_not_whole hg hb hp ht⟩
  refine ⟨fun x hx ho => ?_, ?_⟩
  · rcases hs.cases_vertex hg hb hx.vertex with hv | ⟨t, ht, rfl⟩ | ⟨t, ht, ha⟩
    · have hph := hs.phase hv hx.vertex
      have ho' := hph.odd_iff.1 ho
      have hl := hcalm x (hs.inland hg.coherent hv hx) ho'
      rcases (hs.boundary_traces hg hb hp).onto hc hl.heavy with hh | ⟨-, -, -, ⟨t, ht, -, ⟨-, rfl⟩ | ⟨-, rfl⟩⟩, -⟩
      · exact hh.2 ho.1
      · exact absurd (hb t ht).whole ho'.2
      · exact absurd hx.vertex (hs.gone ht)
    · exact hs.leaf_loose hg hb ht
    · exact absurd ha.whole ho.2
  · obtain ⟨t, ht⟩ := exists_mem_of_ne_nil _ hn
    exact ⟨_, (hs.leaf_loose hg hb ht).inland, quarters t ht⟩

lemma idle_card_lt (hn : ts ≠ []) : h.idle.card < g.idle.card := by
  obtain ⟨t, ht⟩ := exists_mem_of_ne_nil _ hn
  refine Finset.card_lt_card ⟨fun x hx => ?_, fun c => ?_⟩
  · obtain ⟨hl, hw⟩ := mem_idle.1 hx
    rcases hs.cases_vertex hg hb hl.inland.vertex with hv | ⟨t, ht, rfl⟩ | ⟨t, ht, ha⟩
    · exact mem_idle.2 ⟨hs.loose hg.coherent (fun t ht => hs.first_not_loose_of_bound hg hb ht) hv hl,
        (hs.phase hv hl.inland.vertex).whole_iff.1 hw⟩
    · exact absurd hw (hs.leaf_not_whole hg hb hp ht)
    · exact absurd hl (hs.axle_not_loose hg hb hp ht ha)
  · exact hs.first_not_loose_of_bound hg hb ht (mem_idle.1 (c (mem_idle.2 ⟨(hb t ht).loose_first hg.coherent, (hb t ht).whole⟩))).1

lemma forked_of_first (ht : t ∈ ts) (hj : y.1.Joined t.place.first x) (hx : h.has x) (hw : (h.phase x).Whole) : h.Forked x := by
  have hbud := hs.prepared.budded
  have old : g.Joined t.place.first x := by
    refine ((hbud.joined _ _).1 hj).resolve_right ?_
    rintro ⟨t', ht', hsp⟩
    rcases (hs.rooted t' ht').edges _ _ hsp with hn | e
    · exact hbud.not_old hg.coherent ht' hn (hb t ht).fits.joined.has
    · exact hs.first_ne ht ht' e
  have hv := hg.coherent.vertex old
  exact hs.forked hg hb hx (hp _ _ ((hb t ht).loose_first hg.coherent).inland (hb t ht).whole old ((hs.phase hv hx).whole_iff.1 hw))

/-- **Pairs stay apart**: where two vertices without a phase of their own come together, one of them was next to a first end. -/
theorem boundary_paired : h.Paired := by
  intro v w hv hvw hj hww
  have hw : h.has w := hs.turned.coherent.vertex hj
  rcases hs.turned.joined v w hj with hd | ⟨p, hm, ⟨-, ⟨⟨hr, -⟩, -⟩ | ⟨-, hr, -⟩⟩ | ⟨a, other, c, he, hbt⟩⟩
  · rcases hs.cases_vertex hg hb hv.vertex with hgv | ⟨t, ht, rfl⟩ | ⟨t, ht, ha⟩
    · rcases (hs.prepared.budded.joined v w).1 hd with hgj | ⟨t, ht, hsp⟩
      · have hgw := hg.coherent.vertex hgj
        exact hs.forked hg hb hw (hp v w (hs.inland hg.coherent hgv hv) ((hs.phase hgv hv.vertex).whole_iff.1 hvw) hgj
          ((hs.phase hgw hw).whole_iff.1 hww))
      · rcases (hs.rooted t ht).edges v w hsp with hn | rfl
        · exact absurd hgv (hs.prepared.budded.not_old hg.coherent ht hn)
        · exact absurd hv.vertex (hs.gone ht)
    · exact absurd hvw (hs.leaf_not_whole hg hb hp ht)
    · rcases (ha.joined w).1 hd with rfl | rfl
      · exact absurd hww (hs.leaf_not_whole hg hb hp ht)
      · exact absurd hw (hs.gone ht)
  · obtain ⟨t, ht, rfl⟩ := hs.prepared.stalk hm
    exact absurd hv (hs.forked_of_first hg hb hp ht hr hv.vertex hvw).not_inland
  · obtain ⟨t, ht, rfl⟩ := hs.prepared.stalk hm
    exact hs.forked_of_first hg hb hp ht hr hw hww
  · -- an end that stays is next to the boundary
    have bound := (Borders.parted hg hs.prepared hb p hm).1 a other c he
    rcases hbt with ⟨rfl, rfl⟩ | ⟨rfl, rfl⟩
    · exact absurd ((hs.turned.kind w hw).trans bound) (hv.away w hj)
    · exact absurd ((hs.turned.kind v hv.vertex).trans bound) hv.inner

end Staked

end Pivot

namespace Rule

open Diagram

variable {g h : Diagram} {g h k : Diagram}

lemma PreparedRound.neat (hg : g.Neat) (hr : PreparedRound g h) : h.Neat := by
  rcases hr with rfl | ⟨d, hd, -, hr⟩
  · exact hg
  · exact hr.neat (hg.grows hd)

/-- Fewer heavy vertices and no more phases. -/
structure Falls (g h : Diagram) : Prop where
  tCount : h.tCount ≤ g.tCount
  heavy : h.heavy.card < g.heavy.card

lemma Falls.trans (h1 : Falls g h) (h2 : Falls h k) : Falls g k := ⟨h2.tCount.trans h1.tCount, h2.heavy.trans h1.heavy⟩

lemma Falls.burden_lt (hf : Falls g h) : h.burden < g.burden := burden_lt_of_cost (cost_lt_of_heavy hf.tCount hf.heavy)

lemma pivotGadget_falls (accept : Edge → Bool) : (pivotGadget accept).Descends (fun g => g.Neat ∧ g.Even) Falls := by
  rintro g ⟨hg, he⟩
  have neat : Gives ((pivotGadget accept).round g) fun x => x.1.Neat := (pivotGadget_round hg.coherent accept).mono fun x hx => hx.neat hg
  refine (neat.and (round_changes (Q := fun h => h.Even ∧ Falls g h) fun y hy hne => ?_)).mono fun x hx hn =>
    ⟨⟨hx.1, (hx.2 hn).1⟩, (hx.2 hn).2⟩
  obtain ⟨ts, hp, hl⟩ := Pivot.findGadget_spec hg.coherent accept none y hy
  refine (Pivot.effect_staked hg hp (fun t ht => (hl t ht).rooted) (Pivot.Lifts.parted hg.coherent hp hl)).mono fun z hz =>
    hz.mono fun h hs => ?_
  exact ⟨hs.gadget_even hg he hl, hs.tCount_le, hs.gadget_heavy_lt hg he hl (hp.ne_nil hne)⟩

/-- No more phases and no more heavy vertices; if there are as many of them, and every quarter turn away from the boundary was on a
    loose vertex, one is left. -/
structure Stirs (g h : Diagram) : Prop where
  tCount : h.tCount ≤ g.tCount
  heavy : h.heavy.card ≤ g.heavy.card
  restless : h.heavy.card = g.heavy.card → g.Calm → h.Restless
  idle : h.idle.card < g.idle.card

lemma Stirs.trans (h1 : Stirs g h) (h2 : Stirs h k) : Stirs g k := by
  refine ⟨h2.tCount.trans h1.tCount, h2.heavy.trans h1.heavy, fun hc hg => ?_, h2.idle.trans h1.idle⟩
  have e : h.heavy.card = g.heavy.card := le_antisymm h1.heavy (hc.ge.trans h2.heavy)
  exact h2.restless (hc.trans e.symm) (h1.restless e hg).calm

lemma Stirs.lower (hs : Stirs g h) : Lower g h := ⟨hs.tCount, hs.heavy, fun hc hr => hs.restless hc hr.calm⟩

lemma pivotBoundary_stirs (accept : Vertex → Bool) : (pivotBoundary accept).Descends (fun g => g.Neat ∧ g.Paired) Stirs := by
  rintro g ⟨hg, hpd⟩
  have neat : Gives ((pivotBoundary accept).round g) fun x => x.1.Neat :=
    (pivotBoundary_round hg.coherent accept).mono fun x hx => hx.neat hg
  refine (neat.and (round_changes (Q := fun h => h.Paired ∧ Stirs g h) fun y hy hne => ?_)).mono fun x hx hn =>
    ⟨⟨hx.1, (hx.2 hn).1⟩, (hx.2 hn).2⟩
  obtain ⟨ts, hp, hb⟩ := Pivot.findBoundary_spec hg.coherent accept none y hy
  refine (Pivot.effect_staked hg hp (fun t ht => (hb t ht).rooted) fun p hm => (Pivot.Borders.parted hg hp hb p hm).2).mono
    fun z hz => hz.mono fun h hs => ?_
  have hts := hp.ne_nil hne
  exact ⟨hs.boundary_paired hg hb hpd, hs.tCount_le, (hs.boundary_traces hg hb hpd).card_le,
    hs.boundary_restless hg hb hpd hts, hs.idle_card_lt hg hb hpd hts⟩

end Rule

end ZXCircuits
