/-
  Rules for the interior.

  Identities, fusion and local complementation take vertices away and make nothing loose but for a vertex that takes the place of one
  that goes.  `Bypassed`, `Fusion.Result` and `LocalComplement.Result` say what a round leaves of the neighbours and the phases; that
  nothing grows follows from these alone (`Fusion.Result.lower` and so on).
-/
import ZXCircuits.Proofs.Termination.Loose

namespace ZXCircuits

open List Diagram Exact

variable {g h : Diagram} {k : Diagram} {e : Effect}

/-! ## Vertices that are bypassed -/

/-- Some vertices are gone; edges have come, and may have gone, between two neighbours of one of them only. -/
structure Bypassed (g : Diagram) (vs : List Vertex) (h : Diagram) : Prop where
  coherent : h.Coherent
  vertex : ∀ x, h.has x → g.has x ∧ x ∉ vs
  kind : ∀ x, h.has x → h.kindD x = g.kindD x
  joined : ∀ a b, h.Joined a b → g.Joined a b ∨ (a ≠ b ∧ ∃ v ∈ vs, g.Joined v a ∧ g.Joined v b)
  kept : ∀ a b, g.Joined a b → a ∉ vs → b ∉ vs → (∀ v ∈ vs, g.Joined v a → ¬ g.Joined v b) → h.Joined a b

namespace Bypassed

variable {vs : List Vertex} {l x : Vertex}

lemma of_applied (hr : Rephased g k) (ha : Applied k e h) (edges : e.edges = [])
    (table : ∀ f ∈ Table.keys e.table, f.1 ≠ f.2 ∧ ∃ v ∈ e.vertices, g.Joined v f.1 ∧ g.Joined v f.2) :
    Bypassed g e.vertices h := by
  have spanned : ∀ a b, Spanned (Table.keys e.table) a b → a ≠ b ∧ ∃ v ∈ e.vertices, g.Joined v a ∧ g.Joined v b := by
    rintro a b ⟨f, hf, ⟨rfl, rfl⟩ | ⟨rfl, rfl⟩⟩
    · exact table f hf
    · exact ⟨(table f hf).1.symm, (table f hf).2.imp fun v hv => ⟨hv.1, hv.2.symm⟩⟩
  refine ⟨ha.coherent, fun x hx => ⟨(hr.has x).symm.trans (ha.vertex x hx).1, (ha.vertex x hx).2⟩, fun x hx => ?_,
    fun a b hab => (ha.joined a b hab).1.imp hr.joined.1 (spanned a b), fun a b hab hva hvb hn => ?_⟩
  · rw [ha.kind x hx, hr.kindD]
  refine ha.kept a b (hr.joined.2 hab) (fun hs => ?_) ?_ hva hvb
  · obtain ⟨-, v, hv, h1, h2⟩ := spanned a b hs
    exact hn v hv h1 h2
  rw [edges]
  rintro ⟨f, hf, -⟩
  cases hf

lemma hangs (hg : g.Coherent) (hb : Bypassed g vs h) (hl : g.Hangs l x) (hn : l ∉ vs) (hx : h.has x) : h.Hangs l x := by
  have next : ∀ v ∈ vs, ¬ g.Joined v l := fun v hv hj => (hb.vertex x hx).2 ((hl v).1 (hg.back hj) ▸ hv)
  intro y
  constructor
  · intro hy
    refine (hl y).1 ((hb.joined l y hy).resolve_right ?_)
    rintro ⟨-, v, hv, hj, -⟩
    exact next v hv hj
  · rintro rfl
    exact hb.kept l y hl.joined hn (hb.vertex y hx).2 fun v hv hj => absurd hj (next v hv)

lemma inland (hg : g.Neat) (hb : Bypassed g vs h) (hn : ∀ b ∈ vs, ∀ x, g.Hangs b x → g.kindD b ≠ .boundary) (hx : h.Inland x) :
    g.Inland x :=
  .of_hangs hg hb.coherent (hb.vertex x hx.vertex).1 hb.kind
    (fun b hbx hk => (hb.hangs hg.coherent hbx (fun c => hn b c x hbx hk) hx.vertex).joined) hx

lemma exists_joined (hg : g.Coherent) (hb : Bypassed g vs h) (hx : ∃ y, h.Joined x y) : ∃ y, g.Joined x y := by
  obtain ⟨y, hy⟩ := hx
  rcases hb.joined x y hy with hj | ⟨-, v, -, hj, -⟩
  · exact ⟨y, hj⟩
  · exact ⟨v, hg.back hj⟩

end Bypassed

/-! ## Identities -/

namespace Identity

variable {ps : List Place}

lemma bypassed_of_applied (hg : g.Coherent) (fits : ∀ p ∈ ps, Fits g p) (vertices : e.vertices = ps.map (·.vertex))
    (edges : e.edges = []) (table : ∀ f ∈ Table.keys e.table, ∃ p ∈ ps, f = (p.first, p.second)) (ha : Applied g e h) :
    Bypassed g e.vertices h := by
  refine .of_applied (.refl g) ha edges fun f hf => ?_
  obtain ⟨p, hp, rfl⟩ := table f hf
  have hn := hg.nodup p.vertex
  rw [(fits p hp).neighbours] at hn
  refine ⟨by simpa using hn, p.vertex, vertices ▸ mem_map_of_mem hp, ?_⟩
  rw [← mem_nearby, ← mem_nearby, (fits p hp).neighbours]
  simp

lemma lower_of_bypassed (hg : g.Neat) (fits : ∀ p ∈ ps, Fits g p) (hb : Bypassed g (ps.map (·.vertex)) h)
    (phase : ∀ x, h.has x → HalfTurns (g.phase x) (h.phase x)) : Lower g h := by
  have single : ∀ v ∈ ps.map (·.vertex), ∀ x, ¬ g.Hangs v x := by
    intro v hv x hx
    obtain ⟨p, hp, rfl⟩ := mem_map.1 hv
    have h1 := hg.coherent.nearby_of_hangs hx
    rw [(fits p hp).neighbours] at h1
    cases h1
  have inland : ∀ x, h.Inland x → g.Inland x := fun x => hb.inland hg fun b hbv y hy => absurd hy (single b hbv y)
  refine .of_loose (fun x hx => (hb.vertex x hx).1) phase inland fun x hx =>
    ⟨inland x hx.inland, hb.exists_joined hg.coherent hx.joined, ?_⟩
  rintro ⟨l, hl, hw⟩
  have hl' := hb.hangs hg.coherent hl (fun c => single l c x hl) hx.inland.vertex
  exact hx.axle ⟨l, hl', fun c => hw ((phase l hl'.joined.has).whole_iff.1 c)⟩

end Identity

/-! ## Local complementation -/

namespace LocalComplement

variable {p q : Place} {ps : List Place} {x : Vertex}

/-- The vertices of the places are bypassed, and their phases are taken from their neighbours. -/
structure Result (g : Diagram) (ps : List Place) (h : Diagram) : Prop where
  bypassed : Bypassed g (ps.map (·.vertex)) h
  quarters : ∀ x, h.has x → ((h.phase x).Quarters ↔ (g.phase x).Quarters)
  away : ∀ x, h.has x → (∀ p ∈ ps, ¬ g.Joined p.vertex x) → HalfTurns (g.phase x) (h.phase x)
  once : ∀ p ∈ ps, (∀ q ∈ ps, ¬ g.Joined q.vertex p.vertex) → ∀ x, h.has x → g.Joined p.vertex x →
    (∀ q ∈ ps, g.Joined q.vertex x → q = p) → (g.phase x).Whole → (h.phase x).Odd

lemma Fits.odd (hp : Fits g p) : (g.phase p.vertex).Odd := by
  rw [odd_iff]
  rcases hp.phase with hc | hc
  · exact ⟨0, by rw [hc]; norm_num⟩
  · exact ⟨1, by rw [hc]; norm_num⟩

lemma Fits.inland (hg : g.Neat) (hp : Fits g p) : g.Inland p.vertex := by
  have inner : g.kindD p.vertex ≠ .boundary := fun c => hp.odd.2 (hg.whole _ hp.vertex c)
  refine ⟨hp.vertex, inner, fun b hb hk => inner ?_⟩
  rw [← hp.kind b (hp.neighbours ▸ mem_nearby.2 hb)]
  exact hk

lemma result_of_applied (hg : g.Coherent) (fits : ∀ p ∈ ps, Fits g p) (ha : Applied (effect g ps).1 (effect g ps).2 h) :
    Result g ps h := by
  obtain ⟨spread, vertices, edges, table⟩ := effect_spec hg fits
  have next : ∀ p ∈ ps, ∀ x, x ∈ p.neighbours ↔ g.Joined p.vertex x := fun p hp x => by
    rw [(fits p hp).neighbours, mem_nearby]
  refine ⟨?_, fun x hx => (ha.phase x hx).quarters_iff.trans (spread.quarters x), fun x hx hn => ?_, fun p hp hv x hx hj ho hw => ?_⟩
  · refine .of_applied spread.rephased ha edges fun f hf => ⟨(table f hf).1, ?_⟩
    obtain ⟨-, p, hp, h1, h2⟩ := table f hf
    exact ⟨p.vertex, mem_map_of_mem hp, (next p hp _).1 h1, (next p hp _).1 h2⟩
  · rw [← spread.away x fun p hp c => hn p hp ((next p hp x).1 c)]
    exact ha.phase x hx
  · obtain ⟨n, hn⟩ := effect_once hg ha.nodup fits hp (fun q hq c => hv q hq ((next q hq _).1 c)) ((next p hp x).2 hj)
      fun q hq c => ho q hq ((next q hq x).1 c)
    obtain ⟨m, hm⟩ := hw
    rw [(ha.phase x hx).odd_iff, odd_iff]
    exact ⟨m + n, by rw [hn, hm]; push_cast; ring⟩

section Complemented

variable (hg : g.Neat) (fits : ∀ p ∈ ps, Fits g p) (hr : Result g ps h)

include hg fits hr

lemma Result.inland (hx : h.Inland x) : g.Inland x := by
  refine hr.bypassed.inland hg (fun b hb _ _ => ?_) hx
  obtain ⟨p, hp, rfl⟩ := mem_map.1 hb
  exact ((fits p hp).inland hg).inner

lemma Result.loose_place (hp : p ∈ ps) (hv : g.Hangs p.vertex x) (hx : h.Loose x) : g.Loose p.vertex := by
  refine ⟨(fits p hp).inland hg, ⟨x, hv.joined⟩, ?_⟩
  rintro ⟨l, hl, -⟩
  obtain rfl : l = x := (hv l).1 (hg.coherent.back hl.joined)
  -- the two have no other neighbours, and so none is left
  obtain ⟨y, hy⟩ := hx.joined
  rcases hr.bypassed.joined l y hy with hy' | ⟨hne, v, -, h1, h2⟩
  · rw [(hl y).1 hy'] at hy
    exact (hr.bypassed.vertex _ (hr.bypassed.coherent.vertex hy)).2 (mem_map_of_mem hp)
  · obtain rfl := (hl v).1 (hg.coherent.back h1)
    exact hne ((hv y).1 h2).symm

lemma Result.traces : Traces g h fun x z => ∃ p ∈ ps, z = p.vertex ∧ g.Hangs p.vertex x where
  heavy x hx := by
    by_cases hq : (g.phase x).Quarters
    swap
    · exact .inl (heavy_of_phase (hr.bypassed.vertex x hx.1).1 hq)
    have hl := hx.2 ((hr.quarters x hx.1).2 hq)
    by_cases ha : g.Axle x
    swap
    · exact .inl (Loose.heavy ⟨hr.inland hg fits hl.inland, hr.bypassed.exists_joined hg.coherent hl.joined, ha⟩)
    obtain ⟨l, hlx, hw⟩ := ha
    by_cases hm : l ∈ ps.map (·.vertex)
    · obtain ⟨p, hp, rfl⟩ := mem_map.1 hm
      exact .inr ⟨_, ⟨p, hp, rfl, hlx⟩, (hr.loose_place hg fits hp hlx hl).heavy⟩
    have hl' := hr.bypassed.hangs hg.coherent hlx hm hx.1
    refine absurd ⟨l, hl', fun c => hw ((hr.away l hl'.joined.has fun p hp hj => ?_).whole_iff.1 c)⟩ hl.axle
    have hv := (hlx _).1 (hg.coherent.back hj)
    exact (hr.bypassed.vertex x hx.1).2 (hv ▸ mem_map_of_mem hp)
  lost := by
    rintro x z ⟨p, hp, rfl, -⟩ hz
    exact (hr.bypassed.vertex _ hz.1).2 (mem_map_of_mem hp)
  unique := by
    rintro x y z ⟨p, -, rfl, hx⟩ ⟨q, -, hpq, hy⟩
    exact (hy x).1 (hpq ▸ hx.joined)

variable (hc : h.heavy.card = g.heavy.card) (hcalm : g.Calm)

include hc hcalm

lemma Result.exists_hangs (hp : p ∈ ps) :
    ∃ x, g.Hangs p.vertex x ∧ h.Loose x ∧ (g.phase x).Whole ∧ (hr.traces hg fits).origin x = p.vertex := by
  have loose := hcalm _ ((fits p hp).inland hg) (fits p hp).odd
  rcases (hr.traces hg fits).onto hc loose.heavy with c | ⟨x, hx, hn, ⟨q, -, hpq, hqx⟩, ho⟩
  · exact absurd (mem_map_of_mem hp) (hr.bypassed.vertex _ c.1).2
  have hq : (g.phase x).Quarters := by
    by_contra hq
    exact hn (heavy_of_phase (hr.bypassed.vertex x hx.1).1 hq)
  have hl := hx.2 ((hr.quarters x hx.1).2 hq)
  refine ⟨x, hpq ▸ hqx, hl, ?_, ho⟩
  by_contra hw
  exact hn (hcalm x (hr.inland hg fits hl.inland) ⟨hq, hw⟩).heavy

lemma Result.odd_of_joined (hp : p ∈ ps) (hj : g.Joined p.vertex x) : h.Loose x ∧ (h.phase x).Odd ∧ (g.phase x).Whole := by
  obtain ⟨y, hy, hl, hw, ho⟩ := hr.exists_hangs hg fits hc hcalm hp
  obtain rfl := (hy x).1 hj
  refine ⟨hl, hr.once p hp (fun q hq c => ?_) x hl.inland.vertex hj (fun q hq c => ?_) hw, hw⟩
  · obtain ⟨z, hz, -, hw', -⟩ := hr.exists_hangs hg fits hc hcalm hq
    exact (fits p hp).odd.2 ((hz _).1 c ▸ hw')
  obtain ⟨z, hz, -, -, ho'⟩ := hr.exists_hangs hg fits hc hcalm hq
  have hv : q.vertex = p.vertex := by rw [← ho', ← (hz x).1 c, ho]
  have hns : q.neighbours = p.neighbours := by rw [(fits q hq).neighbours, (fits p hp).neighbours, hv]
  exact congrArg₂ Place.mk hv hns

omit hcalm in
lemma Result.odd_away (hl : g.Loose x) (ho : (g.phase x).Odd) (hv : ∀ p ∈ ps, x ≠ p.vertex) (hj : ∀ p ∈ ps, ¬ g.Joined p.vertex x) :
    h.Loose x ∧ (h.phase x).Odd := by
  have hx := ((hr.traces hg fits).onto hc hl.heavy).resolve_right fun ⟨_, _, _, ⟨p, hp, e, _⟩, _⟩ => hv p hp e
  have hph := hr.away x hx.1 hj
  exact ⟨hx.2 (hph.quarters_iff.2 ho.1), hph.odd_iff.2 ho⟩

lemma Result.calm : h.Calm := by
  intro x hx ho
  by_cases hj : ∃ p ∈ ps, g.Joined p.vertex x
  · obtain ⟨p, hp, hj⟩ := hj
    exact (hr.odd_of_joined hg fits hc hcalm hp hj).1
  have hn : ∀ p ∈ ps, ¬ g.Joined p.vertex x := fun p hp c => hj ⟨p, hp, c⟩
  have ho := (hr.away x hx.vertex hn).odd_iff.1 ho
  refine (hr.odd_away hg fits hc (hcalm x (hr.inland hg fits hx) ho) ho (fun p hp c => ?_) hn).1
  exact (hr.bypassed.vertex x hx.vertex).2 (c ▸ mem_map_of_mem hp)

lemma Result.exists_odd (ho : ∃ v, g.Inland v ∧ (g.phase v).Odd) : ∃ v, h.Inland v ∧ (h.phase v).Odd := by
  obtain ⟨v, hv, ho⟩ := ho
  by_cases hp : ∃ p ∈ ps, v = p.vertex
  · obtain ⟨p, hp, rfl⟩ := hp
    obtain ⟨x, hx, hl, -⟩ := hr.exists_hangs hg fits hc hcalm hp
    exact ⟨x, hl.inland, (hr.odd_of_joined hg fits hc hcalm hp hx.joined).2.1⟩
  · obtain ⟨hl, ho⟩ := hr.odd_away hg fits hc (hcalm v hv ho) ho (fun p hp' c => hp ⟨p, hp', c⟩)
      fun p hp' c => ho.2 (hr.odd_of_joined hg fits hc hcalm hp' c).2.2
    exact ⟨v, hl.inland, ho⟩

omit hc hcalm in
/-- **Local complementation** makes no more loose vertices, and with as many of them a quarter turn is left. -/
theorem Result.lower (tCount : h.tCount ≤ g.tCount) : Lower g h :=
  ⟨tCount, (hr.traces hg fits).card_le, fun hc hrest =>
    ⟨hr.calm hg fits hc hrest.calm, hr.exists_odd hg fits hc hrest.calm hrest.odd⟩⟩

end Complemented

end LocalComplement

/-! ## Fusion -/

namespace Fusion

variable {p q : Place} {ps : List Place} {l x : Vertex}

/-- The vertices that go are gone, and the others have their phases and edges. -/
structure Result (g : Diagram) (ps : List Place) (h : Diagram) : Prop where
  coherent : h.Coherent
  vertex : ∀ x, h.has x → g.has x ∧ ∀ p ∈ ps, x ≠ p.remove
  kind : ∀ x, h.has x → h.kindD x = g.kindD x
  sum : ∀ p ∈ ps, h.has p.keep → HalfTurns ((g.phase p.keep).add (g.phase p.remove)) (h.phase p.keep)
  phase : ∀ x, h.has x → (∀ p ∈ ps, x ≠ p.keep) → HalfTurns (g.phase x) (h.phase x)
  joined : ∀ a b, h.Joined a b → g.Joined a b ∨ ∃ p ∈ ps, Moves g p (a, b) ∨ Moves g p (b, a)
  kept : ∀ a b, g.Joined a b → (∀ p ∈ ps, a ≠ p.remove ∧ b ≠ p.remove) → (∀ p ∈ ps, ¬ Moves g p (a, b) ∧ ¬ Moves g p (b, a)) → h.Joined a b
  moved : ∀ p ∈ ps, ∀ w, g.Joined p.remove w → w ≠ p.keep → ¬ g.Joined p.keep w → (∀ q ∈ ps, w ≠ q.remove) → h.Joined p.keep w

lemma keep_ne_remove (fits : ∀ p ∈ ps, Fits g p) (apart : ps.Pairwise Apart) (hp : p ∈ ps) (hq : q ∈ ps) : p.keep ≠ q.remove := by
  by_cases hpq : p = q
  · exact hpq ▸ (fits p hp).ne
  · exact (apart.forall hp hq hpq).2.1

section

variable (apart : ps.Pairwise Apart) (hp : p ∈ ps) (hq : q ∈ ps)
include apart hp hq

lemma eq_of_keep (hk : p.keep = q.keep) : p = q := by
  by_contra hpq
  exact (apart.forall hp hq hpq).1 hk

lemma eq_of_remove (hk : p.remove = q.remove) : p = q := by
  by_contra hpq
  exact (apart.forall hp hq hpq).2.2.2 hk

end

lemma result_of_applied (fits : ∀ p ∈ ps, Fits g p) (apart : ps.Pairwise Apart) (fused : Fused g ps k e)
    (sums : Sums g ps k e.table) (ha : Applied k e h) : Result g ps h := by
  have gone : ∀ x, x ∈ e.vertices ↔ ∃ p ∈ ps, x = p.remove := by
    intro x
    rw [fused.vertices, mem_map]
    exact exists_congr fun p => and_congr_right fun _ => eq_comm
  have stays : ∀ x, (∀ p ∈ ps, x ≠ p.remove) → x ∉ e.vertices := fun x hx c => by
    obtain ⟨p, hp, c⟩ := (gone x).1 c
    exact hx p hp c
  have none : ∀ a b, ¬ Spanned e.edges a b := by rw [fused.edges]; rintro a b ⟨f, hf, -⟩; cases hf
  have spanned : ∀ a b, Spanned (Table.keys e.table) a b → ∃ p ∈ ps, Moves g p (a, b) ∨ Moves g p (b, a) := by
    rintro a b ⟨f, hf, hab⟩
    obtain ⟨p, hp, hm⟩ := fused.moves f hf
    rcases hab with ⟨rfl, rfl⟩ | ⟨rfl, rfl⟩
    · exact ⟨p, hp, .inl hm⟩
    · exact ⟨p, hp, .inr hm⟩
  refine ⟨ha.coherent, fun x hx => ?_, fun x hx => ?_, fun p hp hk => ?_, fun x hx hn => ?_, fun a b hab => ?_, fun a b hab hv hn => ?_,
    fun p hp w hw hne hj hv => ?_⟩
  · exact ⟨(fused.rephased.has x).symm.trans (ha.vertex x hx).1, fun p hp c => (ha.vertex x hx).2 ((gone x).2 ⟨p, hp, c⟩)⟩
  · rw [ha.kind x hx, fused.rephased.kindD]
  · have hm : HalfTurns ((g.phase p.keep).add (g.phase p.remove)) (k.phase p.keep) := by
      rw [sums.phase p hp]
      exact ⟨⟨_, Rat.modTwo_eq _⟩, fun _ => ⟨Rat.modTwo_nonneg _, Rat.modTwo_lt_two _⟩⟩
    exact hm.trans (ha.phase _ hk)
  · rw [← fused.away x hn]
    exact ha.phase x hx
  · exact (ha.joined a b hab).1.imp fused.rephased.joined.1 (spanned a b)
  · refine ha.kept a b (fused.rephased.joined.2 hab) (fun hs => ?_) (none a b) (stays a fun p hp => (hv p hp).1)
      (stays b fun p hp => (hv p hp).2)
    obtain ⟨p, hp, hm | hm⟩ := spanned a b hs
    · exact (hn p hp).1 hm
    · exact (hn p hp).2 hm
  · obtain ⟨n, hm, hl⟩ := sums.single p hp w hw hne
    exact ha.made (p.keep, w) n hm hl (fun c => hj (fused.rephased.joined.1 c)) (none _ _)
      (stays _ fun q hq => keep_ne_remove fits apart hp hq) (stays w hv)

section Fused

variable (hg : g.Neat) (fits : ∀ p ∈ ps, Fits g p) (apart : ps.Pairwise Apart) (hr : Result g ps h)

include hg fits hr

lemma Result.hangs (hl : g.Hangs l x) (hx : ∀ p ∈ ps, x ≠ p.remove) (hn : ∀ p ∈ ps, l ≠ p.remove) : h.Hangs l x := by
  have moves : ∀ p ∈ ps, ∀ y, ¬ Moves g p (l, y) ∧ ¬ Moves g p (y, l) := by
    refine fun p hp y => ⟨fun ⟨hm, _⟩ => hx p hp ?_, fun ⟨_, _, hm⟩ => hx p hp ?_⟩
    · have hm : l = p.keep := hm
      exact ((hl _).1 (hm ▸ (fits p hp).joined)).symm
    · exact ((hl _).1 (hg.coherent.back hm)).symm
  intro y
  constructor
  · intro hy
    refine (hl y).1 ((hr.joined l y hy).resolve_right ?_)
    rintro ⟨p, hp, hm | hm⟩
    · exact (moves p hp y).1 hm
    · exact (moves p hp y).2 hm
  · rintro rfl
    exact hr.kept l y hl.joined (fun p hp => ⟨hn p hp, hx p hp⟩) fun p hp => moves p hp y

lemma Result.hangs_away (hl : g.Hangs l x) (hx : ∀ p ∈ ps, x ≠ p.remove ∧ x ≠ p.keep) : h.Hangs l x := by
  refine hr.hangs hg fits hl (fun p hp => (hx p hp).1) fun p hp c => (hx p hp).2 ?_
  exact ((hl _).1 (c ▸ hg.coherent.back (fits p hp).joined)).symm

include apart

lemma Result.hangs_keep (hl : g.Hangs l p.keep) (hp : p ∈ ps) (hn : l ≠ p.remove) : h.Hangs l p.keep := by
  refine hr.hangs hg fits hl (fun q hq => keep_ne_remove fits apart hp hq) fun q hq c => hn ?_
  have hk := (hl _).1 (c ▸ hg.coherent.back (fits q hq).joined)
  rw [c, eq_of_keep apart hp hq hk.symm]

lemma Result.hangs_remove (hl : g.Hangs l p.remove) (hp : p ∈ ps) (hn : l ≠ p.keep) : h.Hangs l p.keep := by
  have hj : g.Joined p.remove l := hg.coherent.back hl.joined
  have old : ¬ g.Joined p.keep l := fun c => (fits p hp).ne ((hl _).1 (hg.coherent.back c))
  have stays : ∀ q ∈ ps, l ≠ q.remove := by
    rintro q hq rfl
    exact keep_ne_remove fits apart hq hp ((hl _).1 (hg.coherent.back (fits q hq).joined))
  intro y
  constructor
  · intro hy
    rcases hr.joined l y hy with hy' | ⟨q, hq, ⟨hm, -⟩ | ⟨hm, -, hm'⟩⟩
    · exact absurd ((hl y).1 hy') ((hr.vertex y (hr.coherent.vertex hy)).2 p hp)
    · have hm : l = q.keep := hm
      have := eq_of_remove apart hq hp ((hl _).1 (hm ▸ (fits q hq).joined))
      exact absurd (this ▸ hm) hn
    · have hm : y = q.keep := hm
      rw [hm, eq_of_remove apart hq hp ((hl _).1 (hg.coherent.back hm'))]
  · rintro rfl
    exact hr.coherent.back (hr.moved p hp l hj hn old stays)

omit apart in
lemma Result.inland (hx : h.Inland x) : g.Inland x := by
  refine .of_hangs hg hr.coherent (hr.vertex x hx.vertex).1 hr.kind (fun b hb hk => ?_) hx
  refine (hr.hangs hg fits hb (hr.vertex x hx.vertex).2 fun p hp c => (fits p hp).inner ?_).joined
  rw [← (fits p hp).kind, ← c]
  exact hk

lemma Result.inland_remove (hp : p ∈ ps) (hx : h.Inland p.keep) : g.Inland p.remove := by
  refine ⟨(hg.coherent.back (fits p hp).joined).has, by rw [(fits p hp).kind]; exact (fits p hp).inner, fun b hj hk => ?_⟩
  have hb := hr.hangs_remove hg fits apart (hg.hangs hj hk) hp fun c => (fits p hp).inner (c ▸ hk)
  exact hx.away b (hr.coherent.back hb.joined) ((hr.kind b hb.joined.has).trans hk)

omit apart in
lemma Result.loose_away (hx : h.Loose x) (hn : ∀ p ∈ ps, x ≠ p.keep) : g.Loose x := by
  refine ⟨hr.inland hg fits hx.inland, ?_, ?_⟩
  · obtain ⟨y, hy⟩ := hx.joined
    rcases hr.joined x y hy with hj | ⟨p, hp, ⟨hm, -⟩ | ⟨-, -, hm⟩⟩
    · exact ⟨y, hj⟩
    · exact absurd hm (hn p hp)
    · exact ⟨_, hg.coherent.back hm⟩
  rintro ⟨l, hl, hw⟩
  have hl' := hr.hangs_away hg fits hl fun p hp => ⟨(hr.vertex x hx.inland.vertex).2 p hp, hn p hp⟩
  refine hx.axle ⟨l, hl', fun c => hw ((hr.phase l hl'.joined.has fun p hp c => ?_).whole_iff.1 c)⟩
  exact (hr.vertex x hx.inland.vertex).2 p hp ((hl _).1 (c ▸ (fits p hp).joined)).symm

lemma Result.heavy_keep (hp : p ∈ ps) (hx : h.Loose p.keep) : g.Heavy p.keep ∨ g.Heavy p.remove := by
  have hj := (fits p hp).joined
  by_contra hc
  rw [not_or] at hc
  -- a vertex that is not heavy has a leaf
  have axle : ∀ v, g.Inland v → (∃ y, g.Joined v y) → ¬ g.Heavy v → g.Axle v := by
    intro v hv hy hn
    by_contra ha
    exact hn (Loose.heavy ⟨hv, hy, ha⟩)
  have phase : ∀ l, h.Hangs l p.keep → ¬ (g.phase l).Whole → (∀ q ∈ ps, l ≠ q.keep) → h.Axle p.keep := fun l hl hw hn =>
    ⟨l, hl, fun c => hw ((hr.phase l hl.joined.has hn).whole_iff.1 c)⟩
  obtain ⟨l1, hl1, hw1⟩ := axle _ (hr.inland hg fits hx.inland) ⟨_, hj⟩ hc.1
  obtain ⟨l2, hl2, hw2⟩ := axle _ (hr.inland_remove hg fits apart hp hx.inland) ⟨_, hg.coherent.back hj⟩ hc.2
  by_cases h1 : l1 = p.remove
  swap
  · refine hx.axle (phase l1 (hr.hangs_keep hg fits apart hl1 hp h1) hw1 ?_)
    rintro q hq rfl
    exact keep_ne_remove fits apart hp hq ((hl1 _).1 (fits q hq).joined).symm
  by_cases h2 : l2 = p.keep
  swap
  · refine hx.axle (phase l2 (hr.hangs_remove hg fits apart hl2 hp h2) hw2 ?_)
    rintro q hq rfl
    exact h2 (congrArg Place.keep (eq_of_remove apart hq hp ((hl2 _).1 (fits q hq).joined)))
  -- the two have no other neighbours, and so none is left
  subst h1 h2
  obtain ⟨y, hy⟩ := hx.joined
  have hv := (hr.vertex y (hr.coherent.vertex hy)).2
  rcases hr.joined _ y hy with hy' | ⟨q, hq, ⟨hm, hne, hm'⟩ | ⟨-, hne, hm'⟩⟩
  · exact hv p hp ((hl2 y).1 hy')
  · obtain rfl := eq_of_keep apart hp hq hm
    exact hne ((hl1 y).1 hm')
  · obtain rfl := eq_of_remove apart hq hp ((hl2 _).1 (hg.coherent.back hm'))
    exact hne rfl

lemma Result.traces : Traces g h fun x z => ∃ p ∈ ps, x = p.keep ∧ z = p.remove where
  heavy x hx := by
    by_cases hk : ∃ p ∈ ps, x = p.keep
    · obtain ⟨p, hp, rfl⟩ := hk
      have either : g.Heavy p.keep ∨ g.Heavy p.remove := by
        by_cases hq : (h.phase p.keep).Quarters
        · exact hr.heavy_keep hg fits apart hp (hx.2 hq)
        -- a sum of two multiples of a quarter turn is one
        by_contra hc
        rw [not_or] at hc
        have quarters : ∀ v, g.has v → ¬ g.Heavy v → (g.phase v).Quarters := fun v hv hn => by
          by_contra hc
          exact hn (heavy_of_phase hv hc)
        have hj := (fits p hp).joined
        refine hq ((hr.sum p hp hx.1).quarters_iff.2 ((quarters _ hj.has hc.1).add (quarters _ (hg.coherent.vertex hj) hc.2) ⟨0, ?_⟩))
        rw [toRat_add]
        simp
      exact either.imp id fun hz => ⟨_, ⟨p, hp, rfl, rfl⟩, hz⟩
    · have hn : ∀ p ∈ ps, x ≠ p.keep := fun p hp c => hk ⟨p, hp, c⟩
      refine .inl ⟨(hr.vertex x hx.1).1, fun hq => hr.loose_away hg fits (hx.2 ?_) hn⟩
      exact (hr.phase x hx.1 hn).quarters_iff.2 hq
  lost := by
    rintro x z ⟨p, hp, -, rfl⟩ hz
    exact (hr.vertex _ hz.1).2 p hp rfl
  unique := by
    rintro x y z ⟨p, hp, rfl, rfl⟩ ⟨q, hq, rfl, hpq⟩
    rw [eq_of_remove apart hp hq hpq]

variable (hc : h.heavy.card = g.heavy.card) (hcalm : g.Calm)

include hc

lemma Result.heavy_of_remove (hp : p ∈ ps) (hz : g.Heavy p.remove) : ¬ g.Heavy p.keep ∧ h.Heavy p.keep := by
  rcases (hr.traces hg fits apart).onto hc hz with c | ⟨x, hx, hn, ⟨q, hq, rfl, hpq⟩, -⟩
  · exact absurd rfl ((hr.vertex _ c.1).2 p hp)
  · rw [eq_of_remove apart hp hq hpq]
    exact ⟨hn, hx⟩

lemma Result.heavy_stays (hx : g.Heavy x) (hn : ∀ p ∈ ps, x ≠ p.remove) : h.Heavy x :=
  ((hr.traces hg fits apart).onto hc hx).resolve_right fun ⟨_, _, _, ⟨p, hp, _, c⟩, _⟩ => hn p hp c

lemma Result.odd_away (hl : g.Loose x) (ho : (g.phase x).Odd) (hn : ∀ p ∈ ps, x ≠ p.remove ∧ x ≠ p.keep) :
    h.Loose x ∧ (h.phase x).Odd := by
  have hx := hr.heavy_stays hg fits apart hc hl.heavy fun p hp => (hn p hp).1
  have hp := hr.phase x hx.1 fun p hp => (hn p hp).2
  exact ⟨hx.2 (hp.quarters_iff.2 ho.1), hp.odd_iff.2 ho⟩

omit hg fits apart hr hc in
include hcalm in
lemma odd_sum {a b : Vertex} (hs : HalfTurns ((g.phase a).add (g.phase b)) (h.phase x)) (ho : (g.phase a).Odd)
    (hb : g.has b) (hn : ¬ g.Heavy b) (hin : h.Inland x → g.Inland b) (hx : h.Heavy x) : h.Loose x ∧ (h.phase x).Odd := by
  have hq : (g.phase b).Quarters := by
    by_contra hq
    exact hn (heavy_of_phase hb hq)
  have hl := hx.2 (hs.quarters_iff.2 (ho.1.add hq ⟨0, by rw [toRat_add]; simp⟩))
  have hw : (g.phase b).Whole := by
    by_contra hw
    exact hn (hcalm b (hin hl.inland) ⟨hq, hw⟩).heavy
  exact ⟨hl, hs.odd_iff.2 (ho.add_whole hw)⟩

include hcalm

lemma Result.odd_keep (hp : p ∈ ps) (hl : g.Loose p.keep) (ho : (g.phase p.keep).Odd) : h.Loose p.keep ∧ (h.phase p.keep).Odd := by
  have hk := hr.heavy_stays hg fits apart hc hl.heavy fun q hq => keep_ne_remove fits apart hp hq
  exact odd_sum hcalm (hr.sum p hp hk.1) ho (hg.coherent.back (fits p hp).joined).has
    (fun c => (hr.heavy_of_remove hg fits apart hc hp c).1 hl.heavy) (hr.inland_remove hg fits apart hp) hk

lemma Result.odd_remove (hp : p ∈ ps) (hl : g.Loose p.remove) (ho : (g.phase p.remove).Odd) : h.Loose p.keep ∧ (h.phase p.keep).Odd := by
  obtain ⟨hn, hk⟩ := hr.heavy_of_remove hg fits apart hc hp hl.heavy
  exact odd_sum hcalm (hr.sum p hp hk.1).add_comm ho (fits p hp).joined.has hn (hr.inland hg fits) hk

lemma Result.loose_keep (hp : p ∈ ps) (hx : h.Inland p.keep) (ho : (h.phase p.keep).Odd) : h.Loose p.keep := by
  have hs := hr.sum p hp hx.vertex
  have ho := hs.odd_iff.1 ho
  have in1 := hr.inland hg fits hx
  have in2 := hr.inland_remove hg fits apart hp hx
  by_cases hq : (g.phase p.keep).Quarters
  · by_cases hw : (g.phase p.keep).Whole
    · have odd : (g.phase p.remove).Odd := ⟨hq.of_add ho.1, fun c => ho.2 (hw.add c)⟩
      exact (hr.odd_remove hg fits apart hc hcalm hp (hcalm _ in2 odd) odd).1
    · exact (hr.odd_keep hg fits apart hc hcalm hp (hcalm _ in1 ⟨hq, hw⟩) ⟨hq, hw⟩).1
  · -- two phases that are no multiples of a quarter turn would be one fewer
    have hq' : ¬ (g.phase p.remove).Quarters := fun c => hq (c.of_add (hs.add_comm.quarters_iff.1 (hs.quarters_iff.2 ho.1)))
    exact absurd (heavy_of_phase in1.vertex hq) (hr.heavy_of_remove hg fits apart hc hp (heavy_of_phase in2.vertex hq')).1

lemma Result.calm : h.Calm := by
  intro x hx ho
  by_cases hk : ∃ p ∈ ps, x = p.keep
  · obtain ⟨p, hp, rfl⟩ := hk
    exact hr.loose_keep hg fits apart hc hcalm hp hx ho
  have hn : ∀ p ∈ ps, x ≠ p.keep := fun p hp c => hk ⟨p, hp, c⟩
  have ho := (hr.phase x hx.vertex hn).odd_iff.1 ho
  exact (hr.odd_away hg fits apart hc (hcalm x (hr.inland hg fits hx) ho) ho fun p hp =>
    ⟨(hr.vertex x hx.vertex).2 p hp, hn p hp⟩).1

lemma Result.exists_odd (ho : ∃ v, g.Inland v ∧ (g.phase v).Odd) : ∃ v, h.Inland v ∧ (h.phase v).Odd := by
  obtain ⟨v, hv, ho⟩ := ho
  have hl := hcalm v hv ho
  suffices ∃ x, h.Loose x ∧ (h.phase x).Odd from this.imp fun x hx => ⟨hx.1.inland, hx.2⟩
  by_cases hk : ∃ p ∈ ps, v = p.keep
  · obtain ⟨p, hp, rfl⟩ := hk
    exact ⟨_, hr.odd_keep hg fits apart hc hcalm hp hl ho⟩
  by_cases hm : ∃ p ∈ ps, v = p.remove
  · obtain ⟨p, hp, rfl⟩ := hm
    exact ⟨_, hr.odd_remove hg fits apart hc hcalm hp hl ho⟩
  exact ⟨v, hr.odd_away hg fits apart hc hl ho fun p hp => ⟨fun c => hm ⟨p, hp, c⟩, fun c => hk ⟨p, hp, c⟩⟩⟩

omit hc hcalm in
/-- **Fusion** makes no more loose vertices, and with as many of them a quarter turn is left. -/
theorem Result.lower (tCount : h.tCount ≤ g.tCount) : Lower g h :=
  ⟨tCount, (hr.traces hg fits apart).card_le, fun hc hrest =>
    ⟨hr.calm hg fits apart hc hrest.calm, hr.exists_odd hg fits apart hc hrest.calm hrest.odd⟩⟩

end Fused

end Fusion

/-! ## Rounds -/

namespace Rule

variable (accept : Vertex → Bool)

lemma identity_sinks : (identity accept).Descends Neat Sinks := by
  refine Keeps.descends_of (fun g hg => (identity_round hg.coherent accept).mono fun x hx => hx.neat hg) fun g hg => .ok fun hne => ?_
  refine .bind (Identity.effect_spec _) fun e ⟨hv, he, ht⟩ => .pure ?_
  refine (applyEffect_spec hg.coherent e).mono fun h ha => ?_
  have fits := Identity.find_spec g accept none
  have hb := Identity.bypassed_of_applied hg.coherent fits hv he ht ha
  obtain ⟨p, hp⟩ := exists_mem_of_ne_nil _ hne
  refine ⟨Identity.lower_of_bypassed hg fits (hv ▸ hb) ha.phase, support_card_lt (fun x hx => (hb.vertex x hx).1)
    (ha.present p.vertex (hv ▸ mem_map_of_mem hp)) fun c => (hb.vertex _ c).2 (hv ▸ mem_map_of_mem hp)⟩

lemma fusion_sinks (accept : Edge → Bool) : (fusion accept).Descends Neat Sinks := by
  refine Keeps.descends_of (fun g hg => (fusion_round hg.coherent accept).mono fun x hx => hx.neat hg) fun g hg => .ok fun hne => ?_
  obtain ⟨fits, apart⟩ := Fusion.find_spec hg.coherent accept none
  have vertex : ∀ p ∈ Fusion.find g accept none, g.has p.remove := fun p hp => (hg.coherent.back (fits p hp).joined).has
  refine (((Fusion.effect_spec g _).and (Fusion.effect_sums hg.coherent hg.plain apart)).and (Fusion.effect_card_le vertex apart)).mono ?_
  rintro y ⟨⟨fused, sums⟩, card⟩
  refine (applyEffect_spec (fused.rephased.coherent hg.coherent) _).mono fun h ha => ?_
  have hr := Fusion.result_of_applied fits apart fused sums ha
  obtain ⟨p, hp⟩ := exists_mem_of_ne_nil _ hne
  refine ⟨hr.lower hg fits apart ?_, support_card_lt (fun x hx => (hr.vertex x hx).1) (vertex p hp) fun c => (hr.vertex _ c).2 p hp rfl⟩
  rw [tCount_eq_card, tCount_eq_card]
  exact (Finset.card_le_card ha.nonClifford).trans card

lemma localComplement_sinks : (localComplement accept).Descends Neat Sinks := by
  refine Keeps.descends_of (fun g hg => (localComplement_round hg.coherent accept).mono fun x hx => hx.neat hg) fun g hg => .ok fun hne => .ok ?_
  have fits := LocalComplement.find_spec g accept false
  have spread := (LocalComplement.effect_spec hg.coherent fits).1
  refine (applyEffect_spec (spread.rephased.coherent hg.coherent) _).mono fun h ha => ?_
  have hr := LocalComplement.result_of_applied hg.coherent fits ha
  obtain ⟨p, hp⟩ := exists_mem_of_ne_nil _ hne
  refine ⟨hr.lower hg fits (ha.tCount_le.trans (tCount_le_of_subset ?_)), support_card_lt (fun x hx => (hr.bypassed.vertex x hx).1)
    (fits p hp).vertex fun c => (hr.bypassed.vertex _ c).2 (mem_map_of_mem hp)⟩
  rw [spread.rephased.nonClifford spread.quarters]

end Rule

end ZXCircuits
