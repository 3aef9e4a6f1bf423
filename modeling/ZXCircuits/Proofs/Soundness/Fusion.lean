/-
  Fusion keeps the linear map.

  The sum over the bit of a spider next to one of its kind along a regular edge is what the other spider gives with the edges and the
  phase of both (`Fusion.Sound.stage_eq`).  No two places have joined vertices, and so all can be fused at once.  Repeated to its
  end, the rule leaves no regular edge between spiders of one kind (`Rule.fusion_exhaust_sound`).
-/
import ZXCircuits.Proofs.Soundness.Identity
import ZXCircuits.Proofs.Strategy.NormalForm

namespace ZXCircuits

open List Diagram

variable {g h k : Diagram}

namespace Fusion

variable {p q : Place} {ps : List Place}

/-! ## Edges that move -/

noncomputable def moved (g : Diagram) (p : Place) : Valuation :=
  (((g.nearby p.remove).filter (· ≠ p.keep)).map fun w => g.strand (p.keep, w) (g.edgeKind (p.remove, w))).prod

lemma edgeKind_or (hp : g.Plain) {v w : Vertex} (hw : w ∈ g.nearby v) : g.edgeKind (v, w) = .regular ∨ g.edgeKind (v, w) = .hadamard := by
  obtain ⟨k, hk⟩ := Option.isSome_iff_exists.1 (mem_nearby.1 hw)
  rw [edgeKind_eq, hk]
  exact hp _ _ _ hk

lemma moveEdges_edges (hp : g.Plain) (r : Rephased g k) {t : EdgeTable} (ht : t.Proper) (hn : (Table.keys t).Nodup) (p : Place) :
    Gives (moveEdges k t p) fun t' => t'.Proper ∧ (Table.keys t').Nodup ∧ g.edgesOf t' = moved g p * g.edgesOf t := by
  refine .bind (gives_neighbours k p.remove) ?_
  rintro ns rfl
  have kinds := fun w hw => edgeKind_or hp (v := p.remove) (w := w) hw
  rw [r.nearby]
  simp only [r.edgeKind]
  unfold moved
  generalize g.nearby p.remove = ns at kinds
  induction ns generalizing t with
  | nil => exact .pure ⟨ht, hn, by simp⟩
  | cons w ns ih =>
    rw [foldlM_cons]
    by_cases hw : w = p.keep
    · rw [if_pos hw, filter_cons_of_neg (by simpa using hw)]
      exact .bind (.pure rfl) fun t' e => e ▸ ih ht hn (forall_mem_cons.1 kinds).2
    rw [if_neg hw, filter_cons_of_pos (by simpa using hw), map_cons, prod_cons]
    refine .bind (countEdge_edges (g := g) ht hn (p.keep, w) (kinds w (by simp))) fun t' one => ?_
    refine (ih one.1 one.2.1 (forall_mem_cons.1 kinds).2).mono fun t'' rest => ⟨rest.1, rest.2.1, ?_⟩
    rw [rest.2.2, one.2.2]
    ring

lemma moveEdges_returns (hp : g.Plain) (r : Rephased g k) (hv : g.has p.remove) (t : EdgeTable) : Returns (moveEdges k t p) := by
  refine .bind (neighbours_returns ((r.has _).trans hv)) (gives_neighbours k p.remove) ?_
  rintro ns rfl
  refine .foldlM (fun t w hw _ => .ite (fun _ => .pure _) fun _ => ?_) (fun _ _ _ _ _ _ => trivial) trivial
  rw [r.edgeKind]
  exact Identity.countEdge_returns t _ (edgeKind_or hp (r.nearby _ ▸ hw))

lemma noteFused_spec (g : Diagram) (p : Place) : Gives (noteFused g p) (Rephased g) :=
  .ite (fun _ => (fusePhases_spec g _ _).mono fun _ h => h.1) fun _ => .ok (.refl g)

/-! ## The rule -/

/-- Places at regular edges between spiders of one kind, without edges between different places. -/
structure Sound (g : Diagram) (ps : List Place) : Prop where
  spider : ∀ p ∈ ps, (g.kindD p.keep).isSpider ∧ g.kindD p.remove = g.kindD p.keep
  regular : ∀ p ∈ ps, g.link p.remove p.keep = some .regular
  apart : ps.Pairwise Apart
  untied : ps.Pairwise fun p q => ∀ v ∈ [p.keep, p.remove], ∀ w ∈ [q.keep, q.remove], ¬ g.Joined v w

namespace Sound

variable (hs : Sound g ps)

include hs

lemma joined (hp : p ∈ ps) : g.Joined p.remove p.keep := by
  show (g.link p.remove p.keep).isSome
  rw [hs.regular p hp]
  rfl

lemma tail {qs : List Place} (hps : ps = p :: qs) : Sound g qs := by
  subst hps
  exact ⟨fun q hq => hs.spider q (by simp [hq]), fun q hq => hs.regular q (by simp [hq]), (pairwise_cons.1 hs.apart).2,
    (pairwise_cons.1 hs.untied).2⟩

lemma eq_of_joined (hg : g.Coherent) {q : Place} (hp : p ∈ ps) (hq : q ∈ ps) {v : Vertex} (hv : v = q.keep ∨ v = q.remove)
    (hj : g.Joined p.remove v) : p = q := by
  have symm : Std.Symm fun p q : Place => ∀ v ∈ [p.keep, p.remove], ∀ w ∈ [q.keep, q.remove], ¬ g.Joined v w :=
    ⟨fun _ _ h v hv w hw c => h w hw v hv (hg.back c)⟩
  by_contra hne
  exact hs.untied.forall hp hq hne p.remove (by simp) v (by simpa using hv) hj

lemma not_joined_keep (hg : g.Neat) (hp : p ∈ ps) {b : Vertex} (hj : g.Joined p.remove b) (hb : g.kindD b = .boundary) :
    ¬ g.Joined p.keep b := by
  intro c
  have same := hg.single b _ _ hb (hg.coherent.back hj) (hg.coherent.back c)
  exact hg.loopless p.remove (by have := hs.joined hp; rwa [← same] at this)

lemma stage_eq (hg : g.Coherent) (hp : p ∈ ps) (r : Rephased g k) (r' : Rephased g h)
    (phase : ∀ u, h.phase u = if u = p.keep then .ratio (Rat.modTwo ((k.phase p.keep).add (k.phase p.remove)).toRat) else k.phase u)
    {t t' : EdgeTable} (edges : g.edgesOf t' = moved g p * g.edgesOf t) (keys : ∀ e ∈ Table.keys t, e.1 ≠ p.remove ∧ e.2 ≠ p.remove)
    {V : List Vertex} (hV : p.remove ∉ V ∧ ∀ w, g.Joined p.remove w → w ∉ V) (loopless : ¬ g.Joined p.remove p.remove) :
    g.stage t' h.turns (V ++ [p.remove]) = g.stage t k.turns V := by
  obtain ⟨spider, same⟩ := hs.spider p hp
  set K := g.others (V ++ [p.remove]) with hK
  have inner : p.remove ∈ g.inner := mem_inner.2 ⟨(hs.joined hp).has, same ▸ ne_boundary spider⟩
  have inside : ∀ w, g.Joined p.remove w → w ∈ K := fun w hw => by
    have hne : w ≠ p.remove := fun c => loopless (c ▸ hw)
    rw [hK, mem_others, mem_append, mem_singleton, not_or]
    exact ⟨hg.vertex hw, hV.2 w hw, hne⟩
  have outside : p.remove ∉ K := fun c => (mem_others.1 c).2 (by simp)
  have factor : k.turns p.remove = turn (k.phase p.remove).toRat := by rw [turns, r.kindD, same, if_pos spider]
  refine Eq.trans (stage_step (B := [p.remove]) (S := [])
    (ρ := fun v => if v = p.keep then turn (k.phase p.remove).toRat else 1) hg (by simp) ?_ (by simp) (fun v _ => ?_) ?_) (one_smul ℂ _)
  · intro v hv
    rw [mem_singleton.1 hv]
    exact ⟨inner, hV.1⟩
  · rw [turns, turns, r.kindD, r'.kindD, phase]
    by_cases hv : v = p.keep
    · rw [if_pos hv, if_pos hv, hv, if_pos spider, if_pos spider]
      show turn (Rat.modTwo _) = _
      rw [turn_modTwo, Exact.toRat_add, turn_add]
    · rw [if_neg hv, if_neg hv, mul_one]
  · -- the bit of the vertex that goes is that of the one that stays
    have free : FreeOf [p.remove] (g.edgesOf t) := edgesOf_free fun e he => by simpa using keys e he
    have hk : p.keep ∈ g.nearby p.remove := mem_nearby.2 (hs.joined hp)
    have perm : (g.nearby p.remove).Perm (p.keep :: (g.nearby p.remove).filter (· ≠ p.keep)) := by
      have := perm_cons_erase hk
      rwa [(hg.nodup p.remove).erase_eq_filter, show (fun x => x != p.keep) = fun x => decide (x ≠ p.keep) from
        funext fun x => by grind] at this
    have ties : ∀ (x : Bool) (β : Vertex → Bool), (K.map fun w => g.tie p.remove w x (β w)).prod = if x = β p.keep then moved g p β else 0 := by
      intro x β
      rw [prod_tie hg (g.nodup_others _) inside, (perm.map _).prod_eq, map_cons, prod_cons, tie_of_link (hs.regular p hp), same,
        (bond_same spider).1, Matrix.one_apply]
      split
      · rename_i hx
        rw [one_mul, moved, Pi.list_prod_apply, map_map]
        refine congrArg _ (map_congr_left fun w hw => ?_)
        obtain ⟨e, he⟩ := Option.isSome_iff_exists.1 (mem_nearby.1 (mem_filter.1 hw).1)
        rw [tie_of_link he, Function.comp_apply, strand, edgeKind_eq, he, same, hx]
        rfl
      · exact zero_mul _
    have shares : ∀ β : Vertex → Bool, (K.map fun v => if β v then if v = p.keep then turn (k.phase p.remove).toRat else 1 else 1).prod =
        if β p.keep then turn (k.phase p.remove).toRat else 1 := by
      intro β
      rw [prod_of_subset (g.nodup_others _) (nodup_singleton p.keep) (fun v hv => mem_singleton.1 hv ▸ inside _ (hs.joined hp))
        fun v _ hv => by rw [if_neg (mt mem_singleton.2 hv), ite_self]]
      simp
    rw [edges]
    funext β
    simp only [total_nil, total_cons, fringe, nil_append, mul_one, one_smul, Pi.mul_apply]
    rw [sumOut_mul (free p.remove (by simp)), Pi.mul_apply, sumOut_star outside, ties, ties, factor, shares]
    cases β p.keep <;> simp <;> ring

end Sound

lemma foldlM_stage (hg : g.Neat) (ps : List Place) : ∀ {x : Diagram × EdgeTable} {V : List Vertex}, Sound g ps → Rephased g x.1 →
    x.2.Proper → (Table.keys x.2).Nodup → (∀ p ∈ ps, ∀ e ∈ Table.keys x.2, e.1 ≠ p.remove ∧ e.2 ≠ p.remove) →
    (∀ p ∈ ps, p.remove ∉ V ∧ ∀ w, g.Joined p.remove w → w ∉ V) → Gives (ps.foldlM fuse x) fun y => y.2.Proper ∧
      (Table.keys y.2).Nodup ∧ g.stage y.2 y.1.turns (V ++ ps.map (·.remove)) = g.stage x.2 x.1.turns V := by
  induction ps with
  | nil => exact fun _ _ ht hn _ _ => .pure ⟨ht, hn, by simp⟩
  | cons p ps ih =>
    intro x V hs r ht hn keys hV
    have one : Gives (fuse x p) fun y => y.2.Proper ∧ (Table.keys y.2).Nodup ∧ g.edgesOf y.2 = moved g p * g.edgesOf x.2 := by
      refine .bind (noteFused_spec _ p) fun d r' => ?_
      exact .bind (moveEdges_edges hg.plain ((r.trans (setPhase_rephased _ _ _)).trans r') ht hn p) fun t moved => .pure moved
    refine .bind ((fuse_spec x.1 x.2 p).and one) ?_
    rintro y ⟨⟨r', phase, moves⟩, h1, h2, edges⟩
    obtain ⟨apart, -⟩ := pairwise_cons.1 hs.apart
    obtain ⟨untied, -⟩ := pairwise_cons.1 hs.untied
    have first := hs.stage_eq hg.coherent (by simp) r (r.trans r') phase edges (keys p (by simp)) (hV p (by simp)) (hg.loopless _)
    refine (ih (V := V ++ [p.remove]) (hs.tail rfl) (r.trans r') h1 h2 (fun q hq e he => ?_) fun q hq => ?_).mono fun z rest => ?_
    · rcases moves e he with he | ⟨m1, -, m3⟩
      · exact keys q (by simp [hq]) e he
      refine ⟨fun c => (apart q hq).2.1 (m1.symm.trans c), fun c => ?_⟩
      rw [c] at m3
      exact untied q hq p.remove (by simp) q.remove (by simp) (r.joined.1 m3)
    · obtain ⟨v1, v2⟩ := hV q (by simp [hq])
      simp only [mem_append, mem_singleton, not_or]
      refine ⟨⟨v1, (apart q hq).2.2.2.symm⟩, fun w hw => ⟨v2 w hw, fun c => ?_⟩⟩
      exact untied q hq p.remove (by simp) q.remove (by simp) (hg.coherent.back (c ▸ hw))
    · refine ⟨rest.1, rest.2.1, ?_⟩
      rw [map_cons, ← first, ← rest.2.2, append_assoc, singleton_append]

lemma effect_balanced (hg : g.Neat) (hs : Sound g ps) : Gives (effect g ps) fun x => Balanced g x.1 x.2 ∧ Fused g ps x.1 x.2 ∧
    ∀ p ∈ ps, ∀ b, g.Joined p.remove b → g.kindD b = .boundary → ∃ n, ((p.keep, b), n) ∈ x.2.table ∧ Lone n ∧ ¬ g.Joined p.keep b := by
  have stages : Gives (effect g ps) fun x => x.2.table.Proper ∧ (Table.keys x.2.table).Nodup ∧
      g.stage x.2.table x.1.turns (ps.map (·.remove)) = g.value g.turns := by
    refine .bind (foldlM_stage hg ps (x := (g, [])) hs (.refl g) (by simp [EdgeTable.Proper, Table.values])
      (by simp [Table.keys]) (by simp [Table.keys]) (by simp)) fun x hx => .pure ⟨hx.1, hx.2.1, hx.2.2.trans (stage_nil g _)⟩
  refine (((effect_spec g ps).and (effect_sums hg.coherent hg.plain hs.apart)).and stages).mono ?_
  rintro ⟨k0, e⟩ ⟨⟨fused, sums⟩, proper, nodup, stage⟩
  have hv := fused.vertices
  have he : e.edges = [] := fused.edges
  have stays : ∀ p ∈ ps, ∀ w, g.Joined p.remove w → g.has w ∧ w ∉ e.vertices := by
    intro p hp w hj
    refine ⟨hg.coherent.vertex hj, fun c => ?_⟩
    obtain ⟨q, hq, rfl⟩ := mem_map.1 (hv ▸ c)
    obtain rfl := hs.eq_of_joined hg.coherent hp hq (.inr rfl) hj
    exact hg.loopless _ hj
  have lone : ∀ p ∈ ps, ∀ b, g.Joined p.remove b → g.kindD b = .boundary → ∃ n, ((p.keep, b), n) ∈ e.table ∧ Lone n ∧ ¬ g.Joined p.keep b := by
    intro p hp b hj hb
    have hne : b ≠ p.keep := fun c => ne_boundary (hs.spider p hp).1 (c ▸ hb)
    obtain ⟨n, hn, hl⟩ := sums.single p hp b hj hne
    exact ⟨n, hn, hl, hs.not_joined_keep hg hp hj hb⟩
  refine ⟨?_, fused, lone⟩
  exact {
    rephased := fused.rephased
    apart := by
      refine pairwise_apart nodup fun f hf hf' => ?_
      obtain ⟨p, hp, h1, h2, h3⟩ := fused.moves f hf
      obtain ⟨q, hq, h4, -, -⟩ := fused.moves _ hf'
      obtain rfl := hs.eq_of_joined hg.coherent hp hq (.inl h4) h3
      exact h2 h4
    ends := fun f hf => by
      obtain ⟨p, hp, h1, -, h3⟩ := fused.moves f hf
      rw [h1]
      exact ⟨(stays p hp _ (hs.joined hp)).1, (stays p hp _ h3).1, (stays p hp _ (hs.joined hp)).2, (stays p hp _ h3).2⟩
    worth := fun q hq => by
      obtain ⟨p, hp, h1, h2, h3⟩ := fused.moves q.1 (mem_map_of_mem hq)
      have hne : q.1.1 ≠ q.1.2 := fun c => h2 (c ▸ h1)
      by_cases hb : g.kindD q.1.2 = .boundary
      · obtain ⟨n, hn, hl, none⟩ := lone p hp q.1.2 h3 hb
        have hq' : q = ((p.keep, q.1.2), n) := inj_on_of_nodup_map nodup hq hn (Prod.ext h1 rfl)
        refine worth_of_lone hne ?_ (by rw [hq']; exact hl)
        by_contra c
        exact none (h1 ▸ joined_of_edgeKind c)
      have spider : (g.kindD q.1.2).isSpider := by
        rcases hg.kinds _ (stays p hp _ h3).1 with c | c | c
        · exact absurd c hb
        · rw [c]; rfl
        · rw [c]; rfl
      exact worth_of_spiders hg.plain hne (h1 ▸ (hs.spider p hp).1) spider (proper q.2 (mem_map_of_mem hq))
    edges := by simp [he]
    single := by simp [he]
    vertices := fun v hm => by
      obtain ⟨p, hp, rfl⟩ := mem_map.1 (hv ▸ hm)
      exact ⟨(hs.joined hp).has, (hs.spider p hp).2 ▸ ne_boundary (hs.spider p hp).1⟩
    nodup := by
      rw [hv]
      exact pairwise_map.2 (hs.apart.imp fun h => h.2.2.2)
    sums := ⟨1, one_ne_zero, by rw [one_smul, hv, stage]⟩ }

lemma noteFused_master (hm : g.master = none) (p : Place) : ∃ h, noteFused g p = .ok h ∧ h.master = none := by
  unfold noteFused fusePhases
  split
  · split
    · refine ⟨_, by rw [hm]; rfl, ?_⟩
      exact hm
    · exact ⟨_, rfl, hm⟩
  · exact ⟨_, rfl, hm⟩

lemma fuse_master {x : Diagram × EdgeTable} (hm : x.1.master = none) (p : Place) : Gives (fuse x p) fun y => y.1.master = none := by
  obtain ⟨d, e, hd⟩ := noteFused_master (g := x.1.setPhase p.keep ((x.1.phase p.keep).add (x.1.phase p.remove))) hm p
  exact .bind (fun h he => Except.ok.inj (e.symm.trans he) ▸ hd) fun h hh =>
    .bind (.self _) fun t _ => .pure hh

lemma effect_master (hm : g.master = none) (ps : List Place) : Gives (effect g ps) fun x => x.1.master = none :=
  .bind (.foldlM hm fun _ p _ hx => fuse_master hx p) fun _ hx => .pure hx

lemma effect_returns (hp : g.Plain) (hs : Sound g ps) (hm : g.master = none) : Returns (effect g ps) := by
  refine .bind (.foldlM (I := fun x : Diagram × EdgeTable => Rephased g x.1 ∧ x.1.master = none) (fun x p hx h => ?_) (fun x p _ h => ?_)
    ⟨.refl g, hm⟩) (.self _) fun _ _ => .pure _
  · obtain ⟨d, e, -⟩ := noteFused_master (g := x.1.setPhase p.keep ((x.1.phase p.keep).add (x.1.phase p.remove))) h.2 p
    refine .bind ⟨d, e⟩ (noteFused_spec _ p) fun k r => ?_
    have r' := (h.1.trans (setPhase_rephased _ _ _)).trans r
    exact .bind (moveEdges_returns hp r' (hs.joined hx).has _) (.self _) fun _ _ => .pure _
  · exact ((fuse_spec x.1 x.2 p).and (fuse_master h.2 p)).mono fun y hy => ⟨h.1.trans hy.1.1, hy.2⟩

lemma find_sound (hg : g.Neat) (accept : Edge → Bool) (limit : Limit) : Sound g (find g accept limit) := by
  obtain ⟨fits, apart⟩ := find_spec hg.coherent accept limit
  obtain ⟨ws, e, hws, hp⟩ := placesOf_spec (look g) (g.edgeCandidates accept) limit
  have seen : ∀ w ∈ ws, w.1 ∈ g.edges ∧ g.edgeKind w.1 = .regular ∧
      w.2 = ⟨(), ⟨w.1.1, w.1.2⟩, g.edgesAt (g.nearby w.1.1) ++ g.edgesAt (g.nearby w.1.2)⟩ := by
    intro w hw
    obtain ⟨hc, hl⟩ := hws w hw
    refine ⟨(mem_edgeCandidates.1 hc).1, ?_, (look_eq_some hl).2.2⟩
    unfold look at hl
    split at hl
    · rename_i h
      simp only [Bool.and_eq_true, beq_iff_eq] at h
      exact h.1.1
    · cases hl
  refine ⟨fun p hm => ⟨?_, (fits p hm).kind⟩, fun p hm => ?_, apart, ?_⟩
  · rcases hg.kinds _ (fits p hm).joined.has with c | c | c
    · exact absurd c (fits p hm).inner
    · rw [c]; rfl
    · rw [c]; rfl
  · rw [find_eq, e] at hm
    obtain ⟨w, hw, rfl⟩ := mem_map.1 hm
    obtain ⟨-, hr, hw'⟩ := seen w hw
    rw [hw', hg.coherent.symm]
    rw [link_of_edgeKind hg.plain, hr]
    rfl
  · -- a later edge has no end next to an earlier place
    rw [find_eq, e]
    refine pairwise_map.2 (hp.imp_of_mem fun {w w'} hw hw' hn => ?_)
    rw [(seen w hw).2.2, mem_append, not_or] at hn
    have h1 := ends_of_not_mem_edgesAt hg.coherent (seen w' hw').1 hn.1
    have h2 := ends_of_not_mem_edgesAt hg.coherent (seen w' hw').1 hn.2
    rw [mem_nearby, mem_nearby] at h1 h2
    rw [(seen w hw).2.2, (seen w' hw').2.2]
    simpa using ⟨h1, h2⟩

end Fusion

namespace Rule

/-- What rounds keep of a well-formed diagram whose phases are not followed for another one: every vertex of the boundary has a neighbour. -/
structure Fit (g : Diagram) : Prop where
  neat : g.Neat
  noted : g.Noted
  alone : g.master = none
  tied : ∀ b ∈ g.border, ∃ w, g.Joined b w

/-- **A round of fusion** returns, keeps the sum and takes vertices away. -/
theorem fusion_round_sound (hg : Fit g) (accept : Edge → Bool) :
    Returns ((fusion accept).round g) ∧ Gives ((fusion accept).round g) fun x => x.2 ≠ 0 →
      Fit x.1 ∧ Scaled g x.1 ∧ x.1.vertices.length < g.vertices.length := by
  have sound := Fusion.find_sound hg.neat accept none
  have balanced := Fusion.effect_balanced hg.neat sound
  refine ⟨round_returns (.ok _) (.ok fun _ => ⟨Fusion.effect_returns hg.neat.plain sound hg.alone, ?_⟩), ?_⟩
  · exact balanced.mono fun x hx => hx.1.returns hg.neat hg.noted
  refine round_changes_of (Q := fun h => Fit h ∧ Scaled g h ∧ h.vertices.length < g.vertices.length)
    ((fusion_round hg.neat.coherent accept).mono fun x hx => hx.neat hg.neat) (.ok fun hne => ?_)
  refine (balanced.and (Fusion.effect_master hg.alone _)).mono ?_
  rintro ⟨k0, e⟩ ⟨⟨hb, fused, lone⟩, alone⟩
  have r := hb.rephased
  refine ((hb.gives hg.neat.coherent hg.neat.plain hg.noted).and (applyEffect_spec (r.coherent hg.neat.coherent) e)).mono ?_
  rintro h ⟨⟨noted, master, scaled, fewer⟩, applied⟩ hh
  -- a vertex of the boundary keeps its neighbour or gets the one that it is fused with
  have tied : ∀ b ∈ g.border, ∃ w, h.Joined b w := by
    intro b hm
    obtain ⟨hv, hk⟩ := mem_border.1 hm
    obtain ⟨o, ho⟩ := hg.tied b hm
    have stays : b ∉ e.vertices := fun c => (hb.vertices b c).2 hk
    have he : e.edges = [] := fused.edges
    have none : ∀ x y, ¬ Spanned e.edges x y := by simp [he, Spanned]
    by_cases hr : o ∈ e.vertices
    · rw [fused.vertices] at hr
      obtain ⟨p, hp, rfl⟩ := mem_map.1 hr
      obtain ⟨n, hn, hl, hj⟩ := lone p hp b (hg.neat.coherent.back ho) hk
      refine ⟨p.keep, applied.coherent.back (applied.made _ n hn hl (fun c => hj (r.joined.1 c)) (none _ _) ?_ stays)⟩
      exact (hb.ends _ (mem_map_of_mem hn)).2.2.1
    refine ⟨o, applied.kept b o (r.joined.2 ho) ?_ (none _ _) stays hr⟩
    rintro ⟨f, hf, ⟨rfl, -⟩ | ⟨rfl, rfl⟩⟩
    · obtain ⟨p, hp, h1, -⟩ := fused.moves f hf
      exact ne_boundary (sound.spider p hp).1 (h1 ▸ hk)
    obtain ⟨p, hp, h1, -, h3⟩ := fused.moves f hf
    have same := hg.neat.single _ _ _ hk ho (hg.neat.coherent.back h3)
    refine hr ?_
    rw [fused.vertices, same]
    exact mem_map_of_mem hp
  have made := scaled fun b hm => (tied b hm).elim fun w hw => hw.has
  refine ⟨⟨hh, noted, master.trans alone, fun b hm => tied b ((made.border b).1 hm)⟩, made, fewer ?_⟩
  rw [fused.vertices]
  exact fun c => hne (map_eq_nil_iff.1 c)

lemma Fit.of_wellFormed (hg : g.WellFormed) (hn : g.Noted) (hm : g.master = none) : Fit g :=
  ⟨hg.neat, hn, hm, fun _ hb => (hg.tied hb).imp fun _ hw => hw.joined⟩

/-- **Fusion is sound and complete**: it can be repeated to its end, whatever edges are accepted.  The linear map stays the same up to a
    scalar unless it is zero, and no accepted regular edge is left between spiders of one kind. -/
theorem fusion_exhaust_sound (hg : g.WellFormed) (hn : g.Noted) (hm : g.master = none)
    (hio : ∀ v, v ∈ g.inputs ∨ v ∈ g.outputs → v ∈ g.border) (accept : Edge → Bool) (verbose : Bool) :
    ∃ h rounds text, ((fusion accept).exhaust verbose g).outcome = (.ok (h, rounds), text) ∧
      (∀ v w, v < w → accept (v, w) = true → h.Spider v → h.Spider w → h.kindD v = h.kindD w → h.link v w ≠ some .regular) ∧
      h.inputs = g.inputs ∧ h.outputs = g.outputs ∧
      ∀ n m, g.linearMap n m ≠ 0 → ∃ c : ℂ, c ≠ 0 ∧ h.linearMap n m = c • g.linearMap n m := by
  obtain ⟨h, rounds, text, e, fit, stuck, scaled⟩ := exhaust_scaled (P := Fit) (m := fun h => h.vertices.length) (fusion_settles accept)
    (fun h hh => (fusion_round_sound hh accept).1) (fun h hh => (fusion_round_sound hh accept).2) hg.coherent
    (.of_wellFormed hg hn hm) (length_vertices_lt_stepBound g) verbose
  refine ⟨h, rounds, text, e, fun v w hvw ha hv hw hk hl => ?_, scaled.ends.1, scaled.ends.2, fun n m => scaled.linearMap_eq hg.coherent hio⟩
  have joined : h.Joined v w := by
    show (h.link v w).isSome
    rw [hl]
    rfl
  have kind : h.edgeKind (v, w) = .regular := by rw [edgeKind_eq, hl]; rfl
  have boundary := Fusion.find_nil (congrArg Prod.snd (Except.ok.inj stuck)) (mem_edges.2 ⟨hvw, joined⟩) ha kind hk
  rcases hv.2 with c | c <;> rw [c] at boundary <;> cases boundary

/-- Two spiders of one colour on a wire. -/
def spiderWire : Diagram where
  adjacency := .ofList ([(0, [(1, .regular)]), (1, [(0, .regular), (2, .regular)]), (2, [(1, .regular), (3, .hadamard)]),
    (3, [(2, .hadamard)])] : List (Vertex × Table Vertex EdgeKind))
  kinds := .ofList ([(0, .boundary), (1, .z), (2, .z), (3, .boundary)] : List (Vertex × VertexKind))
  phases := .ofList ([(0, .int 0), (1, .ratio (1 / 4)), (2, .ratio (3 / 2)), (3, .int 0)] : List (Vertex × Exact))
  next := 4
  edgeCount := 3
  inputs := [0]
  outputs := [3]

/-- The two spiders become one. -/
theorem fusion_exhaust_sound_spiderWire : spiderWire.link 1 2 = some .regular ∧
    ∃ h rounds text, ((fusion anything).exhaust false spiderWire).outcome = (.ok (h, rounds), text) ∧
      (∀ v w, v < w → h.Spider v → h.Spider w → h.kindD v = h.kindD w → h.link v w ≠ some .regular) ∧
      ∃ c : ℂ, c ≠ 0 ∧ h.linearMap 1 1 = c • spiderWire.linearMap 1 1 := by
  have hg : spiderWire.WellFormed := by constructor <;> decide +kernel
  have noted : ∀ v ∈ spiderWire.vertices, (spiderWire.kinds.get? v).isSome := by decide +kernel
  have ends : ∀ v, v ∈ spiderWire.inputs ∨ v ∈ spiderWire.outputs → v ∈ spiderWire.border := by
    have both : 0 ∈ spiderWire.border ∧ 3 ∈ spiderWire.border := by decide +kernel
    rintro v (c | c)
    · exact mem_singleton.1 c ▸ both.1
    · exact mem_singleton.1 c ▸ both.2
  have shape : spiderWire.vertices = [0, 1, 2, 3] ∧ spiderWire.edges = [(0, 1), (1, 2), (2, 3)] ∧
      [0, 1, 2, 3].map spiderWire.kindD = [.boundary, .z, .z, .boundary] ∧
      [(0, 1), (1, 2), (2, 3)].map spiderWire.edgeKind = [.regular, .regular, .hadamard] := by decide +kernel
  have nonzero : spiderWire.linearMap 1 1 ≠ 0 := fun zero => by
    have entry := congrFun (congrFun zero fun _ => false) fun _ => false
    simp only [map_cons, map_nil, cons.injEq] at shape
    simp [linearMap, amplitude, weight, legs, join, shape, Finset.sum_powerset_insert, VertexKind.leg, VertexKind.spin,
      VertexKind.isSpider, EdgeKind.wire, factor, mixing, Matrix.one_apply, show ({3} : Finset Vertex).powerset = {∅, {3}} from rfl,
      show spiderWire.inputs = [0] from rfl, show spiderWire.outputs = [3] from rfl] at entry
  obtain ⟨h, rounds, text, e, none, -, -, map⟩ :=
    fusion_exhaust_sound hg (fun v hv => noted v (mem_vertices.2 hv)) rfl ends anything false
  exact ⟨by decide +kernel, h, rounds, text, e, fun v w hvw => none v w hvw rfl, map 1 1 nonzero⟩

end Rule

end ZXCircuits
