/-
  Fusion and the removal of identities.

  Places do not touch one another (`Fusion.find_spec`, `Identity.find_spec`).  Fusion changes phases of vertices that stay, and
  moves edges over from those that go (`Fusion.effect_spec`); one phase goes for each one that may come
  (`Fusion.effect_card_le`).  What comes together at a place does not depend on the others (`Fusion.effect_sums`).
-/
import ZXCircuits.Rule.Fusion
import ZXCircuits.Proofs.Rule.Scan
import ZXCircuits.Proofs.Diagram.Effect

namespace ZXCircuits

open List Diagram EdgeTable Table

variable {g h : Diagram}

lemma EdgeTable.mem_keys_add (t : EdgeTable) (e f : Edge) (m n : Int) : f ∈ keys (EdgeTable.add t e m n) ↔ f = e ∨ f ∈ keys t := by
  unfold EdgeTable.add
  split <;> exact mem_keys_insert t e f _

namespace Fusion

variable {p q : Place} {ps : List Place}

/-- Two joined vertices of one colour. -/
structure Fits (g : Diagram) (p : Place) : Prop where
  joined : g.Joined p.keep p.remove
  ne : p.keep ≠ p.remove
  kind : g.kindD p.remove = g.kindD p.keep
  inner : g.kindD p.keep ≠ .boundary

/-- The two places have no vertex in common. -/
def Apart (p q : Place) : Prop := p.keep ≠ q.keep ∧ p.keep ≠ q.remove ∧ p.remove ≠ q.keep ∧ p.remove ≠ q.remove

instance : Std.Symm Apart := ⟨fun _ _ ⟨h1, h2, h3, h4⟩ => ⟨h1.symm, h3.symm, h2.symm, h4.symm⟩⟩

def look (g : Diagram) (e : Edge) : Option (Sighting Unit Edge Place) :=
  if g.edgeKind e == .regular && g.kindD e.1 == g.kindD e.2 && g.kindD e.1 != .boundary then
    some ⟨(), ⟨e.1, e.2⟩, g.edgesAt (g.nearby e.1) ++ g.edgesAt (g.nearby e.2)⟩
  else none

lemma find_eq (g : Diagram) (accept : Edge → Bool) (limit : Limit) :
    find g accept limit = placesOf (look g) (g.edgeCandidates accept) limit := rfl

lemma look_eq_some {e : Edge} {w : Sighting Unit Edge Place} (h : look g e = some w) :
    g.kindD e.1 = g.kindD e.2 ∧ g.kindD e.1 ≠ .boundary ∧
      w = ⟨(), ⟨e.1, e.2⟩, g.edgesAt (g.nearby e.1) ++ g.edgesAt (g.nearby e.2)⟩ := by
  unfold look at h
  split at h
  · rename_i hc
    simp only [Bool.and_eq_true, beq_iff_eq, bne_iff_ne] at hc
    exact ⟨hc.1.2, hc.2, (Option.some.inj h).symm⟩
  · cases h

/-- **The places of fusion** are pairs of joined vertices of one colour, without common vertices. -/
theorem find_spec (hg : g.Coherent) (accept : Edge → Bool) (limit : Limit) :
    (∀ p ∈ find g accept limit, Fits g p) ∧ (find g accept limit).Pairwise Apart := by
  obtain ⟨ws, e, hws, hp⟩ := placesOf_spec (look g) (g.edgeCandidates accept) limit
  rw [find_eq, e]
  refine ⟨fun p hm => ?_, pairwise_map.2 (hp.imp_of_mem fun {w w'} hw hw' hn => ?_)⟩
  · obtain ⟨w, hw, rfl⟩ := mem_map.1 hm
    obtain ⟨hc, hl⟩ := hws w hw
    obtain ⟨hk, hb, hw'⟩ := look_eq_some hl
    obtain ⟨hlt, hj⟩ := mem_edges.1 (mem_edgeCandidates.1 hc).1
    rw [hw']
    exact ⟨hj, Nat.ne_of_lt hlt, hk.symm, hb⟩
  -- a later edge has no end next to an earlier place, and the two vertices of a place are next to each other
  obtain ⟨hc, hl⟩ := hws w hw
  obtain ⟨hc', hl'⟩ := hws w' hw'
  rw [(look_eq_some hl).2.2] at hn
  rw [(look_eq_some hl).2.2, (look_eq_some hl').2.2]
  exact edges_apart hg (mem_edgeCandidates.1 hc).1 (mem_edgeCandidates.1 hc').1 hn

lemma find_nil {accept : Edge → Bool} (h : find g accept none = []) {e : Edge} (he : e ∈ g.edges) (ha : accept e)
    (hr : g.edgeKind e = .regular) (hk : g.kindD e.1 = g.kindD e.2) : g.kindD e.1 = .boundary := by
  have hn := placesOf_nil (find_eq g accept none ▸ h) e (mem_edgeCandidates.2 ⟨he, ha⟩)
  unfold look at hn
  split at hn
  · cases hn
  rename_i hc
  by_contra hb
  exact hc (by simp [hr, hk, hk ▸ hb])

def Moves (g : Diagram) (p : Place) (e : Edge) : Prop := e.1 = p.keep ∧ e.2 ≠ p.keep ∧ g.Joined p.remove e.2

lemma countEdge_keys (t : EdgeTable) (e : Edge) (k : EdgeKind) :
    Gives (countEdge t e k) fun t' => ∀ f, f ∈ keys t' ↔ f = e ∨ f ∈ keys t := by
  unfold countEdge
  split
  · exact .ok fun f => mem_keys_add t e f _ _
  · exact .ok fun f => mem_keys_add t e f _ _
  · exact .ok fun f => mem_keys_add t e f _ _
  · exact .ok fun f => mem_keys_add t e f _ _
  · exact .error _

section

variable (g : Diagram) (t : EdgeTable) (p : Place)

lemma moveEdges_keys : Gives (moveEdges g t p) fun t' => ∀ e ∈ keys t', e ∈ keys t ∨ Moves g p e := by
  refine .bind (gives_neighbours g p.remove) ?_
  rintro _ rfl
  refine .foldlM (fun e he => .inl he) fun t' w hw ht' => .ite (fun _ => .pure ht') fun hk => ?_
  refine (countEdge_keys t' _ _).mono fun t'' ht'' e he => ?_
  rcases (ht'' e).1 he with rfl | he
  · exact .inr ⟨rfl, hk, mem_nearby.1 hw⟩
  · exact ht' e he

/-- **One place** adds up the two phases and notes the edges that move. -/
theorem fuse_spec : Gives (fuse (g, t) p) fun x => Rephased g x.1 ∧
      (∀ u, x.1.phase u = if u = p.keep then .ratio (Rat.modTwo ((g.phase p.keep).add (g.phase p.remove)).toRat) else g.phase u) ∧
      ∀ e ∈ keys x.2, e ∈ keys t ∨ Moves g p e := by
  have noted : Gives (noteFused (g.setPhase p.keep ((g.phase p.keep).add (g.phase p.remove))) p)
      fun h => Rephased g h ∧ h.phases = (g.setPhase p.keep ((g.phase p.keep).add (g.phase p.remove))).phases :=
    .ite (fun _ => (fusePhases_spec _ _ _).mono fun h ⟨r, hp⟩ => ⟨(setPhase_rephased g _ _).trans r, hp⟩) fun _ => .ok ⟨rfl, rfl⟩
  refine .bind noted fun g2 ⟨r, hp⟩ => ?_
  refine .bind (moveEdges_keys g2 t p) fun t' ht' => .pure ⟨r, fun u => ?_, fun e he => ?_⟩
  · rw [phase_congr hp]
    exact phase_setPhase g p.keep u _
  rcases ht' e he with he | ⟨h1, h2, h3⟩
  · exact .inl he
  · exact .inr ⟨h1, h2, r.joined.1 h3⟩

end

structure Fused (g : Diagram) (ps : List Place) (h : Diagram) (e : Effect) : Prop where
  rephased : Rephased g h
  vertices : e.vertices = ps.map (·.remove)
  edges : e.edges = []
  moves : ∀ f ∈ Table.keys e.table, ∃ p ∈ ps, Moves g p f
  away : ∀ u, (∀ p ∈ ps, u ≠ p.keep) → h.phase u = g.phase u
  reduced : ∀ u, (g.phase u).Reduced → (h.phase u).Reduced

lemma effect_spec (g : Diagram) (ps : List Place) : Gives (effect g ps) fun x => Fused g ps x.1 x.2 := by
  let I (x : Diagram × EdgeTable) : Prop := Rephased g x.1 ∧ (∀ f ∈ keys x.2, ∃ p ∈ ps, Moves g p f) ∧
    (∀ u, (∀ p ∈ ps, u ≠ p.keep) → x.1.phase u = g.phase u) ∧ ∀ u, (g.phase u).Reduced → (x.1.phase u).Reduced
  refine .bind (P := I) ?_ fun x hx => .pure ⟨hx.1, rfl, rfl, hx.2.1, hx.2.2.1, hx.2.2.2⟩
  refine .foldlM ⟨.refl g, by simp [Table.keys], fun _ _ => rfl, fun _ => id⟩ fun x p hp hx => ?_
  obtain ⟨r, hm, ha, hr⟩ := hx
  refine (fuse_spec x.1 x.2 p).mono fun y hy => ?_
  obtain ⟨r', hp', hm'⟩ := hy
  refine ⟨r.trans r', fun f hf => ?_, fun u hu => ?_, fun u hu => ?_⟩
  · rcases hm' f hf with hf | ⟨h1, h2, h3⟩
    · exact hm f hf
    · exact ⟨p, hp, h1, h2, r.joined.1 h3⟩
  · rw [hp', if_neg (hu p hp), ha u hu]
  · rw [hp']
    split
    · exact ⟨Rat.modTwo_nonneg _, Rat.modTwo_lt_two _⟩
    · exact hr u hu

lemma card_fuse_le {R : List Vertex} (hg : g.has p.remove) (hk : p.keep ∉ R) (hr : p.remove ∉ R) (r : Rephased g h)
    (hp : ∀ u, h.phase u = if u = p.keep then .ratio (Rat.modTwo ((g.phase p.keep).add (g.phase p.remove)).toRat) else g.phase u) :
    (h.nonClifford.filter (· ∉ p.remove :: R)).card ≤ (g.nonClifford.filter (· ∉ R)).card := by
  set A := g.nonClifford.filter (· ∉ R)
  set B := h.nonClifford.filter (· ∉ p.remove :: R)
  have old : ∀ u, u ≠ p.keep → u ∈ B → u ∈ A.erase p.remove := by
    intro u hu hb
    rw [Finset.mem_filter, mem_nonClifford, r.has, hp, if_neg hu, mem_cons, not_or] at hb
    rw [Finset.mem_erase, Finset.mem_filter, mem_nonClifford]
    exact ⟨hb.2.1, hb.1, hb.2.2⟩
  by_cases hkB : p.keep ∈ B
  · by_cases hrA : p.remove ∈ A
    · -- the vertex that goes makes room for the one that stays
      calc B.card ≤ (insert p.keep (A.erase p.remove)).card := by
            refine Finset.card_le_card fun u hu => ?_
            by_cases hc : u = p.keep
            · rw [hc]; exact Finset.mem_insert_self _ _
            · exact Finset.mem_insert_of_mem (old u hc hu)
        _ ≤ (A.erase p.remove).card + 1 := Finset.card_insert_le _ _
        _ = A.card := Finset.card_erase_add_one hrA
    refine Finset.card_le_card fun u hu => ?_
    by_cases hc : u = p.keep
    · -- the phase of the vertex that goes is a multiple of a quarter turn, so the other one is none
      rw [hc]
      rw [Finset.mem_filter, mem_nonClifford, hp, if_pos rfl, r.has] at hkB
      rw [Finset.mem_filter, mem_nonClifford]
      refine ⟨⟨hkB.1.1, fun hq => hkB.1.2 ?_⟩, hk⟩
      have hq' : (g.phase p.remove).Quarters := by
        by_contra hn
        exact hrA (Finset.mem_filter.2 ⟨mem_nonClifford.2 ⟨hg, hn⟩, hr⟩)
      refine hq.add hq' ?_
      rw [← Exact.toRat_add]
      exact Exact.modTwo_eq (.ratio _)
    · exact Finset.mem_of_mem_erase (old u hc hu)
  · refine Finset.card_le_card fun u hu => ?_
    exact Finset.mem_of_mem_erase (old u (fun c => hkB (c ▸ hu)) hu)

lemma foldlM_fuse_card_le (ps : List Place) : ∀ (R : List Vertex) {x : Diagram × EdgeTable},
    (∀ p ∈ ps, x.1.has p.remove ∧ p.keep ∉ R ∧ p.remove ∉ R) → ps.Pairwise Apart → Gives (ps.foldlM fuse x) fun y =>
        (y.1.nonClifford.filter (· ∉ ps.map (·.remove) ++ R)).card ≤ (x.1.nonClifford.filter (· ∉ R)).card := by
  induction ps with
  | nil => exact fun R x _ _ => .pure le_rfl
  | cons p ps ih =>
    intro R x hR hp
    obtain ⟨hap, hps⟩ := pairwise_cons.1 hp
    obtain ⟨hv, hk, hr⟩ := hR p (by simp)
    refine .bind (fuse_spec x.1 x.2 p) fun y ⟨r, hph, _⟩ => ?_
    have hR' : ∀ q ∈ ps, y.1.has q.remove ∧ q.keep ∉ p.remove :: R ∧ q.remove ∉ p.remove :: R := by
      intro q hq
      obtain ⟨hv, hk, hr⟩ := hR q (by simp [hq])
      obtain ⟨-, -, h1, h2⟩ := hap q hq
      exact ⟨r.has _ ▸ hv, by simp [hk, h1.symm], by simp [hr, h2.symm]⟩
    refine (ih (p.remove :: R) hR' hps).mono fun z hz => ?_
    calc _ = (z.1.nonClifford.filter (· ∉ ps.map (·.remove) ++ p.remove :: R)).card := by
          refine congrArg Finset.card (Finset.filter_congr fun u _ => ?_)
          simp only [map_cons, mem_append, mem_cons]
          tauto
      _ ≤ _ := hz
      _ ≤ _ := card_fuse_le hv hk hr r hph

lemma effect_card_le (hf : ∀ p ∈ ps, g.has p.remove) (hp : ps.Pairwise Apart) :
    Gives (effect g ps) fun x => (x.1.nonClifford.filter (· ∉ x.2.vertices)).card ≤ g.nonClifford.card := by
  refine .bind (foldlM_fuse_card_le ps [] (fun p h => ⟨hf p h, by simp, by simp⟩) hp) fun x hx => .pure ?_
  simpa using hx

/-! ## What comes together -/

lemma countEdge_find (t : EdgeTable) (e : Edge) {k : EdgeKind} (hk : k = .regular ∨ k = .hadamard) :
    Gives (countEdge t e k) fun t' => (∀ f, f ≠ e → find? t' f = find? t f) ∧ (find? t e = none → ∃ n, find? t' e = some n ∧ Lone n) := by
  have add : ∀ m n : Int, Lone (m, n) → (∀ f, f ≠ e → find? (EdgeTable.add t e m n) f = find? t f) ∧
      (find? t e = none → ∃ c, find? (EdgeTable.add t e m n) e = some c ∧ Lone c) := by
    intro m n hl
    unfold EdgeTable.add
    refine ⟨fun f hf => ?_, fun hn => ?_⟩
    · split <;> exact find?_insert_of_ne t hf _
    · rw [hn]
      exact ⟨_, find?_insert_self t e _, hl⟩
  rcases hk with rfl | rfl
  · exact .ok (add 1 0 (.inl rfl))
  · exact .ok (add 0 1 (.inr rfl))

lemma moveEdge_find (hp : g.Plain) (t : EdgeTable) (p : Place) {w : Vertex} (hj : g.Joined p.remove w) :
    Gives (if w = p.keep then pure t else countEdge t (p.keep, w) (g.edgeKind (p.remove, w)))
      fun t' => (∀ f, f ≠ (p.keep, w) → find? t' f = find? t f) ∧
        (w ≠ p.keep → find? t (p.keep, w) = none → ∃ n, find? t' (p.keep, w) = some n ∧ Lone n) := by
  have kind : g.edgeKind (p.remove, w) = .regular ∨ g.edgeKind (p.remove, w) = .hadamard := by
    obtain ⟨k, hk⟩ := Option.isSome_iff_exists.1 hj
    rw [edgeKind_eq, hk]
    exact hp _ _ k hk
  exact .ite (fun c => .pure ⟨fun _ _ => rfl, fun hne => absurd c hne⟩)
    fun _ => (countEdge_find t _ kind).mono fun t' h => ⟨h.1, fun _ => h.2⟩

lemma foldlM_moveEdge_find (hp : g.Plain) (p : Place) (ws : List Vertex) : ws.Nodup → (∀ w ∈ ws, g.Joined p.remove w) → ∀ t : EdgeTable,
      Gives (ws.foldlM (fun t w => if w = p.keep then pure t else countEdge t (p.keep, w) (g.edgeKind (p.remove, w))) t)
        fun t' => (∀ f, (∀ w ∈ ws, f ≠ (p.keep, w)) → find? t' f = find? t f) ∧
          ∀ w ∈ ws, w ≠ p.keep → find? t (p.keep, w) = none → ∃ n, find? t' (p.keep, w) = some n ∧ Lone n := by
  induction ws with
  | nil => exact fun _ _ t => .pure ⟨fun _ _ => rfl, by simp⟩
  | cons v ws ih =>
    intro hn hj t
    obtain ⟨hv, hn⟩ := nodup_cons.1 hn
    have other : ∀ w ∈ ws, (p.keep, w) ≠ (p.keep, v) := fun w hw c => hv ((Prod.mk.inj c).2 ▸ hw)
    refine .bind (moveEdge_find hp t p (hj v (by simp))) fun t1 h1 => ?_
    refine (ih hn (forall_mem_cons.1 hj).2 t1).mono fun t2 h2 => ⟨?_, ?_⟩
    · intro f hf
      rw [h2.1 f (forall_mem_cons.1 hf).2, h1.1 f (hf v (by simp))]
    intro w hw hne hnone
    rcases mem_cons.1 hw with rfl | hw
    · obtain ⟨n, hn, hl⟩ := h1.2 hne hnone
      refine ⟨n, ?_, hl⟩
      rw [h2.1 _ fun w' hw' => (other w' hw').symm]
      exact hn
    · refine h2.2 w hw hne ?_
      rw [h1.1 _ (other w hw)]
      exact hnone

lemma moveEdges_find (hg : g.Coherent) (hp : g.Plain) (t : EdgeTable) (p : Place) :
    Gives (moveEdges g t p) fun t' => (∀ f, f.1 ≠ p.keep → find? t' f = find? t f) ∧
      ∀ w, g.Joined p.remove w → w ≠ p.keep → find? t (p.keep, w) = none → ∃ n, find? t' (p.keep, w) = some n ∧ Lone n := by
  refine .bind (gives_neighbours g p.remove) ?_
  rintro _ rfl
  refine (foldlM_moveEdge_find hp p _ (hg.nodup _) (fun w hw => mem_nearby.1 hw) t).mono fun t' h => ⟨fun f hf => ?_, ?_⟩
  · exact h.1 f fun w _ c => hf (c ▸ rfl)
  · exact fun w hw => h.2 w (mem_nearby.2 hw)

/-- What comes together at each of some places: the sum of the two phases, and single edges to the other neighbours of the vertex
    that goes. -/
structure Sums (g : Diagram) (ps : List Place) (h : Diagram) (t : EdgeTable) : Prop where
  phase : ∀ p ∈ ps, h.phase p.keep = .ratio (Rat.modTwo ((g.phase p.keep).add (g.phase p.remove)).toRat)
  single : ∀ p ∈ ps, ∀ w, g.Joined p.remove w → w ≠ p.keep → ∃ n, ((p.keep, w), n) ∈ t ∧ Lone n

variable (hg : g.Coherent) (hpl : g.Plain)
include hg hpl

lemma foldlM_fuse_sums (ps : List Place) : ∀ {x : Diagram × EdgeTable}, Rephased g x.1 →
    ps.Pairwise Apart → (∀ p ∈ ps, x.1.phase p.keep = g.phase p.keep ∧ x.1.phase p.remove = g.phase p.remove) →
    (∀ p ∈ ps, ∀ w, find? x.2 (p.keep, w) = none) → Gives (ps.foldlM fuse x) fun y =>
      Sums g ps y.1 y.2 ∧ (∀ u, (∀ p ∈ ps, u ≠ p.keep) → y.1.phase u = x.1.phase u) ∧
        ∀ f, (∀ p ∈ ps, f.1 ≠ p.keep) → find? y.2 f = find? x.2 f := by
  induction ps with
  | nil => exact fun _ _ _ _ => .pure ⟨⟨by simp, by simp⟩, fun _ _ => rfl, fun _ _ => rfl⟩
  | cons p ps ih =>
    intro x hr hp hph ht
    obtain ⟨hap, hps⟩ := pairwise_cons.1 hp
    have found : Gives (fuse x p) fun y => (∀ f, f.1 ≠ p.keep → find? y.2 f = find? x.2 f) ∧
        ∀ w, g.Joined p.remove w → w ≠ p.keep → ∃ n, find? y.2 (p.keep, w) = some n ∧ Lone n := by
      have noted : Gives (noteFused (x.1.setPhase p.keep ((x.1.phase p.keep).add (x.1.phase p.remove))) p) (Rephased g) :=
        .ite (fun _ => (fusePhases_spec _ _ _).mono fun h hh => (hr.trans (setPhase_rephased _ _ _)).trans hh.1)
          fun _ => .ok (hr.trans (setPhase_rephased _ _ _))
      refine .bind noted fun d hd => ?_
      have plain : d.Plain := fun v w k hk => hpl v w k (hd.link v w ▸ hk)
      refine .bind (moveEdges_find (hd.coherent hg) plain x.2 p) fun t' ⟨h1, h2⟩ => .pure ⟨h1, fun w hw hne => ?_⟩
      exact h2 w (hd.joined.2 hw) hne (ht p (by simp) w)
    refine .bind ((fuse_spec x.1 x.2 p).and found) fun y ⟨⟨r, hy, _⟩, hf, hl⟩ => ?_
    have away : ∀ q ∈ ps, q.keep ≠ p.keep ∧ q.remove ≠ p.keep := fun q hq => ⟨(hap q hq).1.symm, (hap q hq).2.1.symm⟩
    refine (ih (hr.trans r) hps (fun q hq => ?_) fun q hq w => ?_).mono fun z ⟨hs, hz, hzt⟩ => ⟨⟨?_, ?_⟩, ?_, ?_⟩
    · rw [hy, hy, if_neg (away q hq).1, if_neg (away q hq).2]
      exact hph q (by simp [hq])
    · rw [hf _ (away q hq).1]
      exact ht q (by simp [hq]) w
    · intro q hq
      rcases mem_cons.1 hq with rfl | hq
      · rw [hz _ fun q hq' => (away q hq').1.symm, hy, if_pos rfl, (hph q (by simp)).1, (hph q (by simp)).2]
      · exact hs.phase q hq
    · intro q hq w hw hne
      rcases mem_cons.1 hq with rfl | hq
      · obtain ⟨n, hn, hl⟩ := hl w hw hne
        refine ⟨n, mem_of_find? ?_, hl⟩
        rw [hzt _ fun q hq' => (away q hq').1.symm]
        exact hn
      · exact hs.single q hq w hw hne
    · intro u hu
      rw [hz u (forall_mem_cons.1 hu).2, hy, if_neg (hu p (by simp))]
    · intro f hfp
      rw [hzt f (forall_mem_cons.1 hfp).2, hf f (hfp p (by simp))]

lemma effect_sums (hp : ps.Pairwise Apart) : Gives (effect g ps) fun x => Sums g ps x.1 x.2.table := by
  refine .bind (foldlM_fuse_sums hg hpl ps (.refl g) hp (fun _ _ => ⟨rfl, rfl⟩) fun _ _ _ => rfl) fun x hx => ?_
  exact .pure hx.1

end Fusion

namespace Identity

/-- A vertex without a phase, with the two neighbours that it has. -/
structure Fits (g : Diagram) (p : Place) : Prop where
  place : placeAt g p.vertex = some p
  neighbours : g.nearby p.vertex = [p.first, p.second]

def look (g : Diagram) (v : Vertex) : Option (Sighting Unit Vertex Place) := (placeAt g v).map fun p => ⟨(), p, [p.first, p.second]⟩

lemma find_eq (g : Diagram) (accept : Vertex → Bool) (limit : Limit) :
    find g accept limit = placesOf (look g) (g.vertexCandidates accept) limit := rfl

lemma placeAt_eq_some {v : Vertex} {p : Place} (h : placeAt g v = some p) : p.vertex = v ∧ g.nearby v = [p.first, p.second] := by
  unfold placeAt at h
  split at h
  · cases h
  split at h
  · rename_i hn
    cases h
    exact ⟨rfl, hn⟩
  · cases h

/-- **The places of the rule** are vertices with two neighbours. -/
theorem find_spec (g : Diagram) (accept : Vertex → Bool) (limit : Limit) : ∀ p ∈ find g accept limit, Fits g p := by
  intro p hm
  obtain ⟨ws, e, hws, -⟩ := placesOf_spec (look g) (g.vertexCandidates accept) limit
  rw [find_eq, e] at hm
  obtain ⟨w, hw, rfl⟩ := mem_map.1 hm
  obtain ⟨q, hq, e⟩ := Option.map_eq_some_iff.1 (hws w hw).2
  rw [← e]
  obtain ⟨hv, hn⟩ := placeAt_eq_some hq
  exact ⟨hv ▸ hq, hv ▸ hn⟩

lemma find_nil {accept : Vertex → Bool} (h : find g accept none = []) {v : Vertex} (hv : g.has v)
    (ha : accept v) (hp : (g.phase v).isZero) : (g.nearby v).length ≠ 2 := by
  have hn := placesOf_nil (find_eq g accept none ▸ h) v (mem_vertexCandidates.2 ⟨hv, ha⟩)
  intro hl
  obtain ⟨a, b, hab⟩ := length_eq_two.1 hl
  simp [look, placeAt, hp, hab] at hn

/-- **The effect of the rule**: every place joins its two neighbours. -/
theorem effect_spec (ps : List Place) : Gives (effect ps) fun e =>
    e.vertices = ps.map (·.vertex) ∧ e.edges = [] ∧ ∀ f ∈ keys e.table, ∃ p ∈ ps, f = (p.first, p.second) := by
  refine .bind (P := fun t => ∀ f ∈ Table.keys t, ∃ p ∈ ps, f = (p.first, p.second)) ?_ fun t ht => .pure ⟨rfl, rfl, ht⟩
  refine .foldlM (by simp [Table.keys]) fun t p hp ht => ?_
  refine (Fusion.countEdge_keys t _ _).mono fun t' ht' f hf => ?_
  rcases (ht' f).1 hf with rfl | hf
  · exact ⟨p, hp, rfl⟩
  · exact ht f hf

end Identity

end ZXCircuits
