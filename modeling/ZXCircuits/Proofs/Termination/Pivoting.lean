/-
  Pivoting away from the boundary.

  The ends of a place go, but for one that takes over the vertex which was kept apart at the other; edges appear between neighbours of
  the two ends only (`Pivot.Turned`).  The neighbours of all other vertices stay, so that none of them becomes loose
  (`Pivot.Turned.loose`).
-/
import ZXCircuits.Proofs.Termination.Loose

namespace ZXCircuits

open List Table

namespace Pivot

open Diagram

variable {g h : Diagram} {p q : Place} {ps qs : List Place} {a b v w x : Vertex} {other : Vertex} {v' other' b' : Vertex}

/-! ## What is collected -/

/-- A place where the vertex that is kept apart has no other neighbour. -/
structure Parted (g : Diagram) (p : Place) : Prop extends Fits g p where
  hangs : ∀ v other b, End p v other b → g.Hangs b v

/-- All that has to be collected at some places. -/
structure Finished (ps : List Place) (c : Collected) : Prop where
  first : ∀ p ∈ ps, p.secondBoundary = [] → p.first ∈ c.vertices
  second : ∀ p ∈ ps, p.firstBoundary = [] → p.second ∈ c.vertices
  edges : ∀ p ∈ ps, ∀ v other b, End p v other b → edge v b ∈ c.edges
  single : ∀ p ∈ ps, ∀ v other b, End p v other b → ∃ n, Table.find? c.table (edge other b) = some n ∧ Lone n

lemma End.ends (he : End p v other b) : (v = p.first ∧ other = p.second) ∨ (v = p.second ∧ other = p.first) :=
  he.imp (fun h => ⟨h.1, h.2.1⟩) fun h => ⟨h.1, h.2.1⟩

lemma End.one (he : End p v other b) : v = p.first ∨ v = p.second := he.ends.imp And.left And.left

lemma End.twin (he : End p v other b) : other = p.first ∨ other = p.second := he.ends.symm.imp And.right And.right

lemma Apart.not_end (h : Apart p q) (h1 : v = p.first ∨ v = p.second) (h2 : v = q.first ∨ v = q.second) : False := by
  obtain ⟨a1, a2, a3, a4⟩ := h
  rcases h1 with rfl | rfl <;> rcases h2 with h2 | h2
  · exact a1 h2
  · exact a2 h2
  · exact a3 h2
  · exact a4 h2

lemma edge_eq_iff {c d : Vertex} (h : edge a b = edge c d) : (a = c ∧ b = d) ∨ (a = d ∧ b = c) :=
  between_edge.1 (h ▸ between_edge.2 (.inl ⟨rfl, rfl⟩) : Between (edge c d) a b)

section

variable (hg : g.Neat) (hp : Parted g p) (he : End p v other b) (hq : q = p ∨ Apart p q)
include hg hp he hq

lemma Parted.not_crosses : ¬ Crosses g q b x := by
  intro hc
  have hv : q.first = v ∨ q.second = v := by
    rcases hc.reaches with ⟨hj, -⟩ | ⟨hj, -⟩
    · exact .inl ((hp.hangs v other b he _).1 (hg.coherent.back hj))
    · exact .inr ((hp.hangs v other b he _).1 (hg.coherent.back hj))
  rcases hq with rfl | hpq
  · -- it is a neighbour of one end only, and there it is left out
    have ne := hp.ne
    have few := hp.few
    have only : ∀ bs : List Vertex, bs.head? = some b → bs.length ≤ 1 → bs = [b] := by
      intro bs hb hl
      match bs, hb, hl with
      | [_], hb, _ => rw [Option.some.inj hb]
    rcases hc.reaches with ⟨hj, -, hn⟩ | ⟨hj, -, hn⟩
    · have hj := (hp.hangs v other b he _).1 (hg.coherent.back hj)
      rcases he with ⟨-, -, hb⟩ | ⟨hv', -⟩
      · exact hn (only _ hb (by omega))
      · exact ne (hj.trans hv')
    have hj := (hp.hangs v other b he _).1 (hg.coherent.back hj)
    rcases he with ⟨hv', -⟩ | ⟨-, -, hb⟩
    · exact ne (hj.trans hv').symm
    · exact hn (only _ hb (by omega))
  · exact hpq.not_end he.one (hv.imp Eq.symm Eq.symm)

lemma Parted.edge_not_crosses : ¬ Crosses g q (edge other b).1 (edge other b).2 := by
  unfold edge
  split
  · exact fun hc => hp.not_crosses hg he hq hc.symm
  · exact hp.not_crosses hg he hq

end

lemma edgeKind_edge (hg : g.Neat) (hj : g.Joined b v) : g.edgeKind (edge v b) = .regular ∨ g.edgeKind (edge v b) = .hadamard := by
  have kind : ∀ a b, g.Joined a b → g.edgeKind (a, b) = .regular ∨ g.edgeKind (a, b) = .hadamard := by
    intro a b hj
    obtain ⟨k, hk⟩ := Option.isSome_iff_exists.1 hj
    rw [edgeKind_eq, hk]
    exact hg.plain _ _ k hk
  unfold edge
  split
  · exact kind v b (hg.coherent.back hj)
  · exact kind b v hj

lemma Parted.key_ne (hg : g.Coherent) (hp : Parted g p) (hq : Parted g q) (hpq : Apart p q) (he : End p v other b)
    (he' : End q v' other' b') : edge other b ≠ edge other' b' := by
  intro c
  rcases edge_eq_iff c with ⟨rfl, -⟩ | ⟨-, hb⟩
  · exact hpq.not_end he.twin he'.twin
  have hj : g.Joined other' v' := by
    rcases he'.ends with ⟨e, e'⟩ | ⟨e, e'⟩ <;> rw [e, e']
    · exact hg.back hq.joined
    · exact hq.joined
  obtain rfl := (hp.hangs v other b he v').1 (hb ▸ hj)
  exact hpq.not_end he.one he'.one

lemma find?_foldl_addHadamard {es : List Edge} {f : Edge} (hf : f ∉ es) (t : EdgeTable) : find? (es.foldl addHadamard t) f = find? t f :=
  List.foldlRecOn (motive := fun t' : EdgeTable => find? t' f = find? t f) es _ rfl fun t' ht' e he =>
    (find?_insert_of_ne t' (fun c : f = e => hf (c ▸ he)) _).trans ht'

lemma settleEnd_notes (c : Collected) (v other : Vertex) (boundary far both : List Vertex) :
    (∀ u ∈ c.vertices, u ∈ (settleEnd c v other boundary far both).vertices) ∧
    (∀ e ∈ c.edges, e ∈ (settleEnd c v other boundary far both).edges) ∧
    (∀ f, (∀ b, boundary.head? = some b → f ≠ edge other b) → find? (settleEnd c v other boundary far both).table f = find? c.table f) ∧
    (boundary = [] → other ∈ (settleEnd c v other boundary far both).vertices) ∧
    ∀ b, boundary.head? = some b → edge v b ∈ (settleEnd c v other boundary far both).edges ∧
      (find? c.table (edge other b) = none → (c.diagram.edgeKind (edge v b) = .regular ∨ c.diagram.edgeKind (edge v b) = .hadamard) →
        ∃ n, find? (settleEnd c v other boundary far both).table (edge other b) = some n ∧ Lone n) := by
  cases boundary with
  | nil => exact ⟨fun u hu => mem_append_left _ hu, fun e => id, fun _ _ => rfl, fun _ => by simp [settleEnd], by simp⟩
  | cons d ds =>
    refine ⟨fun u => id, fun e he => mem_append_left _ he, fun f hf => ?_, by simp, ?_⟩
    · exact find?_insert_of_ne _ (hf d rfl) _
    rintro b ⟨rfl⟩
    refine ⟨by simp [settleEnd], fun hn hk => ?_⟩
    -- phases do not change the kind of the edge
    have kind : (addPhases (addPhases c.diagram far (c.diagram.phase v)) both (c.diagram.phase v)).edgeKind (edge v d) =
        c.diagram.edgeKind (edge v d) :=
      ((foldl_addToPhase_spec c.diagram far _).1.trans (foldl_addToPhase_spec _ both _).1).edgeKind _
    refine ⟨_, find?_insert_self _ _ _, ?_⟩
    rw [hn, kind]
    rcases hk with hk | hk
    · rw [hk]; exact .inr rfl
    · rw [hk]; exact .inl rfl

lemma settleEnds_single (hp : Fits g p) {c : Collected} {far near both : List Vertex}
    (fresh : ∀ v other b, End p v other b → find? c.table (edge other b) = none)
    (kind : ∀ v other b, End p v other b → c.diagram.edgeKind (edge v b) = .regular ∨ c.diagram.edgeKind (edge v b) = .hadamard)
    (he : End p v other b) : ∃ n, find? (settleEnd (settleEnd c p.first p.second p.firstBoundary far both) p.second p.first
      p.secondBoundary near both).table (edge other b) = some n ∧ Lone n := by
  have few := hp.few
  have he' := he
  obtain ⟨-, -, t1, -, b1⟩ := settleEnd_notes c p.first p.second p.firstBoundary far both
  obtain ⟨-, -, t2, -, b2⟩ := settleEnd_notes (settleEnd c p.first p.second p.firstBoundary far both) p.second p.first p.secondBoundary
    near both
  rcases he with ⟨rfl, rfl, hb⟩ | ⟨rfl, rfl, hb⟩
  · -- the second end has no vertex that is kept apart
    have none : p.secondBoundary = [] := length_eq_zero_iff.1 (by
      have := length_pos_of_mem (mem_of_mem_head? hb)
      omega)
    rw [t2 _ fun b' hb' => by rw [none] at hb'; cases hb']
    exact (b1 b hb).2 (fresh _ _ b he') (kind _ _ b he')
  have none : p.firstBoundary = [] := length_eq_zero_iff.1 (by
    have := length_pos_of_mem (mem_of_mem_head? hb)
    omega)
  refine (b2 b hb).2 ?_ ?_
  · rw [t1 _ fun b' hb' => by rw [none] at hb'; cases hb']
    exact fresh _ _ b he'
  have hr : Rephased c.diagram (settleEnd c p.first p.second p.firstBoundary far both).diagram := by
    rw [none]
    exact (foldl_addToPhase_spec c.diagram far _).1.trans (foldl_addToPhase_spec _ both _).1
  rw [hr.edgeKind]
  exact kind _ _ b he'

lemma Collects.fresh (hg : g.Neat) {c : Collected} (hc : Collects g qs c) (hp : Parted g p) (hq : ∀ q ∈ qs, Parted g q ∧ Apart p q)
    (he : End p v other b) : find? c.table (edge other b) = none := by
  rw [find?_eq_none_iff]
  intro hm
  rcases hc.table _ hm with ⟨q, hq', v', other', b', he', e, -⟩ | ⟨q, hq', hx⟩
  · exact hp.key_ne hg.coherent (hq q hq').1 (hq q hq').2 he he' e
  · exact hp.edge_not_crosses hg he (.inr (hq q hq').2) hx

/-- **One place** is finished together with those before it. -/
theorem settle_finished (hg : g.Neat) {c : Collected} (hc : Collects g qs c) (hf : Finished qs c) (hp : Parted g p)
    (hq : ∀ q ∈ qs, Parted g q ∧ Apart p q) : Gives (settle c p) (Finished (p :: qs)) := by
  refine .bind (swapPhaseIndex_spec c.diagram p.first p.second) fun d ⟨r, hd⟩ => ?_
  have hr := hc.rephased.trans r
  refine .bind (sideOf_spec d p.first p.second p.firstBoundary) fun n0 h0 => ?_
  refine .bind (sideOf_spec d p.second p.first p.secondBoundary) fun n1 h1 => .pure ?_
  set both := n0.filter n1.contains with hb
  have hboth : ∀ n, n ∈ both ↔ n ∈ n0 ∧ n ∈ n1 := fun n => by rw [mem_filter, contains_iff_mem]
  set es := allEdges (n0.filter fun v => !both.contains v) (n1.filter fun v => !both.contains v) ++
    allEdges (n1.filter fun v => !both.contains v) both ++ allEdges (n0.filter fun v => !both.contains v) both
  have crosses : ∀ f ∈ es, Crosses g p f.1 f.2 := fun f hf =>
    crosses_of_mem (fun n hn => ⟨hr.joined.1 (h0 n hn).1, (h0 n hn).2⟩) (fun n hn => ⟨hr.joined.1 (h1 n hn).1, (h1 n hn).2⟩) hboth hf
  set c1 : Collected := { c with diagram := addPhases d both (.int 1) }
  set c2 := settleEnd c1 p.first p.second p.firstBoundary (n1.filter fun v => !both.contains v) both
  set c3 := settleEnd c2 p.second p.first p.secondBoundary (n0.filter fun v => !both.contains v) both
  obtain ⟨v2, e2, t2, o2, b2⟩ := settleEnd_notes c1 p.first p.second p.firstBoundary (n1.filter fun v => !both.contains v) both
  obtain ⟨v3, e3, t3, o3, b3⟩ := settleEnd_notes c2 p.second p.first p.secondBoundary (n0.filter fun v => !both.contains v) both
  -- edges between the neighbours come last, and are none of those that are noted for an end
  have table : ∀ q ∈ p :: qs, ∀ v other b, End q v other b →
      find? (es.foldl addHadamard c3.table) (edge other b) = find? c3.table (edge other b) := by
    intro q hq' v other b he
    refine find?_foldl_addHadamard (fun hm => ?_) _
    rcases mem_cons.1 hq' with rfl | hq'
    · exact hp.edge_not_crosses hg he (.inl rfl) (crosses _ hm)
    · exact (hq q hq').1.edge_not_crosses hg he (.inr (Std.Symm.symm _ _ (hq q hq').2)) (crosses _ hm)
  refine ⟨fun q hq' hn => ?_, fun q hq' hn => ?_, fun q hq' v other b he => ?_, fun q hq' v other b he => ?_⟩
  · rcases mem_cons.1 hq' with rfl | hq'
    · exact o3 hn
    · exact v3 _ (v2 _ (hf.first q hq' hn))
  · rcases mem_cons.1 hq' with rfl | hq'
    · exact v3 _ (o2 hn)
    · exact v3 _ (v2 _ (hf.second q hq' hn))
  · rcases mem_cons.1 hq' with rfl | hq'
    · rcases he with ⟨rfl, rfl, hb⟩ | ⟨rfl, rfl, hb⟩
      · exact e3 _ (b2 b hb).1
      · exact (b3 b hb).1
    · exact e3 _ (e2 _ (hf.edges q hq' v other b he))
  · rw [table q hq' v other b he]
    rcases mem_cons.1 hq' with rfl | hq'
    · have hr1 : Rephased g c1.diagram := hr.trans (foldl_addToPhase_spec d both _).1
      refine settleEnds_single hp.toFits (fun _ _ _ he => hc.fresh hg hp hq he) (fun v other b he => ?_) he
      rw [hr1.edgeKind]
      exact edgeKind_edge hg (hp.hangs v other b he).joined
    have old : ∀ v' other' b', End p v' other' b' → edge other b ≠ edge other' b' := fun v' other' b' =>
      (hq q hq').1.key_ne hg.coherent hp (Std.Symm.symm _ _ (hq q hq').2) he
    rw [t3 _ fun b' hb' => old _ _ b' (.inr ⟨rfl, rfl, hb'⟩), t2 _ fun b' hb' => old _ _ b' (.inl ⟨rfl, rfl, hb'⟩)]
    exact hf.single q hq' v other b he

lemma effect_finished (hg : g.Neat) (hw : ∀ p ∈ ps, Phaseless g p ∧ Parted g p) (hp : ps.Pairwise Apart) : Gives (effect g ps) fun x =>
      Finished ps { diagram := x.1, table := x.2.table, vertices := x.2.vertices, edges := x.2.edges } := by
  have fold : ∀ (ps qs : List Place) {c : Collected}, Collects g qs c → Finished qs c →
      (∀ p ∈ ps, Phaseless g p ∧ Parted g p ∧ ∀ q ∈ qs, Apart p q) → (∀ q ∈ qs, Parted g q) → ps.Pairwise Apart →
      Gives (ps.foldlM settle c) (Finished (ps.reverse ++ qs)) := by
    intro ps
    induction ps with
    | nil => exact fun qs c _ hf _ _ _ => .pure hf
    | cons p ps ih =>
      intro qs c hc hf hps hqs hp
      obtain ⟨hap, hp⟩ := pairwise_cons.1 hp
      obtain ⟨hw, hpp, hpq⟩ := hps p (by simp)
      rw [reverse_cons, append_assoc]
      have both := (settle_spec (hc.mono fun q hq => mem_cons_of_mem p hq) (by simp) hw).and
        (settle_finished hg hc hf hpp fun q hq => ⟨hqs q hq, hpq q hq⟩)
      refine .bind both fun c' ⟨hc', hf'⟩ => ih (p :: qs) hc' hf' (fun q hq => ?_) (forall_mem_cons.2 ⟨hpp, hqs⟩) hp
      · obtain ⟨h1, h2, h3⟩ := hps q (by simp [hq])
        exact ⟨h1, h2, forall_mem_cons.2 ⟨Std.Symm.symm _ _ (hap q hq), h3⟩⟩
  refine .bind (fold ps [] ⟨.refl g, fun _ => .refl _, by simp [Table.keys], by simp, by simp⟩
    ⟨by simp, by simp, by simp, by simp⟩ (fun p hm => ⟨(hw p hm).1, (hw p hm).2, by simp⟩) (by simp) hp) fun c hf => .pure ?_
  have all : ∀ {p}, p ∈ ps → p ∈ ps.reverse ++ [] := by simp
  exact ⟨fun p hm => hf.first p (all hm), fun p hm => hf.second p (all hm), fun p hm => hf.edges p (all hm),
    fun p hm => hf.single p (all hm)⟩

/-! ## What is left -/

/-- What pivoting leaves: the ends that go are gone, an end that stays is joined to the vertex which was kept apart at the other, and
    other edges come and go between neighbours of the two ends only. -/
structure Turned (g : Diagram) (ps : List Place) (h : Diagram) : Prop where
  coherent : h.Coherent
  vertex : ∀ x, h.has x → g.has x ∧ ∀ p ∈ ps, ¬ Goes p x
  kind : ∀ x, h.has x → h.kindD x = g.kindD x
  phase : ∀ x, h.has x → Exact.HalfTurns (g.phase x) (h.phase x)
  joined : ∀ a b, h.Joined a b → g.Joined a b ∨ ∃ p ∈ ps, Crosses g p a b ∨ ∃ v other c, End p v other c ∧ Between (other, c) a b
  taken : ∀ p ∈ ps, ∀ v other b, End p v other b → h.Joined other b
  kept : ∀ a b, g.Joined a b → (∀ p ∈ ps, a ≠ p.first ∧ a ≠ p.second ∧ b ≠ p.first ∧ b ≠ p.second) →
    (∀ p ∈ ps, ¬ Crosses g p a b) → h.Joined a b

lemma Goes.is_end (hv : Goes p v) : v = p.first ∨ v = p.second := hv.imp And.left And.left

lemma eq_of_end (apart : ps.Pairwise Apart) (hp : p ∈ ps) (hq : q ∈ ps) (h1 : v = p.first ∨ v = p.second)
    (h2 : v = q.first ∨ v = q.second) : p = q := by
  by_contra hne
  exact (apart.forall hp hq hne).not_end h1 h2

lemma Parted.not_end (hg : g.Neat) (apart : ps.Pairwise Apart) (hp : p ∈ ps) (hpp : ∀ p ∈ ps, Parted g p) (he : End p v other b)
    (hq : q ∈ ps) : b ≠ q.first ∧ b ≠ q.second := by
  have hb := (hpp p hp).hangs v other b he
  have hbv : b ≠ v := fun c => hg.loopless v (c ▸ hb.joined)
  have hbo := ((hpp p hp).apart v other b he).2
  -- its only neighbour is an end of its own place, the ends of which it is not
  have own : b ≠ p.first ∧ b ≠ p.second := by
    rcases he.ends with ⟨rfl, rfl⟩ | ⟨rfl, rfl⟩
    · exact ⟨hbv, hbo⟩
    · exact ⟨hbo, hbv⟩
  have hj := (hpp q hq).joined
  constructor
  · rintro rfl
    obtain rfl := eq_of_end apart hp hq he.one (.inr ((hb _).1 hj).symm)
    exact own.1 rfl
  · rintro rfl
    obtain rfl := eq_of_end apart hp hq he.one (.inl ((hb _).1 (hg.coherent.back hj)).symm)
    exact own.2 rfl

lemma Fits.end_unique (hp : Fits g p) (he : End p v other b) (he' : End p v' other' b') : v' = v ∧ other' = other ∧ b' = b := by
  have few := hp.few
  have pos : ∀ {bs : List Vertex} {b}, bs.head? = some b → 0 < bs.length := fun hb => length_pos_of_mem (mem_of_mem_head? hb)
  rcases he with ⟨rfl, rfl, hb⟩ | ⟨rfl, rfl, hb⟩ <;> rcases he' with ⟨rfl, rfl, hb'⟩ | ⟨rfl, rfl, hb'⟩
  · exact ⟨rfl, rfl, Option.some.inj (hb'.symm.trans hb)⟩
  · have := pos hb; have := pos hb'; omega
  · have := pos hb; have := pos hb'; omega
  · exact ⟨rfl, rfl, Option.some.inj (hb'.symm.trans hb)⟩

lemma End.stays (hp : Fits g p) (he : End p v other b) : ¬ Goes p other := by
  have ne := hp.ne
  rcases he with ⟨-, rfl, hb⟩ | ⟨-, rfl, hb⟩ <;> rintro (⟨hc, hn⟩ | ⟨hc, hn⟩)
  · exact ne hc.symm
  · rw [hn] at hb; cases hb
  · rw [hn] at hb; cases hb
  · exact ne hc

lemma exists_end (hv : v = p.first ∨ v = p.second) (hn : ¬ Goes p v) : ∃ w b, End p w v b := by
  have head : ∀ bs : List Vertex, bs ≠ [] → ∃ b, bs.head? = some b := fun bs hb => ⟨_, List.head?_eq_some_head hb⟩
  rcases hv with rfl | rfl
  · obtain ⟨b, hb⟩ := head p.secondBoundary fun c => hn (.inl ⟨rfl, c⟩)
    exact ⟨_, b, .inr ⟨rfl, rfl, hb⟩⟩
  · obtain ⟨b, hb⟩ := head p.firstBoundary fun c => hn (.inr ⟨rfl, c⟩)
    exact ⟨_, b, .inl ⟨rfl, rfl, hb⟩⟩

section Applied

variable {k : Diagram} {e : Effect} (hg : g.Neat) (hp : ∀ p ∈ ps, Parted g p) (apart : ps.Pairwise Apart)
  (hc : Collects g ps { diagram := k, table := e.table, vertices := e.vertices, edges := e.edges })
  (hf : Finished ps { diagram := k, table := e.table, vertices := e.vertices, edges := e.edges }) (ha : Applied k e h)

include hc

lemma Collects.not_gone (hn : ∀ p ∈ ps, x ≠ p.first ∧ x ≠ p.second) : x ∉ e.vertices := by
  intro hx
  obtain ⟨p, hm, hgo⟩ := hc.vertices x hx
  exact hgo.is_end.elim (hn p hm).1 (hn p hm).2

lemma Collects.spanned (hab : Spanned (keys e.table) a b) :
    ∃ p ∈ ps, Crosses g p a b ∨ ∃ v other c, End p v other c ∧ Between (other, c) a b := by
  obtain ⟨f, hfk, hab⟩ := hab
  rcases hc.table f hfk with ⟨p, hm, v, other, c, he, rfl, -⟩ | ⟨p, hm, hx⟩
  · exact ⟨p, hm, .inr ⟨v, other, c, he, between_edge.1 hab⟩⟩
  rcases hab with ⟨rfl, rfl⟩ | ⟨rfl, rfl⟩
  · exact ⟨p, hm, .inl hx⟩
  · exact ⟨p, hm, .inl hx.symm⟩

include hg hp apart in
lemma Collects.edge_stays (hm : p ∈ ps) (he : End p v other b) (hvo : other ≠ v) {x y : Vertex} (hxy : Between (other, b) x y) :
    ¬ Spanned e.edges x y := by
  rintro ⟨f, hf, hfxy⟩
  obtain ⟨q, hq, v', other', b', he', rfl⟩ := hc.edges f hf
  have hend : v' = q.first ∨ v' = q.second := he'.one
  have hnb := Parted.not_end hg apart hm hp he hq
  have hv' : v' = other ∨ v' = b := by
    rcases hxy with ⟨rfl, rfl⟩ | ⟨rfl, rfl⟩ <;> rcases between_edge.1 hfxy with ⟨h1, h2⟩ | ⟨h1, h2⟩
    · exact .inl h1.symm
    · exact .inr h2.symm
    · exact .inr h1.symm
    · exact .inl h2.symm
  rcases hv' with rfl | rfl
  · obtain rfl := eq_of_end apart hm hq he.twin hend
    exact hvo ((hp p hm).end_unique he he').1
  · exact hend.elim hnb.1 hnb.2

include hg hp apart hf ha in
lemma Collects.taken (hm : p ∈ ps) (he : End p v other b) : h.Joined other b := by
  have hb := (hp p hm).hangs v other b he
  have hvo : other ≠ v := by
    rcases he.ends with ⟨rfl, rfl⟩ | ⟨rfl, rfl⟩
    · exact (hp p hm).ne.symm
    · exact (hp p hm).ne
  have other_stays : other ∉ e.vertices := by
    intro hmem
    obtain ⟨q, hq, hgo⟩ := hc.vertices _ hmem
    obtain rfl := eq_of_end apart hm hq he.twin hgo.is_end
    exact he.stays (hp p hm).toFits hgo
  have b_stays : b ∉ e.vertices := hc.not_gone fun q hq => Parted.not_end hg apart hm hp he hq
  have none : ∀ x y, Between (other, b) x y → ¬ k.Joined x y ∧ x ∉ e.vertices ∧ y ∉ e.vertices := by
    rintro x y (⟨rfl, rfl⟩ | ⟨rfl, rfl⟩)
    · exact ⟨fun hj => hvo ((hb _).1 (hg.coherent.back (hc.rephased.joined.1 hj))), other_stays, b_stays⟩
    · exact ⟨fun hj => hvo ((hb _).1 (hc.rephased.joined.1 hj)), b_stays, other_stays⟩
  obtain ⟨n, hn, hl⟩ := hf.single p hm v other b he
  have ends : Between (other, b) (edge other b).1 (edge other b).2 := between_edge.1 (.inl ⟨rfl, rfl⟩)
  obtain ⟨h1, h2, h3⟩ := none _ _ ends
  have hj := ha.made (edge other b) n (mem_of_find? hn) hl h1 (hc.edge_stays hg hp apart hm he hvo ends) h2 h3
  rcases ends with ⟨h1, h2⟩ | ⟨h1, h2⟩ <;> rw [h1, h2] at hj
  · exact hj
  · exact ha.coherent.back hj

include ha in
lemma Collects.kept (hab : g.Joined a b) (hn : ∀ p ∈ ps, a ≠ p.first ∧ a ≠ p.second ∧ b ≠ p.first ∧ b ≠ p.second)
    (hx : ∀ p ∈ ps, ¬ Crosses g p a b) : h.Joined a b := by
  have not_end : ∀ p ∈ ps, ∀ u, u = p.first ∨ u = p.second → u ≠ a ∧ u ≠ b := by
    rintro p hm u (rfl | rfl)
    · exact ⟨(hn p hm).1.symm, (hn p hm).2.2.1.symm⟩
    · exact ⟨(hn p hm).2.1.symm, (hn p hm).2.2.2.symm⟩
  refine ha.kept a b (hc.rephased.joined.2 hab) (fun hs => ?_) ?_ (hc.not_gone fun p hm => ⟨(hn p hm).1, (hn p hm).2.1⟩)
    (hc.not_gone fun p hm => (hn p hm).2.2)
  · obtain ⟨p, hm, hcr | ⟨v, other, c, he, hbt⟩⟩ := hc.spanned hs
    · exact hx p hm hcr
    have := not_end p hm other he.twin
    rcases hbt with ⟨h1, -⟩ | ⟨h1, h2⟩
    · exact this.1 h1.symm
    · exact this.2 h2.symm
  rintro ⟨f, hfe, hfab⟩
  obtain ⟨p, hm, v, other, c, he, rfl⟩ := hc.edges f hfe
  have := not_end p hm v he.one
  rcases between_edge.1 hfab with ⟨h1, -⟩ | ⟨-, h1⟩
  · exact this.1 h1.symm
  · exact this.2 h1.symm

include hg hp apart hf ha in
lemma turned_of_applied : Turned g ps h where
  coherent := ha.coherent
  vertex x hx := by
    refine ⟨(hc.rephased.has x).symm.trans (ha.vertex x hx).1, fun p hm hgo => (ha.vertex x hx).2 ?_⟩
    rcases hgo with ⟨rfl, hn⟩ | ⟨rfl, hn⟩
    · exact hf.first p hm hn
    · exact hf.second p hm hn
  kind x hx := by rw [ha.kind x hx, hc.rephased.kindD]
  phase x hx := (hc.turned x).trans (ha.phase x hx)
  joined a b hab := (ha.joined a b hab).1.imp hc.rephased.joined.1 hc.spanned
  taken p hm v other b he := hc.taken hg hp apart hf ha hm he
  kept a b hab hn hx := hc.kept ha hab hn hx

end Applied

/-- **The effect of pivoting**, at places where the vertex that is kept apart has no other neighbour. -/
theorem effect_turned (hg : g.Neat) (hp : ∀ p ∈ ps, Phaseless g p ∧ Parted g p) (apart : ps.Pairwise Apart) :
    Gives (effect g ps) fun y => Gives (y.1.applyEffect y.2) (Turned g ps) := by
  refine ((effect_spec fun p hm => (hp p hm).1).and (effect_finished hg hp apart)).mono fun y ⟨hc, hf⟩ => ?_
  exact (applyEffect_spec (hc.rephased.coherent hg.coherent) y.2).mono fun h ha =>
    turned_of_applied hg (fun p hm => (hp p hm).2) apart hc hf ha

namespace Turned

lemma tCount_le (ht : Turned g ps h) : h.tCount ≤ g.tCount := by
  refine tCount_le_of_subset fun x hx => ?_
  rw [mem_nonClifford] at hx ⊢
  exact ⟨(ht.vertex x hx.1).1, fun hq => hx.2 ((ht.phase x hx.1).quarters_iff.2 hq)⟩

variable (hg : g.Neat) (hp : ∀ p ∈ ps, Parted g p) (ht : Turned g ps h)

include hg hp ht

lemma hangs {l : Vertex} (hl : g.Hangs l x) (hx : ∀ p ∈ ps, x ≠ p.first ∧ x ≠ p.second) : h.Hangs l x := by
  have not_end : ∀ p ∈ ps, l ≠ p.first ∧ l ≠ p.second := by
    refine fun p hm => ⟨?_, ?_⟩ <;> rintro rfl
    · exact (hx p hm).2 ((hl _).1 (hp p hm).joined).symm
    · exact (hx p hm).1 ((hl _).1 (hg.coherent.back (hp p hm).joined)).symm
  have not_crosses : ∀ p ∈ ps, ∀ y, ¬ Crosses g p l y := by
    intro p hm y hc
    rcases hc.reaches with ⟨hj, -⟩ | ⟨hj, -⟩
    · exact (hx p hm).1 ((hl _).1 (hg.coherent.back hj)).symm
    · exact (hx p hm).2 ((hl _).1 (hg.coherent.back hj)).symm
  intro y
  constructor
  · intro hy
    refine (hl y).1 ((ht.joined l y hy).resolve_right ?_)
    rintro ⟨p, hm, hc | ⟨v, other, c, he, ⟨rfl, -⟩ | ⟨rfl, -⟩⟩⟩
    · exact not_crosses p hm y hc
    · rcases he.ends with ⟨-, e⟩ | ⟨-, e⟩
      · exact (not_end p hm).2 e
      · exact (not_end p hm).1 e
    · have hv := (hl v).1 ((hp p hm).hangs v other _ he).joined
      rcases he.ends with ⟨e, -⟩ | ⟨e, -⟩
      · exact (hx p hm).1 (hv.symm.trans e)
      · exact (hx p hm).2 (hv.symm.trans e)
  · rintro rfl
    exact ht.kept l y hl.joined (fun p hm => ⟨(not_end p hm).1, (not_end p hm).2, (hx p hm).1, (hx p hm).2⟩) fun p hm => not_crosses p hm y

lemma inland (hx : h.Inland x) : g.Inland x := by
  refine .of_hangs hg ht.coherent (ht.vertex x hx.vertex).1 ht.kind (fun b hb hk => ?_) hx
  refine (ht.hangs hg hp hb fun p hm => ?_).joined
  -- an end next to the boundary goes
  have few := (hp p hm).few
  have hj := hg.coherent.back hb.joined
  have stays := (ht.vertex x hx.vertex).2 p hm
  refine ⟨?_, ?_⟩ <;> rintro rfl
  · have hn := (hp p hm).first_boundary b hj hk
    rw [hn, length_singleton] at few
    exact stays (.inl ⟨rfl, length_eq_zero_iff.1 (by omega)⟩)
  · have hn := (hp p hm).second_boundary b hj hk
    rw [hn, length_singleton] at few
    exact stays (.inr ⟨rfl, length_eq_zero_iff.1 (by omega)⟩)

lemma exists_joined (hx : ∃ y, h.Joined x y) : ∃ y, g.Joined x y := by
  obtain ⟨y, hy⟩ := hx
  rcases ht.joined x y hy with hj | ⟨p, hm, hc | ⟨v, other, c, he, ⟨rfl, -⟩ | ⟨rfl, -⟩⟩⟩
  · exact ⟨y, hj⟩
  · rcases hc.reaches with ⟨hj, -⟩ | ⟨hj, -⟩
    · exact ⟨_, hg.coherent.back hj⟩
    · exact ⟨_, hg.coherent.back hj⟩
  · rcases he.ends with ⟨-, e⟩ | ⟨-, e⟩ <;> subst e
    · exact ⟨_, hg.coherent.back (hp p hm).joined⟩
    · exact ⟨_, (hp p hm).joined⟩
  · exact ⟨v, ((hp p hm).hangs v other _ he).joined⟩

lemma hangs_taken (apart : ps.Pairwise Apart) (hm : p ∈ ps) (he : End p v other b) : h.Hangs b other := by
  have hb := (hp p hm).hangs v other b he
  have not_end : ∀ q ∈ ps, b ≠ q.first ∧ b ≠ q.second := fun q hq => Parted.not_end hg apart hm hp he hq
  have hv : v = p.first ∨ v = p.second := he.one
  have gone : Goes p v := by
    by_contra hn
    obtain ⟨w, b', he'⟩ := exists_end hv hn
    have ne := (hp p hm).ne
    have := ((hp p hm).end_unique he he').2.1
    rcases he.ends with ⟨e, e'⟩ | ⟨e, e'⟩ <;> rw [e, e'] at this
    · exact ne this
    · exact ne this.symm
  intro y
  constructor
  · intro hy
    rcases ht.joined b y hy with hj | ⟨q, hq, hc | ⟨v', other', c, he', ⟨rfl, -⟩ | ⟨rfl, rfl⟩⟩⟩
    · rw [(hb y).1 hj] at hy
      exact absurd gone ((ht.vertex v (ht.coherent.vertex hy)).2 p hm)
    · refine absurd hc ((hp p hm).not_crosses hg he ?_)
      by_cases hqp : q = p
      · exact .inl hqp
      · exact .inr (apart.forall hm hq (Ne.symm hqp))
    · rcases he'.ends with ⟨-, e⟩ | ⟨-, e⟩
      · exact absurd e (not_end q hq).2
      · exact absurd e (not_end q hq).1
    · have hvv : v' = v := (hb v').1 ((hp q hq).hangs v' _ _ he').joined
      obtain rfl := eq_of_end apart hm hq hv (hvv ▸ he'.one)
      exact ((hp p hm).end_unique he he').2.1
  · rintro rfl
    exact ht.coherent.back (ht.taken p hm v y b he)

/-- **Pivoting** makes nothing loose, if an end that stays is not so. -/
theorem loose (hn : ∀ p ∈ ps, ∀ v other b, End p v other b → ¬ h.Loose other) (hx : h.Loose x) : g.Loose x := by
  refine ⟨ht.inland hg hp hx.inland, ht.exists_joined hg hp hx.joined, ?_⟩
  rintro ⟨l, hl, hw⟩
  have not_end : ∀ p ∈ ps, x ≠ p.first ∧ x ≠ p.second := by
    intro p hm
    rw [← not_or]
    intro c
    obtain ⟨w, b, he⟩ := exists_end c ((ht.vertex x hx.inland.vertex).2 p hm)
    exact hn p hm w x b he hx
  have hl' := ht.hangs hg hp hl not_end
  exact hx.axle ⟨l, hl', fun c => hw ((ht.phase l hl'.joined.has).whole_iff.1 c)⟩

omit hg hp in
lemma not_loose_of_bound (hb : ∀ p ∈ ps, Bound g p) (hm : p ∈ ps) (he : End p v other b) : ¬ h.Loose other := by
  intro hl
  have hj := ht.taken p hm v other b he
  have hv := ht.coherent.vertex hj
  exact hl.inland.away b hj ((ht.kind b hv).trans (hb p hm v other b he))

end Turned

lemma parted_of_bound (hg : g.Neat) (hf : Fits g p) (hb : Bound g p) : Parted g p :=
  ⟨hf, fun v other b he => hg.hangs (hf.apart v other b he).1 (hb v other b he)⟩

lemma Fits.exists_goes (hp : Fits g p) : ∃ v, Goes p v ∧ (v = p.first ∨ v = p.second) := by
  have few := hp.few
  by_cases hn : p.secondBoundary = []
  · exact ⟨_, .inl ⟨rfl, hn⟩, .inl rfl⟩
  · have := length_pos_iff.2 hn
    exact ⟨_, .inr ⟨rfl, length_eq_zero_iff.1 (by omega)⟩, .inr rfl⟩

end Pivot

namespace Rule

open Diagram

lemma pivot_sinks (accept : Edge → Bool) : (pivot accept).Descends Neat Sinks := by
  refine Keeps.descends_of (fun g hg => (pivot_round hg.coherent accept).mono fun x hx => hx.elim (fun e => e ▸ hg) fun hx => hx.neat hg)
    fun g hg => .ok fun hne => ?_
  obtain ⟨hf, apart⟩ := Pivot.find_spec hg.coherent accept none false
  have parted : ∀ p ∈ Pivot.find g accept none false, Pivot.Parted g p := fun p hm => Pivot.parted_of_bound hg (hf p hm).1 (hf p hm).2.2
  refine (Pivot.effect_turned hg (fun p hm => ⟨(hf p hm).2.1, parted p hm⟩) apart).mono fun y hy => hy.mono fun h ht => ⟨?_, ?_⟩
  · refine .of_loose (fun x hx => (ht.vertex x hx).1) ht.phase (fun x => ht.inland hg parted) fun x => ?_
    exact ht.loose hg parted fun p hm v other b => ht.not_loose_of_bound (fun p hm => (hf p hm).2.2) hm
  obtain ⟨p, hm⟩ := exists_mem_of_ne_nil _ hne
  obtain ⟨v, hgo, hv⟩ := (hf p hm).1.exists_goes
  refine support_card_lt (fun x hx => (ht.vertex x hx).1) ?_ fun c => (ht.vertex v c).2 p hm hgo
  rcases hv with rfl | rfl
  · exact (hf p hm).1.joined.has
  · exact (hg.coherent.back (hf p hm).1.joined).has

end Rule

end ZXCircuits
