/-
  Identity removal keeps the linear map.

  Two identities may join one pair of vertices.  If both places give the pair in one order their edges are merged, but not if they give
  it in opposite orders.  As long as that does not happen (`Identity.Opposed`), a round returns and keeps the linear map up to a scalar
  (`Rule.identity_round_sound`), and so does the repetition of the rule (`Rule.identity_exhaust_sound`).
-/
import ZXCircuits.Proofs.Soundness.Stages

namespace ZXCircuits

open List Diagram EdgeTable Fusion Table

variable {g h : Diagram}

/-! ## Counting edges -/

def EdgeTable.Proper (t : EdgeTable) : Prop := ∀ n ∈ Table.values t, 0 ≤ n.1 ∧ 0 ≤ n.2

noncomputable def Diagram.strand (g : Diagram) (e : Edge) (k : EdgeKind) : Valuation := fun β =>
  bond (g.kindD e.1) k (g.kindD e.2) (β e.1) (β e.2)

variable {t : EdgeTable} {k : EdgeKind}

lemma EdgeTable.edgesOf_insert (ht : t.Proper) {e : Edge} {m n : ℕ} (β : Vertex → Bool) :
    g.edgesOf (add t e m n) β = g.strand e .regular β ^ m * g.strand e .hadamard β ^ n * g.edgesOf t β := by
  induction t with
  | nil => simp [add, Table.insert, edgesOf, Table.find?, strand]
  | cons q t ih =>
    obtain ⟨f, a, b⟩ := q
    obtain ⟨ha, hb⟩ := ht _ (mem_cons_self ..)
    by_cases hf : f = e
    · subst hf
      obtain ⟨a, rfl⟩ := Int.eq_ofNat_of_zero_le ha
      obtain ⟨b, rfl⟩ := Int.eq_ofNat_of_zero_le hb
      simp only [add, Table.insert, Table.find?, if_true, edgesOf, map_cons, prod_cons, ← Int.natCast_add,
        Int.toNat_natCast, strand, pow_add]
      ring
    have same : add ((f, a, b) :: t) e m n = (f, a, b) :: add t e m n := by
      simp only [add, Table.find?, if_neg hf]
      split <;> simp only [Table.insert, if_neg hf]
    have ih := ih fun q hq => ht q (mem_cons_of_mem _ hq)
    rw [same]
    simp only [edgesOf, map_cons, prod_cons] at ih ⊢
    rw [ih]
    ring

lemma EdgeTable.Proper.add (ht : t.Proper) (e : Edge) {m n : ℤ} (hm : 0 ≤ m) (hn : 0 ≤ n) : (add t e m n).Proper := by
  intro c hc
  unfold EdgeTable.add at hc
  split at hc
  · rename_i a b hf
    have old := ht _ (mem_map_of_mem (mem_of_find? hf))
    rcases mem_values_insert hc with rfl | hc
    · exact ⟨by simp only at old ⊢; omega, by simp only at old ⊢; omega⟩
    · exact ht c hc
  · rcases mem_values_insert hc with rfl | hc
    · exact ⟨hm, hn⟩
    · exact ht c hc

lemma EdgeTable.nodup_add (ht : (Table.keys t).Nodup) (e : Edge) (m n : ℤ) : (Table.keys (add t e m n)).Nodup := by
  unfold add
  split <;> exact nodup_insert ht _ _

lemma Fusion.countEdge_edges (ht : t.Proper) (hn : (Table.keys t).Nodup) (e : Edge) (hk : k = .regular ∨ k = .hadamard) :
    Gives (countEdge t e k) fun t' => t'.Proper ∧ (Table.keys t').Nodup ∧ g.edgesOf t' = g.strand e k * g.edgesOf t := by
  rcases hk with rfl | rfl <;> refine .ok ⟨ht.add e (by decide) (by decide), nodup_add hn _ _ _, funext fun β => ?_⟩
  · simpa using edgesOf_insert ht (m := 1) (n := 0) β
  · simpa using edgesOf_insert ht (m := 0) (n := 1) β

/-! ## The rule -/

namespace Identity

variable {p : Place} {ps : List Place} {e f : EdgeKind}

def Place.pair (p : Place) : Edge := (p.first, p.second)

section

variable (ps : List Place) (hk : ∀ p ∈ ps, p.kind = .regular ∨ p.kind = .hadamard)
include hk

lemma foldlM_count_edges : ∀ {t : EdgeTable}, t.Proper →
    (Table.keys t).Nodup → Gives (ps.foldlM (fun t p => countEdge t p.pair p.kind) t) fun t' => t'.Proper ∧
      (Table.keys t').Nodup ∧ g.edgesOf t' = (ps.map fun p => g.strand p.pair p.kind).prod * g.edgesOf t := by
  induction ps with
  | nil => exact fun h1 h2 => .pure ⟨h1, h2, by simp⟩
  | cons p ps ih =>
    intro t h1 h2
    refine .bind (countEdge_edges (g := g) h1 h2 p.pair (hk p (by simp))) fun t' found => ?_
    obtain ⟨k1, k2, k3⟩ := found
    refine (ih (forall_mem_cons.1 hk).2 k1 k2).mono fun t'' rest => ⟨rest.1, rest.2.1, ?_⟩
    rw [rest.2.2, k3, map_cons, prod_cons]
    ring

lemma foldlM_count_find (hn : ps.Nodup) : ∀ t : EdgeTable, Gives (ps.foldlM (fun t p => countEdge t p.pair p.kind) t) fun t' =>
      (∀ f, (∀ p ∈ ps, f ≠ p.pair) → Table.find? t' f = Table.find? t f) ∧
        ∀ p ∈ ps, (∀ q ∈ ps, q.pair = p.pair → q = p) → Table.find? t p.pair = none → ∃ n, Table.find? t' p.pair = some n ∧ Lone n := by
  induction ps with
  | nil => exact fun t => .pure ⟨fun _ _ => rfl, by simp⟩
  | cons p ps ih =>
    intro t
    obtain ⟨hp, hn⟩ := nodup_cons.1 hn
    refine .bind (countEdge_find t p.pair (hk p (by simp))) fun t1 found => ?_
    obtain ⟨h1, h2⟩ := found
    refine (ih (forall_mem_cons.1 hk).2 hn t1).mono fun t2 rest => ?_
    obtain ⟨h3, h4⟩ := rest
    refine ⟨fun f hf => ?_, fun q hq hu hnone => ?_⟩
    · rw [h3 f (forall_mem_cons.1 hf).2, h1 f (hf p (by simp))]
    rcases mem_cons.1 hq with rfl | hq
    · obtain ⟨n, hn, hl⟩ := h2 hnone
      refine ⟨n, ?_, hl⟩
      rw [h3 _ fun r hr c => hp (hu r (by simp [hr]) c.symm ▸ hr), hn]
    · refine h4 q hq (forall_mem_cons.1 hu).2 ?_
      rw [h1 _ fun c => hp (hu p (by simp) c.symm ▸ hq), hnone]

end

/-- Places at spiders without a phase between two neighbours, none of them next to another, and no two between the same vertices in
    opposite orders. -/
structure Sound (g : Diagram) (ps : List Place) : Prop where
  nodup : ps.Nodup
  fits : ∀ p ∈ ps, Fits g p
  spider : ∀ p ∈ ps, (g.kindD p.vertex).isSpider
  phase : ∀ p ∈ ps, turn (g.phase p.vertex).toRat = 1
  untied : ∀ p ∈ ps, ∀ q ∈ ps, ¬ g.Joined p.vertex q.vertex
  forth : ∀ p ∈ ps, ∀ q ∈ ps, q.pair ≠ (p.second, p.first)
  single : ∀ p ∈ ps, (g.kindD p.first).isSpider = false ∨ (g.kindD p.second).isSpider = false →
    ¬ g.Joined p.first p.second ∧ ∀ q ∈ ps, q.pair = p.pair → q = p

lemma Fits.kind_eq (hp : Fits g p) :
    p.kind = if g.edgeKind (p.vertex, p.first) = g.edgeKind (p.vertex, p.second) then .regular else .hadamard := by
  have h := hp.place
  unfold placeAt at h
  split at h
  · cases h
  rw [hp.neighbours] at h
  have h := Option.some.inj h
  rw [← h]
  simp [beq_iff_eq]

lemma Fits.joined (hp : Fits g p) : g.Joined p.vertex p.first ∧ g.Joined p.vertex p.second :=
  ⟨mem_nearby.1 (hp.neighbours ▸ by simp), mem_nearby.1 (hp.neighbours ▸ by simp)⟩

lemma leg_mul_leg (k : VertexKind) : k.leg * k.leg = 1 := by
  cases k with
  | x => exact mixing_mul_mixing
  | boundary | z | other => exact one_mul 1

lemma wire_mul_wire (he : e = .regular ∨ e = .hadamard) (hf : f = .regular ∨ f = .hadamard) :
    e.wire * f.wire = (if e = f then EdgeKind.regular else .hadamard).wire := by
  rcases he with rfl | rfl <;> rcases hf with rfl | rfl <;> simp [EdgeKind.wire, mixing_mul_mixing]

lemma bond_mul_bond (k l m : VertexKind) (he : e = .regular ∨ e = .hadamard) (hf : f = .regular ∨ f = .hadamard) :
    bond k e l * bond l f m = bond k (if e = f then .regular else .hadamard) m := by
  rw [bond, bond, bond, ← wire_mul_wire he hf]
  calc k.leg * e.wire * l.leg * (l.leg * f.wire * m.leg) = k.leg * e.wire * (l.leg * l.leg) * f.wire * m.leg := by noncomm_ring
    _ = k.leg * (e.wire * f.wire) * m.leg := by rw [leg_mul_leg]; noncomm_ring

namespace Sound

variable (hs : Sound g ps)

include hs

lemma kind : ∀ p ∈ ps, p.kind = .regular ∨ p.kind = .hadamard := fun p hp => by
  rw [(hs.fits p hp).kind_eq]
  split
  · exact .inl rfl
  · exact .inr rfl

/-- **The sum over a spider without a phase** is worth an edge between its neighbours. -/
theorem sum_eq (hg : g.Coherent) (hpl : g.Plain) (hp : p ∈ ps) {K : List Vertex} (hK : K.Nodup) (hv : p.vertex ∉ K)
    (hm : ∀ w, g.Joined p.vertex w → w ∈ K) {ω : Vertex → ℂ} (hω : ω p.vertex = 1) :
    sumOut p.vertex (star g.tie ω p.vertex K) = g.strand p.pair p.kind := by
  funext β
  have hf := hs.fits p hp
  obtain ⟨e, he⟩ := Option.isSome_iff_exists.1 hf.joined.1
  obtain ⟨f, hf'⟩ := Option.isSome_iff_exists.1 hf.joined.2
  have kind : p.kind = if e = f then .regular else .hadamard := by
    rw [hf.kind_eq, edgeKind_eq, edgeKind_eq, he, hf']
    rfl
  have ties : ∀ x, (K.map fun w => g.tie p.vertex w x (β w)).prod =
      bond (g.kindD p.first) e (g.kindD p.vertex) (β p.first) x * bond (g.kindD p.vertex) f (g.kindD p.second) x (β p.second) := by
    intro x
    rw [prod_tie hg hK hm, hf.neighbours]
    simp only [map_cons, map_nil, prod_cons, prod_nil, mul_one]
    rw [tie_of_link he, tie_of_link hf', bond_comm]
  rw [sumOut_star hv, ties, ties, hω, one_mul, strand, kind, Place.pair,
    ← bond_mul_bond (g.kindD p.first) (g.kindD p.vertex) (g.kindD p.second) (hpl _ _ _ he) (hpl _ _ _ hf'), Matrix.mul_apply,
    Fintype.sum_bool, add_comm]

lemma first_ne_second (hg : g.Coherent) (hp : p ∈ ps) : p.first ≠ p.second := by
  have hn := hg.nodup p.vertex
  rw [(hs.fits p hp).neighbours] at hn
  simpa using hn

lemma apart {t : EdgeTable} (hn : (Table.keys t).Nodup) (keys : ∀ f ∈ Table.keys t, ∃ p ∈ ps, f = p.pair) : t.Pairwise Entry.Apart := by
  refine pairwise_apart hn fun f hf hf' => ?_
  obtain ⟨p, hp, rfl⟩ := keys f hf
  obtain ⟨q, hq, h⟩ := keys _ hf'
  exact hs.forth p hp q hq h.symm

lemma worth (hg : g.Coherent) (hpl : g.Plain) (hp : p ∈ ps) {n : Int × Int} (proper : 0 ≤ n.1 ∧ 0 ≤ n.2)
    (lone : (∀ q ∈ ps, q.pair = p.pair → q = p) → Lone n) : g.Worth (p.pair, n) := by
  by_cases hk : (g.kindD p.first).isSpider = false ∨ (g.kindD p.second).isSpider = false
  · obtain ⟨none, unique⟩ := hs.single p hp hk
    refine worth_of_lone (hs.first_ne_second hg hp) ?_ (lone unique)
    rw [edgeKind_eq, Place.pair]
    cases hx : g.link p.first p.second with
    | none => rfl
    | some x => exact absurd (show (g.link p.first p.second).isSome by rw [hx]; rfl) none
  · rw [not_or, Bool.not_eq_false, Bool.not_eq_false] at hk
    exact worth_of_spiders hpl (hs.first_ne_second hg hp) hk.1 hk.2 proper

end Sound

lemma countEdge_returns (t : EdgeTable) (e : Edge) (hk : k = .regular ∨ k = .hadamard) : Returns (countEdge t e k) := by
  rcases hk with rfl | rfl <;> exact .ok _

lemma effect_returns (hs : Sound g ps) : Returns (effect ps) := by
  refine .bind (.foldlM (fun t p hp _ => ?_) (fun _ _ _ _ _ _ => trivial) trivial) (fun _ _ => trivial) fun _ _ => .pure _
  exact countEdge_returns t _ (hs.kind p hp)

lemma effect_balanced (hg : g.Coherent) (hpl : g.Plain) (hs : Sound g ps) (single : (ps.map (·.vertex)).Nodup) :
    Gives (effect ps) fun e => (e.sweep = false ∧ e.vertices = ps.map (·.vertex)) ∧ Balanced g g e := by
  have table : Gives (effect ps) fun e => (e.table.Proper ∧ (Table.keys e.table).Nodup ∧
      g.edgesOf e.table = (ps.map fun p => g.strand p.pair p.kind).prod) ∧ (∀ p ∈ ps, (∀ q ∈ ps, q.pair = p.pair → q = p) →
        ∃ n, Table.find? e.table p.pair = some n ∧ Lone n) ∧ e.sweep = false := by
    refine .bind ((foldlM_count_edges (g := g) ps hs.kind (by simp [Proper, values])
      (by simp [Table.keys])).and (foldlM_count_find ps hs.kind hs.nodup [])) fun t counted => ?_
    obtain ⟨⟨h1, h2, h3⟩, -, h4⟩ := counted
    refine .pure ⟨⟨h1, h2, ?_⟩, fun p hp hu => h4 p hp hu rfl, rfl⟩
    rw [h3]
    funext β
    simp [edgesOf]
  refine ((effect_spec ps).and table).mono ?_
  rintro e ⟨⟨hv, he, keys⟩, ⟨proper, nodup, edges⟩, lone, sweep⟩
  have stays : ∀ p ∈ ps, ∀ w, g.Joined p.vertex w → w ∉ e.vertices ∧ g.has w := by
    intro p hp w hj
    refine ⟨fun c => ?_, hg.vertex hj⟩
    obtain ⟨q, hq, rfl⟩ := mem_map.1 (hv ▸ c)
    exact hs.untied p hp q hq hj
  have vertices : ∀ v ∈ e.vertices, g.has v ∧ g.kindD v ≠ .boundary := fun v hm => by
    obtain ⟨p, hp, rfl⟩ := mem_map.1 (hv ▸ hm)
    exact ⟨(hs.fits p hp).joined.1.has, ne_boundary (hs.spider p hp)⟩
  refine ⟨⟨sweep, hv⟩, .refl g, hs.apart nodup keys, fun f hf => ?_, fun q hq => ?_, by simp [he], by simp [he], vertices, hv ▸ single,
    1, one_ne_zero, ?_⟩
  · obtain ⟨p, hp, rfl⟩ := keys f hf
    obtain ⟨h1, h2⟩ := (hs.fits p hp).joined
    exact ⟨(stays p hp _ h1).2, (stays p hp _ h2).2, (stays p hp _ h1).1, (stays p hp _ h2).1⟩
  · obtain ⟨p, hp, h⟩ := keys q.1 (mem_map_of_mem hq)
    have hq' : q = (p.pair, q.2) := Prod.ext h rfl
    rw [hq']
    refine hs.worth hg hpl hp (proper q.2 (mem_map_of_mem hq)) fun unique => ?_
    obtain ⟨n, hn, hl⟩ := lone p hp unique
    have same : q = (p.pair, n) := inj_on_of_nodup_map nodup hq (mem_of_find? hn) h
    rwa [same]
  · set K := g.others ([] ++ e.vertices) with hK
    have outside : ∀ v ∈ e.vertices, v ∉ K := fun v hm c => (mem_others.1 c).2 hm
    have untied : e.vertices.Pairwise fun v w => g.tie v w = 1 := pairwise_of_forall_mem_list fun v hm w hm' => by
      obtain ⟨p, hp, rfl⟩ := mem_map.1 (hv ▸ hm)
      obtain ⟨q, hq, rfl⟩ := mem_map.1 (hv ▸ hm')
      exact funext fun x => funext fun y => tie_of_not_joined (hs.untied p hp q hq) x y
    have sums : (e.vertices.map fun v => sumOut v (star g.tie g.turns v K)).prod = g.edgesOf e.table := by
      rw [edges, hv, map_map]
      refine congrArg _ (map_congr_left fun p hp => ?_)
      refine hs.sum_eq hg hpl hp (g.nodup_others _) (outside _ (hv ▸ mem_map_of_mem hp)) (fun w hj => ?_) ?_
      · exact mem_others.2 (stays p hp w hj).symm
      · rw [turns, if_pos (hs.spider p hp), hs.phase p hp]
    have none : g.edgesOf [] = 1 := funext fun β => by simp [edgesOf]
    rw [← stage_nil]
    refine stage_step (V := []) (S := []) (ρ := fun _ => 1) hg (hv ▸ single)
      (fun v hm => ⟨mem_inner.2 (vertices v hm), by simp⟩) (by simp) (by simp) ?_
    rw [one_smul, none, one_mul, ← hK, total_fringe (hv ▸ single) outside untied, sums]
    funext β
    simp [totalOver, fringe]

end Identity

/-! ## The places of a round -/

lemma placesOf_sublist {α μ : Type} [Ord α] {look : α → Option (Sighting Unit α μ)} {key : μ → α}
    (hk : ∀ a w, look a = some w → key w.place = a) (l : List α) (limit : Limit) : ((placesOf look l limit).map key).Sublist l := by
  suffices ∀ (limit : Limit) (gone : Std.TreeSet α) (found : List μ), ∃ ps,
      (scan (fun _ a => look a : Unit → α → Id (Option (Sighting Unit α μ))) l limit () gone found : Id _).2 = found.reverse ++ ps ∧
        (ps.map key).Sublist l by
    obtain ⟨ps, e, hs⟩ := this limit ∅ []
    rw [placesOf, e]
    exact hs
  induction l with
  | nil => exact fun _ _ found => ⟨[], (append_nil _).symm, .slnil⟩
  | cons a l ih =>
    intro limit gone found
    have skip := (ih limit gone found).imp fun _ h => And.intro h.1 (h.2.cons a)
    rw [scan]
    split
    · exact ⟨[], (append_nil _).symm, nil_sublist _⟩
    split
    · exact skip
    cases hl : look a with
    | none => exact skip
    | some w =>
      obtain ⟨ps, e, hs⟩ := ih (limit.map (· - 1)) (gone.insertMany w.touched) (w.place :: found)
      refine ⟨w.place :: ps, ?_, ?_⟩
      · rw [reverse_cons, append_assoc, singleton_append] at e
        exact e
      · rw [map_cons, hk a w hl]
        exact hs.cons_cons a

lemma placesOf_untied {μ : Type} {look : Vertex → Option (Sighting Unit Vertex μ)} {k : μ → Vertex} {l : List Vertex} {limit : Limit}
    (hg : g.Coherent) (loopless : ∀ v, ¬ g.Joined v v)
    (hk : ∀ v ∈ l, ∀ w, look v = some w → k w.place = v ∧ ∀ u, g.Joined v u → u ∈ w.touched) :
    ∀ p ∈ placesOf look l limit, ∀ q ∈ placesOf look l limit, ¬ g.Joined (k p) (k q) := by
  obtain ⟨ws, e, hws, hp⟩ := placesOf_spec look l limit
  have place := fun w hw => hk w.1 (hws w hw).1 w.2 (hws w hw).2
  have untied : ws.Pairwise fun w w' => ¬ g.Joined w.1 w'.1 := hp.imp_of_mem fun {a b} ha _ hn c => hn ((place a ha).2 _ c)
  have symm : Std.Symm fun w w' : Vertex × Sighting Unit Vertex μ => ¬ g.Joined w.1 w'.1 := ⟨fun _ _ h c => h (hg.back c)⟩
  rw [e]
  intro p hp q hq
  obtain ⟨w, hw, rfl⟩ := mem_map.1 hp
  obtain ⟨w', hw', rfl⟩ := mem_map.1 hq
  rw [(place w hw).1, (place w' hw').1]
  exact untied.forall_of_forall (fun w _ => loopless w.1) hw hw'

namespace Identity

variable {p q : Place} {ps : List Place}

/-- Two of the places join one pair of vertices in opposite orders. -/
def Opposed (ps : List Place) : Prop := ∃ p ∈ ps, ∃ q ∈ ps, q.pair = (p.second, p.first)

lemma Fits.eq (hp : Fits g p) (hq : Fits g q) (hv : p.vertex = q.vertex) : p = q := by
  have h := hp.place
  rw [hv, hq.place] at h
  exact (Option.some.inj h).symm

lemma Fits.phase_isZero (hp : Fits g p) : (g.phase p.vertex).isZero := by
  have h := hp.place
  unfold placeAt at h
  split at h
  · cases h
  · rename_i hz
    simpa using hz

lemma find_nodup (g : Diagram) (accept : Vertex → Bool) (limit : Limit) : ((find g accept limit).map (·.vertex)).Nodup := by
  refine (placesOf_sublist (fun v w hw => ?_) _ limit).nodup (g.nodup_vertices.filter accept)
  obtain ⟨p, hp, e⟩ := Option.map_eq_some_iff.1 hw
  rw [← e]
  exact (placeAt_eq_some hp).1

lemma find_untied (hg : g.Coherent) (loopless : ∀ v, ¬ g.Joined v v) (accept : Vertex → Bool) (limit : Limit) :
    ∀ p ∈ find g accept limit, ∀ q ∈ find g accept limit, ¬ g.Joined p.vertex q.vertex := by
  refine placesOf_untied hg loopless fun v _ w hw => ?_
  obtain ⟨p, hp, e⟩ := Option.map_eq_some_iff.1 hw
  obtain ⟨hv, hn⟩ := placeAt_eq_some hp
  rw [← e]
  exact ⟨hv, fun u hu => hn ▸ mem_nearby.2 hu⟩

lemma find_sound (hg : g.Neat) (accept : Vertex → Bool) (limit : Limit) (ho : ¬ Opposed (find g accept limit)) :
    Sound g (find g accept limit) := by
  have fits := find_spec g accept limit
  -- a neighbour on the boundary has no other neighbour
  have only : ∀ p ∈ find g accept limit, ∀ b, (b = p.first ∨ b = p.second) → (g.kindD b).isSpider = false →
      ∀ w, g.Joined b w → w = p.vertex := by
    intro p hp b hb hk w hw
    have hj : g.Joined b p.vertex := by
      rcases hb with rfl | rfl
      · exact hg.coherent.back (fits p hp).joined.1
      · exact hg.coherent.back (fits p hp).joined.2
    have boundary : g.kindD b = .boundary := by
      rcases hg.kinds b hj.has with c | c | c
      · exact c
      · rw [c] at hk; cases hk
      · rw [c] at hk; cases hk
    exact hg.single b w p.vertex boundary hw hj
  exact {
    nodup := .of_map _ (find_nodup g accept limit)
    fits := fits
    spider := fun p hp => by
      obtain ⟨h1, h2⟩ := (fits p hp).joined
      rcases hg.kinds p.vertex h1.has with c | c | c
      · have hn := hg.coherent.nodup p.vertex
        rw [(fits p hp).neighbours] at hn
        exact absurd (hg.single _ _ _ c h1 h2) (by simpa using hn)
      · rw [c]; rfl
      · rw [c]; rfl
    phase := fun p hp => by
      have hz : (g.phase p.vertex).toRat = 0 := by simpa [Exact.isZero] using (fits p hp).phase_isZero
      rw [hz, turn_zero]
    untied := find_untied hg.coherent hg.loopless accept limit
    forth := fun p hp q hq c => ho ⟨p, hp, q, hq, c⟩
    single := fun p hp hk => by
      rcases hk with hk | hk
      · refine ⟨fun hj => ?_, fun q hq hpq => ?_⟩
        · have := only p hp _ (.inl rfl) hk _ hj
          exact hg.loopless p.vertex (this ▸ (fits p hp).joined.2)
        have e : q.first = p.first := congrArg Prod.fst hpq
        have hj := hg.coherent.back (fits q hq).joined.1
        rw [e] at hj
        exact (fits q hq).eq (fits p hp) (only p hp _ (.inl rfl) hk _ hj)
      refine ⟨fun hj => ?_, fun q hq hpq => ?_⟩
      · have := only p hp _ (.inr rfl) hk _ (hg.coherent.back hj)
        exact hg.loopless p.vertex (this ▸ (fits p hp).joined.1)
      have e : q.second = p.second := congrArg Prod.snd hpq
      have hj := hg.coherent.back (fits q hq).joined.2
      rw [e] at hj
      exact (fits q hq).eq (fits p hp) (only p hp _ (.inr rfl) hk _ hj) }

end Identity

/-! ## Rounds -/

namespace Rule

/-- **A round of identity removal** returns and keeps the sum up to a scalar if no two places are opposed. -/
theorem identity_round_sound (hg : g.Neat) (hn : g.Noted) (accept : Vertex → Bool) (ho : ¬ Identity.Opposed (Identity.find g accept none)) :
    Returns ((identity accept).round g) ∧ Gives ((identity accept).round g) fun x => x.2 ≠ 0 →
      (x.1.Neat ∧ x.1.Noted) ∧ Proportional g x.1 ∧ x.1.vertices.length < g.vertices.length := by
  have sound := Identity.find_sound hg accept none ho
  have balanced := Identity.effect_balanced hg.coherent hg.plain sound (Identity.find_nodup g accept none)
  refine ⟨round_returns (.ok _) (.ok fun _ => ⟨?_, ?_⟩), ?_⟩
  · exact .bind (Identity.effect_returns sound) (.self _) fun _ _ => .pure _
  · exact .bind balanced fun e he => .pure (he.2.returns hg hn)
  · refine round_changes_of (Q := fun h => (h.Neat ∧ h.Noted) ∧ Proportional g h ∧ h.vertices.length < g.vertices.length)
      ((identity_round hg.coherent accept).mono fun x hx => hx.neat hg) (.ok fun hne => ?_)
    refine .bind balanced fun e he => .pure ?_
    obtain ⟨⟨sweep, hv⟩, hb⟩ := he
    refine ((hb.gives hg.coherent hg.plain hn).and (applyEffect_wrought hg.coherent hg.plain hb.apart)).mono ?_
    rintro h ⟨⟨noted, -, -, fewer⟩, k, d, hw, hd⟩ neat
    rw [sweep, if_neg Bool.false_ne_true] at hd
    exact ⟨⟨neat, noted⟩, hd ▸ hb.proportional hg.coherent hg.plain hw, fewer fun c => hne (map_eq_nil_iff.1 (hv ▸ c))⟩

/-- The diagrams that rounds of a rule lead to. -/
inductive Reaches {μ : Type} (r : Rule μ) (g : Diagram) : Diagram → Prop
  | refl : Reaches r g g
  | step {h k : Diagram} {n : Nat} : Reaches r g h → r.round h = .ok (k, n) → Reaches r g k

/-- **Identity removal** returns and keeps the linear map up to a scalar, if no round that it comes to has two places which join a pair
    of vertices in opposite orders. -/
theorem identity_exhaust_sound (hg : g.WellFormed) (hn : g.Noted) (hio : ∀ v, v ∈ g.inputs ∨ v ∈ g.outputs → v ∈ g.border)
    (accept : Vertex → Bool) (ho : ∀ h, Reaches (identity accept) g h → ¬ Identity.Opposed (Identity.find h accept none)) (verbose : Bool) :
    ∃ h rounds text, ((identity accept).exhaust verbose g).outcome = (.ok (h, rounds), text) ∧ (identity accept).Stuck h ∧
      h.inputs = g.inputs ∧ h.outputs = g.outputs ∧ ∀ n m, ∃ c : ℂ, c ≠ 0 ∧ h.linearMap n m = c • g.linearMap n m := by
  -- what every round keeps
  let P (h : Diagram) : Prop := (h.Neat ∧ h.Noted) ∧ Reaches (identity accept) g h ∧ Proportional g h
  let D (h k : Diagram) : Prop := k.vertices.length < h.vertices.length
  have descends : (identity accept).Descends P D := by
    rintro h ⟨⟨neat, noted⟩, reach, hp⟩
    refine ((identity_round_sound neat noted accept (ho h reach)).2.and (.self _)).mono ?_
    rintro ⟨k, n⟩ ⟨hk, e⟩ hx
    obtain ⟨fit, hr, fewer⟩ := hk hx
    exact ⟨⟨fit, .step reach e, hp.trans hr⟩, fewer⟩
  have start : P g := ⟨⟨hg.neat, hn⟩, .refl, .refl hg.coherent⟩
  have succeeds := exhaust_succeeds (fun h hh => (identity_round_sound hh.1.1 hh.1.2 accept (ho h hh.2.1)).1) descends (fun h => h) verbose start
  have settles : (identity accept).Settles := fun h => .ok fun _ => rfl
  obtain ⟨⟨h, rounds⟩, text, e, ⟨-, -, hp⟩, stuck, -⟩ := succeeds.exists_outcome
    (exhaustWithin_descends descends (fun h₁ h₂ => lt_trans h₂ h₁) settles stepBound verbose start)
  exact ⟨h, rounds, text, e, stuck, hp.ends.1, hp.ends.2, hp.linearMap_eq hg.coherent hio⟩

end Rule

end ZXCircuits
