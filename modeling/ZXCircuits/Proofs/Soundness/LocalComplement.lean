/-
  Local complementation keeps the linear map.

  The sum over the bit of a vertex with a quarter turn among Hadamard edges is worth a Hadamard edge between any two of its
  neighbours and a quarter turn back at each of them (`LocalComplement.sum_of_quarter`).  In a graph-like diagram (`Diagram.GraphLike`)
  the rule can therefore be repeated to its end (`Rule.localComplement_exhaust_sound`).
-/
import ZXCircuits.Proofs.Soundness.Identity
import ZXCircuits.Proofs.Strategy.NormalForm

namespace ZXCircuits

open List EdgeTable Real

variable {q : Edge × (Int × Int)}

namespace LocalComplement

open Diagram

variable {g h k : Diagram} {p : Place} {ps qs : List Place} {N : List Vertex} {β : Vertex → Bool} {ω : ℂ} {t : EdgeTable} {e : Edge}

/-! ## One vertex -/

section

variable (N : List Vertex) (β : Vertex → Bool)

lemma prod_mixing_false : (N.map fun w => mixing false (β w)).prod = ((sqrt 2 : ℂ)⁻¹) ^ N.length := by
  rw [prod_eq_pow_card _ (sqrt 2 : ℂ)⁻¹, length_map]
  intro x hx
  obtain ⟨w, -, rfl⟩ := mem_map.1 hx
  simp [mixing]

lemma prod_mixing_true : (N.map fun w => mixing true (β w)).prod = ((sqrt 2 : ℂ)⁻¹) ^ N.length * (N.map fun w => sign (β w)).prod := by
  induction N with
  | nil => simp
  | cons w N ih =>
    rw [map_cons, prod_cons, ih, mixing, Bool.true_and, length_cons, map_cons, prod_cons]
    ring

lemma prod_sign : (N.map fun w => sign (β w)).prod = 1 ∨ (N.map fun w => sign (β w)).prod = -1 := by
  induction N with
  | nil => exact .inl rfl
  | cons w N ih =>
    rw [map_cons, prod_cons]
    rcases ih with h | h <;> rw [h] <;> cases β w <;> simp

end

noncomputable def clique (N : List Vertex) (β : Vertex → Bool) : ℂ := ((pairs N).map fun e => mixing (β e.1) (β e.2)).prod

lemma clique_cons (v : Vertex) (N : List Vertex) (β : Vertex → Bool) :
    clique (v :: N) β = (N.map fun w => mixing (β v) (β w)).prod * clique N β := by
  have edges : ∀ w, mixing (β (edge v w).1) (β (edge v w).2) = mixing (β v) (β w) := by
    intro w
    unfold edge
    split
    · rfl
    · exact mixing_comm _ _
  rw [clique, pairs, map_append, prod_append, map_map]
  congr 2
  exact map_congr_left fun w _ => edges w

lemma clique_eq (hω : ω * ω = -1) (N : List Vertex) : ∃ c : ℂ, c ≠ 0 ∧ ∀ β : Vertex → Bool,
    (N.map fun w => if β w then -ω else 1).prod * clique N β = c * if (N.map fun w => sign (β w)).prod = 1 then 1 else -ω := by
  induction N with
  | nil => exact ⟨1, one_ne_zero, fun β => by simp [clique, pairs]⟩
  | cons v N ih =>
    obtain ⟨c, hc, ih⟩ := ih
    refine ⟨((sqrt 2 : ℂ)⁻¹) ^ N.length * c, mul_ne_zero (pow_ne_zero _ inv_sqrt_two_ne_zero) hc, fun β => ?_⟩
    rw [map_cons, prod_cons, clique_cons, map_cons, prod_cons]
    cases hv : β v with
    | false =>
      rw [prod_mixing_false]
      simp only [sign_false, one_mul, Bool.false_eq_true, if_false]
      linear_combination ((sqrt 2 : ℂ)⁻¹) ^ N.length * ih β
    | true =>
      have step := ih β
      rw [prod_mixing_true, if_pos rfl]
      rcases prod_sign N β with hs | hs
      · rw [hs, if_pos rfl] at step
        rw [hs, if_neg (by norm_num [sign])]
        linear_combination -ω * ((sqrt 2 : ℂ)⁻¹) ^ N.length * step
      · rw [hs, if_neg (by norm_num)] at step
        rw [hs, if_pos (by norm_num [sign])]
        linear_combination ω * ((sqrt 2 : ℂ)⁻¹) ^ N.length * step - c * ((sqrt 2 : ℂ)⁻¹) ^ N.length * hω

/-- **The sum over a bit with a quarter turn** among Hadamard edges. -/
theorem sum_of_quarter (hω : ω * ω = -1) (N : List Vertex) : ∃ c : ℂ, c ≠ 0 ∧ ∀ β : Vertex → Bool,
    (N.map fun w => if β w then -ω else 1).prod * clique N β =
      c * ((N.map fun w => mixing false (β w)).prod + ω * (N.map fun w => mixing true (β w)).prod) := by
  obtain ⟨c, hc, h⟩ := clique_eq hω N
  have one : 1 + ω ≠ 0 := by
    intro c
    have : ω = -1 := by linear_combination c
    rw [this] at hω
    norm_num at hω
  have root := pow_ne_zero N.length inv_sqrt_two_ne_zero
  refine ⟨c * (((sqrt 2 : ℂ)⁻¹) ^ N.length * (1 + ω))⁻¹, mul_ne_zero hc (inv_ne_zero (mul_ne_zero root one)), fun β => ?_⟩
  rw [h, prod_mixing_false, prod_mixing_true]
  rcases prod_sign N β with hs | hs
  · rw [hs, if_pos rfl]
    field_simp
  rw [hs, if_neg (by norm_num)]
  field_simp
  linear_combination -hω

/-! ## The table -/

def Bare (t : EdgeTable) (e : Edge) : Prop := ∀ n, Table.find? t e = some n → n.1 = 0

lemma Bare.of_mem (hb : Bare t q.1) (hn : (Table.keys t).Nodup) (hq : q ∈ t) : q.2.1 = 0 := by
  obtain ⟨n, hf⟩ := Option.isSome_iff_exists.1 ((Table.find?_isSome_iff t q.1).2 (mem_map_of_mem hq))
  have same : q = (q.1, n) := inj_on_of_nodup_map hn hq (Table.mem_of_find? hf) rfl
  rw [same]
  exact hb n hf

lemma addHadamard_eq (ht : Bare t e) : addHadamard t e = add t e 0 1 := by
  unfold addHadamard add
  cases hf : Table.find? t e with
  | none => rfl
  | some n =>
    obtain ⟨m, n⟩ := n
    obtain rfl : m = 0 := ht _ hf
    rfl

/-- **Hadamard edges that are counted** are worth themselves. -/
theorem foldl_addHadamard (es : List Edge) : ∀ {t : EdgeTable}, t.Proper → (Table.keys t).Nodup → (∀ e ∈ es, Bare t e) →
    (es.foldl addHadamard t).Proper ∧ (Table.keys (es.foldl addHadamard t)).Nodup ∧ (∀ f, Bare t f → Bare (es.foldl addHadamard t) f) ∧
      (∀ f, f ∈ Table.keys (es.foldl addHadamard t) → f ∈ es ∨ f ∈ Table.keys t) ∧
      g.edgesOf (es.foldl addHadamard t) = (es.map fun e => g.strand e .hadamard).prod * g.edgesOf t := by
  induction es with
  | nil => exact fun ht hn _ => ⟨ht, hn, fun _ => id, fun _ => .inr, by simp⟩
  | cons e es ih =>
    intro t ht hn hb
    have eq := addHadamard_eq (hb e (by simp))
    have bare : ∀ f, Bare t f → Bare (addHadamard t e) f := by
      intro f hf n he
      obtain ⟨-, rfl⟩ | he := Table.find?_insert_eq_some t he
      · rfl
      · exact hf n he
    obtain ⟨h1, h2, h3, h4, h5⟩ := ih (eq ▸ ht.add e (by decide) (by decide)) (eq ▸ nodup_add hn e 0 1)
      fun f hf => bare f (hb f (by simp [hf]))
    refine ⟨h1, h2, fun f hf => h3 f (bare f hf), fun f hf => ?_, ?_⟩
    · rcases h4 f hf with hf | hf
      · exact .inl (by simp [hf])
      · rw [eq, mem_keys_add] at hf
        exact hf.imp (by rintro rfl; simp) id
    have one : g.edgesOf (addHadamard t e) = g.strand e .hadamard * g.edgesOf t := by
      funext β
      have := edgesOf_insert (g := g) ht (e := e) (m := 0) (n := 1) β
      rw [eq]
      simpa using this
    rw [foldl_cons, h5, one, map_cons, prod_cons]
    ring

/-! ## The rule -/

lemma turn_spread (g : Diagram) {p : Place} (hn : p.neighbours.Nodup) (v : Vertex) : turn ((spread g p).phase v).toRat =
    turn (g.phase v).toRat * if v ∈ p.neighbours then (turn (g.phase p.vertex).toRat)⁻¹ else 1 := by
  unfold spread
  split
  · rw [foldl_addToPhase_once g hn ‹_›, turn_modTwo_toRat, Exact.toRat_add, turn_add, Exact.toRat_neg, turn_neg]
  · rw [(foldl_addToPhase_spec g _ _).2.1 v ‹_›, mul_one]

/-- Places at spiders with Hadamard edges only, none of them next to another. -/
structure Sound (g : Diagram) (ps : List Place) : Prop where
  nodup : (ps.map (·.vertex)).Nodup
  fits : ∀ p ∈ ps, Fits g p
  spider : ∀ p ∈ ps, (g.kindD p.vertex).isSpider
  hadamard : ∀ p ∈ ps, ∀ w ∈ p.neighbours, g.link p.vertex w = some .hadamard
  apart : ∀ p ∈ ps, ∀ q ∈ ps, q.vertex ∉ p.neighbours

lemma Fits.turn (hp : Fits g p) : turn (g.phase p.vertex).toRat * turn (g.phase p.vertex).toRat = -1 := by
  rw [← turn_add]
  rcases hp.phase with h | h <;> rw [h]
  · norm_num
  · have three : (3 / 2 + 3 / 2 : ℚ) = 1 + 2 * ((1 : ℤ) : ℚ) := by norm_num
    rw [three, turn_add, turn_two_mul_int, turn_one, mul_one]

lemma Fits.mem_neighbours (hp : Fits g p) {w : Vertex} : w ∈ p.neighbours ↔ g.Joined p.vertex w := by
  rw [hp.neighbours, mem_nearby]

namespace Sound

variable (hs : Sound g ps)

include hs

lemma nodup_neighbours (hg : g.Coherent) (hp : p ∈ ps) : p.neighbours.Nodup := (hs.fits p hp).neighbours ▸ hg.nodup _

lemma tail (hps : ps = p :: qs) : Sound g qs := by
  subst hps
  exact ⟨(nodup_cons.1 hs.nodup).2, fun q hq => hs.fits q (by simp [hq]), fun q hq => hs.spider q (by simp [hq]),
    fun q hq => hs.hadamard q (by simp [hq]), fun q hq r hr => hs.apart q (by simp [hq]) r (by simp [hr])⟩

variable (hg : g.Coherent) (hp : p ∈ ps)
include hg hp

lemma prod_pairs (β : Vertex → Bool) : ((pairs p.neighbours).map fun e => g.strand e .hadamard).prod β = clique p.neighbours β := by
  rw [Pi.list_prod_apply, map_map]
  refine congrArg _ (map_congr_left fun e he => ?_)
  obtain ⟨h1, h2, -⟩ := mem_pairs (hs.nodup_neighbours hg hp) he
  show g.strand e .hadamard β = _
  rw [strand, (hs.fits p hp).kind _ h1, (hs.fits p hp).kind _ h2, (bond_same (hs.spider p hp)).2]

/-- **One place** is worth its clique, and a quarter turn back at each neighbour. -/
theorem stage_eq (r : Rephased g k) (hk : k.phase p.vertex = g.phase p.vertex)
    (ht : t.Proper) (hn : (Table.keys t).Nodup) (bare : ∀ e, Bare t e) (keys : ∀ e ∈ Table.keys t, e.1 ≠ p.vertex ∧ e.2 ≠ p.vertex)
    {V : List Vertex} (hV : p.vertex ∉ V ∧ ∀ w ∈ p.neighbours, w ∉ V) : ∃ c : ℂ, c ≠ 0 ∧
      g.stage ((pairs p.neighbours).foldl addHadamard t) (spread k p).turns (V ++ [p.vertex]) = c • g.stage t k.turns V := by
  have hf := hs.fits p hp
  have nodup := hs.nodup_neighbours hg hp
  obtain ⟨c, hc, sum⟩ := sum_of_quarter hf.turn p.neighbours
  have inverse : (turn (g.phase p.vertex).toRat)⁻¹ = -turn (g.phase p.vertex).toRat := by
    refine inv_eq_of_mul_eq_one_left ?_
    linear_combination -hf.turn
  have inner : p.vertex ∈ g.inner := mem_inner.2 ⟨hf.vertex, ne_boundary (hs.spider p hp)⟩
  have inside : ∀ w ∈ p.neighbours, w ∈ g.others (V ++ [p.vertex]) := fun w hw => by
    have hne : w ≠ p.vertex := fun c => hs.apart p hp p hp (c ▸ hw)
    rw [mem_others, mem_append, mem_singleton, not_or]
    exact ⟨(hg.back (hf.mem_neighbours.1 hw)).has, hV.2 w hw, hne⟩
  refine ⟨c, hc, stage_step (B := [p.vertex]) (S := [])
    (ρ := fun v => if v ∈ p.neighbours then (turn (g.phase p.vertex).toRat)⁻¹ else 1) hg (by simp) ?_ (by simp) (fun v _ => ?_) ?_⟩
  · intro v hv
    rw [mem_singleton.1 hv]
    exact ⟨inner, hV.1⟩
  · have kind : (spread k p).kindD v = g.kindD v := ((foldl_addToPhase_spec k p.neighbours _).1.kindD v).trans (r.kindD v)
    rw [turns, turns, kind, r.kindD]
    split
    · rw [turn_spread k nodup, hk]
    rename_i hv
    refine (if_neg fun c => hv ?_).symm.trans (one_mul _).symm
    rw [hf.kind v c]
    exact hs.spider p hp
  · have free : FreeOf [p.vertex] (g.edgesOf t) := edgesOf_free fun e he => by simpa using keys e he
    have outside : p.vertex ∉ g.others (V ++ [p.vertex]) := fun c => (mem_others.1 c).2 (by simp)
    have factor : k.turns p.vertex = turn (g.phase p.vertex).toRat := by rw [turns, r.kindD, if_pos (hs.spider p hp), hk]
    have ties : ∀ (x : Bool) (β : Vertex → Bool), ((g.others (V ++ [p.vertex])).map fun w => g.tie p.vertex w x (β w)).prod =
        (p.neighbours.map fun w => mixing x (β w)).prod := by
      intro x β
      rw [prod_tie hg (g.nodup_others _) fun w hw => inside w (hf.mem_neighbours.2 hw), ← hf.neighbours]
      refine congrArg _ (map_congr_left fun w hw => ?_)
      rw [tie_of_link (hs.hadamard p hp w hw), hf.kind w hw, (bond_same (hs.spider p hp)).2]
    have shares : ∀ β : Vertex → Bool, ((g.others (V ++ [p.vertex])).map fun v => if β v then
        if v ∈ p.neighbours then (turn (g.phase p.vertex).toRat)⁻¹ else 1 else 1).prod =
          (p.neighbours.map fun w => if β w then -turn (g.phase p.vertex).toRat else 1).prod := by
      intro β
      rw [prod_of_subset (g.nodup_others _) nodup inside fun v _ hv => by rw [if_neg hv, ite_self]]
      exact congrArg _ (map_congr_left fun w hw => by rw [if_pos hw, inverse])
    rw [(foldl_addHadamard _ ht hn fun e _ => bare e).2.2.2.2]
    funext β
    simp only [total_nil, total_cons, fringe, nil_append, mul_one, Pi.mul_apply, Pi.smul_apply]
    rw [sumOut_mul (free p.vertex (by simp)), Pi.mul_apply, sumOut_star outside, ties, ties, factor, shares, hs.prod_pairs hg hp]
    linear_combination g.edgesOf t β * sum β

end Sound

lemma foldl_stage (hg : g.Coherent) (ps : List Place) : ∀ {k : Diagram} {t : EdgeTable} {V : List Vertex}, Sound g ps → Rephased g k →
    (∀ p ∈ ps, k.phase p.vertex = g.phase p.vertex) → t.Proper → (Table.keys t).Nodup → (∀ e, Bare t e) →
    (∀ p ∈ ps, ∀ e ∈ Table.keys t, e.1 ≠ p.vertex ∧ e.2 ≠ p.vertex) → (∀ p ∈ ps, p.vertex ∉ V ∧ ∀ w ∈ p.neighbours, w ∉ V) →
    let t' := (ps.map (·.neighbours)).foldl (fun t ns => (pairs ns).foldl addHadamard t) t
    t'.Proper ∧ (Table.keys t').Nodup ∧ (∀ e, Bare t' e) ∧
      ∃ c : ℂ, c ≠ 0 ∧ g.stage t' (ps.foldl spread k).turns (V ++ ps.map (·.vertex)) = c • g.stage t k.turns V := by
  induction ps with
  | nil => exact fun _ _ _ ht hn hb _ _ => ⟨ht, hn, hb, 1, one_ne_zero, by simp⟩
  | cons p ps ih =>
    intro k t V hs r hk ht hn hb keys hV
    obtain ⟨c, hc, first⟩ := hs.stage_eq hg (by simp) r (hk p (by simp)) ht hn hb (keys p (by simp)) (hV p (by simp))
    obtain ⟨h1, h2, h3, h4, -⟩ := foldl_addHadamard (g := g) (pairs p.neighbours) ht hn fun e _ => hb e
    have turned : Rephased g (spread k p) := r.trans (foldl_addToPhase_spec k p.neighbours _).1
    have phases : ∀ q ∈ ps, (spread k p).phase q.vertex = g.phase q.vertex := by
      intro q hq
      rw [← hk q (by simp [hq])]
      exact (foldl_addToPhase_spec k p.neighbours _).2.1 _ (hs.apart p (by simp) q (by simp [hq]))
    have keys' : ∀ q ∈ ps, ∀ e ∈ Table.keys ((pairs p.neighbours).foldl addHadamard t), e.1 ≠ q.vertex ∧ e.2 ≠ q.vertex := by
      intro q hq e he
      rcases h4 e he with he | he
      · obtain ⟨m1, m2, -⟩ := mem_pairs (hs.nodup_neighbours hg (by simp)) he
        have away := hs.apart p (by simp) q (by simp [hq])
        exact ⟨fun c => away (c ▸ m1), fun c => away (c ▸ m2)⟩
      · exact keys q (by simp [hq]) e he
    have stays : ∀ q ∈ ps, q.vertex ∉ V ++ [p.vertex] ∧ ∀ w ∈ q.neighbours, w ∉ V ++ [p.vertex] := by
      intro q hq
      simp only [mem_append, mem_singleton, not_or]
      obtain ⟨h1, h2⟩ := hV q (by simp [hq])
      refine ⟨⟨h1, fun c => ?_⟩, fun w hw => ⟨h2 w hw, fun c => ?_⟩⟩
      · exact (nodup_cons.1 hs.nodup).1 (mem_map.2 ⟨q, hq, c⟩)
      · exact hs.apart q (by simp [hq]) p (by simp) (c ▸ hw)
    obtain ⟨rest1, rest2, rest3, c', hc', rest⟩ := ih (hs.tail rfl) turned phases h1 h2 (fun e => h3 e (hb e)) keys' stays
    refine ⟨rest1, rest2, rest3, c' * c, mul_ne_zero hc' hc, ?_⟩
    rw [append_assoc, singleton_append] at rest
    rw [map_cons, map_cons, foldl_cons, foldl_cons, rest, first, smul_smul]

lemma effect_balanced (hg : g.Coherent) (hpl : g.Plain) (hs : Sound g ps) : Balanced g (effect g ps).1 (effect g ps).2 ∧
    ∀ q ∈ (effect g ps).2.table, q.2.1 = 0 := by
  obtain ⟨spread, -, -, keys⟩ := effect_spec hg hs.fits
  obtain ⟨proper, nodup, bare, c, hc, sums⟩ := foldl_stage hg ps (V := []) hs (.refl g) (fun _ _ => rfl) (t := [])
    (by simp [Proper, Table.values]) (by simp [Table.keys]) (fun _ _ c => by cases c) (by simp [Table.keys]) (by simp)
  have there : ∀ p ∈ ps, ∀ w ∈ p.neighbours, g.has w ∧ w ∉ ps.map (·.vertex) := by
    intro p hp w hw
    refine ⟨(hg.back ((hs.fits p hp).mem_neighbours.1 hw)).has, fun c => ?_⟩
    obtain ⟨q, hq, rfl⟩ := mem_map.1 c
    exact hs.apart p hp q hq hw
  have ordered : ∀ e ∈ Table.keys (effect g ps).2.table, e.1 < e.2 := by
    intro e he
    obtain ⟨N, hN, he⟩ := mem_keys_table he
    obtain ⟨p, hp, rfl⟩ := mem_map.1 hN
    exact (mem_pairs (hs.nodup_neighbours hg hp) he).2.2
  refine ⟨?_, fun q hq => (bare q.1).of_mem nodup hq⟩
  exact {
    rephased := spread.rephased
    apart := pairwise_apart nodup fun e he he' => lt_asymm (ordered e he) (ordered _ he')
    ends := fun f hf => by
      obtain ⟨-, p, hp, h1, h2⟩ := keys f hf
      exact ⟨(there p hp _ h1).1, (there p hp _ h2).1, (there p hp _ h1).2, (there p hp _ h2).2⟩
    worth := fun q hq => by
      obtain ⟨hne, p, hp, h1, h2⟩ := keys q.1 (mem_map_of_mem hq)
      have spider : ∀ w ∈ p.neighbours, (g.kindD w).isSpider := fun w hw => by
        rw [(hs.fits p hp).kind w hw]
        exact hs.spider p hp
      exact worth_of_spiders hpl hne (spider _ h1) (spider _ h2) (proper q.2 (mem_map_of_mem hq))
    edges := fun f hf => by cases hf
    single := .nil
    vertices := fun v hv => by
      obtain ⟨p, hp, rfl⟩ := mem_map.1 hv
      exact ⟨(hs.fits p hp).vertex, ne_boundary (hs.spider p hp)⟩
    nodup := hs.nodup
    sums := ⟨c, hc, sums.trans (by rw [stage_nil])⟩ }

end LocalComplement

/-! ## Graph-like diagrams -/

namespace Diagram

variable {g h : Diagram} {v w : Vertex} {b : Vertex}

/-- A well-formed diagram all spiders of which are of the first colour, with Hadamard edges between them. -/
structure GraphLike (g : Diagram) : Prop extends WellFormed g where
  green : ∀ v ∈ g.vertices, g.kindD v ≠ .x
  hadamard : ∀ v ∈ g.vertices, ∀ w ∈ g.nearby v, g.kindD v = .z → g.kindD w = .z → g.edgeKind (v, w) = .hadamard

lemma GraphLike.kind (hg : g.GraphLike) {v : Vertex} (hv : g.has v) : g.kindD v = .boundary ∨ g.kindD v = .z :=
  (hg.neat.kinds v hv).imp_right fun c => c.resolve_right (hg.green v (mem_vertices.2 hv))

section

variable (hg : g.GraphLike) (hv : g.kindD v = .z) (hw : g.kindD w = .z)
include hg hv hw

lemma GraphLike.link (hj : g.Joined v w) : g.link v w = some .hadamard := by
  have h := hg.hadamard v (mem_vertices.2 hj.has) w (mem_nearby.2 hj) hv hw
  obtain ⟨k, hk⟩ := Option.isSome_iff_exists.1 hj
  rw [edgeKind_eq, hk] at h
  rw [hk, ← h]
  rfl

lemma GraphLike.edgeKind : g.edgeKind (v, w) ≠ .regular := by
  intro c
  have hj : g.Joined v w := joined_of_edgeKind (e := (v, w)) (by rw [c]; decide)
  rw [edgeKind_eq, hg.link hv hw hj] at c
  cases c

end

lemma Neat.graphLike (hg : g.Neat) (green : ∀ v, g.has v → g.kindD v ≠ .x)
    (hadamard : ∀ v w, g.kindD v = .z → g.kindD w = .z → g.Joined v w → g.link v w = some .hadamard)
    (tied : ∀ b ∈ g.border, ∃ w, g.Joined b w) (still : ∀ b ∈ g.border, turn (g.phase b).toRat = 1) : g.GraphLike where
  coherent := hg.coherent
  edges v _ w hw := by
    have hj := mem_nearby.1 hw
    refine ⟨fun c => hg.loopless v (by rw [c] at hj; exact hj), ?_⟩
    obtain ⟨k, hk⟩ := Option.isSome_iff_exists.1 hj
    rw [edgeKind_eq, hk]
    exact hg.plain v w k hk
  kinds v hv := hg.kinds v (mem_vertices.1 hv)
  phases v hv := hg.reduced v (mem_vertices.1 hv)
  boundary v hv hk := by
    have hb : v ∈ g.border := mem_border.2 ⟨mem_vertices.1 hv, hk⟩
    obtain ⟨w, hw⟩ := tied v hb
    refine ⟨?_, ?_⟩
    · rw [hg.coherent.nearby_of_hangs fun y => ⟨fun hy => hg.single v y w hk hy hw, fun c => c ▸ hw⟩]
      rfl
    obtain ⟨n, hn⟩ := hg.whole v (mem_vertices.1 hv) hk
    obtain ⟨h0, h2⟩ := hg.reduced v (mem_vertices.1 hv)
    rw [hn] at h0 h2
    have h0 : 0 ≤ n := by exact_mod_cast h0
    have h2 : n < 2 := by exact_mod_cast h2
    obtain rfl | rfl : n = 0 ∨ n = 1 := by omega
    · exact hn.trans Int.cast_zero
    have := still v hb
    rw [hn, Int.cast_one, turn_one] at this
    norm_num at this
  green v hv := green v (mem_vertices.1 hv)
  hadamard v _ w hw hkv hkw := by
    rw [edgeKind_eq, hadamard v w hkv hkw (mem_nearby.1 hw)]
    rfl

lemma GraphLike.still (hg : g.GraphLike) (hb : b ∈ g.border) : turn (g.phase b).toRat = 1 := by
  obtain ⟨hv, hk⟩ := mem_border.1 hb
  rw [(hg.boundary b (mem_vertices.2 hv) hk).2, turn_zero]

lemma toLink_mergedAt (hk : g.kindD q.1.1 = g.kindD q.1.2) (hn : q.2.1 = 0) (he : g.edgeKind q.1 ≠ .regular) :
    toLink (g.mergedAt q).1 = none ∨ toLink (g.mergedAt q).1 = some .hadamard := by
  rw [mergedAt, hk, if_neg he, hn, mergedEdge]
  cases hb : (if g.edgeKind q.1 = .hadamard then q.2.2 + 1 else q.2.2) % 2 != 0 <;> simp [toLink]

lemma Wrought.turn_border {k0 k d : Diagram} {e : Effect} (hw : Wrought k0 e k d) (r : Rephased g k0) (worth : ∀ q ∈ e.table, g.Worth q)
    (hk : g.kindD b = .boundary) (hb : b ∉ e.vertices) : turn (d.phase b).toRat = turn (k0.phase b).toRat := by
  rw [hw.phase b hb, hw.tabled.turned, halves_eq_one (by rw [r.kindD, hk]; decide) fun q hq c => ?_, mul_one]
  rw [r.kindD]
  refine (worth q hq).half ?_
  rw [← c, mergedAt, mergedAt, r.kindD, r.kindD, r.edgeKind]

end Diagram

namespace LocalComplement

open Diagram

variable {g h : Diagram} {ps : List Place}

lemma find_sound (hg : g.GraphLike) (accept : Vertex → Bool) : Sound g (find g accept none false) := by
  have fits := find_spec g accept false
  have seen : ∀ v s, look g false v = some s → s.place.vertex = v ∧ s.touched = s.place.neighbours := by
    intro v s hs
    obtain ⟨p, hp, e⟩ := Option.map_eq_some_iff.1 hs
    unfold placeAt at hp
    dsimp only at hp
    split at hp
    · rw [← e, ← Option.some.inj hp]
      exact ⟨rfl, rfl⟩
    · cases hp
  have green : ∀ p ∈ find g accept none false, g.kindD p.vertex = .z := by
    intro p hp
    refine (hg.kind (fits p hp).vertex).resolve_left fun c => ?_
    have zero := (hg.boundary _ (mem_vertices.2 (fits p hp).vertex) c).2
    rcases (fits p hp).phase with h | h <;> rw [zero] at h <;> norm_num at h
  exact {
    nodup := by
      exact (placesOf_sublist (fun v s hs => (seen v s hs).1) _ none).nodup (g.nodup_vertices.filter accept)
    fits := fits
    spider := fun p hp => by rw [green p hp]; rfl
    hadamard := fun p hp w hw => by
      refine hg.link (green p hp) ?_ ((fits p hp).mem_neighbours.1 hw)
      rw [(fits p hp).kind w hw, green p hp]
    apart := by
      intro p hp q hq c
      rw [(fits p hp).mem_neighbours] at c
      refine placesOf_untied hg.coherent hg.neat.loopless (fun v hv s hs => ⟨(seen v s hs).1, fun u hu => ?_⟩) p hp q hq c
      obtain ⟨r, hr, e⟩ := Option.map_eq_some_iff.1 hs
      have fit := placeAt_eq_some (mem_vertexCandidates.1 hv).1 hr
      have here : r.vertex = v := by rw [← (seen v s hs).1, ← e]
      rw [← e, fit.mem_neighbours, here]
      exact hu }

lemma graphLike_of_wrought (hg : g.GraphLike) (hs : Sound g ps) {k d : Diagram} (hd : d.Neat)
    (hw : Wrought (effect g ps).1 (effect g ps).2 k d) : d.GraphLike := by
  obtain ⟨spread, -, -, keys⟩ := effect_spec hg.coherent hs.fits
  obtain ⟨balanced, bare⟩ := effect_balanced hg.coherent hg.neat.plain hs
  have r := spread.rephased
  have stays : ∀ v, d.has v → v ∉ (effect g ps).2.vertices := fun v hv => ((hw.vertex v).1 hv).2
  have kind : ∀ v, d.has v → d.kindD v = g.kindD v := fun v hv => (hw.kind v (stays v hv)).trans (r.kindD v)
  have old : ∀ v, d.has v → g.has v := fun v hv => r.has v ▸ ((hw.vertex v).1 hv).1
  have link : ∀ v w, d.has v → d.has w → ¬ Spanned (Table.keys (effect g ps).2.table) v w → d.link v w = g.link v w := by
    intro v w hv hw' hn
    have none : ¬ Spanned (effect g ps).2.edges v w := fun c => by
      obtain ⟨f, hf, -⟩ := c
      cases hf
    rw [hw.link v w (stays v hv) (stays w hw'), if_neg none, hw.tabled.merged.link v w hn, r.link]
  have inner : ∀ p ∈ ps, ∀ n ∈ p.neighbours, g.kindD n ≠ .boundary := fun p hp n hn => by
    rw [(hs.fits p hp).kind n hn]
    exact ne_boundary (hs.spider p hp)
  have free : ∀ b w, g.kindD b = .boundary → ¬ Spanned (Table.keys (effect g ps).2.table) b w := by
    rintro b w hb ⟨f, hf, hbw⟩
    obtain ⟨-, p, hp, h1, h2⟩ := keys f hf
    rcases hbw with ⟨rfl, -⟩ | ⟨rfl, -⟩
    · exact inner p hp _ h1 hb
    · exact inner p hp _ h2 hb
  refine hd.graphLike (fun v hv => kind v hv ▸ hg.green v (mem_vertices.2 (old v hv))) (fun v w hkv hkw hj => ?_) (fun b hb => ?_)
    fun b hb => ?_
  · have hv := hj.has
    have hw' := hd.coherent.vertex hj
    rw [kind v hv] at hkv
    rw [kind w hw'] at hkw
    by_cases hm : Spanned (Table.keys (effect g ps).2.table) v w
    · obtain ⟨f, hf, hb⟩ := hm
      obtain ⟨q, hq, rfl⟩ := mem_map.1 hf
      have made : d.link v w = toLink ((effect g ps).1.mergedAt q).1 := by
        rw [hw.link v w (stays v hv) (stays w hw'), if_neg (by rintro ⟨f, hf, -⟩; cases hf), hw.tabled.made q hq v w hb]
      have both : g.kindD q.1.1 = .z ∧ g.kindD q.1.2 = .z := by
        rcases hb with ⟨rfl, rfl⟩ | ⟨rfl, rfl⟩
        · exact ⟨hkv, hkw⟩
        · exact ⟨hkw, hkv⟩
      rcases toLink_mergedAt (g := (effect g ps).1) (by rw [r.kindD, r.kindD, both.1, both.2])
        (bare q hq) (by rw [r.edgeKind]; exact hg.edgeKind both.1 both.2) with c | c
      · rw [Diagram.Joined, made, c] at hj
        cases hj
      · rw [made, c]
    · rw [Diagram.Joined, link v w hv hw' hm] at hj
      rw [link v w hv hw' hm]
      exact hg.link hkv hkw hj
  · obtain ⟨hv, hk⟩ := mem_border.1 hb
    rw [kind b hv] at hk
    obtain ⟨w, hw'⟩ := hg.tied (mem_border.2 ⟨old b hv, hk⟩)
    have hj := hw'.joined
    have there : d.has w := by
      refine (hw.vertex w).2 ⟨(r.has w).trans (hg.coherent.vertex hj), fun c => ?_⟩
      obtain ⟨p, hp, rfl⟩ := mem_map.1 c
      exact inner p hp b ((hs.fits p hp).mem_neighbours.2 (hg.coherent.back hj)) hk
    exact ⟨w, by rw [Diagram.Joined, link b w hv there (free b w hk)]; exact hj⟩
  · obtain ⟨hv, hk⟩ := mem_border.1 hb
    rw [kind b hv] at hk
    rw [hw.turn_border r balanced.worth hk (stays b hv), spread.away b fun p hp c => inner p hp b c hk]
    exact hg.still (mem_border.2 ⟨old b hv, hk⟩)

end LocalComplement

namespace Rule

open Diagram

variable {g : Diagram}

/-- **A round of local complementation** returns, keeps the sum and leaves a graph-like diagram with fewer vertices. -/
theorem localComplement_round_sound (hg : g.GraphLike) (hn : g.Noted) (accept : Vertex → Bool) :
    Returns ((localComplement accept).round g) ∧ Gives ((localComplement accept).round g) fun x => x.2 ≠ 0 →
      (x.1.GraphLike ∧ x.1.Noted) ∧ Scaled g x.1 ∧ x.1.vertices.length < g.vertices.length := by
  have sound := LocalComplement.find_sound hg accept
  obtain ⟨balanced, -⟩ := LocalComplement.effect_balanced hg.coherent hg.neat.plain sound
  refine ⟨round_returns (.ok _) (.ok fun _ => ⟨.ok _, .ok (balanced.returns hg.neat hn)⟩), ?_⟩
  refine round_changes_of (Q := fun h => (h.GraphLike ∧ h.Noted) ∧ Scaled g h ∧ h.vertices.length < g.vertices.length)
    ((localComplement_round hg.coherent accept).mono fun x hx => hx.neat hg.neat) (.ok fun hne => .ok ?_)
  refine ((balanced.gives hg.coherent hg.neat.plain hn).and (applyEffect_wrought (balanced.rephased.coherent hg.coherent)
    (balanced.plain hg.neat.plain) balanced.apart)).mono ?_
  rintro h ⟨⟨noted, -, scaled, fewer⟩, k, d, hw, rfl⟩ hd
  have like := LocalComplement.graphLike_of_wrought hg sound hd hw
  refine ⟨⟨like, noted⟩, scaled fun b hb => ?_, fewer fun c => hne (map_eq_nil_iff.1 c)⟩
  exact (mem_border.1 (((balanced.proportional hg.coherent hg.neat.plain hw).border b).2 hb)).1

/-- **Local complementation is sound**: in a graph-like diagram it can be repeated to its end, whatever vertices are accepted.  The linear
    map stays the same up to a scalar unless it is zero, the diagram stays graph-like, and no accepted spider with a quarter turn is left
    among spiders only. -/
theorem localComplement_exhaust_sound (hg : g.GraphLike) (hn : g.Noted) (hio : ∀ v, v ∈ g.inputs ∨ v ∈ g.outputs → v ∈ g.border)
    (accept : Vertex → Bool) (verbose : Bool) :
    ∃ h rounds text, ((localComplement accept).exhaust verbose g).outcome = (.ok (h, rounds), text) ∧ h.GraphLike ∧
      (∀ v, h.Spider v → accept v = true → (∀ w ∈ h.nearby v, h.Spider w) →
        (h.phase v).toRat ≠ 1 / 2 ∧ (h.phase v).toRat ≠ 3 / 2) ∧ h.inputs = g.inputs ∧ h.outputs = g.outputs ∧
      ∀ n m, g.linearMap n m ≠ 0 → ∃ c : ℂ, c ≠ 0 ∧ h.linearMap n m = c • g.linearMap n m := by
  obtain ⟨h, rounds, text, e, ⟨like, -⟩, stuck, scaled⟩ := exhaust_scaled (P := fun h => h.GraphLike ∧ h.Noted)
    (m := fun h => h.vertices.length) (localComplement_settles accept) (fun h hh => (localComplement_round_sound hh.1 hh.2 accept).1)
    (fun h hh => (localComplement_round_sound hh.1 hh.2 accept).2) hg.coherent ⟨hg, hn⟩ (length_vertices_lt_stepBound g) verbose
  have green : ∀ v, h.Spider v → h.kindD v = .z := fun v hv => hv.2.resolve_right (like.green v (mem_vertices.2 hv.1))
  refine ⟨h, rounds, text, e, like, fun v hv ha hw => ?_, scaled.ends.1, scaled.ends.2, fun n m => scaled.linearMap_eq hg.coherent hio⟩
  refine LocalComplement.find_nil (congrArg Prod.snd (Except.ok.inj stuck)) hv.1 ha fun w hm => ?_
  rw [green w (hw w hm), green v hv]

/-- A quarter turn between two spiders that are next to an output each. -/
def quarterFan : Diagram where
  adjacency := .ofList ([(0, [(1, .regular)]), (1, [(0, .regular), (2, .hadamard)]), (2, [(1, .hadamard), (3, .hadamard)]),
    (3, [(2, .hadamard), (4, .regular)]), (4, [(3, .regular)])] : List (Vertex × Table Vertex EdgeKind))
  kinds := .ofList ([(0, .boundary), (1, .z), (2, .z), (3, .z), (4, .boundary)] : List (Vertex × VertexKind))
  phases := .ofList ([(0, .int 0), (1, .int 0), (2, .ratio (1 / 2)), (3, .int 0), (4, .int 0)] : List (Vertex × Exact))
  next := 5
  edgeCount := 4
  outputs := [0, 4]

/-- The quarter turn goes, its two neighbours are joined, and what is left denotes the same state. -/
theorem localComplement_exhaust_sound_quarterFan : LocalComplement.find quarterFan anything none false = [⟨2, [1, 3]⟩] ∧
    ∃ h rounds text, ((localComplement anything).exhaust false quarterFan).outcome = (.ok (h, rounds), text) ∧ h.GraphLike ∧
      ∃ c : ℂ, c ≠ 0 ∧ h.linearMap 0 2 = c • quarterFan.linearMap 0 2 := by
  have hg : quarterFan.GraphLike := ⟨by constructor <;> decide +kernel, by decide +kernel, by decide +kernel⟩
  have noted : ∀ v ∈ quarterFan.vertices, (quarterFan.kinds.get? v).isSome := by decide +kernel
  have ends : ∀ v, v ∈ quarterFan.inputs ∨ v ∈ quarterFan.outputs → v ∈ quarterFan.border := by
    have out : ∀ v ∈ [0, 4], v ∈ quarterFan.border := by decide +kernel
    rintro v (c | c)
    · cases c
    · exact out v c
  have shape : quarterFan.vertices = [0, 1, 2, 3, 4] ∧ quarterFan.edges = [(0, 1), (1, 2), (2, 3), (3, 4)] ∧
      [0, 1, 2, 3, 4].map quarterFan.kindD = [.boundary, .z, .z, .z, .boundary] ∧ (quarterFan.phase 2).toRat = 1 / 2 ∧
      [(0, 1), (1, 2), (2, 3), (3, 4)].map quarterFan.edgeKind = [.regular, .hadamard, .hadamard, .regular] := by decide +kernel
  -- with no bit set at the outputs, the quarter turn alone is summed over
  have nonzero : quarterFan.linearMap 0 2 ≠ 0 := fun zero => by
    have entry := congrArg Complex.re (congrFun (congrFun zero fun _ => false) nofun)
    simp only [map_cons, map_nil, cons.injEq] at shape
    simp [linearMap, amplitude, weight, legs, join, shape, Finset.sum_powerset_insert, VertexKind.leg, VertexKind.spin,
      VertexKind.isSpider, EdgeKind.wire, factor, mixing, Matrix.one_apply, show turn 2⁻¹ = Complex.I by rw [← one_div, turn_half],
      show ({4} : Finset Vertex).powerset = {∅, {4}} from rfl, show quarterFan.inputs = [] from rfl,
      show quarterFan.outputs = [0, 4] from rfl] at entry
  obtain ⟨h, rounds, text, e, like, -, -, -, map⟩ :=
    localComplement_exhaust_sound hg (fun v hv => noted v (mem_vertices.2 hv)) ends anything false
  exact ⟨by decide +kernel, h, rounds, text, e, like, map 0 2 nonzero⟩

end Rule

end ZXCircuits
