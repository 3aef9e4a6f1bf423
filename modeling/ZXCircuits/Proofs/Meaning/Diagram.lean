/-
  The linear map of a diagram.

  Every vertex takes a bit.  A green spider gives a turn by its phase if its bit is set and shows the bit at all its legs; a red
  spider has a Hadamard on each leg; a vertex of the boundary is a piece of wire.  With bits at the open legs, the amplitude
  is the sum, over the bits of the vertices, of the product of what spiders, edges and legs give (`Diagram.linearMap`).
-/
import ZXCircuits.Proofs.Motion.Basic
import ZXCircuits.Proofs.Diagram.View
import Mathlib.Data.Matrix.Mul
import Mathlib.Algebra.BigOperators.Group.Finset.Powerset
import Mathlib.Algebra.BigOperators.Ring.Finset

namespace ZXCircuits

open List
open Finset (mem_insert mem_powerset mul_sum prod_congr prod_insert sum_comm sum_congr sum_mul sum_powerset_insert)

namespace VertexKind

/-- A leg, from the bit of the vertex to the bit that shows. -/
noncomputable def leg : VertexKind → Matrix Bool Bool ℂ
  | .x => mixing
  | _ => 1

noncomputable def spin (k : VertexKind) (p : ℚ) (b : Bool) : ℂ := if k.isSpider then factor p b else 1

noncomputable def fan (k : VertexKind) (p : ℚ) (bs : List Bool) : ℂ := ∑ b, k.spin p b * (bs.map (k.leg b)).prod

lemma leg_comm (k : VertexKind) (a b : Bool) : k.leg a b = k.leg b a := by
  cases k with
  | x => exact mixing_comm a b
  | boundary | z | other => simp [leg, Matrix.one_apply, eq_comm]

end VertexKind

noncomputable def EdgeKind.wire : EdgeKind → Matrix Bool Bool ℂ
  | .hadamard => mixing
  | _ => 1

namespace Diagram

variable {g h : Diagram} {k : VertexKind} {p : Rat} {u v : Vertex} {e : EdgeKind} {β γ : Vertex → Bool}
  {ls ls' : List (Vertex × Bool)}

noncomputable def join (g : Diagram) (e : Edge) : Matrix Bool Bool ℂ := (g.kindD e.1).leg * (g.edgeKind e).wire * (g.kindD e.2).leg

/-- What spiders and edges give if the vertices take given bits. -/
noncomputable def weight (g : Diagram) (β : Vertex → Bool) : ℂ :=
  (∏ v ∈ g.vertices.toFinset, (g.kindD v).spin (g.phase v).toRat (β v)) * ∏ e ∈ g.edges.toFinset, g.join e (β e.1) (β e.2)

noncomputable def legs (g : Diagram) (ls : List (Vertex × Bool)) (β : Vertex → Bool) : ℂ :=
  (ls.map fun l => (g.kindD l.1).leg (β l.1) l.2).prod

/-- The amplitude of a diagram with bits at open legs: a sum over the sets of vertices whose bits are set. -/
noncomputable def amplitude (g : Diagram) (ls : List (Vertex × Bool)) : ℂ :=
  ∑ s ∈ g.vertices.toFinset.powerset, g.weight (fun v => decide (v ∈ s)) * g.legs ls fun v => decide (v ∈ s)

/-- **The linear map of a diagram**, with a leg at each input and each output. -/
noncomputable def linearMap (g : Diagram) (n m : ℕ) : Matrix (Fin m → Bool) (Fin n → Bool) ℂ := fun y x =>
  g.amplitude (g.inputs.zip (List.ofFn x) ++ g.outputs.zip (List.ofFn y))

@[simp] lemma legs_cons (l : Vertex × Bool) : g.legs (l :: ls) β = (g.kindD l.1).leg (β l.1) l.2 * g.legs ls β := by
  rw [legs, legs, map_cons, prod_cons]

lemma legs_append : g.legs (ls ++ ls') β = g.legs ls β * g.legs ls' β := by
  rw [legs, legs, legs, map_append, prod_append]

lemma amplitude_perm (hl : ls.Perm ls') : g.amplitude ls = g.amplitude ls' := by
  refine sum_congr rfl fun s _ => ?_
  rw [legs, legs, (hl.map _).prod_eq]

lemma has_of_mem_edges (hg : g.Coherent) {e : Edge} (he : e ∈ g.edges) : g.has e.1 ∧ g.has e.2 := by
  obtain ⟨-, hj⟩ := mem_edges.1 he
  exact ⟨hj.has, hg.vertex hj⟩

/-! ## A new vertex -/

namespace Grown

lemma vertices (hh : Grown g k p h) : h.vertices.toFinset = insert g.next g.vertices.toFinset := by
  ext u
  simp [mem_toFinset, mem_insert, mem_vertices, hh.vertex]

lemma edges (hh : Grown g k p h) (hg : g.Coherent) : h.edges.toFinset = g.edges.toFinset := by
  ext e
  simp [mem_toFinset, mem_edges, Joined, hh.link_of_coherent hg]

lemma next_not_mem (hg : g.Coherent) : g.next ∉ g.vertices.toFinset := by
  intro hm
  rw [mem_toFinset, mem_vertices] at hm
  exact Nat.lt_irrefl _ (hg.below _ hm)

lemma ne_next (hg : g.Coherent) (hv : g.has v) : v ≠ g.next := Nat.ne_of_lt (hg.below v hv)

variable (hh : Grown g k p h) (hg : g.Coherent)
include hh hg

lemma weight (hβ : ∀ v, v ≠ g.next → γ v = β v) : h.weight γ = k.spin p (γ g.next) * g.weight β := by
  have turn : k.spin (h.phase g.next).toRat = k.spin p := by
    funext b
    rw [VertexKind.spin, VertexKind.spin, hh.phase_next]
    cases b <;> simp [turn_modTwo]
  have spins : ∀ v ∈ g.vertices.toFinset, (h.kindD v).spin (h.phase v).toRat (γ v) = (g.kindD v).spin (g.phase v).toRat (β v) := by
    intro v hv
    have hne : v ≠ g.next := ne_next hg (mem_vertices.1 (mem_toFinset.1 hv))
    rw [hh.kind, if_neg hne, hh.phase v hne, hβ v hne]
  have joins : ∀ e ∈ g.edges.toFinset, h.join e (γ e.1) (γ e.2) = g.join e (β e.1) (β e.2) := by
    intro e he
    obtain ⟨h1, h2⟩ := has_of_mem_edges hg (mem_toFinset.1 he)
    rw [join, join, hh.kind, hh.kind, if_neg (ne_next hg h1), if_neg (ne_next hg h2), edgeKind_eq, edgeKind_eq,
      hh.link_of_coherent hg, hβ _ (ne_next hg h1), hβ _ (ne_next hg h2)]
  rw [Diagram.weight, Diagram.weight, hh.vertices, hh.edges hg, prod_insert (next_not_mem hg), hh.kind, if_pos rfl, turn,
    prod_congr rfl spins, prod_congr rfl joins, mul_assoc]

lemma legs (hβ : ∀ v, v ≠ g.next → γ v = β v) (bs : List Bool) (hl : ∀ l ∈ ls, g.has l.1) :
    h.legs (bs.map (fun b => (g.next, b)) ++ ls) γ = (bs.map (k.leg (γ g.next))).prod * g.legs ls β := by
  have new : h.legs (bs.map fun b => (g.next, b)) γ = (bs.map (k.leg (γ g.next))).prod := by
    rw [Diagram.legs, map_map]
    refine congrArg _ (map_congr_left fun b _ => ?_)
    rw [Function.comp_apply, hh.kind, if_pos rfl]
  have old : h.legs ls γ = g.legs ls β := by
    refine congrArg _ (map_congr_left fun l hm => ?_)
    have hne := ne_next hg (hl l hm)
    rw [hh.kind, if_neg hne, hβ _ hne]
  rw [legs_append, new, old]

/-- **A new vertex is a factor**, whatever bits its legs have. -/
theorem amplitude (bs : List Bool) (hl : ∀ l ∈ ls, g.has l.1) :
    h.amplitude (bs.map (fun b => (g.next, b)) ++ ls) = k.fan p bs * g.amplitude ls := by
  have hn := next_not_mem hg
  have term : ∀ s ∈ g.vertices.toFinset.powerset, ∀ γ : Vertex → Bool, (∀ v, v ≠ g.next → γ v = decide (v ∈ s)) →
      h.weight γ * h.legs (bs.map (fun b => (g.next, b)) ++ ls) γ = k.spin p (γ g.next) * (bs.map (k.leg (γ g.next))).prod *
          (g.weight (fun v => decide (v ∈ s)) * g.legs ls fun v => decide (v ∈ s)) := by
    intro s _ γ hγ
    rw [hh.weight hg hγ, hh.legs hg hγ bs hl]
    ring
  have out : ∀ s ∈ g.vertices.toFinset.powerset, g.next ∉ s := fun s hs hm => hn (mem_powerset.1 hs hm)
  rw [Diagram.amplitude, hh.vertices, sum_powerset_insert hn, VertexKind.fan, Fintype.sum_bool, Diagram.amplitude, add_mul,
    mul_sum, mul_sum, add_comm]
  congr 1
  · refine sum_congr rfl fun s hs => ?_
    rw [term s hs _ fun v hv => by simp [hv]]
    simp
  · refine sum_congr rfl fun s hs => ?_
    rw [term s hs _ fun v hv => rfl]
    simp [out s hs]

end Grown

/-! ## A new edge -/

lemma Relinked.vertices (r : Relinked g h) : h.vertices.toFinset = g.vertices.toFinset := by
  ext w
  simp [mem_toFinset, mem_vertices, r.vertex]

section Link

variable (r : Relinked g h) (hl : ∀ a b, h.link a b = if Between (u, v) a b then some e else g.link a b)

include r hl

lemma join_eq (a b : Bool) : h.join (u, v) a b = ∑ s, ∑ t, e.wire s t * ((g.kindD u).leg a s * (g.kindD v).leg b t) := by
  have hk : h.edgeKind (u, v) = e := by
    have hb : Between (u, v) u v := .inl ⟨rfl, rfl⟩
    rw [edgeKind_eq, hl, if_pos hb]
    rfl
  rw [join, hk, r.kindD, r.kindD, Matrix.mul_apply]
  simp only [Matrix.mul_apply, sum_mul]
  rw [sum_comm]
  refine sum_congr rfl fun s _ => sum_congr rfl fun t _ => ?_
  rw [(g.kindD v).leg_comm t b]
  ring

variable (huv : u < v) (hn : ¬ g.Joined u v)

include huv

omit r in
lemma edges_of_link : h.edges.toFinset = insert (u, v) g.edges.toFinset := by
  ext ⟨a, b⟩
  simp only [mem_toFinset, mem_insert, mem_edges, Joined, hl, Prod.mk.injEq]
  by_cases hb : Between (u, v) a b
  · rw [if_pos hb]
    constructor
    · rintro ⟨hlt, -⟩
      rcases hb with ⟨rfl, rfl⟩ | ⟨rfl, rfl⟩
      · exact .inl ⟨rfl, rfl⟩
      · exact absurd hlt (Nat.lt_asymm huv)
    · rintro (⟨rfl, rfl⟩ | hab)
      · exact ⟨huv, rfl⟩
      · exact ⟨hab.1, rfl⟩
  rw [if_neg hb]
  constructor
  · exact .inr
  rintro (hab | hab)
  · exact absurd (.inl hab) hb
  · exact hab

include hn

lemma weight_of_link (β : Vertex → Bool) : h.weight β = h.join (u, v) (β u) (β v) * g.weight β := by
  have spins : ∀ w ∈ g.vertices.toFinset, (h.kindD w).spin (h.phase w).toRat (β w) = (g.kindD w).spin (g.phase w).toRat (β w) := by
    intro w _
    rw [r.kindD, r.phase]
  have joins : ∀ e ∈ g.edges.toFinset, h.join e (β e.1) (β e.2) = g.join e (β e.1) (β e.2) := by
    rintro ⟨a, b⟩ he
    have hab := mem_edges.1 (mem_toFinset.1 he)
    have hb : ¬ Between (u, v) a b := by
      rintro (⟨rfl, rfl⟩ | ⟨rfl, rfl⟩)
      · exact hn hab.2
      · exact Nat.lt_asymm huv hab.1
    rw [join, join, r.kindD, r.kindD, edgeKind_eq, edgeKind_eq, hl, if_neg hb]
  have hm : (u, v) ∉ g.edges.toFinset := fun hm => hn (mem_edges.1 (mem_toFinset.1 hm)).2
  rw [weight, weight, r.vertices, edges_of_link hl huv, prod_insert hm, prod_congr rfl spins, prod_congr rfl joins]
  ring

lemma amplitude_of_link : h.amplitude ls = ∑ s, ∑ t, e.wire s t * g.amplitude ((u, s) :: (v, t) :: ls) := by
  have legs : ∀ β, h.legs ls β = g.legs ls β := fun β => by simp [Diagram.legs, r.kindD]
  have bits : ∀ s t, g.amplitude ((u, s) :: (v, t) :: ls) = ∑ S ∈ g.vertices.toFinset.powerset,
      (g.kindD u).leg (decide (u ∈ S)) s * (g.kindD v).leg (decide (v ∈ S)) t *
        (g.weight (fun w => decide (w ∈ S)) * g.legs ls fun w => decide (w ∈ S)) := by
    intro s t
    refine sum_congr rfl fun S _ => ?_
    rw [legs_cons, legs_cons]
    ring
  rw [amplitude, r.vertices]
  simp only [bits, mul_sum]
  rw [sum_congr rfl fun s _ => sum_comm, sum_comm]
  refine sum_congr rfl fun S _ => ?_
  rw [weight_of_link r hl huv hn, legs, join_eq r hl, mul_assoc, sum_mul]
  refine sum_congr rfl fun s _ => ?_
  rw [sum_mul]
  refine sum_congr rfl fun t _ => ?_
  ring

end Link

end Diagram

end ZXCircuits
