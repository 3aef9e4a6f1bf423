/-
  What spiders on wires mean.

  A spider hung on the end of a wire turns the wire, and an edge between the ends of two wires is a controlled gate.
-/
import ZXCircuits.Circuit.ToDiagram
import ZXCircuits.Proofs.Meaning.Diagram
import ZXCircuits.Proofs.Motion.Expand

namespace ZXCircuits

open List Function VertexKind EdgeKind Fintype Real
open LinearEquiv (mul_apply)
open Finset (mul_sum sum_comm sum_congr sum_mul)

/-! ## A vertex hung on another one -/

namespace Diagram

variable {g h : Diagram} {k : VertexKind} {p : Rat} {u : Vertex} {e : EdgeKind}

lemma addVertex_inputs (g : Diagram) (k : VertexKind) (q r : Coord) (p : Exact) :
    (g.addVertex k q r p).1.inputs = g.inputs ∧ (g.addVertex k q r p).1.outputs = g.outputs := by
  unfold addVertex startTracking
  dsimp only
  split_ifs <;> exact ⟨rfl, rfl⟩

/-- **A new vertex with an edge to an old one.** -/
theorem Grown.hang {d : Diagram} (hd : Grown g k p d) (hg : g.Coherent) (hu : g.has u) (eh : d.addEdge (u, g.next) e = .ok h)
    (bs : List Bool) {ls : List (Vertex × Bool)} (hl : ∀ l ∈ ls, g.has l.1) : h.amplitude (bs.map (fun b => (g.next, b)) ++ ls) =
      ∑ s, ∑ t, e.wire s t * k.fan p (t :: bs) * g.amplitude ((u, s) :: ls) := by
  obtain ⟨r, l, -⟩ := addEdge_spec d (u, g.next) e h eh
  have new : ¬ d.Joined u g.next := fun hj => by
    have hj := (hd.coherent hg).back hj
    rw [Joined, hd.link, if_pos rfl] at hj
    cases hj
  rw [amplitude_of_link r l (hg.below u hu) new]
  refine sum_congr rfl fun s _ => sum_congr rfl fun t _ => ?_
  have hp : ((u, s) :: (g.next, t) :: (bs.map (fun b => (g.next, b)) ++ ls)).Perm
      ((t :: bs).map (fun b => (g.next, b)) ++ (u, s) :: ls) := by
    refine (Perm.swap _ _ _).trans (Perm.cons _ ?_)
    exact perm_middle.symm
  rw [amplitude_perm hp, hd.amplitude hg (t :: bs), mul_assoc]
  exact forall_mem_cons.2 ⟨hu, hl⟩

end Diagram

/-! ## Spiders on wires -/

variable {c t : Int} {k : VertexKind}

lemma sum_one_mul (f h : Bool → ℂ) : ∑ s, ∑ t, (1 : Matrix Bool Bool ℂ) s t * f t * h s = ∑ s, f s * h s := by
  simp [Matrix.one_apply]

section Fans

variable (a b c : Bool) (p : ℚ)

lemma fan_z_two : fan .z p [a, b] = if a = b then (factor p b : ℂ) else 0 := by
  rw [fan, sum_bool]
  cases a <;> cases b <;> simp [spin, isSpider, leg]

lemma fan_boundary : fan .boundary p [a, b] = if a = b then 1 else 0 := by
  rw [fan, sum_bool]
  cases a <;> cases b <;> simp [spin, isSpider, leg]

lemma fan_z_three : fan .z 0 [a, b, c] = if a = b ∧ b = c then 1 else 0 := by
  rw [fan, sum_bool]
  cases a <;> cases b <;> cases c <;> simp [spin, isSpider, leg]

lemma fan_x_two : fan .x p [a, b] = ∑ s, mixing b s * factor p s * mixing s a := by
  refine sum_congr rfl fun s _ => ?_
  simp only [spin, isSpider, leg, map_cons, map_nil, prod_cons, prod_nil, if_true, mixing_comm b s]
  ring

lemma fan_x_three : fan .x 0 [a, b, c] = (sqrt 2 : ℂ)⁻¹ * if xor a b = c then 1 else 0 := by
  have sum : fan .x 0 [a, b, c] = (sqrt 2 : ℂ)⁻¹ * ((sqrt 2 : ℂ)⁻¹ * (sqrt 2 : ℂ)⁻¹) * (sign a * sign b * sign c + 1) := by
    rw [fan, sum_bool]
    simp [spin, isSpider, leg, mixing]
    ring
  rw [sum, inv_sqrt_two_mul_self, mul_assoc]
  cases a <;> cases b <;> cases c <;> norm_num

end Fans

/-- A state after two joined spiders have been put on its wires. -/
noncomputable def paired (c t : Int) (k l : VertexKind) (e : EdgeKind) (ψ : State) (y : Register) : ℂ :=
  ∑ a, ∑ b, e.wire a b * ∑ s, k.fan 0 [s, y c, b] * ∑ u, l.fan 0 [u, y t, a] * ψ (update (update y c s) t u)

lemma mix_eq (t : Int) (ψ : State) (y : Register) : mix t ψ y = ∑ s, mixing (y t) s * ψ (update y t s) := by
  rw [mix, sum_bool, mixing, mixing, Bool.and_true, Bool.and_false, sign_false]
  ring

lemma had_had_eq (hct : c ≠ t) (ψ : State) (y : Register) : (had c * had t) ψ y =
    1 / 2 * ∑ a, ∑ b, sign (y c && a) * sign (y t && b) * ψ (update (update y c a) t b) := by
  rw [mul_apply, had_apply, had_apply, mix_eq, ← inv_sqrt_two_mul_self, mul_sum]
  refine sum_congr rfl fun a _ => ?_
  rw [mix_eq, update_of_ne hct.symm, mul_sum, mul_sum]
  refine sum_congr rfl fun b _ => ?_
  rw [mixing, mixing]
  ring

/-- The motion of a spider on a wire; other vertices are pieces of wire. -/
noncomputable def spun (k : VertexKind) (t : Int) (p : ℚ) : Motion :=
  match k with
  | .z => zTurn t p
  | .x => xTurn t p
  | _ => 1

lemma sum_fan (k : VertexKind) (p : ℚ) (ψ : State) (y : Register) : ∑ s, k.fan p [s, y t] * ψ (update y t s) = spun k t p ψ y := by
  have hy : update y t (y t) = y := update_eq_self t y
  cases k with
  | boundary | other =>
    show ∑ s, fan .boundary p [s, y t] * ψ (update y t s) = ψ y
    rw [sum_bool, fan_boundary, fan_boundary]
    cases hb : y t <;> rw [hb] at hy <;> simp [hy]
  | z =>
    rw [spun, zTurn, diag_apply, sum_bool, fan_z_two, fan_z_two]
    cases hb : y t <;> rw [hb] at hy <;> simp [hy]
  | x =>
    rw [spun, xTurn, mul_apply, mul_apply, had_apply, had_apply, mix_eq]
    simp only [zTurn, diag_apply, mix_eq, update_idem, update_self, fan_x_two, sum_mul, mul_sum]
    rw [sum_comm]
    refine sum_congr rfl fun s _ => sum_congr rfl fun u _ => ?_
    ring

/-- **A vertex hung on the end of a wire** turns it, after a Hadamard gate if the edge is one. -/
theorem sum_wire_fan (k : VertexKind) (p : ℚ) (e : EdgeKind) (ψ : State) (y : Register) :
    ∑ s, ∑ u, e.wire s u * k.fan p [u, y t] * ψ (update y t s) = (spun k t p * if e = .hadamard then had t else 1) ψ y := by
  rw [mul_apply, ← sum_fan k]
  split
  · rename_i he
    simp only [he, had_apply, mix_eq, update_self, update_idem, mul_sum]
    rw [sum_comm]
    refine sum_congr rfl fun s _ => sum_congr rfl fun u _ => ?_
    rw [EdgeKind.wire, mixing_comm]
    ring
  rename_i he
  have one : e.wire = 1 := by
    cases e with
    | hadamard => exact absurd rfl he
    | _ => rfl
  rw [one, sum_one_mul fun u => k.fan p [u, y t]]
  rfl

lemma paired_cnot (hct : c ≠ t) (ψ : State) (y : Register) : paired c t .z .x .regular ψ y = (sqrt 2 : ℂ)⁻¹ * cFlip c t ψ y := by
  have hy : update y c (y c) = y := update_eq_self c y
  simp only [paired, cFlip, relabel_apply, flipWhen_apply, update_of_ne hct, sum_bool, fan_z_three, fan_x_three, EdgeKind.wire,
    Matrix.one_apply]
  cases hc : y c <;> rw [hc] at hy <;> cases y t <;> simp [hy]

lemma paired_notc (hct : c ≠ t) (ψ : State) (y : Register) : paired c t .x .z .regular ψ y = (sqrt 2 : ℂ)⁻¹ * cFlip t c ψ y := by
  have hy : ∀ s, update (update y c s) t (y t) = update y c s := fun s => by rw [update_comm hct, update_eq_self]
  simp only [paired, cFlip, relabel_apply, flipWhen_apply, update_of_ne hct.symm, sum_bool, fan_z_three, fan_x_three,
    EdgeKind.wire, Matrix.one_apply]
  cases ht : y t <;> rw [ht] at hy <;> cases y c <;> simp [hy]

lemma paired_cz (ψ : State) (y : Register) : paired c t .z .z .hadamard ψ y = (sqrt 2 : ℂ)⁻¹ * cSign c t ψ y := by
  have hy : update (update y c (y c)) t (y t) = y := by rw [update_eq_self, update_eq_self]
  simp only [paired, cSign, diag_apply, sum_bool, fan_z_three, EdgeKind.wire, mixing]
  cases hc : y c <;> cases ht : y t <;> rw [hc, ht] at hy <;> simp [hy]

lemma paired_cx (hct : c ≠ t) (ψ : State) (y : Register) :
    paired c t .x .x .hadamard ψ y = (sqrt 2 : ℂ)⁻¹ * (had c * had t * cSign c t * (had c * had t)) ψ y := by
  -- both sides are the sum over the bits of the two wires with one sign
  have hz : ∀ a b s u, update (update (update (update y c a) t b) c s) t u = update (update y c s) t u := by
    intro a b s u
    rw [update_comm hct.symm, update_idem, update_idem]
  have left : paired c t .x .x .hadamard ψ y = (sqrt 2 : ℂ)⁻¹ * ((sqrt 2 : ℂ)⁻¹ * (sqrt 2 : ℂ)⁻¹) *
        ∑ s, ∑ u, sign (xor s (y c) && xor u (y t)) * ψ (update (update y c s) t u) := by
    simp only [paired, sum_bool, fan_x_three, EdgeKind.wire, mixing]
    cases y c <;> cases y t <;> simp <;> ring
  have right : (had c * had t * cSign c t * (had c * had t)) ψ y =
      1 / 2 * ∑ s, ∑ u, sign (xor s (y c) && xor u (y t)) * ψ (update (update y c s) t u) := by
    rw [mul_apply, mul_apply, had_had_eq hct]
    simp only [cSign, diag_apply, had_had_eq hct, hz, update_self, update_of_ne hct, sum_bool]
    cases y c <;> cases y t <;> simp <;> ring
  rw [left, right, inv_sqrt_two_mul_self, mul_assoc]

/-! ## Legs at one spider -/

lemma leg_mul_leg (hk : k = .z ∨ k = .x) (β a b : Bool) : k.leg β a * k.leg β b = ∑ c, k.fan 0 [c, b, a] * k.leg β c := by
  rcases hk with rfl | rfl
  · simp only [sum_bool, fan_z_three, leg]
    cases β <;> cases a <;> cases b <;> simp
  · simp only [sum_bool, fan_x_three, leg, mixing]
    cases β <;> cases a <;> cases b <;> simp

/-- **Two legs at a spider** are one, shared by a spider of its own. -/
theorem Diagram.amplitude_leg {g : Diagram} {v : Vertex} (hk : g.kindD v = .z ∨ g.kindD v = .x) (a b : Bool) (ls : List (Vertex × Bool)) :
    g.amplitude ((v, a) :: (v, b) :: ls) = ∑ c, (g.kindD v).fan 0 [c, b, a] * g.amplitude ((v, c) :: ls) := by
  simp only [amplitude, mul_sum]
  rw [sum_comm]
  refine sum_congr rfl fun S _ => ?_
  simp only [legs_cons]
  rw [← mul_assoc (leg _ _ _), leg_mul_leg hk, sum_mul, mul_sum]
  refine sum_congr rfl fun c _ => ?_
  ring

end ZXCircuits
