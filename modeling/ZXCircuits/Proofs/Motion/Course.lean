/-
  Motions up to a scalar.

  A course is a motion up to a global scalar; products of courses are taken in the order of time.  The course of a
  list of gates is the product of the courses of its gates, and circuits with equal courses have the same matrix up to a
  scalar (`unitary_eq_smul`).

  The relations between gates that rewriting uses are equations between courses.
-/
import ZXCircuits.Proofs.Motion.Basic
import ZXCircuits.Proofs.Outcome
import Mathlib.GroupTheory.QuotientGroup.Basic

namespace ZXCircuits

open Function
open LinearEquiv (mul_apply)

variable {a b : Motion} {gs hs : List Gate}

def scalars : Subgroup Motion := (DistribMulAction.toModuleAut ℂ State : ℂˣ →* Motion).range

lemma mem_scalars {m : Motion} : m ∈ scalars ↔ ∃ s : ℂˣ, ∀ ψ, m ψ = (s : ℂ) • ψ := by
  constructor
  · rintro ⟨s, rfl⟩
    exact ⟨s, fun _ => rfl⟩
  · rintro ⟨s, h⟩
    exact ⟨s, LinearEquiv.ext fun ψ => (h ψ).symm⟩

instance : scalars.Normal where
  conj_mem m hm g := by
    obtain ⟨s, hs⟩ := mem_scalars.1 hm
    refine mem_scalars.2 ⟨s, fun ψ => ?_⟩
    rw [LinearEquiv.mul_apply, LinearEquiv.mul_apply, hs, map_smul, ← LinearEquiv.mul_apply, mul_inv_cancel]
    rfl

/-- A motion up to a scalar; the first factor of a product comes first in time. -/
abbrev Course := (Motion ⧸ scalars)ᵐᵒᵖ

namespace Course

/-- The course of a motion. -/
def of (m : Motion) : Course := MulOpposite.op (m : Motion ⧸ scalars)

lemma of_mul (a b : Motion) : of (a * b) = of b * of a := rfl

@[simp] lemma of_one : of 1 = 1 := rfl

lemma of_inv (a : Motion) : of a⁻¹ = (of a)⁻¹ := rfl

lemma of_eq_of_iff : of a = of b ↔ ∃ s : ℂˣ, ∀ ψ, b ψ = (s : ℂ) • a ψ := by
  rw [of, of, MulOpposite.op_inj, QuotientGroup.eq, mem_scalars]
  refine exists_congr fun s => forall_congr' fun ψ => ?_
  have ha : ∀ φ, a (a⁻¹ φ) = φ := a.apply_symm_apply
  rw [mul_apply]
  constructor
  · intro h
    rw [← map_smul, ← h, ha]
  intro h
  rw [h, map_smul]
  exact congrArg _ (a.symm_apply_apply ψ)

lemma of_eq_of_smul (s : ℂ) (hs : s ≠ 0) (h : ∀ ψ x, b ψ x = s * a ψ x) : of a = of b :=
  of_eq_of_iff.2 ⟨Units.mk0 s hs, fun ψ => funext fun x => h ψ x⟩

lemma of_eq_of_apply (h : ∀ ψ x, a ψ x = b ψ x) : of a = of b := congrArg of (LinearEquiv.ext fun ψ => funext fun x => h ψ x)

/-! ## The gates -/

/-- A Hadamard. -/
noncomputable def h (t : Int) : Course := of (had t)

noncomputable def z (t : Int) (p : ℚ) : Course := of (zTurn t p)

/-- Half a turn about the X axis. -/
noncomputable def x (t : Int) : Course := of (xTurn t 1)

noncomputable def cz (a b : Int) : Course := of (cSign a b)

/-- A controlled not. -/
noncomputable def cnot (c t : Int) : Course := of (cFlip c t)

noncomputable def perm (σ : Equiv.Perm Int) : Course := of (carry σ)

section

variable (t : Int)

lemma h_mul_h : h t * h t = 1 := by
  exact of_eq_of_apply fun ψ x => congrFun (mix_mix t ψ) x

lemma z_mul_z (p q : ℚ) : z t p * z t q = z t (p + q) := by
  refine of_eq_of_apply fun ψ y => ?_
  simp only [mul_apply, zTurn, diag_apply]
  cases y t <;> simp [turn_add]; ring

lemma z_modTwo (p : ℚ) : z t (Rat.modTwo p) = z t p := by
  refine of_eq_of_apply fun ψ y => ?_
  simp only [zTurn, diag_apply]
  cases y t <;> simp [turn_modTwo]

@[simp] lemma z_zero : z t 0 = 1 := by
  refine of_eq_of_apply fun ψ y => ?_
  simp only [zTurn, diag_apply]
  cases y t <;> simp

lemma x_eq : x t = h t * z t 1 * h t := by
  rfl

lemma xTurn_one : xTurn t 1 = relabel (flipWhen t fun _ => true) := by
  refine LinearEquiv.ext fun ψ => funext fun y => ?_
  have hs := inv_sqrt_two_mul_self
  have hy : update y t (y t) = y := update_eq_self t y
  simp only [xTurn, mul_apply, had_apply, mix, zTurn, diag_apply, relabel_apply, flipWhen_apply, update_idem, update_self]
  cases hb : y t <;> rw [hb] at hy <;> simp only [sign_false, sign_true, factor_false, factor_true, turn_one,
    Units.val_one, Bool.false_xor, Bool.true_xor, Bool.not_true]
  · linear_combination (2 * ψ (update y t true)) * hs
  · linear_combination (2 * ψ (update y t false)) * hs

lemma x_eq_flip : x t = of (relabel (flipWhen t fun _ => true)) := congrArg of (xTurn_one t)

lemma h_mul_x : h t * x t = z t 1 * h t := by
  rw [x_eq, ← mul_assoc, ← mul_assoc, h_mul_h, one_mul]

lemma x_mul_h : x t * h t = h t * z t 1 := by
  rw [x_eq, mul_assoc, h_mul_h, mul_one]

lemma x_mul_z (p : ℚ) : x t * z t p = z t (-p) * x t := by
  rw [x_eq_flip, z, z, ← of_mul, ← of_mul]
  refine of_eq_of_smul (turn (-p)) (turn_ne_zero _) fun ψ y => ?_
  have hp : turn (-p) * turn p = 1 := by rw [← turn_add, neg_add_cancel, turn_zero]
  simp only [mul_apply, zTurn, diag_apply, relabel_apply, flipWhen_apply, update_self]
  cases y t
  · simp
  · simp [← mul_assoc, hp]

end

lemma cz_comm (a b : Int) : cz a b = cz b a := by
  refine of_eq_of_apply fun ψ y => ?_
  simp [cSign, diag_apply, Bool.and_comm]

lemma cz_mul_cz (a b : Int) : cz a b * cz a b = 1 := by
  refine of_eq_of_apply fun ψ y => ?_
  simp only [mul_apply, cSign, diag_apply]
  cases y a <;> cases y b <;> simp

lemma cnot_mul_cnot (c t : Int) : cnot c t * cnot c t = 1 := by
  refine of_eq_of_apply fun ψ y => ?_
  simp [mul_apply, cFlip]

variable {c t : Int}

lemma h_mul_diag_mul_h {q : Register → Bool} (hq : ∀ y b, q (update y t b) = q y) :
    h t * of (diag fun y => factor 1 (q y && y t)) * h t = of (relabel (flipWhen t q)) := by
  refine of_eq_of_apply fun ψ y => ?_
  have hs := inv_sqrt_two_mul_self
  have hy : update y t (y t) = y := update_eq_self t y
  simp only [mul_apply, had_apply, mix, diag_apply, relabel_apply, flipWhen_apply, update_idem, update_self, hq y]
  cases q y <;> cases hb : y t <;> rw [hb] at hy <;>
    simp [sign_false, sign_true, factor_false, factor_true, turn_one, Units.val_one, Bool.not_false, Bool.and_true, Bool.and_false, hy]
  · linear_combination (2 * ψ y) * hs
  · linear_combination (2 * ψ y) * hs
  · linear_combination (2 * ψ (update y t true)) * hs
  · linear_combination (2 * ψ (update y t false)) * hs

lemma cnot_eq (hct : c ≠ t) : cnot c t = h t * cz c t * h t := (h_mul_diag_mul_h fun _ _ => update_of_ne hct ..).symm

lemma x_mul_cz {a b : Int} (hab : a ≠ b) : x a * cz a b = cz a b * (x a * z b 1) := by
  rw [x_eq_flip, cz, z, ← of_mul, ← of_mul, ← of_mul]
  refine of_eq_of_apply fun ψ y => ?_
  simp only [mul_apply, cSign, zTurn, diag_apply, relabel_apply, flipWhen_apply, update_self, update_of_ne hab.symm]
  cases y a <;> cases y b <;> simp

lemma x_mul_cnot_control (hct : c ≠ t) : x c * cnot c t = cnot c t * (x c * x t) := by
  rw [x_eq_flip, x_eq_flip, cnot, ← of_mul, ← of_mul, ← of_mul]
  refine of_eq_of_apply fun ψ y => ?_
  simp only [mul_apply, cFlip, relabel_apply, flipWhen_apply, update_self, update_of_ne hct, update_of_ne hct.symm]
  congr 1
  funext w
  by_cases hc : w = c
  · subst hc
    simp [update_of_ne hct]
  by_cases ht : w = t
  · subst ht
    simp [update_of_ne hct.symm]
  · simp [hc, ht]

lemma z_mul_cnot_target (hct : c ≠ t) : z t 1 * cnot c t = cnot c t * (z c 1 * z t 1) := by
  refine of_eq_of_apply fun ψ y => ?_
  simp only [mul_apply, cFlip, zTurn, diag_apply, relabel_apply, flipWhen_apply, update_self, update_of_ne hct]
  cases y c <;> cases y t <;> simp

lemma h_mul_quarter_mul_h (t : Int) (p : ℚ) (hp : turn p * turn p = -1) : h t * z t p * h t = z t (-p) * h t * z t (-p) := by
  have hm : turn (-p) = -turn p := by
    have h1 : turn (-p) * turn p = 1 := by rw [← turn_add, neg_add_cancel, turn_zero]
    linear_combination (-turn p) * h1 + turn (-p) * hp
  have hs := inv_sqrt_two_mul_self
  have hne : 1 - turn p ≠ 0 := by
    intro h0
    have h1 : turn p = 1 := by linear_combination -h0
    rw [h1] at hp
    norm_num at hp
  refine of_eq_of_smul ((Real.sqrt 2 : ℂ)⁻¹ * (1 - turn p)) (mul_ne_zero (by simp) hne) fun ψ y => ?_
  have hy : update y t (y t) = y := update_eq_self t y
  simp only [mul_apply, had_apply, mix, zTurn, diag_apply, update_idem, update_self]
  cases hb : y t <;> rw [hb] at hy <;> simp only [sign_false, sign_true, factor_false, factor_true, Units.val_one, hm]
  · generalize (Real.sqrt 2 : ℂ)⁻¹ = r at hs ⊢
    generalize turn p = i at hp ⊢
    linear_combination (-(r * (1 - i) * ((1 + i) * ψ (update y t false) + (1 - i) * ψ (update y t true)))) * hs +
      (r * (ψ (update y t false) - ψ (update y t true)) / 2) * hp
  generalize (Real.sqrt 2 : ℂ)⁻¹ = r at hs ⊢
  generalize turn p = i at hp ⊢
  linear_combination (-(r * (1 - i) * ((1 - i) * ψ (update y t false) + (1 + i) * ψ (update y t true)))) * hs -
    (r * (ψ (update y t false) + ψ (update y t true)) / 2) * hp

lemma cnot_mul_cnot_swap (hct : c ≠ t) : cnot t c * cnot c t = cnot c t * perm (Equiv.swap c t) := by
  refine of_eq_of_apply fun ψ y => ?_
  simp only [mul_apply, cFlip, carry, relabel_apply, flipWhen_apply, update_of_ne hct, update_of_ne hct.symm]
  congr 1
  funext w
  by_cases hc : w = c
  · subst hc
    simp [hct]
    cases y w <;> cases y t <;> rfl
  by_cases ht : w = t
  · subst ht
    simp [update_of_ne hct.symm, Bool.xor_comm]
  · simp [hc, ht, Equiv.swap_apply_of_ne_of_ne hc ht]

lemma turn_inv_two : turn 2⁻¹ = Complex.I := by rw [← turn_half, one_div]

lemma turn_neg_half : turn (-1 / 2) = -Complex.I := by
  rw [show (-1 / 2 : ℚ) = -(1 / 2) by norm_num, turn_neg, turn_half, Complex.inv_I]

lemma cnot_mul_cz (hct : c ≠ t) : cnot c t * cz c t = z t (-1 / 2) * cnot c t * z t (1 / 2) * z c (1 / 2) := by
  refine of_eq_of_apply fun ψ y => ?_
  simp only [mul_apply, cFlip, cSign, zTurn, diag_apply, relabel_apply, flipWhen_apply, update_self, update_of_ne hct]
  cases y c <;> cases y t <;> simp [turn_inv_two, turn_neg_half, ← mul_assoc]

/-! ## Permutations of the wires -/

@[simp] lemma perm_one : perm 1 = 1 := rfl

lemma perm_mul_perm (σ τ : Equiv.Perm Int) : perm σ * perm τ = perm (τ * σ) := rfl

section

variable (σ : Equiv.Perm Int)

lemma perm_mul_h (t : Int) : perm σ * h (σ t) = h t * perm σ := by
  refine of_eq_of_apply fun ψ y => ?_
  have hu : ∀ b, rewire σ (update y (σ t) b) = update (rewire σ y) t b := by
    intro b
    funext w
    by_cases hw : w = t
    · subst hw; simp
    · simp [hw]
  simp [mul_apply, had_apply, mix, carry, relabel_apply, hu, rewire_apply]

lemma perm_mul_z (t : Int) (p : ℚ) : perm σ * z (σ t) p = z t p * perm σ := by
  exact of_eq_of_apply fun _ _ => rfl

lemma perm_mul_x (t : Int) : perm σ * x (σ t) = x t * perm σ := by
  rw [x_eq, x_eq, mul_assoc, mul_assoc, ← mul_assoc, perm_mul_h, mul_assoc, mul_assoc, ← mul_assoc (perm σ),
    perm_mul_z, mul_assoc, perm_mul_h]

lemma perm_mul_cz (a b : Int) : perm σ * cz (σ a) (σ b) = cz a b * perm σ := by
  exact of_eq_of_apply fun _ _ => rfl

lemma perm_mul_cnot (hct : c ≠ t) : perm σ * cnot (σ c) (σ t) = cnot c t * perm σ := by
  have hσ : σ c ≠ σ t := fun e => hct (σ.injective e)
  rw [cnot_eq hct, cnot_eq hσ, mul_assoc, mul_assoc, ← mul_assoc, perm_mul_h, mul_assoc, mul_assoc,
    ← mul_assoc (perm σ), perm_mul_cz, mul_assoc, perm_mul_h]

end

lemma cnot_mul_cnot_mul_cnot (hct : c ≠ t) : cnot c t * (cnot t c * cnot c t) = perm (Equiv.swap c t) := by
  rw [cnot_mul_cnot_swap hct, ← mul_assoc, cnot_mul_cnot, one_mul]

end Course

/-! ## Lists of gates -/

noncomputable def courseOf (gs : List Gate) : Course := (gs.map fun g => Course.of g.op.motion).prod

@[simp] lemma courseOf_nil : courseOf [] = 1 := rfl

@[simp] lemma courseOf_cons (g : Gate) (gs : List Gate) : courseOf (g :: gs) = Course.of g.op.motion * courseOf gs := by
  simp [courseOf]

@[simp] lemma courseOf_append (gs hs : List Gate) : courseOf (gs ++ hs) = courseOf gs * courseOf hs := by simp [courseOf]

/-- What steps keep that each add a gate to the course, all of them keep. -/
lemma foldlM_courseOf {σ : Type} {I : σ → Course → Prop} {f : σ → Gate → Attempt σ} {gs : List Gate}
    (step : ∀ g ∈ gs, ∀ s m, I s m → Makes (f s g) fun s' => I s' (m * Course.of g.op.motion)) {s : σ} {m : Course} (h : I s m) :
    Makes (gs.foldlM f s) fun s' => I s' (m * courseOf gs) := by
  refine Makes.foldlM (I := fun done s => I s (m * courseOf done)) (d := []) (fun done s g hg hs => ?_) (by simpa using h)
  simpa [mul_assoc] using step g hg s _ hs

lemma motionOf_cons (g : Gate) (gs : List Gate) : motionOf (g :: gs) = motionOf gs * g.op.motion := by simp [motionOf]

lemma motionOf_append (gs hs : List Gate) : motionOf (gs ++ hs) = motionOf hs * motionOf gs := by simp [motionOf]

lemma of_motionOf (gs : List Gate) : Course.of (motionOf gs) = courseOf gs := by
  induction gs with
  | nil => rfl
  | cons g gs ih => rw [motionOf_cons, Course.of_mul, ih, courseOf_cons]

lemma courseOf_eq_of_motionOf (h : motionOf gs = motionOf hs) : courseOf gs = courseOf hs := by
  rw [← of_motionOf, h, of_motionOf]

/-- **Equal courses have equal matrices**, up to a factor. -/
theorem matrixOn_eq_smul (e : courseOf gs = courseOf hs) (n : ℕ) : ∃ s : ℂ, s ≠ 0 ∧ matrixOn n hs = s • matrixOn n gs := by
  rw [← of_motionOf, ← of_motionOf, Course.of_eq_of_iff] at e
  obtain ⟨s, hs'⟩ := e
  refine ⟨s, s.ne_zero, ?_⟩
  funext y x
  simp [matrixOn, hs', Pi.smul_apply, Matrix.smul_apply]

/-! ## Gates in reversed order -/

noncomputable def Motion.conj (m : Motion) : Motion where
  toFun ψ := star (m (star ψ))
  map_add' ψ φ := by simp
  map_smul' c ψ := by simp
  invFun ψ := star (m.symm (star ψ))
  left_inv ψ := by simp
  right_inv ψ := by simp

@[simp] lemma Motion.conj_apply (m : Motion) (ψ : State) : Motion.conj m ψ = star (m (star ψ)) := rfl

lemma Motion.conj_mul (a b : Motion) : Motion.conj (a * b) = Motion.conj a * Motion.conj b := by
  refine LinearEquiv.ext fun ψ => ?_
  simp [mul_apply]

lemma Course.of_conj_eq (e : Course.of a = Course.of b) : Course.of (Motion.conj a) = Course.of (Motion.conj b) := by
  obtain ⟨s, hs⟩ := Course.of_eq_of_iff.1 e
  refine Course.of_eq_of_iff.2 ⟨star s, fun ψ => ?_⟩
  simp [hs]

def Operation.IsSymmetric (o : Operation) : Prop := Motion.conj o.motion * o.motion = 1

lemma courseOf_reverse_eq (hg : ∀ g ∈ gs, g.op.IsSymmetric) (hh : ∀ g ∈ hs, g.op.IsSymmetric)
    (e : courseOf gs = courseOf hs) : courseOf gs.reverse = courseOf hs.reverse := by
  have hr : ∀ ks : List Gate, (∀ g ∈ ks, g.op.IsSymmetric) → Motion.conj (motionOf ks) * motionOf ks.reverse = 1 := by
    intro ks hk
    induction ks with
    | nil => exact LinearEquiv.ext fun ψ => by simp [motionOf]
    | cons k ks ih =>
      have h2 : motionOf (k :: ks).reverse = k.op.motion * motionOf ks.reverse := by simp [motionOf]
      have hkk : Motion.conj k.op.motion * k.op.motion = 1 := hk k (by simp)
      rw [motionOf_cons, h2, Motion.conj_mul, mul_assoc, ← mul_assoc (Motion.conj k.op.motion), hkk, one_mul,
        ih (List.forall_mem_cons.1 hk).2]
  rw [← of_motionOf, ← of_motionOf, eq_inv_of_mul_eq_one_right (hr gs hg), eq_inv_of_mul_eq_one_right (hr hs hh)]
  rw [← of_motionOf, ← of_motionOf] at e
  rw [Course.of_inv, Course.of_inv, Course.of_conj_eq e]

end ZXCircuits
