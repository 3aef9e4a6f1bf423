/-
  What gates do to states.

  A register gives every wire a bit, a state gives every register an amplitude.  Gates move states: diagonal gates
  multiply amplitudes (`diag`), classical gates rearrange registers (`relabel`), and Hadamards mix two registers
  (`had`).  All motions can be undone, so they form a group.
-/
import ZXCircuits.Circuit.Basic
import Mathlib.Analysis.SpecialFunctions.Complex.Circle
import Mathlib.LinearAlgebra.Pi

namespace ZXCircuits

open Function Complex

abbrev Register := Int → Bool

/-- An amplitude for every register. -/
abbrev State := Register → ℂ

abbrev Motion := State ≃ₗ[ℂ] State

/-! ## Turns -/

/-- The factor of a turn by `p` half turns. -/
noncomputable def turn (p : ℚ) : ℂ := exp (Real.pi * p * Complex.I)

lemma turn_add (p q : ℚ) : turn (p + q) = turn p * turn q := by
  rw [turn, turn, turn, ← exp_add]
  push_cast
  ring_nf

variable (p : ℚ)

lemma turn_ne_zero : turn p ≠ 0 := exp_ne_zero _

@[simp] lemma turn_zero : turn 0 = 1 := by simp [turn]

@[simp] lemma turn_one : turn 1 = -1 := by simp [turn, exp_pi_mul_I]

lemma turn_neg : turn (-p) = (turn p)⁻¹ := by
  refine eq_inv_of_mul_eq_one_left ?_
  rw [← turn_add, neg_add_cancel, turn_zero]

lemma turn_two_mul_int (n : ℤ) : turn (2 * n) = 1 := by
  have h : (Real.pi * ((2 * n : ℚ) : ℂ) * I : ℂ) = n * (2 * Real.pi * I) := by push_cast; ring
  rw [turn, h, exp_int_mul_two_pi_mul_I]

lemma turn_modTwo : turn (Rat.modTwo p) = turn p := by
  have h : p = Rat.modTwo p + 2 * ((p / 2).floor : ℤ) := by
    rw [Rat.modTwo]; ring
  conv_rhs => rw [h]
  rw [turn_add, turn_two_mul_int, mul_one]

lemma turn_half : turn (1 / 2) = I := by
  have h : (Real.pi * ((1 / 2 : ℚ) : ℂ) * I : ℂ) = (Real.pi / 2) * I := by push_cast; ring
  rw [turn, h, exp_pi_div_two_mul_I]

lemma conj_turn : (starRingEnd ℂ) (turn p) = turn (-p) := by
  rw [turn, turn, ← exp_conj]
  congr 1
  simp

/-! ## Three sorts of motions -/

/-- Multiplies the amplitude of each register by its own factor. -/
noncomputable def diag (f : Register → ℂˣ) : Motion where
  toFun ψ x := f x * ψ x
  map_add' ψ φ := by funext x; simp [mul_add]
  map_smul' c ψ := by funext x; simp; ring
  invFun ψ x := (f x)⁻¹ * ψ x
  left_inv ψ := by funext x; simp
  right_inv ψ := by funext x; simp

@[simp] lemma diag_apply (f : Register → ℂˣ) (ψ : State) (x : Register) : diag f ψ x = f x * ψ x := rfl

/-- Reads the amplitude of each register off another one. -/
noncomputable def relabel (e : Equiv.Perm Register) : Motion := LinearEquiv.funCongrLeft ℂ ℂ e

@[simp] lemma relabel_apply (e : Equiv.Perm Register) (ψ : State) (x : Register) : relabel e ψ x = ψ (e x) := rfl

def sign (b : Bool) : ℂ := if b then -1 else 1

@[simp] lemma sign_false : sign false = 1 := rfl

@[simp] lemma sign_true : sign true = -1 := rfl

noncomputable def mix (t : Int) (ψ : State) : State := fun x =>
  (Real.sqrt 2 : ℂ)⁻¹ * (ψ (update x t false) + sign (x t) * ψ (update x t true))

noncomputable def mixing : Matrix Bool Bool ℂ := fun a b => (Real.sqrt 2 : ℂ)⁻¹ * sign (a && b)

lemma mixing_comm (a b : Bool) : mixing a b = mixing b a := by
  rw [mixing, mixing, Bool.and_comm]

lemma inv_sqrt_two_mul_self : (Real.sqrt 2 : ℂ)⁻¹ * (Real.sqrt 2 : ℂ)⁻¹ = 1 / 2 := by
  rw [← mul_inv, ← ofReal_mul, Real.mul_self_sqrt (by norm_num)]
  norm_num

lemma mix_mix (t : Int) (ψ : State) : mix t (mix t ψ) = ψ := by
  funext x
  have h := inv_sqrt_two_mul_self
  have hx : update x t (x t) = x := update_eq_self t x
  simp only [mix, update_idem, update_self]
  cases hb : x t <;> rw [hb] at hx <;> simp only [sign_false, sign_true, hx]
  · linear_combination (2 * ψ x) * h
  · linear_combination (2 * ψ x) * h

noncomputable def had (t : Int) : Motion where
  toFun := mix t
  map_add' ψ φ := by funext x; simp [mix]; ring
  map_smul' c ψ := by funext x; simp [mix]; ring
  invFun := mix t
  left_inv := mix_mix t
  right_inv := mix_mix t

@[simp] lemma had_apply (t : Int) (ψ : State) : had t ψ = mix t ψ := rfl

/-! ## Rearrangements of registers -/

/-- Flips the bit of a wire if a condition on the other wires holds. -/
def flipWhen (t : Int) (f : Register → Bool) : Equiv.Perm Register :=
  Involutive.toPerm (fun x => update x t (xor (x t) (f (update x t false)))) fun x => by simp

@[simp] lemma flipWhen_apply (t : Int) (f : Register → Bool) (x : Register) :
    flipWhen t f x = update x t (xor (x t) (f (update x t false))) := rfl

def rewire (σ : Equiv.Perm Int) : Equiv.Perm Register where
  toFun x := x ∘ σ
  invFun x := x ∘ σ.symm
  left_inv x := by funext w; simp
  right_inv x := by funext w; simp

@[simp] lemma rewire_apply (σ : Equiv.Perm Int) (x : Register) (w : Int) : rewire σ x w = x (σ w) := rfl

/-! ## Gates -/

noncomputable def factor (p : ℚ) (b : Bool) : ℂˣ := if b then Units.mk0 (turn p) (turn_ne_zero p) else 1

@[simp] lemma factor_false : factor p false = 1 := rfl

@[simp] lemma factor_true : (factor p true : ℂ) = turn p := rfl

noncomputable def zTurn (t : Int) (p : ℚ) : Motion := diag fun x => factor p (x t)

noncomputable def xTurn (t : Int) (p : ℚ) : Motion := had t * zTurn t p * had t

noncomputable def cSign (a b : Int) : Motion := diag fun x => factor 1 (x a && x b)

noncomputable def cFlip (c t : Int) : Motion := relabel (flipWhen t fun x => x c)

/-- Moves the content of every wire to the wire that a permutation sends it to. -/
noncomputable def carry (σ : Equiv.Perm Int) : Motion := relabel (rewire σ)

namespace Operation

/-- The motion of a gate; markers of ancillas stand for none. -/
noncomputable def motion : Operation → Motion
  | .had t => ZXCircuits.had t
  | .rotation k t p => if k.isZ then zTurn t p else xTurn t p
  | .pair .cnot c t => cFlip c t
  | .pair .cz c t => cSign c t
  | .pair .cx c t => ZXCircuits.had c * ZXCircuits.had t * cSign c t * (ZXCircuits.had c * ZXCircuits.had t)
  | .pair .swap c t => carry (Equiv.swap c t)
  | .triple .tof a b t => relabel (flipWhen t fun x => x a && x b)
  | .triple .ccz a b t => diag fun x => factor 1 (x a && x b && x t)
  | .parity p ts => diag fun x => factor p (ts.foldl (fun b t => xor b (x t)) false)
  | .initAncilla _ => 1
  | .postSelect _ => 1

end Operation

noncomputable def motionOf (gs : List Gate) : Motion := (gs.map fun g => g.op.motion).reverse.prod

def Register.restrict (n : ℕ) (x : Register) : Fin n → Bool := fun i => x i

def Register.extend {n : ℕ} (b : Fin n → Bool) : Register := fun w => if h : 0 ≤ w ∧ w.toNat < n then b ⟨w.toNat, h.2⟩ else false

/-- The matrix of gates on the wires from zero up to `n`: the amplitude at `y` of what becomes of the
    register `x`. -/
noncomputable def matrixOn (n : ℕ) (gs : List Gate) : Matrix (Fin n → Bool) (Fin n → Bool) ℂ := fun y x =>
  motionOf gs (fun z => if z.restrict n = x then 1 else 0) (Register.extend y)

/-- The matrix of a circuit on its own wires. -/
noncomputable def Circuit.unitary (c : Circuit) : Matrix (Fin c.qubits.toNat → Bool) (Fin c.qubits.toNat → Bool) ℂ :=
  matrixOn c.qubits.toNat c.gates

end ZXCircuits
