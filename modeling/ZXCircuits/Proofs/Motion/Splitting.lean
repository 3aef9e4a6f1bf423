/-
  Circuits with their gates expanded, and with their rotations split into named gates.

  * `Gate.expand_weight`, `Circuit.splitGate_spec`: neither changes the number of T gates that a gate takes.
  * `Circuit.expand_splitPhases_sound`: both keep the matrix up to a scalar, and the T-count.
-/
import ZXCircuits.Proofs.Layout.Weaving
import ZXCircuits.Proofs.Swaps

namespace ZXCircuits

open List Course

variable {n : ℕ} {g : Gate} {gs : List Gate} {l : ℤ} {p q : ℚ}

/-! ## Counting T gates -/

/-- The number of T gates that a gate takes, none for the markers of ancillas. -/
def Gate.weight (g : Gate) : ℕ :=
  match g.tCount with
  | .ok k => k
  | .error _ => 0

def weightOf (gs : List Gate) : ℕ := (gs.map Gate.weight).sum

@[simp] lemma weightOf_nil : weightOf [] = 0 := rfl

@[simp] lemma weightOf_cons (g : Gate) (gs : List Gate) : weightOf (g :: gs) = g.weight + weightOf gs := by simp [weightOf]

@[simp] lemma weightOf_append (gs hs : List Gate) : weightOf (gs ++ hs) = weightOf gs + weightOf hs := by simp [weightOf]

lemma weightOf_erase (hg : g ∈ gs) : weightOf gs = g.weight + weightOf (gs.erase g) :=
  ((perm_cons_erase hg).map _).sum_eq.trans (weightOf_cons _ _)

@[simp] lemma weightOf_reverse (gs : List Gate) : weightOf gs.reverse = weightOf gs := ((reverse_perm gs).map _).sum_eq

lemma weightOf_eq_zero (h : ∀ g ∈ gs, g.weight = 0) : weightOf gs = 0 := sum_eq_zero (by simpa using h)

lemma weightOf_map_eq_zero {α : Type} {f : α → Gate} (hf : ∀ a, (f a).weight = 0) (l : List α) : weightOf (l.map f) = 0 :=
  weightOf_eq_zero fun g hg => by
    obtain ⟨a, -, rfl⟩ := mem_map.1 hg
    exact hf a

lemma weightOf_le_of_subperm {ks : List Gate} (h : gs.Subperm ks) : weightOf gs ≤ weightOf ks := by
  obtain ⟨l, hp, hl⟩ := h
  exact (hp.map _).sum_eq.symm.trans_le ((hl.map _).sum_le_sum fun _ _ => Nat.zero_le _)

lemma weightOf_map_le {f : Gate → Gate} (hf : ∀ g, (f g).weight ≤ g.weight) (l : List Gate) : weightOf (l.map f) ≤ weightOf l := by
  rw [weightOf, weightOf, map_map]
  exact sum_le_sum fun g _ => hf g

variable (t : ℤ)

@[simp] lemma Gate.weight_had : (had t).weight = 0 := rfl

@[simp] lemma Gate.weight_z : (z t).weight = 0 := rfl

@[simp] lemma Gate.weight_s (a : Bool) : (s t a).weight = 0 := by
  cases a <;> simp [s, weight, tCount]
  decide +kernel

@[simp] lemma Gate.weight_t (a : Bool) : (Gate.t t a).weight = 1 := by
  cases a <;> simp [Gate.t, weight, tCount]
  decide +kernel

@[simp] lemma Gate.weight_cnot (a b : ℤ) : (cnot a b).weight = 0 := rfl

lemma Gate.weight_rotation (k : Rotation) (t : ℤ) (p : ℚ) (i : ℕ) : weight ⟨.rotation k t p, i⟩ = if 2 < p.den then 1 else 0 := rfl

/-- The number of T gates that a rotation by the phase takes. -/
def turnWeight (p : ℚ) : ℕ := if 2 < p.den then 1 else 0

lemma turnWeight_eq_zero : turnWeight p = 0 ↔ ∃ k : ℤ, 2 * p = k := by
  have pos := p.den_pos
  have e := p.num_div_den
  simp only [turnWeight, ite_eq_right_iff, one_ne_zero, imp_false, not_lt]
  constructor
  · intro h
    obtain h1 | h2 : p.den = 1 ∨ p.den = 2 := by omega
    · exact ⟨2 * p.num, by rw [h1] at e; push_cast at e ⊢; linarith⟩
    · exact ⟨p.num, by rw [h2] at e; push_cast at e ⊢; linarith⟩
  rintro ⟨k, hk⟩
  have d := Rat.den_dvd k 2
  rw [Rat.divInt_eq_div, show (k : ℚ) / ((2 : ℤ) : ℚ) = p by push_cast; linarith] at d
  exact Nat.le_of_dvd two_pos (Int.natCast_dvd_natCast.1 d)

lemma Gives.foldlM_weight {σ : Type} {f : σ → Gate → Attempt σ} {m : σ → ℕ}
    (step : ∀ s g, Gives (f s g) fun s' => m s' ≤ m s + g.weight) (gs : List Gate) (s : σ) :
    Gives (gs.foldlM f s) fun s' => m s' ≤ m s + weightOf gs := by
  induction gs generalizing s with
  | nil => exact .pure le_rfl
  | cons g gs ih =>
    rw [foldlM_cons, weightOf_cons]
    exact .bind (step s g) fun s' h => (ih s').mono fun _ h' => by omega

lemma Circuit.tCount_eq (c : Circuit) (h : ∀ g ∈ c.gates, g.isAncilla = false) : c.tCount = .ok (weightOf c.gates) := by
  have one : ∀ g ∈ c.gates, g.tCount = .ok g.weight := by
    intro g hg
    obtain ⟨op, i⟩ := g
    cases op with
    | initAncilla | postSelect => cases h _ hg
    | _ => rfl
  rw [tCount, Permutation.mapM_ok c.gates one]
  exact congrArg Except.ok sum_eq_foldl.symm

/-! ## Expansion -/

lemma Gate.expand_weight (h : g.expand = .ok gs) : weightOf gs = g.weight := by
  obtain ⟨op, i⟩ := g
  cases op with
  | had | rotation => cases h; simp
  | pair k => cases k <;> cases h <;> rfl
  | triple k => cases k <;> cases h <;> simp [tofExpansion, cczExpansion] <;> rfl
  | parity p ts =>
    have chain : ∀ qs : List (ℤ × ℤ), weightOf (qs.map fun q => cnot q.1 q.2) = 0 := by
      intro qs
      induction qs with
      | nil => rfl
      | cons q qs ih => simp [ih]
    cases hl : ts.getLast? with
    | none => simp [expand, hl] at h
    | some t =>
      simp only [expand, hl, Except.ok.injEq] at h
      rw [← h, ← map_reverse, weightOf_append, weightOf_append, chain, chain]
      simp [zPhase, weight, tCount]
  | initAncilla | postSelect => cases h

lemma Circuit.expand_gates (hg : ∀ g ∈ gs, g.Fits n) : ∃ xs, gs.mapM Gate.expand = .ok xs ∧ (∀ k ∈ xs.flatten, k.IsBasic n) ∧
    courseOf xs.flatten = courseOf gs ∧ weightOf xs.flatten = weightOf gs := by
  induction gs with
  | nil => exact ⟨[], rfl, by simp, rfl, rfl⟩
  | cons g gs ih =>
    obtain ⟨ys, ey, hy, cy⟩ := Gate.expand_spec (hg g (by simp))
    obtain ⟨xs, ex, hx, cx, wx⟩ := ih (forall_mem_cons.1 hg).2
    refine ⟨ys :: xs, by rw [mapM_cons, ey, ex]; rfl, ?_, ?_, ?_⟩
    · exact forall_mem_append.2 ⟨hy, hx⟩
    · rw [flatten_cons, courseOf_append, courseOf_cons, cy, cx]
    · rw [flatten_cons, weightOf_append, weightOf_cons, Gate.expand_weight ey, wx]

/-! ## Splitting -/

namespace Circuit

/-- A gate named for its axis alone that turns by eighths. -/
def IsNameless (g : Gate) : Prop := (g.name = "ZPhase" ∨ g.name = "XPhase") ∧ ∃ k : ℕ, k < 8 ∧ g.phase = k / 4

lemma weightOf_splitZ (l : ℤ) (p : ℚ) : weightOf (splitZ l p) = if 2 < p.den then 1 else 0 := by
  by_cases h2 : p.den = 2
  · simp [splitZ, h2]
  by_cases h4 : p.den = 4
  · simp only [splitZ, h4]
    split_ifs <;> simp_all
  · simp [splitZ, h2, h4, Gate.zPhase, Gate.weight_rotation]

lemma splitZ_named (h0 : p ≠ 0) (h1 : p ≠ 1) : ∀ k ∈ splitZ l p, k.isAncilla = false ∧ ¬ IsNameless k := by
  have eighths : ∀ k : ℕ, k < 8 → (k : ℚ) / 4 = 0 ∨ (k : ℚ) / 4 = 1 ∨ ((k : ℚ) / 4).den = 2 ∨ ((k : ℚ) / 4).den = 4 := by decide +kernel
  simp only [splitZ]
  split_ifs with h2 h4
  rotate_right
  · refine forall_mem_singleton.2 ⟨rfl, ?_⟩
    rintro ⟨-, k, hk, e⟩
    obtain h | h | h | h := eighths k hk
    · exact h0 (e.trans h)
    · exact h1 (e.trans h)
    · exact h2 ((congrArg Rat.den e).trans h)
    · exact h4 ((congrArg Rat.den e).trans h)
  all_goals simp [IsNameless, Gate.isAncilla, Gate.s, Gate.z, Gate.t, Gate.name, Rotation.name]

lemma xTurn_eq (l : ℤ) (p : ℚ) : Course.of (xTurn l p) = h l * z l p * h l := by
  rfl

/-- **A split gate moves as the gate does and takes as many T gates.** -/
theorem splitGate_spec (hg : g.Fits n) : courseOf (splitGate g) = Course.of g.op.motion ∧ weightOf (splitGate g) = g.weight ∧
    ∀ k ∈ splitGate g, k.isAncilla = false ∧ ¬ IsNameless k := by
  obtain ⟨op, i⟩ := g
  cases op with
  | rotation k t p =>
    have turn : Course.of (Operation.rotation k t p).motion = if k.isZ then z t p else h t * z t p * h t := by
      rw [← xTurn_eq, ← courseOf_rotation k p i, courseOf_cons, courseOf_nil, mul_one]
    rw [turn, Gate.weight_rotation]
    by_cases h0 : p = 0
    · subst h0
      cases k.isZ <;> simp [splitGate, h_mul_h]
    by_cases h1 : p = 1
    · subst h1
      cases hk : k.isZ
      · have e : splitGate ⟨.rotation k t 1, i⟩ = [Gate.not t] := by simp [splitGate, hk]
        rw [e]
        exact ⟨(mul_one _).trans (x_eq t), rfl, by simp [IsNameless, Gate.not, Gate.isAncilla, Gate.name, Rotation.name]⟩
      · have e : splitGate ⟨.rotation k t 1, i⟩ = [Gate.z t] := by simp [splitGate, hk]
        rw [e]
        exact ⟨courseOf_named rfl, rfl, by simp [IsNameless, Gate.z, Gate.isAncilla, Gate.name, Rotation.name]⟩
    have split := splitZ_named (l := t) h0 h1
    cases hk : k.isZ
    · have e : splitGate ⟨.rotation k t p, i⟩ = [Gate.had t] ++ splitZ t p ++ [Gate.had t] := by simp [splitGate, h0, h1, hk]
      have hHad : courseOf [Gate.had t] = h t := mul_one _
      rw [e, courseOf_append, courseOf_append, courseOf_splitZ, hHad, weightOf_append, weightOf_append, weightOf_splitZ]
      refine ⟨rfl, by simp, forall_mem_append.2 ⟨forall_mem_append.2 ⟨?_, split⟩, ?_⟩⟩ <;>
        simp [IsNameless, Gate.had, Gate.isAncilla, Gate.name]
    · have e : splitGate ⟨.rotation k t p, i⟩ = splitZ t p := by simp [splitGate, h0, h1, hk]
      rw [e]
      exact ⟨courseOf_splitZ t p, weightOf_splitZ t p, split⟩
  | initAncilla | postSelect => exact hg.elim
  | had | pair k | triple k | parity =>
    refine ⟨mul_one _, add_zero _, forall_mem_singleton.2 ⟨rfl, fun h => ?_⟩⟩
    obtain ⟨h, -⟩ := h
    first | cases k <;> simp [Gate.name, PairGate.name, TripleGate.name] at h | simp [Gate.name] at h

lemma splitGates (hg : ∀ g ∈ gs, g.Fits n) : courseOf (gs.flatMap splitGate) = courseOf gs ∧
    weightOf (gs.flatMap splitGate) = weightOf gs ∧ ∀ k ∈ gs.flatMap splitGate, k.isAncilla = false ∧ ¬ IsNameless k := by
  induction gs with
  | nil => exact ⟨rfl, rfl, by simp⟩
  | cons g gs ih =>
    obtain ⟨h1, h2, h3⟩ := splitGate_spec (hg g (by simp))
    obtain ⟨i1, i2, i3⟩ := ih (forall_mem_cons.1 hg).2
    rw [flatMap_cons, courseOf_append, weightOf_append, courseOf_cons, weightOf_cons, h1, h2, i1, i2]
    exact ⟨rfl, rfl, forall_mem_append.2 ⟨h3, i3⟩⟩

/-- **Expanded gates and split phases.**  Gates that fit on the wires are expanded into basic ones, and no turn by eighths is left
    without a name of its own.  Both keep the matrix up to a scalar, and the T-count. -/
theorem expand_splitPhases_sound (c : Circuit) (hg : ∀ g ∈ c.gates, g.Fits c.qubits.toNat) : (∃ k, c.tCount = .ok k) ∧
    (∃ d, c.expand = .ok d ∧ d.qubits = c.qubits ∧ (∀ g ∈ d.gates, g.IsBasic c.qubits.toNat) ∧
      (∃ s : ℂ, s ≠ 0 ∧ matrixOn c.qubits.toNat d.gates = s • c.unitary) ∧ d.tCount = c.tCount) ∧
    c.splitPhases.qubits = c.qubits ∧ (∀ g ∈ c.splitPhases.gates, ¬ IsNameless g) ∧
      (∃ s : ℂ, s ≠ 0 ∧ matrixOn c.qubits.toNat c.splitPhases.gates = s • c.unitary) ∧ c.splitPhases.tCount = c.tCount := by
  have unmarked : ∀ g ∈ c.gates, g.isAncilla = false := fun g hm => by
    obtain ⟨op, i⟩ := g
    cases op with
    | initAncilla | postSelect => exact (hg _ hm).elim
    | _ => rfl
  obtain ⟨xs, ex, hx, cx, wx⟩ := expand_gates hg
  obtain ⟨cs, ws, hs⟩ := splitGates hg
  rw [tCount_eq c unmarked]
  refine ⟨⟨_, rfl⟩, ⟨{ c with gates := xs.flatten }, by rw [expand, ex]; rfl, rfl, hx, matrixOn_eq_smul cx.symm _, ?_⟩, rfl,
    fun g hm => (hs g hm).2, matrixOn_eq_smul cs.symm _, ?_⟩
  · rw [tCount_eq _ fun g hm => ?_, wx]
    obtain ⟨op, i⟩ := g
    cases op with
    | initAncilla | postSelect => exact (hx _ hm).elim
    | _ => rfl
  · rw [tCount_eq _ fun g hm => (hs g hm).1]
    exact congrArg Except.ok ws

theorem expand_splitPhases_sound_three_wires :
    let c : Circuit := { qubits := 3, gates := [.xPhase 0 (-5 / 4), .zPhase 1 (7 / 2), .tof 2 0 1, .parity (11 / 4) [2, 0]] }
    (∃ d, c.expand = .ok d ∧ d.tCount = .ok 9) ∧ c.splitPhases.tCount = .ok 9 := by
  intro c
  have hg : ∀ g ∈ c.gates, g.Fits 3 := by simp [c, Gate.Fits, OnWire, Gate.xPhase, Gate.zPhase, Gate.tof, Gate.parity]
  have ht : c.tCount = .ok 9 := by decide +kernel
  obtain ⟨-, ⟨d, e, -, -, -, hd⟩, -, -, -, hs⟩ := expand_splitPhases_sound c hg
  exact ⟨⟨d, e, hd.trans ht⟩, hs.trans ht⟩

end Circuit

end ZXCircuits
