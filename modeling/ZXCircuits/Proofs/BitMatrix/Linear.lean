/-
  Bit matrices as linear maps.

  The matrix of a reduction is an invertible matrix times the one it started from, so a square matrix of full rank has an
  inverse (`inverse_makes`) and is a product of row additions (`synthesis_gives`).
-/
import ZXCircuits.Proofs.BitMatrix.Elimination
import ZXCircuits.Proofs.Outcome
import Mathlib.LinearAlgebra.Matrix.Transvection
import Mathlib.Algebra.Field.ZMod
import Mathlib.LinearAlgebra.Matrix.NonsingularInverse
import Mathlib.LinearAlgebra.Matrix.Echelon.Pivot

/-! ## Reduced echelon forms -/

namespace Matrix

variable {r c : ℕ} {K : Type} [Field K] {A B : Matrix (Fin r) (Fin c) K} {G H : Matrix (Fin r) (Fin r) K} {i k : Fin r} {p q : Fin c}

lemma IsReducedRowEchelon.mul_lead (hB : B.IsReducedRowEchelon) (hk : B.IsLeadingEntry k q) (H : Matrix (Fin r) (Fin r) K)
    (i : Fin r) : (H * B) i q = H i k := by
  rw [mul_apply, Finset.sum_eq_single k]
  · rw [hB.eq_one hk, mul_one]
  · intro l _ hl
    rw [hB.eq_zero_of_ne_of_isLeadingEntry hl hk, mul_zero]
  · simp

lemma IsRowEchelon.lead_lt (hA : A.IsRowEchelon) (hi : A.IsLeadingEntry i p) (hk : A.IsLeadingEntry k q) (hik : i < k) : p < q := by
  by_contra hle
  exact hk.2 (hA hik fun j hj => hi.1 j (hj.trans_le (not_lt.1 hle)))

lemma IsReducedRowEchelon.lead_of_mul (hB : B.IsReducedRowEchelon) (hi : (H * B).IsLeadingEntry i p) : ∃ k, B.IsLeadingEntry k p := by
  have hne := hi.2
  rw [mul_apply] at hne
  obtain ⟨k, -, hk⟩ := Finset.exists_ne_zero_of_sum_ne_zero hne
  obtain ⟨q, hq⟩ := row_ne_zero_iff_exists_isLeadingEntry.1 fun h0 : B k = 0 => right_ne_zero_of_mul hk (congrFun h0 p)
  have hqp : q ≤ p := not_lt.1 fun hlt => right_ne_zero_of_mul hk (hq.1 p hlt)
  have hpq : p ≤ q := not_lt.1 fun hlt => left_ne_zero_of_mul hk (hB.mul_lead hq H i ▸ hi.1 q hlt)
  exact ⟨k, le_antisymm hqp hpq ▸ hq⟩

/-- If the rows before one have the same leads, so has that row. -/
lemma IsReducedRowEchelon.lead_next (hA : A.IsReducedRowEchelon) (hB : B.IsReducedRowEchelon)
    (hAB : ∀ i p, A.IsLeadingEntry i p → ∃ k, B.IsLeadingEntry k p) (hBA : ∀ i p, B.IsLeadingEntry i p → ∃ k, A.IsLeadingEntry k p)
    (ih : ∀ k < i, ∀ q, A.IsLeadingEntry k q ↔ B.IsLeadingEntry k q) (hi : A.IsLeadingEntry i p) : B.IsLeadingEntry i p := by
  obtain ⟨k, hk⟩ := hAB i p hi
  rcases lt_trichotomy k i with h | rfl | h
  · exact absurd (hA.isRowEchelon.lead_lt ((ih k h p).2 hk) hi h) (lt_irrefl p)
  · exact hk
  · -- A row above one that is not empty has a lead, further to the left.
    obtain ⟨q, hq⟩ := row_ne_zero_iff_exists_isLeadingEntry.1 fun h0 : B i = 0 =>
      hk.row_ne_zero (hB.isRowEchelon.row_eq_zero_of_lt h h0)
    have hqp := hB.isRowEchelon.lead_lt hq hk h
    obtain ⟨l, hl⟩ := hBA i q hq
    rcases lt_trichotomy l i with h' | rfl | h'
    · exact absurd (hB.isRowEchelon.lead_lt ((ih l h' q).1 hl) hq h') (lt_irrefl q)
    · exact absurd (hl.unique hi) hqp.ne
    · exact absurd (hA.isRowEchelon.lead_lt hi hl h') hqp.asymm

/-- **A matrix has one reduced echelon form.** -/
theorem IsReducedRowEchelon.unique (hA : A.IsReducedRowEchelon) (hB : B.IsReducedRowEchelon) (e : A = H * B) (e' : B = G * A) : A = B := by
  have hAB : ∀ i p, A.IsLeadingEntry i p → ∃ k, B.IsLeadingEntry k p := fun i p hi => hB.lead_of_mul (e ▸ hi)
  have hBA : ∀ i p, B.IsLeadingEntry i p → ∃ k, A.IsLeadingEntry k p := fun i p hi => hA.lead_of_mul (e' ▸ hi)
  have same : ∀ i p, A.IsLeadingEntry i p ↔ B.IsLeadingEntry i p := by
    intro i
    induction i using WellFoundedLT.induction with
    | ind i ih => exact fun p => ⟨hA.lead_next hB hAB hBA ih, hB.lead_next hA hBA hAB fun k hk q => (ih k hk q).symm⟩
  ext i j
  have term : ∀ k, H i k * B k j = if k = i then B k j else 0 := by
    intro k
    by_cases h0 : B k = 0
    · simp [h0]
    obtain ⟨q, hq⟩ := row_ne_zero_iff_exists_isLeadingEntry.1 h0
    rw [← hB.mul_lead hq H i, ← e]
    split
    · subst k
      rw [hA.eq_one ((same i q).2 hq), one_mul]
    · rename_i hk
      rw [hA.eq_zero_of_ne_of_isLeadingEntry (Ne.symm hk) ((same k q).2 hq), zero_mul]
  rw [e, mul_apply, Finset.sum_congr rfl fun k _ => term k]
  simp

/-- Whatever invertible matrices bring it about. -/
lemma eq_of_isReducedRowEchelon {M : Matrix (Fin r) (Fin c) K} (hH : IsUnit H) (hG : IsUnit G)
    (hA : (H * M).IsReducedRowEchelon) (hB : (G * M).IsReducedRowEchelon) : H * M = G * M := by
  have back : ∀ {F : Matrix (Fin r) (Fin r) K}, IsUnit F → F⁻¹ * (F * M) = M := fun h => by
    rw [← Matrix.mul_assoc, nonsing_inv_mul _ ((isUnit_iff_isUnit_det _).1 h), Matrix.one_mul]
  refine hA.unique hB (H := H * G⁻¹) (G := G * H⁻¹) ?_ ?_
  · rw [Matrix.mul_assoc, back hG]
  · rw [Matrix.mul_assoc, back hH]

lemma isReducedRowEchelon_one : (1 : Matrix (Fin r) (Fin r) K).IsReducedRowEchelon := by
  have lead : ∀ {i q : Fin r}, (1 : Matrix (Fin r) (Fin r) K) i q ≠ 0 → i = q := fun h => by_contra fun hne => h (one_apply_ne hne)
  refine ⟨fun i k hik j hz => by_contra fun hj => ?_, fun i q hq => ?_, fun i k q hik hq => ?_⟩
  · rw [lead hj] at hik
    exact one_ne_zero ((one_apply_eq i).symm.trans (hz i hik))
  · rw [lead hq.2, one_apply_eq]
  · exact one_apply_ne (lead hq.2 ▸ hik.ne)

end Matrix

namespace ZXCircuits.BitMatrix

open List

variable {m : BitMatrix} {q r c a b : Nat} {ps : List Nat}

/-- The bits of `r` rows and `c` columns. -/
def grid (r c : Nat) (row : Nat → Nat → Bool) : Matrix (Fin r) (Fin c) (ZMod 2) := fun i j => if row i j then 1 else 0

def ofBits (q : Nat) (row : Nat → Nat → Bool) : Matrix (Fin q) (Fin q) (ZMod 2) := fun i j => if row i j then 1 else 0

def toMatrix (q : Nat) (m : BitMatrix) : Matrix (Fin q) (Fin q) (ZMod 2) := ofBits q m.bit

lemma ofBits_congr {row row' : Nat → Nat → Bool} (h : ∀ i < q, ∀ j < q, row i j = row' i j) : ofBits q row = ofBits q row' := by
  ext i j
  rw [ofBits, ofBits, h i i.2 j j.2]

def Binary (m : BitMatrix) : Prop := ∀ i j, m.entry i j = 0 ∨ m.entry i j = 1

/-- The product of row additions, the first one applied first. -/
def additions (q : Nat) (steps : List (Nat × Nat)) : Matrix (Fin q) (Fin q) (ZMod 2) :=
  (steps.map fun s => if h : s.1 < q ∧ s.2 < q then Matrix.transvection ⟨s.2, h.2⟩ ⟨s.1, h.1⟩ 1 else 1).reverse.prod

lemma additions_cons (s : Nat × Nat) (steps : List (Nat × Nat)) : additions q (s :: steps) = additions q steps * additions q [s] := by
  simp [additions]

lemma additions_append (s t : List (Nat × Nat)) : additions q (s ++ t) = additions q t * additions q s := by simp [additions]

lemma additions_singleton (ha : a < q) (hb : b < q) : additions q [(a, b)] = Matrix.transvection ⟨b, hb⟩ ⟨a, ha⟩ 1 := by
  simp [additions, ha, hb]

lemma grid_add (row : Nat → Nat → Bool) (ha : a < r) (hb : b < r) :
    grid r c (fun i j => if i = b then xor (row b j) (row a j) else row i j) = additions r [(a, b)] * grid r c row := by
  ext i j
  rw [additions_singleton ha hb, Matrix.transvection, Matrix.add_mul, Matrix.one_mul, Matrix.add_apply, grid]
  by_cases hi : i = ⟨b, hb⟩
  · subst hi
    rw [Matrix.single_mul_apply_same, one_mul, if_pos rfl, grid, grid]
    cases row b j <;> cases row a j <;> decide
  · have : (i : Nat) ≠ b := fun e => hi (Fin.ext e)
    rw [Matrix.single_mul_apply_of_ne _ _ _ _ _ hi, add_zero, if_neg this, grid]

variable {steps : List (Nat × Nat)}

lemma shaped_foldl_addRow (hm : m.Shaped r c) (h : ∀ s ∈ steps, Inside r s.1 s.2) :
    (steps.foldl (fun m s => m.addRow s.1 s.2) m).Shaped r c := by
  induction steps generalizing m with
  | nil => exact hm
  | cons s steps ih => exact ih (hm.addRow (h s (by simp)).2.1) (forall_mem_cons.1 h).2

lemma grid_foldl_addRow (hm : m.Shaped r c) (h : ∀ s ∈ steps, Inside r s.1 s.2) :
    grid r c (steps.foldl (fun m s => m.addRow s.1 s.2) m).bit = additions r steps * grid r c m.bit := by
  induction steps generalizing m with
  | nil => simp [additions]
  | cons s steps ih =>
    obtain ⟨⟨ha, hb, -⟩, h⟩ := forall_mem_cons.1 h
    rw [foldl_cons, ih (hm.addRow hb) h, additions_cons, Matrix.mul_assoc, ← grid_add _ ha hb, funext₂ (hm.bit_addRow ha hb)]

lemma toMatrix_foldl_addRow (hm : m.Shaped q q) (h : ∀ s ∈ steps, Inside q s.1 s.2) :
    (steps.foldl (fun m s => m.addRow s.1 s.2) m).toMatrix q = additions q steps * m.toMatrix q := grid_foldl_addRow hm h

lemma additions_mul_self {s : Nat × Nat} (h : Inside q s.1 s.2) : additions q [s] * additions q [s] = 1 := by
  obtain ⟨ha, hb, hab⟩ := h
  have hne : (⟨s.2, hb⟩ : Fin q) ≠ ⟨s.1, ha⟩ := fun e => hab (Fin.mk.inj e).symm
  rw [additions_singleton ha hb, Matrix.transvection_mul_transvection_same _ _ hne, show (1 + 1 : ZMod 2) = 0 from rfl, Matrix.transvection_zero]

lemma additions_mul_reverse (h : ∀ s ∈ steps, Inside q s.1 s.2) : additions q steps.reverse * additions q steps = 1 := by
  induction steps with
  | nil => simp [additions]
  | cons s steps ih =>
    rw [reverse_cons, additions_append, additions_cons s steps, mul_assoc, ← mul_assoc (additions q steps.reverse),
      ih (forall_mem_cons.1 h).2, one_mul, additions_mul_self (h s (by simp))]

lemma isUnit_additions (h : ∀ s ∈ steps, Inside q s.1 s.2) : IsUnit (additions q steps) :=
  .of_mul_eq_one_right _ (additions_mul_reverse h)

lemma shaped_identity (q : Nat) : (identity q).Shaped q q := by
  refine ⟨by simp [identity, numRows], fun i hi => ?_⟩
  simp [identity, row, hi]

lemma toMatrix_identity (q : Nat) : (identity q).toMatrix q = 1 := by
  ext i j
  have : (identity q).bit i j = decide (i = j) := by
    simp [bit, entry, row, identity, Fin.ext_iff]
    by_cases h : (i : Nat) = j <;> simp [h]
  simp [toMatrix, ofBits, this, Matrix.one_apply]

lemma Shaped.wrapIndex (h : m.Shaped r c) (ha : a < r) : wrapIndex m.numRows (a : Int) = .ok a := by
  have h0 : ¬ (a : Int) < 0 := by omega
  have h1 : 0 ≤ (a : Int) ∧ (a : Int) < r := by omega
  simp [ZXCircuits.wrapIndex, h.rows, h0, h1, and_self, Int.toNat_natCast]

lemma Shaped.rowAdd (h : m.Shaped r c) (ha : a < r) (hb : b < r) : m.rowAdd a b = .ok (m.addRow a b) := by
  rw [BitMatrix.rowAdd, h.wrapIndex ha, h.wrapIndex hb]
  simp only [bind, Except.bind]
  rw [if_neg]
  · rfl
  simp only [any_eq_true, mem_range, Bool.and_eq_true, decide_eq_true_eq, not_exists, not_and]
  intro k hk
  have := h.cols a ha
  have := h.cols b hb
  omega

lemma applyRows_eq (h : m.Shaped r c) (hs : ∀ s ∈ steps, Inside r s.1 s.2) :
    applyRows steps m = .ok (steps.foldl (fun m s => m.addRow s.1 s.2) m) := by
  induction steps generalizing m with
  | nil => rfl
  | cons s steps ih =>
    obtain ⟨ha, hb, -⟩ := hs s (by simp)
    rw [applyRows, foldlM_cons, h.rowAdd ha hb]
    exact ih (h.addRow hb) (forall_mem_cons.1 hs).2

lemma Binary.addRow (h : m.Binary) (hs : m.Shaped r c) {x y : Nat} (hy : y < r) : (m.addRow x y).Binary := by
  intro i j
  rw [entry, row_addRow m x y i (hs.rows ▸ hy)]
  split
  · rw [addInto, Array.getD_eq_getD_getElem?, Array.getElem?_mapIdx]
    cases hj : (m.row y)[j]? with
    | none => exact .inl rfl
    | some e =>
      simp only [Option.map_some, Option.getD_some]
      split
      · rw [flip]
        split <;> simp
      · have := h y j
        rwa [entry, Array.getD_eq_getD_getElem?, hj, Option.getD_some] at this
  · exact h i j

lemma binary_identity (q : Nat) : (identity q).Binary := by
  intro i j
  simp only [entry, row, identity, Array.getD_eq_getD_getElem?, Array.getElem?_map]
  by_cases hi : i < q
  · by_cases hj : j < q
    · by_cases h : i = j <;> simp [hi, hj, h]
    · simp [hi, hj]
  · simp [hi]

lemma binary_foldl_addRow (hm : m.Shaped r c) (hb : m.Binary) (h : ∀ s ∈ steps, Inside r s.1 s.2) :
    (steps.foldl (fun m s => m.addRow s.1 s.2) m).Binary := by
  induction steps generalizing m with
  | nil => exact hb
  | cons s steps ih =>
    have hs := (h s (by simp)).2.1
    exact ih (hm.addRow hs) (hb.addRow hm hs) (forall_mem_cons.1 h).2

lemma grid_ne_zero {row : Nat → Nat → Bool} {i : Fin r} {j : Fin c} : grid r c row i j ≠ 0 ↔ row i j := by
  rw [grid]
  split <;> simp_all

/-! ## Echelon forms -/

namespace Echelon

variable (h : m.Echelon ps c)
include h

lemma isRowEchelon : (grid r c m.bit).IsRowEchelon := by
  intro i k hik j hz
  by_contra hne
  obtain ⟨q, hq, hle⟩ := h.stair k j j.2 (grid_ne_zero.1 hne)
  obtain ⟨p, hp⟩ : ∃ p, ps[(i : Nat)]? = some p :=
    ⟨_, getElem?_eq_getElem (Nat.lt_trans (Fin.lt_def.1 hik) (List.getElem?_eq_some_iff.1 hq).1)⟩
  have hj : p < j := (h.lt_of_lt hp hq hik).trans_le hle
  exact grid_ne_zero.2 (h.lead i p hp) (hz ⟨p, hj.trans j.2⟩ hj)

lemma isLeadingEntry {i : Fin r} {q : Fin c} (hq : (grid r c m.bit).IsLeadingEntry i q) : ps[(i : Nat)]? = some (q : Nat) := by
  obtain ⟨p, hp, hle⟩ := h.stair i q q.2 (grid_ne_zero.1 hq.2)
  obtain rfl | hlt := Nat.eq_or_lt_of_le hle
  · exact hp
  · exact absurd (hq.1 ⟨p, hlt.trans q.2⟩ hlt) (grid_ne_zero.2 (h.lead i p hp))

lemma isReducedRowEchelon (hc : ∀ i q, ps[i]? = some q → ∀ x, x ≠ i → m.bit x q = false) : (grid r c m.bit).IsReducedRowEchelon := by
  refine ⟨h.isRowEchelon, fun i q hq => ?_, fun i k q hik hq => ?_⟩
  · rw [grid, if_pos (grid_ne_zero.1 hq.2)]
  · rw [grid, hc k q (h.isLeadingEntry hq) i (Nat.ne_of_lt hik)]
    rfl

lemma rank_eq (hr : ps.length ≤ r) : (grid r c m.bit).rank = ps.length := by
  have hw : ∀ i : Nat, (hi : i < ps.length) → ps[i] < c := fun i hi => h.within _ (getElem_mem hi)
  let l : Fin r → WithTop (Fin c) := fun i => if hi : i < ps.length then (⟨ps[(i : Nat)], hw i hi⟩ : Fin c) else ⊤
  have hp : (grid r c m.bit).IsPivotedBy l := by
    refine ⟨h.isRowEchelon, fun i => ⟨fun j hj => ?_, fun q hq => ?_⟩⟩
    · by_contra hne
      obtain ⟨q, hq, hle⟩ := h.stair i j j.2 (grid_ne_zero.1 hne)
      obtain ⟨hi, rfl⟩ := List.getElem?_eq_some_iff.1 hq
      simp only [l, dif_pos hi, WithTop.coe_lt_coe, Fin.lt_def] at hj
      exact absurd hle (not_le.2 hj)
    by_cases hi : (i : Nat) < ps.length
    · simp only [l, dif_pos hi, WithTop.coe_inj] at hq
      exact hq ▸ grid_ne_zero.2 (h.lead i _ (getElem?_eq_getElem hi))
    · simp [l, hi] at hq
  have hl : ∀ i, l i ≠ ⊤ ↔ (i : Nat) < ps.length := fun i => by by_cases hi : (i : Nat) < ps.length <;> simp [l, hi]
  rw [hp.rank_eq, Finset.filter_congr fun i _ => hl i, Fin.card_filter_val_lt, Nat.min_eq_right hr]

end Echelon

/-- What a reduction leaves, over the field of two elements. -/
structure Reduces (m : BitMatrix) (r c : Nat) (full : Bool) (s : Reduction) : Prop where
  matrix : s.matrix = s.additions.foldl (fun m st => m.addRow st.1 st.2) m
  inside : ∀ st ∈ s.additions, Inside r st.1 st.2
  grid : grid r c s.matrix.bit = additions r s.additions * grid r c m.bit
  rank : s.rank = (BitMatrix.grid r c s.matrix.bit).rank
  echelon : (BitMatrix.grid r c s.matrix.bit).IsRowEchelon
  reduced : full → (BitMatrix.grid r c s.matrix.bit).IsReducedRowEchelon

lemma reduce_reduces (full : Bool) {width : Nat} (hw : 0 < width) (hs : m.Shaped r m.numCols) :
    Reduces m r m.numCols full (reduce full width m) := by
  obtain ⟨ps, h, hc⟩ := reduce_spec width full hw hs
  have inside : ∀ st ∈ (reduce full width m).additions, Inside r st.1 st.2 := fun st hst => h.made.steps st (mem_reverse.1 hst)
  refine ⟨h.made.matrix, inside, ?_, ?_, h.echelon.isRowEchelon, fun hf => h.echelon.isReducedRowEchelon (hc hf)⟩
  · rw [h.made.matrix, grid_foldl_addRow hs inside]
  · rw [h.rank, h.echelon.rank_eq h.length_le]

/-! ## Full rank -/

lemma reduce_of_isUnit {width : Nat} (hw : 0 < width) (hs : m.Shaped q q) (hc : m.numCols = q) (hu : IsUnit (m.toMatrix q)) :
    (reduce true width m).rank = q ∧ additions q (reduce true width m).additions * m.toMatrix q = 1 := by
  have h := reduce_reduces true hw (hc.symm ▸ hs)
  rw [hc] at h
  have hG := isUnit_additions h.inside
  constructor
  · rw [h.rank, h.grid]
    exact (Matrix.rank_of_isUnit _ (hG.mul hu)).trans (Fintype.card_fin q)
  have inv := Matrix.nonsing_inv_mul _ ((Matrix.isUnit_iff_isUnit_det _).1 hu)
  rw [← inv]
  exact Matrix.eq_of_isReducedRowEchelon hG (Matrix.isUnit_nonsing_inv_iff.2 hu) (h.grid ▸ h.reduced rfl)
    (inv.symm ▸ Matrix.isReducedRowEchelon_one)

lemma inverse_makes (hs : m.Shaped q q) (hc : m.numCols = q) (hu : IsUnit (m.toMatrix q)) : Makes m.inverse fun o => ∃ i,
    o = some i ∧ i.Shaped q q ∧ i.Binary ∧ i.toMatrix q * m.toMatrix q = 1 := by
  have hr := hs.rows
  have hsteps := (reduce_reduces (m := m) (r := q) true (by decide : 0 < standardWidth) (hc.symm ▸ hs)).inside
  obtain ⟨hrank, inv⟩ := reduce_of_isUnit (by decide : 0 < standardWidth) hs hc hu
  rw [inverse, if_neg (by rw [hr, hc]; simp)]
  dsimp only
  rw [hr, applyRows_eq (shaped_identity q) hsteps, hrank]
  refine .ok ⟨_, if_neg (Nat.lt_irrefl q), shaped_foldl_addRow (shaped_identity q) hsteps,
    binary_foldl_addRow (shaped_identity q) (binary_identity q) hsteps, ?_⟩
  rw [toMatrix_foldl_addRow (shaped_identity q) hsteps, toMatrix_identity, mul_one]
  exact inv

lemma foldl_choose_mem {α : Type} (p : α → α → Prop) [DecidableRel p] : ∀ (l : List α) (a : α),
    l.foldl (fun best x => if p best x then x else best) a ∈ a :: l
  | [], a => by simp
  | x :: l, a => by
    rw [foldl_cons]
    rcases mem_cons.1 (foldl_choose_mem p l (if p a x then x else a)) with h | h
    · rw [h]
      split <;> simp
    · simp [h]

/-- The list that is taken is one of those there are. -/
lemma mem_of_shortestBelow {α : Type} {limit : Nat} {ls : List (List α)} {l : List α} (h : shortestBelow limit ls = some l) :
    l ∈ ls := by
  revert h
  refine List.foldlRecOn (motive := fun best => best = some l → l ∈ ls) ls _ (by simp) fun best ih x hx h => ?_
  split at h
  · exact Option.some.inj h ▸ hx
  · exact ih h

theorem synthesis_few (h : m.numRows < 2) : Gives (m.synthesis true) fun _ => False := by
  rw [synthesis, if_pos rfl, rowsFrom, show m.numRows - 1 = 0 by omega]
  exact .error _

/-- **The gates of a synthesis** make up the matrix. -/
theorem synthesis_gives (hs : m.Shaped q q) (hc : m.numCols = q) (hu : IsUnit (m.toMatrix q)) :
    Gives (m.synthesis true) fun gates => (∀ g ∈ gates, Inside q g.2 g.1) ∧
      additions q (gates.reverse.map fun g => (g.2, g.1)) = m.toMatrix q := by
  rw [synthesis, if_pos rfl, hs.rows]
  split
  swap
  · exact .error _
  rename_i gates hgates
  obtain ⟨w, hw, rfl⟩ := mem_map.1 (mem_of_shortestBelow hgates)
  obtain ⟨hw1, hw2⟩ := mem_rowsFrom.1 hw
  have hsteps := (reduce_reduces (m := m) (r := q) true hw1 (hc.symm ▸ hs)).inside
  refine .ok ⟨fun g hg => ?_, ?_⟩
  · obtain ⟨s, hs', rfl⟩ := mem_map.1 hg
    exact hsteps s hs'
  have e : ((additionsAsGates m w).reverse.map fun g => (g.2, g.1)) = (reduce true w m).additions.reverse := by
    rw [additionsAsGates, ← map_reverse, map_map]
    exact map_id' _
  rw [e]
  have h1 := additions_mul_reverse hsteps
  have h2 := (reduce_of_isUnit hw1 hs hc hu).2
  calc additions q (reduce true w m).additions.reverse
      = additions q (reduce true w m).additions.reverse * (additions q (reduce true w m).additions * m.toMatrix q) := by
        rw [h2, mul_one]
    _ = m.toMatrix q := by rw [← mul_assoc, h1, one_mul]

end ZXCircuits.BitMatrix
