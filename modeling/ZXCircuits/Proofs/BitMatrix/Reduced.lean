/-
  What an elimination leaves.

  The additions that reduce a matrix make up one invertible matrix, which may be applied to the rows of other matrices and, inverted,
  to their columns.  What is left is in echelon form; the full form is the one reduced echelon form that the matrix has, in sections of
  whatever width (`gauss_reduces`).  In it a column without a pivot is the sum of the pivot columns whose rows meet it; the vectors that
  `kernel` reads off this way are a basis of the vectors that the matrix sends to zero (`kernel_spans`).
-/
import ZXCircuits.Proofs.BitMatrix.Linear
import ZXCircuits.Proofs.Swaps

namespace ZXCircuits.BitMatrix

open List

variable {m x y : BitMatrix} {r c k l a b i : Nat} {s : Reduction} {steps : List (Nat × Nat)}

/-! ## Columns -/

/-- A matrix of zeros and ones with `r` rows of length `c`. -/
structure Bits (m : BitMatrix) (r c : Nat) : Prop where
  shaped : m.Shaped r c
  binary : m.Binary

/-- Adds a column to another one. -/
def addCol (m : BitMatrix) (b a : Nat) : BitMatrix := ⟨m.data.map fun w => if w.getD b 0 ≠ 0 then w.modify a flip else w⟩

lemma row_addCol (m : BitMatrix) (b a i : Nat) :
    (m.addCol b a).row i = if (m.row i).getD b 0 ≠ 0 then (m.row i).modify a flip else m.row i := by
  simp only [addCol, row, Array.getD_eq_getD_getElem?, Array.getElem?_map]
  cases m.data[i]? <;> simp

lemma entry_addCol (ha : a < (m.row i).size) (j : Nat) :
    (m.addCol b a).entry i j = if m.bit i b ∧ j = a then flip (m.entry i j) else m.entry i j := by
  have hb : ((m.row i).getD b 0 ≠ 0) ↔ m.bit i b := by simp [bit, entry]
  rw [entry, row_addCol, ite_and]
  simp only [hb]
  split
  · rw [Array.getD_eq_getD_getElem?, Array.getElem?_modify]
    split
    · subst j
      simp [entry, ha]
    · rw [if_neg (Ne.symm ‹_›), entry, Array.getD_eq_getD_getElem?]
  · rfl

lemma bit_addCol (ha : a < (m.row i).size) (j : Nat) :
    (m.addCol b a).bit i j = if j = a then xor (m.bit i j) (m.bit i b) else m.bit i j := by
  rw [bit, entry_addCol ha]
  cases m.bit i b <;> by_cases hj : j = a <;> simp [hj, flip_ne_zero, bit]

lemma Bits.addCol (h : y.Bits l r) (hab : Inside r a b) :
    (y.addCol b a).Bits l r ∧ grid l r (y.addCol b a).bit = grid l r y.bit * additions r [(a, b)] := by
  obtain ⟨ha, hb, hne⟩ := hab
  have size : ∀ i < l, a < (y.row i).size := fun i hi => by rw [h.shaped.cols i hi]; exact ha
  refine ⟨⟨⟨?_, fun i hi => ?_⟩, fun i j => ?_⟩, ?_⟩
  · rw [← h.shaped.rows]
    simp [BitMatrix.addCol, numRows]
  · rw [row_addCol, ← h.shaped.cols i hi]
    split <;> simp
  · by_cases hi : i < l
    · rw [entry_addCol (size i hi)]
      split
      · rw [flip]
        split <;> simp
      · exact h.binary i j
    left
    have : y.row i = #[] := by
      have : y.data.size ≤ i := by rw [← numRows, h.shaped.rows]; omega
      simp [row, this]
    simp [entry, row_addCol, this]
  · ext i j
    rw [grid, bit_addCol (size i i.2), additions_singleton ha hb]
    by_cases hj : j = ⟨a, ha⟩
    · subst hj
      rw [Matrix.mul_transvection_apply_same, if_pos rfl, one_mul, grid, grid]
      cases y.bit i a <;> cases y.bit i b <;> decide
    · have : (j : Nat) ≠ a := fun e => hj (Fin.ext e)
      rw [Matrix.mul_transvection_apply_of_ne _ _ _ _ hj, if_neg this, grid]

lemma colAdd_eq (h : y.Shaped l r) (ha : a < r) (hb : b < r) : y.colAdd b a = .ok (y.addCol b a) := by
  have wrap : ∀ i < r, wrapIndex r (i : Int) = .ok i := fun i hi => by
    simp [wrapIndex, show ¬ (i : Int) < 0 by omega, hi]
  have step := Permutation.mapM_ok (f := fun w : Array Int => do
      let i ← wrapIndex w.size b
      if w.getD i 0 ≠ 0 then
        let j ← wrapIndex w.size a
        pure (w.modify j flip)
      else pure w) (g := fun w => if w.getD b 0 ≠ 0 then w.modify a flip else w) y.data.toList fun w hw => by
    obtain ⟨i, hi, rfl⟩ := Array.mem_iff_getElem.1 (Array.mem_toList_iff.1 hw)
    have hsize := h.cols i (h.rows ▸ hi)
    rw [BitMatrix.row, Array.getD_eq_getD_getElem?, Array.getElem?_eq_getElem hi, Option.getD_some] at hsize
    simp only [hsize, wrap b hb, wrap a ha, bind, Except.bind]
    split <;> rfl
  rw [BitMatrix.colAdd, Array.mapM_eq_mapM_toList, step]
  exact congrArg (fun d => Except.ok (⟨d⟩ : BitMatrix)) (by simp [← Array.toList_map])

lemma Bits.applyCols (h : y.Bits l r) (hs : ∀ s ∈ steps, Inside r s.1 s.2) :
    Makes (applyCols steps y) fun y' => y'.Bits l r ∧ grid l r y'.bit = grid l r y.bit * additions r steps.reverse := by
  induction steps generalizing y with
  | nil => exact .pure ⟨h, by simp [additions]⟩
  | cons s steps ih =>
    obtain ⟨hin, hs⟩ := forall_mem_cons.1 hs
    obtain ⟨h1, e1⟩ := h.addCol hin
    obtain ⟨y', e, h2, e2⟩ := ih h1 hs
    refine ⟨y', ?_, h2, ?_⟩
    · rw [BitMatrix.applyCols, foldlM_cons, colAdd_eq h.shaped hin.1 hin.2.1]
      exact e
    · rw [e2, e1, Matrix.mul_assoc, reverse_cons, additions_append]

section Kernel

open Matrix

variable {n j : Nat} {ps : List Nat}

lemma toRows_eq (m : BitMatrix) : m.toRows = (List.range m.numRows).map fun i => (m.row i).toList :=
  ext_getElem (by simp [toRows, numRows]) fun i h _ => by
    have hi : i < m.data.size := by simpa [toRows] using h
    simp [toRows, row, hi]

lemma filterMap_getElem? (ps : List Nat) (r : Nat) : (List.range r).filterMap (ps[·]?) = ps.take r := by
  induction r with
  | zero => rfl
  | succ r ih =>
    rw [range_succ, filterMap_append, ih, take_add_one]
    cases h : ps[r]? <;> simp [h]

lemma getElem_row (m : BitMatrix) (i j : Nat) (hj : j < (m.row i).toList.length) : ((m.row i).toList[j] != 0) = m.bit i j := by
  have hj' : j < (m.row i).size := by simpa using hj
  simp [bit, entry, hj']

lemma leadingColumns_eq (hs : m.Shaped r c) (h : m.Echelon ps c) (hr : ps.length ≤ r) : m.leadingColumns = ps := by
  have lead : ∀ i ∈ List.range r, (m.row i).toList.findIdx? (· != 0) = ps[i]? := by
    intro i hi
    have hsize := hs.cols i (mem_range.1 hi)
    cases hp : ps[i]? with
    | none =>
      rw [List.findIdx?_eq_none_iff]
      intro x hx
      obtain ⟨j, hj, rfl⟩ := getElem_of_mem hx
      rw [getElem_row, h.zero_of_length_le (List.getElem?_eq_none_iff.1 hp) (by simpa [hsize] using hj)]
    | some p =>
      have hpc := h.within p (mem_of_getElem? hp)
      have hlen : p < (m.row i).toList.length := by simpa [hsize] using hpc
      refine List.findIdx?_eq_some_iff_getElem.2 ⟨hlen, by rw [getElem_row, h.lead i p hp], fun j hj => ?_⟩
      rw [getElem_row _ _ _ (hj.trans hlen)]
      intro hb
      obtain ⟨p', hp', hle⟩ := h.stair i j (hj.trans hpc) hb
      obtain rfl : p = p' := Option.some.inj (hp.symm.trans hp')
      omega
  rw [leadingColumns, toRows_eq, hs.rows, filterMap_map, ← take_of_length_le hr, ← filterMap_getElem?]
  exact filterMap_congr lead

/-! ## The vector of a column without a pivot -/

/-- Sets the pivots of the rows that meet a column. -/
def setPivots (rows : List (List Int × Nat)) (n : Nat) (v : Array Int) : Array Int :=
  rows.foldl (fun (v : Array Int) rp => if rp.1.getD n 0 ≠ 0 then v.setIfInBounds rp.2 1 else v) v

lemma setPivots_spec (rows : List (List Int × Nat)) (n : Nat) (v : Array Int) : (setPivots rows n v).size = v.size ∧
    ∀ j < v.size, (setPivots rows n v).getD j 0 = if ∃ rp ∈ rows, rp.1.getD n 0 ≠ 0 ∧ rp.2 = j then 1 else v.getD j 0 := by
  induction rows generalizing v with
  | nil => simp [setPivots]
  | cons rp rows ih =>
    have size : (if rp.1.getD n 0 ≠ 0 then v.setIfInBounds rp.2 1 else v).size = v.size := by split <;> simp
    obtain ⟨hsize, hset⟩ := ih (if rp.1.getD n 0 ≠ 0 then v.setIfInBounds rp.2 1 else v)
    rw [size] at hsize hset
    refine ⟨hsize, fun j hj => (hset j hj).trans ?_⟩
    by_cases hn : rp.1.getD n 0 = 0
    · simp only [exists_mem_cons_iff, hn, ne_eq, not_true_eq_false, if_false, false_and, false_or]
    · simp only [exists_mem_cons_iff, hn, ne_eq, not_false_eq_true, if_true, true_and]
      by_cases hp : rp.2 = j <;> simp only [hp, true_or, false_or] <;> simp [hp, hj]

def kernelVector (m : BitMatrix) (ps : List Nat) (c n : Nat) : List Int :=
  (setPivots (m.toRows.zip ps) n ((Array.replicate c 0).setIfInBounds n 1)).toList

open scoped Classical in
/-- The vector has the column itself and the pivots of the rows that meet it. -/
lemma kernelVector_spec (hs : m.Shaped r c) (hr : ps.length ≤ r) (n : Nat) : (kernelVector m ps c n).length = c ∧
    ∀ j < c, (kernelVector m ps c n).getD j 0 = if j = n ∨ ∃ i, ps[i]? = some j ∧ m.bit i n then 1 else 0 := by
  obtain ⟨hsize, hset⟩ := setPivots_spec (m.toRows.zip ps) n ((Array.replicate c 0).setIfInBounds n 1)
  have hc : ((Array.replicate c (0 : Int)).setIfInBounds n 1).size = c := by simp
  have hzip : ∀ j, (∃ rp ∈ m.toRows.zip ps, rp.1.getD n 0 ≠ 0 ∧ rp.2 = j) ↔ ∃ i, ps[i]? = some j ∧ m.bit i n := by
    intro j
    constructor
    · rintro ⟨rp, hrp, hne, rfl⟩
      obtain ⟨i, hi⟩ := mem_iff_getElem?.1 hrp
      obtain ⟨h1, h2⟩ := List.getElem?_zip_eq_some.1 hi
      obtain ⟨hlt, h1⟩ := List.getElem?_eq_some_iff.1 h1
      exact ⟨i, h2, by simpa [toRows_eq, bit, entry, ← h1] using hne⟩
    rintro ⟨i, hi, hb⟩
    have hir : i < r := (List.getElem?_eq_some_iff.1 hi).1.trans_le hr
    refine ⟨((m.row i).toList, j), mem_iff_getElem?.2 ⟨i, List.getElem?_zip_eq_some.2 ⟨?_, hi⟩⟩, ?_, rfl⟩
    · simp [toRows_eq, hs.rows, hir]
    · simpa [bit, entry] using hb
  refine ⟨by rw [kernelVector, Array.length_toList, hsize, hc], fun j hj => ?_⟩
  have e := hset j (hc.symm ▸ hj)
  rw [Array.getD_eq_getD_getElem?, ← Array.getElem?_toList, ← List.getD_eq_getElem?_getD] at e
  rw [kernelVector, e]
  simp only [hzip]
  by_cases hjn : n = j
  · simp [hjn, hj]
  · simp [hj, hjn, Ne.symm hjn]

def column (c : Nat) (y : List Int) : Fin c → ZMod 2 := fun j => (y.getD j 0 : ZMod 2)

lemma kernelOfReduced_eq (hs : m.Shaped r c) (h : m.Echelon ps c) (hr : ps.length ≤ r) :
    m.kernelOfReduced c = ((List.range c).filter fun j => !ps.contains j).map (kernelVector m ps c) := by
  rw [kernelOfReduced, leadingColumns_eq hs h hr]
  rfl

section Reduced

variable (hs : m.Shaped r c) (h : m.Echelon ps c) (hr : ps.length ≤ r)
include hs hr

open scoped Classical in
lemma column_kernelVector (n : Nat) (j : Fin c) :
    column c (kernelVector m ps c n) j = if (j : Nat) = n ∨ ∃ i, ps[i]? = some (j : Nat) ∧ m.bit i n then 1 else 0 := by
  rw [column, (kernelVector_spec hs hr n).2 j j.2]
  split <;> simp

lemma column_of_free (hj : j ∉ ps) (hc : j < c) : column c (kernelVector m ps c n) ⟨j, hc⟩ = if j = n then 1 else 0 := by
  classical
  rw [column_kernelVector hs hr]
  exact if_congr (or_iff_left fun ⟨i, hi, _⟩ => hj (mem_of_getElem? hi)) rfl rfl

include h

/-- In each row only the column and the pivot of the row count, and they count the same. -/
lemma mulVec_kernelVector (hclear : ∀ i q, ps[i]? = some q → ∀ x, x ≠ i → m.bit x q = false) (hn : n < c) (hfree : n ∉ ps) :
    grid r c m.bit *ᵥ column c (kernelVector m ps c n) = 0 := by
  classical
  ext i
  rw [mulVec, dotProduct, Pi.zero_apply]
  cases hp : ps[(i : Nat)]? with
  | none =>
    refine Finset.sum_eq_zero fun j _ => ?_
    rw [grid, h.zero_of_length_le (List.getElem?_eq_none_iff.1 hp) j.2]
    exact zero_mul _
  | some p =>
    have hpc := h.within p (mem_of_getElem? hp)
    have hne : n ≠ p := fun e => hfree (e ▸ mem_of_getElem? hp)
    have own : ∀ j k : Nat, ps[k]? = some j → m.bit i j → k = i := fun j k hk hb => by
      by_contra hki
      rw [hclear k j hk i (Ne.symm hki)] at hb
      cases hb
    rw [Finset.sum_eq_add ⟨n, hn⟩ ⟨p, hpc⟩ (by simpa using hne) ?_ (by simp) (by simp)]
    · have hpivot : (p = n ∨ ∃ k, ps[k]? = some p ∧ m.bit k n) ↔ m.bit i n := by
        refine ⟨?_, fun hb => .inr ⟨i, hp, hb⟩⟩
        rintro (e | ⟨k, hk, hb⟩)
        · exact (hne e.symm).elim
        · exact own p k hk (h.lead i p hp) ▸ hb
      rw [column_of_free hs hr hfree, column_kernelVector hs hr, grid, grid, if_congr hpivot rfl rfl, h.lead i p hp, if_pos rfl]
      cases m.bit i n <;> decide
    rintro j - ⟨hjn, hjp⟩
    rw [grid, column_kernelVector hs hr]
    by_cases hb : m.bit i j
    · rw [if_neg (c := _ ∨ _), mul_zero]
      rintro (e | ⟨k, hk, -⟩)
      · exact hjn (Fin.ext e)
      · exact hjp (Fin.ext (Option.some.inj ((own j k hk hb ▸ hk).symm.trans hp)))
    · rw [if_neg hb, zero_mul]

end Reduced

lemma length_free (h : m.Echelon ps c) : ((List.range c).filter fun j => !ps.contains j).length = c - ps.length := by
  have hin : ((List.range c).filter fun j => ps.contains j).Perm ps := by
    refine (perm_ext_iff_of_nodup (nodup_range.filter _) (h.ascending.imp Nat.ne_of_lt)).2 fun q => ?_
    rw [mem_filter, mem_range, contains_iff_mem]
    exact and_iff_right_of_imp (h.within q)
  have both := length_eq_length_filter_add (l := List.range c) fun j => ps.contains j
  rw [hin.length_eq, length_range] at both
  omega

/-- Vectors that a matrix sends to zero, each with a place where the others have none, span the kernel if they are as many as the
    columns beyond the rank. -/
lemma span_of_free {A : Matrix (Fin r) (Fin c) (ZMod 2)} {F : List Nat} {v : Nat → List Int} (nodup : F.Nodup)
    (free : ∀ n ∈ F, ∃ hn : n < c, ∀ k, column c (v k) ⟨n, hn⟩ = if n = k then 1 else 0)
    (zero : ∀ n ∈ F, A *ᵥ column c (v n) = 0) (hlen : F.length = c - A.rank) :
    LinearIndependent (ZMod 2) (fun k => column c ((F.map v).get k)) ∧
      Submodule.span (ZMod 2) (Set.range fun k => column c ((F.map v).get k)) = LinearMap.ker A.mulVecLin := by
  have get : ∀ k, (F.map v).get k = v (F.get (k.cast (length_map _))) := by simp
  have indep : LinearIndependent (ZMod 2) fun k => column c ((F.map v).get k) := by
    refine Fintype.linearIndependent_iff.2 fun a ha k => ?_
    obtain ⟨hk, delta⟩ := free _ (get_mem F (k.cast (length_map _)))
    have e := congrFun ha ⟨_, hk⟩
    simpa only [Finset.sum_apply, Pi.smul_apply, get, delta, nodup.get_inj_iff, Fin.cast_inj, smul_eq_mul, mul_ite, mul_one,
      mul_zero, Finset.sum_ite_eq, Finset.mem_univ, if_true, Pi.zero_apply] using e
  refine ⟨indep, Submodule.eq_of_le_of_finrank_le (Submodule.span_le.2 ?_) ?_⟩
  · rintro _ ⟨k, rfl⟩
    dsimp only
    rw [get]
    exact zero _ (get_mem F _)
  have := LinearMap.finrank_range_add_finrank_ker A.mulVecLin
  rw [Module.finrank_fin_fun, ← Matrix.rank] at this
  rw [finrank_span_eq_card indep, Fintype.card_fin, length_map, hlen]
  omega

/-- **The kernel.**  The vectors are as many as the columns beyond the rank, have a bit for each column, are independent, and span
    what the matrix sends to zero; the reduced matrix that may be left in its place sends them to zero too. -/
theorem kernel_spans (hm : m.Bits r m.numCols) :
    m.kernel.1.length = m.numCols - (grid r m.numCols m.bit).rank ∧
      (∀ y ∈ m.kernel.1, y.length = m.numCols ∧ (∀ x ∈ y, x = 0 ∨ x = 1) ∧
        grid r m.numCols m.bit *ᵥ column m.numCols y = 0 ∧ grid r m.numCols m.kernel.2.bit *ᵥ column m.numCols y = 0) ∧
      LinearIndependent (ZMod 2) (fun k => column m.numCols (m.kernel.1.get k)) ∧
      Submodule.span (ZMod 2) (Set.range fun k => column m.numCols (m.kernel.1.get k)) =
        LinearMap.ker (grid r m.numCols m.bit).mulVecLin := by
  have red := reduce_reduces true (by decide : 0 < standardWidth) hm.shaped
  obtain ⟨ps, hd, hclear⟩ := reduce_spec standardWidth true (by decide) hm.shaped
  have hs := hd.made.shaped
  have he := hd.echelon
  have hr := hd.length_le
  have hu := isUnit_additions red.inside
  have hrank : (grid r m.numCols m.bit).rank = ps.length := by
    rw [← he.rank_eq hr, red.grid, Matrix.rank_mul_eq_right_of_isUnit_det _ _ ((Matrix.isUnit_iff_isUnit_det _).1 hu)]
  have hlen := hrank ▸ length_free he
  have hgrid := red.grid
  rw [kernel, kernelOfReduced_eq hs he hr]
  dsimp only
  generalize (reduce true standardWidth m).matrix = R at *
  have free : ∀ n ∈ (List.range m.numCols).filter fun j => !ps.contains j, n < m.numCols ∧ n ∉ ps := by simp
  have zero := fun n hn => mulVec_kernelVector hs he hr (hclear rfl) (free n hn).1 (free n hn).2
  have zero' : ∀ n ∈ (List.range m.numCols).filter fun j => !ps.contains j,
      grid r m.numCols m.bit *ᵥ column m.numCols (kernelVector R ps m.numCols n) = 0 := fun n hn =>
    Matrix.mulVec_injective_of_isUnit hu (by rw [mulVec_mulVec, ← hgrid, mulVec_zero, zero n hn])
  refine ⟨by rw [length_map, hlen], fun y hy => ?_, span_of_free (nodup_range.filter _)
    (fun n hn => ⟨(free n hn).1, fun k => column_of_free hs hr (free n hn).2 _⟩) zero' hlen⟩
  obtain ⟨n, hn, rfl⟩ := mem_map.1 hy
  obtain ⟨hl, hset⟩ := kernelVector_spec hs hr n
  refine ⟨hl, fun x hx => ?_, zero' n hn, zero n hn⟩
  obtain ⟨j, hj, rfl⟩ := getElem_of_mem hx
  rw [List.getElem_eq_getD 0, hset j (hl ▸ hj)]
  split <;> simp

theorem kernel_spans_pair : (ofRows [[1, 1]]).Bits 1 2 ∧
    (ofRows [[1, 1]]).kernel.1.length = 2 - (grid 1 2 (ofRows [[1, 1]]).bit).rank ∧ (ofRows [[1, 1]]).kernel.1 = [[1, 1]] :=
  have h : (ofRows [[1, 1]]).Bits 1 2 := ⟨⟨rfl, fun i hi => by rw [Nat.lt_one_iff.1 hi]; rfl⟩, by
    rintro (_ | i) (_ | _ | j) <;> simp [entry, row, ofRows]⟩
  ⟨h, (kernel_spans h).1, by decide +kernel⟩

end Kernel

end ZXCircuits.BitMatrix
