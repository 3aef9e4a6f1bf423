/-
  Blocked elimination.

  What an elimination does to a matrix is a list of row additions (`Adds`).  Additions among rows below the pivots keep the
  columns that are done, and additions of a row to rows above it keep the pivots, so each of the loops carries the invariant
  `Echelon`, and the way back up also `Cleared`.  The main statement is `reduce_spec`.
-/
import ZXCircuits.BitMatrix.Gauss
import Mathlib.Data.List.Basic
import Mathlib.Data.Nat.Basic
import Mathlib.Order.Basic
import Mathlib.Tactic.Common

namespace ZXCircuits.BitMatrix

open List

variable {m : BitMatrix} {r c i j a b k p : Nat} {s : Reduction}

/-! ## Rows -/

/-- A matrix with `r` rows of length `c`. -/
structure Shaped (m : BitMatrix) (r c : Nat) : Prop where
  rows : m.numRows = r
  cols : ∀ i < r, (m.row i).size = c

lemma row_addRow (m : BitMatrix) (a b i : Nat) (hb : b < m.numRows) :
    (m.addRow a b).row i = if i = b then addInto (m.row a) (m.row b) else m.row i := by
  simp only [addRow, row, Array.getD_eq_getD_getElem?, Array.getElem?_modify]
  split
  · rename_i h
    subst h
    have hb' : b < m.data.size := hb
    simp [hb']
  · rename_i h
    rw [if_neg (Ne.symm h)]

lemma numRows_addRow (m : BitMatrix) (a b : Nat) : (m.addRow a b).numRows = m.numRows := by simp [addRow, numRows]

lemma size_addInto (x y : Array Int) : (addInto x y).size = y.size := by simp [addInto]

lemma Shaped.addRow (h : m.Shaped r c) (hb : b < r) : (m.addRow a b).Shaped r c := by
  refine ⟨by rw [numRows_addRow, h.rows], fun i hi => ?_⟩
  rw [row_addRow m a b i (h.rows ▸ hb)]
  split
  · rw [size_addInto, h.cols b hb]
  · exact h.cols i hi

lemma flip_ne_zero (x : Int) : (flip x != 0) = !(x != 0) := by
  rw [flip]
  split <;> simp_all

lemma Shaped.bit_addRow (h : m.Shaped r c) (ha : a < r) (hb : b < r) (i j : Nat) :
    (m.addRow a b).bit i j = if i = b then xor (m.bit b j) (m.bit a j) else m.bit i j := by
  rw [bit, entry, row_addRow m a b i (h.rows ▸ hb)]
  by_cases hi : i = b
  · rw [if_pos hi, if_pos hi, bit, bit, entry, entry, addInto]
    by_cases hj : j < c
    · have hjb : j < (m.row b).size := by rw [h.cols b hb]; exact hj
      have hja : j < (m.row a).size := by rw [h.cols a ha]; exact hj
      simp only [Array.getD_eq_getD_getElem?, Array.getElem?_mapIdx, Array.getElem?_eq_getElem hjb,
        Array.getElem?_eq_getElem hja, Option.map_some, Option.getD_some]
      by_cases hs : (m.row a)[j] = 0
      · simp [hs]
      · have hs' : ((m.row a)[j] != 0) := by simpa using hs
        rw [if_pos hs, flip_ne_zero, hs', Bool.xor_true]
    · have hjb : (m.row b).size ≤ j := by rw [h.cols b hb]; omega
      have hja : (m.row a).size ≤ j := by rw [h.cols a ha]; omega
      simp [Array.getElem?_eq_none hjb, Array.getElem?_eq_none hja]
  · rw [if_neg hi, if_neg hi]
    rfl

lemma Shaped.bit_eq_false_of_row (h : m.Shaped r c) (hi : r ≤ i) : m.bit i j = false := by
  have : m.data.size ≤ i := by have := h.rows; rw [numRows] at this; omega
  simp [bit, entry, row, Array.getElem?_eq_none this]

/-! ## Additions -/

/-- Additions of rows to rows that they may be added to, and nothing else. -/
inductive Adds (may : Nat → Nat → Prop) (s : Reduction) : Reduction → Prop
  | refl : Adds may s s
  | add {t : Reduction} {a b : Nat} (h : Adds may s t) (hab : may a b) : Adds may s (t.add a b)

namespace Adds

variable {may may' : Nat → Nat → Prop} {s t u : Reduction}

lemma trans (h1 : Adds may s t) (h2 : Adds may t u) : Adds may s u := by
  induction h2 with
  | refl => exact h1
  | add _ hab ih => exact ih.add hab

lemma mono (h : ∀ a b, may a b → may' a b) (hs : Adds may s t) : Adds may' s t := by
  induction hs with
  | refl => exact refl
  | add _ hab ih => exact ih.add (h _ _ hab)

variable (h : Adds may s t)
include h

lemma rank_eq : t.rank = s.rank := by
  induction h with
  | refl => rfl
  | add _ _ ih => exact ih

lemma pivots_eq : t.pivots = s.pivots := by
  induction h with
  | refl => rfl
  | add _ _ ih => exact ih

lemma keeps {P : BitMatrix → Prop} (hs : P s.matrix) (step : ∀ m a b, may a b → P m → P (m.addRow a b)) : P t.matrix := by
  induction h with
  | refl => exact hs
  | add _ hab ih => exact step _ _ _ hab ih

end Adds

/-- One row: a row with the same chunk that was met before is added to it. -/
def mergeStep (from_ to_ : Nat) (acc : Reduction × List (List Int × Nat)) (r : Nat) : Reduction × List (List Int × Nat) :=
  let t := acc.1.matrix.chunk r from_ to_
  if t.all (· == 0) then acc
  else
    match acc.2.lookup t with
    | some r0 => (acc.1.add r0 r, acc.2)
    | none => (acc.1, (t, r) :: acc.2)

lemma mergeChunks_adds (may : Nat → Nat → Prop) (from_ to_ : Nat) (rows : List Nat) (h : rows.Pairwise may) (s : Reduction) :
    Adds may s (mergeChunks from_ to_ rows s) := by
  -- The rows remembered may be added to all the rows to come.
  suffices H : ∀ (rows : List Nat) (acc : Reduction × List (List Int × Nat)), rows.Pairwise may →
      (∀ q ∈ acc.2, ∀ x ∈ rows, may q.2 x) → Adds may s acc.1 →
      Adds may s (rows.foldl (mergeStep from_ to_) acc).1 from
    H rows (s, []) h (by simp) Adds.refl
  intro rows
  induction rows with
  | nil => exact fun acc _ _ hs => hs
  | cons x rows ih =>
    intro acc hp hq hs
    obtain ⟨hx, hp⟩ := pairwise_cons.1 hp
    have hq' : ∀ q ∈ acc.2, ∀ y ∈ rows, may q.2 y := fun q hm y hy => hq q hm y (mem_cons_of_mem x hy)
    refine ih _ hp ?_ ?_
    · dsimp only [mergeStep]
      split
      · exact hq'
      split
      · exact hq'
      · exact forall_mem_cons.2 ⟨hx, hq'⟩
    dsimp only [mergeStep]
    split
    · exact hs
    split
    · rename_i q hl
      have hm : ∃ t, (t, q) ∈ acc.2 := by
        generalize acc.2 = l at hl
        induction l with
        | nil => cases hl
        | cons e l ih =>
          obtain ⟨t, y⟩ := e
          rw [lookup_cons] at hl
          split at hl
          · exact ⟨t, by simp [Option.some.inj hl]⟩
          · obtain ⟨t', ht'⟩ := ih hl
            exact ⟨t', mem_cons_of_mem _ ht'⟩
      obtain ⟨t, hm⟩ := hm
      exact hs.add (hq _ hm x (by simp))
    · exact hs

/-- Adds a row to all the listed rows with a bit set in a column. -/
def clear (q p : Nat) (rows : List Nat) (s : Reduction) : Reduction := rows.foldl (fun s x => if s.matrix.bit x p then s.add q x else s) s

lemma clear_spec (q p : Nat) (rows : List Nat) (hr : ∀ x ∈ rows, x < r ∧ x ≠ q) (hd : rows.Nodup) (hq : q < r)
    (hs : s.matrix.Shaped r c) (hp : s.matrix.bit q p) :
    Adds (fun a b => a = q ∧ b ∈ rows) s (clear q p rows s) ∧ (∀ x ∈ rows, (clear q p rows s).matrix.bit x p = false) ∧
      ∀ x, x ∉ rows → ∀ j, (clear q p rows s).matrix.bit x j = s.matrix.bit x j := by
  induction rows generalizing s with
  | nil => exact ⟨Adds.refl, by simp, fun _ _ _ => rfl⟩
  | cons x rows ih =>
    obtain ⟨⟨hx, hxq⟩, hr⟩ := forall_mem_cons.1 hr
    obtain ⟨hxr, hd⟩ := nodup_cons.1 hd
    have wider : ∀ a b, (a = q ∧ b ∈ rows) → a = q ∧ b ∈ x :: rows := fun a b h => ⟨h.1, mem_cons_of_mem x h.2⟩
    by_cases hb : s.matrix.bit x p
    · have hs' : (s.add q x).matrix.Shaped r c := hs.addRow hx
      have hbit := hs.bit_addRow hq hx
      have hp' : (s.add q x).matrix.bit q p := by
        rw [Reduction.add, hbit, if_neg (Ne.symm hxq), hp]
      obtain ⟨h1, h2, h3⟩ := ih hr hd hs' hp'
      have e : clear q p (x :: rows) s = clear q p rows (s.add q x) := by
        rw [clear, foldl_cons, if_pos hb]
        rfl
      rw [e]
      refine ⟨(Adds.refl.add ⟨rfl, by simp⟩).trans (h1.mono wider), forall_mem_cons.2 ⟨?_, h2⟩, fun y hy j => ?_⟩
      · rw [h3 x hxr, Reduction.add, hbit, if_pos rfl, hb, hp]
        rfl
      · rw [mem_cons, not_or] at hy
        rw [h3 y hy.2, Reduction.add, hbit, if_neg hy.1]
    · obtain ⟨h1, h2, h3⟩ := ih hr hd hs hp
      have e : clear q p (x :: rows) s = clear q p rows s := by
        rw [clear, foldl_cons, if_neg hb]
        rfl
      rw [e]
      refine ⟨h1.mono wider, forall_mem_cons.2 ⟨?_, h2⟩, fun y hy j => h3 y (fun h => hy (mem_cons_of_mem x h)) j⟩
      rw [h3 x hxr]
      simpa using hb

lemma mem_rowsFrom {x : Nat} : x ∈ rowsFrom a b ↔ a ≤ x ∧ x < b := by
  rw [rowsFrom, mem_map]
  constructor
  · rintro ⟨y, hy, rfl⟩
    have := mem_range.1 hy
    omega
  · exact fun h => ⟨x - a, mem_range.2 (by omega), by omega⟩

lemma rowsFrom_pairwise (a b : Nat) : (rowsFrom a b).Pairwise (· < ·) := by
  rw [rowsFrom, pairwise_map]
  exact pairwise_lt_range.imp fun h => Nat.add_lt_add_right h a

lemma rowsFrom_cons (h : a < b) : rowsFrom a b = a :: rowsFrom (a + 1) b := by
  obtain ⟨d, rfl⟩ := Nat.exists_eq_add_of_le' h
  rw [rowsFrom, rowsFrom, show d + (a + 1) - a = d + 1 by omega, show d + (a + 1) - (a + 1) = d by omega, range_succ_eq_map,
    map_cons, map_map, Nat.zero_add]
  congr 1
  exact map_congr_left fun x _ => by simp only [Function.comp_apply]; omega

lemma rowsFrom_concat (h : a ≤ b) : rowsFrom a (b + 1) = rowsFrom a b ++ [b] := by
  rw [rowsFrom, rowsFrom, Nat.succ_sub h, range_succ, map_append, map_singleton, Nat.sub_add_cancel h]

/-! ## Stairs -/

/-- The first `p` columns are in echelon form with pivots in the columns `ps`, row by row. -/
structure Echelon (m : BitMatrix) (ps : List Nat) (p : Nat) : Prop where
  ascending : ps.Pairwise (· < ·)
  within : ∀ q ∈ ps, q < p
  lead : ∀ i q, ps[i]? = some q → m.bit i q
  stair : ∀ i j, j < p → m.bit i j → ∃ q, ps[i]? = some q ∧ q ≤ j

namespace Echelon

variable {ps : List Nat}

variable (h : m.Echelon ps p)
include h

lemma zero_of_length_le (hi : ps.length ≤ i) (hj : j < p) : m.bit i j = false := by
  by_contra hb
  obtain ⟨q, hq, -⟩ := h.stair i j hj (by simpa using hb)
  rw [getElem?_eq_none hi] at hq
  cases hq

lemma lt_of_lt {x y : Nat} (hi : ps[i]? = some x) (hj : ps[j]? = some y) (hij : i < j) : x < y := by
  obtain ⟨hi', rfl⟩ := List.getElem?_eq_some_iff.1 hi
  obtain ⟨hj', rfl⟩ := List.getElem?_eq_some_iff.1 hj
  exact pairwise_iff_getElem.1 h.ascending i j hi' hj' hij

lemma addRow_below (hs : m.Shaped r c) (ha : a < r) (hb : b < r) (ha' : ps.length ≤ a)
    (hb' : ps.length ≤ b) : (m.addRow a b).Echelon ps p := by
  refine ⟨h.ascending, h.within, fun i q hq => ?_, fun i j hj hbit => ?_⟩
  · have hi : i ≠ b := fun e => by
      rw [e, getElem?_eq_none hb'] at hq
      cases hq
    rw [hs.bit_addRow ha hb, if_neg hi, h.lead i q hq]
  rw [hs.bit_addRow ha hb] at hbit
  split at hbit
  · rw [h.zero_of_length_le hb' hj, h.zero_of_length_le ha' hj] at hbit
    cases hbit
  · exact h.stair i j hj hbit

lemma addRow_above (hs : m.Shaped r c) (ha : a < r) (hab : b < a) : (m.addRow a b).Echelon ps p := by
  have hb : b < r := hab.trans ha
  refine ⟨h.ascending, h.within, fun i q hq => ?_, fun i j hj hbit => ?_⟩
  · rw [hs.bit_addRow ha hb]
    split
    · rename_i hi
      subst hi
      -- The row that is added starts to the right of the pivot.
      have hz : m.bit a q = false := by
        by_contra hb
        obtain ⟨q', hq', hle⟩ := h.stair a q (h.within q (mem_of_getElem? hq)) (by simpa using hb)
        have := h.lt_of_lt hq hq' hab
        omega
      rw [h.lead _ q hq, hz]
      rfl
    · exact h.lead i q hq
  · rw [hs.bit_addRow ha hb] at hbit
    split at hbit
    · rename_i hi
      subst hi
      by_cases hbj : m.bit i j
      · exact h.stair i j hj hbj
      have haj : m.bit a j := by simpa [Bool.not_eq_true _ ▸ hbj] using hbit
      obtain ⟨q', hq', hle⟩ := h.stair a j hj haj
      obtain ⟨ha', -⟩ := List.getElem?_eq_some_iff.1 hq'
      have hi' := getElem?_eq_getElem (hab.trans ha')
      exact ⟨_, hi', ((h.lt_of_lt hi' hq' hab).trans_le hle).le⟩
    · exact h.stair i j hj hbit

lemma skip (hz : ∀ i, ps.length ≤ i → m.bit i p = false) : m.Echelon ps (p + 1) := by
  refine ⟨h.ascending, fun q hq => Nat.lt_succ_of_lt (h.within q hq), h.lead, fun i j hj hbit => ?_⟩
  obtain hj | rfl := Nat.lt_succ_iff_lt_or_eq.1 hj
  · exact h.stair i j hj hbit
  have hi : i < ps.length := by
    by_contra hi
    rw [hz i (not_lt.1 hi)] at hbit
    cases hbit
  exact ⟨_, getElem?_eq_getElem hi, (h.within _ (getElem_mem hi)).le⟩

lemma next (hb : m.bit ps.length p) (hz : ∀ i, ps.length < i → m.bit i p = false) : m.Echelon (ps ++ [p]) (p + 1) := by
  refine ⟨?_, ?_, fun i q hq => ?_, fun i j hj hbit => ?_⟩
  · exact pairwise_append.2 ⟨h.ascending, pairwise_singleton _ _, fun x hx y hy => by
      rw [mem_singleton.1 hy]
      exact h.within x hx⟩
  · intro q hq
    obtain hq | hq := mem_append.1 hq
    · exact Nat.lt_succ_of_lt (h.within q hq)
    · rw [mem_singleton.1 hq]
      exact Nat.lt_succ_self p
  · rw [getElem?_append] at hq
    split at hq
    · exact h.lead i q hq
    obtain ⟨hi, rfl⟩ := List.getElem?_eq_some_iff.1 hq
    simp only [length_singleton] at hi
    obtain rfl : i = ps.length := by omega
    simpa using hb
  · obtain hlt | rfl | hgt := Nat.lt_trichotomy i ps.length
    · rw [getElem?_append_left hlt]
      obtain hj | rfl := Nat.lt_succ_iff_lt_or_eq.1 hj
      · exact h.stair i j hj hbit
      · exact ⟨_, getElem?_eq_getElem hlt, (h.within _ (getElem_mem hlt)).le⟩
    · obtain hj | rfl := Nat.lt_succ_iff_lt_or_eq.1 hj
      · rw [h.zero_of_length_le le_rfl hj] at hbit
        cases hbit
      · exact ⟨j, by simp, le_rfl⟩
    · obtain hj | rfl := Nat.lt_succ_iff_lt_or_eq.1 hj
      · rw [h.zero_of_length_le hgt.le hj] at hbit
        cases hbit
      · rw [hz i hgt] at hbit
        cases hbit

end Echelon

/-! ## Downwards -/

/-- Different rows of a matrix with `r` rows. -/
def Inside (r a b : Nat) : Prop := a < r ∧ b < r ∧ a ≠ b

/-- The matrix of a reduction is what its additions make of a matrix. -/
structure Made (m : BitMatrix) (r c : Nat) (s : Reduction) : Prop where
  shaped : s.matrix.Shaped r c
  matrix : s.matrix = s.additions.foldl (fun m st => m.addRow st.1 st.2) m
  steps : ∀ st ∈ s.steps, Inside r st.1 st.2

lemma made_start (h : m.Shaped r c) : Made m r c (Reduction.start m) := ⟨h, rfl, by simp [Reduction.start]⟩

lemma Made.add (h : Made m r c s) (hab : Inside r a b) : Made m r c (s.add a b) := by
  refine ⟨h.shaped.addRow hab.2.1, ?_, forall_mem_cons.2 ⟨hab, h.steps⟩⟩
  rw [Reduction.additions, Reduction.add, reverse_cons, foldl_append]
  exact congrArg (·.addRow a b) h.matrix

lemma Made.adds {s t : Reduction} {may : Nat → Nat → Prop} (h : Made m r c s) (ha : Adds may s t)
    (hm : ∀ a b, may a b → Inside r a b) : Made m r c t := by
  induction ha with
  | refl => exact h
  | add _ hab ih => exact ih.add (hm _ _ hab)

/-- An elimination on its way down, with the columns before `p` done. -/
structure Descends (m : BitMatrix) (r c : Nat) (ps : List Nat) (p : Nat) (s : Reduction) : Prop where
  made : Made m r c s
  rank : s.rank = ps.length
  pivots : s.pivots = ps.reverse
  echelon : s.matrix.Echelon ps p

variable {ps : List Nat} {s t : Reduction}

lemma Descends.adds (h : Descends m r c ps p s)
    (ha : Adds (fun a b => Inside r a b ∧ ps.length ≤ a ∧ ps.length ≤ b) s t) : Descends m r c ps p t := by
  refine ⟨h.made.adds ha fun a b hab => hab.1, ha.rank_eq.trans h.rank, ha.pivots_eq.trans h.pivots, ?_⟩
  have := ha.keeps (P := fun m => m.Shaped r c ∧ m.Echelon ps p) ⟨h.made.shaped, h.echelon⟩
    fun m a b hab hm => ⟨hm.1.addRow hab.1.2.1, hm.2.addRow_below hm.1 hab.1.1 hab.1.2.1 hab.2.1 hab.2.2⟩
  exact this.2

lemma clear_rank (p : Nat) (rows : List Nat) (s : Reduction) :
    rows.foldl (fun s x => if s.matrix.bit x p then s.add s.rank x else s) s = clear s.rank p rows s := by
  induction rows generalizing s with
  | nil => rfl
  | cons x rows ih =>
    rw [foldl_cons, ih, clear, clear, foldl_cons]
    split <;> rfl

section

variable (h : Descends m r c ps p s)
include h

lemma Descends.pivotColumn : ∃ ps', Descends m r c ps' (p + 1) (pivotColumn s p) := by
  have hrows := h.made.shaped.rows
  rw [BitMatrix.pivotColumn]
  cases hf : (rowsFrom s.rank s.matrix.numRows).find? fun r => s.matrix.bit r p with
  | none =>
    refine ⟨ps, h.made, h.rank, h.pivots, h.echelon.skip fun i hi => ?_⟩
    by_cases hir : i < r
    · have := find?_eq_none.1 hf i (mem_rowsFrom.2 ⟨h.rank.trans_le hi, hrows ▸ hir⟩)
      simpa using this
    · exact h.made.shaped.bit_eq_false_of_row (not_lt.1 hir)
  | some x =>
    have hx := find?_some hf
    obtain ⟨hx0, hx1⟩ := mem_rowsFrom.1 (mem_of_find?_eq_some hf)
    rw [hrows] at hx1
    rw [h.rank] at hx0
    -- First the next row gets a bit, then the rows below it lose theirs.
    obtain ⟨t, ht, hdt, hbt⟩ : ∃ t, t = (if x = s.rank then s else s.add x s.rank) ∧ Descends m r c ps p t ∧ t.matrix.bit ps.length p := by
      refine ⟨_, rfl, ?_, ?_⟩
      · split
        · exact h
        rename_i hne
        rw [h.rank] at hne ⊢
        exact h.adds (Adds.refl.add ⟨⟨hx1, by omega, hne⟩, hx0, le_rfl⟩)
      split
      · rename_i he
        rw [← h.rank, ← he]
        exact hx
      rename_i hne
      have hfirst : s.matrix.bit s.rank p = false := by
        by_contra hb
        rw [rowsFrom_cons (by rw [h.rank]; omega), find?_cons_of_pos (by simpa using hb)] at hf
        exact hne (Option.some.inj hf).symm
      rw [Reduction.add, h.made.shaped.bit_addRow hx1 (by rw [h.rank]; omega), if_pos h.rank.symm, hfirst, hx]
      rfl
    have hlen : ps.length < r := by omega
    have hrt : t.rank = ps.length := hdt.rank
    dsimp only
    rw [← ht, clear_rank, hrt, hrows]
    have hout : ∀ y ∈ rowsFrom (ps.length + 1) r, y < r ∧ y ≠ ps.length := fun y hy => by
      have := mem_rowsFrom.1 hy
      omega
    obtain ⟨h1, h2, h3⟩ := clear_spec _ _ _ hout ((rowsFrom_pairwise _ _).imp Nat.ne_of_lt) hlen hdt.made.shaped hbt
    have hd := hdt.adds (h1.mono fun a b hab => by
      have := mem_rowsFrom.1 hab.2
      rw [hab.1]
      exact ⟨⟨hlen, this.2, by omega⟩, le_rfl, by omega⟩)
    refine ⟨ps ++ [p], ⟨hd.made.shaped, hd.made.matrix, hd.made.steps⟩, ?_, ?_, hd.echelon.next ?_ fun i hi => ?_⟩
    · rw [length_append]
      exact congrArg (· + 1) hd.rank
    · rw [reverse_append]
      exact congrArg (p :: ·) hd.pivots
    · rw [h3 _ (fun hm => by have := mem_rowsFrom.1 hm; omega), hbt]
    · by_cases hir : i < r
      · exact h2 i (mem_rowsFrom.2 ⟨hi, hir⟩)
      · exact hd.made.shaped.bit_eq_false_of_row (not_lt.1 hir)

lemma Descends.columns (d : Nat) : ∃ ps', Descends m r c ps' (p + d) ((rowsFrom p (p + d)).foldl BitMatrix.pivotColumn s) := by
  induction d with
  | zero =>
    rw [rowsFrom, Nat.add_zero, Nat.sub_self]
    exact ⟨ps, h⟩
  | succ d ih =>
    obtain ⟨ps', h'⟩ := ih
    rw [← Nat.add_assoc, rowsFrom_concat (Nat.le_add_right p d), foldl_append]
    exact h'.pivotColumn

lemma Descends.eliminateSection {to_ : Nat} (hle : p ≤ to_) : ∃ ps', Descends m r c ps' to_ (eliminateSection p to_ s) := by
  have hm : Descends m r c ps p (mergeChunks p to_ (rowsFrom s.rank s.matrix.numRows) s) := by
    refine h.adds ((mergeChunks_adds (fun a b => s.rank ≤ a ∧ a < b ∧ b < s.matrix.numRows) p to_ _ ?_ s).mono ?_)
    · refine (rowsFrom_pairwise _ _).imp_of_mem fun {x y} hx hy hxy => ?_
      exact ⟨(mem_rowsFrom.1 hx).1, hxy, (mem_rowsFrom.1 hy).2⟩
    intro a b hab
    rw [h.rank, h.made.shaped.rows] at hab
    exact ⟨⟨by omega, hab.2.2, by omega⟩, hab.1, by omega⟩
  obtain ⟨d, rfl⟩ := Nat.exists_eq_add_of_le hle
  exact hm.columns d

end

lemma Descends.sections {width : Nat} (hw : 0 < width) (hs : m.Shaped r c) : ∃ ps, Descends m r c ps c
      ((BitMatrix.sections c width).foldl (fun s part => BitMatrix.eliminateSection part.1 part.2 s) (Reduction.start m)) := by
  have some : ∀ n ≤ (c + width - 1) / width, ∃ ps, Descends m r c ps (min c (n * width))
      (((range n).map fun k => (k * width, min c ((k + 1) * width))).foldl
        (fun s part => BitMatrix.eliminateSection part.1 part.2 s) (Reduction.start m)) := by
    intro n
    induction n with
    | zero =>
      intro _
      refine ⟨[], made_start hs, rfl, rfl, List.Pairwise.nil, by simp, by simp, fun i j hj => ?_⟩
      simp at hj
    | succ n ih =>
      intro hn
      obtain ⟨ps, h⟩ := ih (by omega)
      have hlt : n * width < c := by
        have := (Nat.le_div_iff_mul_le hw).1 hn
        rw [Nat.succ_mul] at this
        omega
      rw [Nat.min_eq_right hlt.le] at h
      rw [range_succ, map_append, foldl_append]
      refine h.eliminateSection (Nat.le_min.2 ⟨hlt.le, ?_⟩)
      rw [Nat.succ_mul]
      exact Nat.le_add_right _ _
  obtain ⟨ps, h⟩ := some _ le_rfl
  have hall : c ≤ (c + width - 1) / width * width := by
    have := Nat.div_add_mod (c + width - 1) width
    have := Nat.mod_lt (c + width - 1) hw
    rw [Nat.mul_comm]
    omega
  rw [Nat.min_eq_left hall] at h
  exact ⟨ps, h⟩

/-! ## Upwards -/

/-- An elimination on its way up, with the columns of the pivots from `left` on cleared. -/
structure Ascends (m : BitMatrix) (r c : Nat) (ps : List Nat) (left : Nat) (s : Reduction) : Prop where
  descends : Descends m r c ps c s
  le : left ≤ ps.length
  cleared : ∀ i q, left ≤ i → ps[i]? = some q → ∀ x, x ≠ i → s.matrix.bit x q = false

variable {left : Nat} {acc : Reduction × Nat × List Nat}

lemma Ascends.adds (h : Ascends m r c ps left s) (hr : left ≤ r) (ha : Adds (fun a b => b < a ∧ a < left) s t) :
    Ascends m r c ps left t := by
  have := ha.keeps (P := fun m => m.Shaped r c ∧ m.Echelon ps c ∧ ∀ i q, left ≤ i → ps[i]? = some q → ∀ x, x ≠ i → m.bit x q = false)
    ⟨h.descends.made.shaped, h.descends.echelon, h.cleared⟩ fun m a b hab hm => by
      have har : a < r := by omega
      have hbr : b < r := by omega
      refine ⟨hm.1.addRow hbr, hm.2.1.addRow_above hm.1 har hab.1, fun i q hi hq x hx => ?_⟩
      rw [hm.1.bit_addRow har hbr, hm.2.2 i q hi hq x hx, hm.2.2 i q hi hq a (by omega), hm.2.2 i q hi hq b (by omega)]
      simp
  refine ⟨⟨h.descends.made.adds ha fun a b hab => ⟨by omega, by omega, by omega⟩, ha.rank_eq.trans h.descends.rank,
    ha.pivots_eq.trans h.descends.pivots, this.2.1⟩, h.le, this.2.2⟩

lemma Descends.length_le (h : Descends m r c ps p s) : ps.length ≤ r := by
  by_contra hlt
  have hb := h.echelon.lead r _ (getElem?_eq_getElem (by omega))
  rw [h.made.shaped.bit_eq_false_of_row le_rfl] at hb
  cases hb

lemma Ascends.clear (h : Ascends m r c ps (left + 1) s) {q : Nat} (hq : ps[left]? = some q) :
    Ascends m r c ps left (clear left q (range left) s) := by
  have hr := h.descends.length_le
  have hle := h.le
  have hlr : left < r := by omega
  obtain ⟨h1, h2, h3⟩ := clear_spec left q (range left)
    (fun x hx => by have := mem_range.1 hx; omega) nodup_range hlr h.descends.made.shaped
    (h.descends.echelon.lead left q hq)
  have ha := h.adds (by omega) (h1.mono fun a b hab => by
    have := mem_range.1 hab.2
    omega)
  refine ⟨ha.descends, by omega, fun i q' hi hq' x hx => ?_⟩
  obtain rfl | hi := Nat.eq_or_lt_of_le hi
  · obtain rfl : q = q' := Option.some.inj (hq.symm.trans hq')
    obtain hx | hx := Nat.lt_or_gt_of_ne hx
    · exact h2 x (mem_range.2 hx)
    -- Below the pivot there is nothing because of the stairs.
    by_contra hb
    have hc := ha.descends.echelon.within q (mem_of_getElem? hq)
    obtain ⟨q', hq', hle⟩ := ha.descends.echelon.stair x q hc (by simpa using hb)
    have := ha.descends.echelon.lt_of_lt hq hq' hx
    omega
  · exact ha.cleared i q' hi hq' x hx

lemma Ascends.clearAbove (from_ : Nat) (h : Ascends m r c ps left s) :
    Ascends m r c ps (clearAbove from_ s left (ps.take left).reverse).2.1 (clearAbove from_ s left (ps.take left).reverse).1 ∧
      (clearAbove from_ s left (ps.take left).reverse).2.2 = (ps.take (clearAbove from_ s left (ps.take left).reverse).2.1).reverse ∧
      (from_ = 0 → (clearAbove from_ s left (ps.take left).reverse).2.1 = 0) := by
  induction left generalizing s with
  | zero => exact ⟨h, rfl, fun _ => rfl⟩
  | succ left ih =>
    have hlt : left < ps.length := h.le
    have hq : ps[left]? = some ps[left] := getElem?_eq_getElem hlt
    rw [take_succ_eq_append_getElem hlt, reverse_append, reverse_singleton, singleton_append]
    rw [BitMatrix.clearAbove]
    split
    · exact ih (h.clear hq)
    refine ⟨h, ?_, fun h0 => ?_⟩
    · rw [take_succ_eq_append_getElem hlt, reverse_append, reverse_singleton, singleton_append]
    · omega

/-- One section on the way up: what is reached, how many pivots are left and which. -/
def clearSection (acc : Reduction × Nat × List Nat) (part : Nat × Nat) : Reduction × Nat × List Nat :=
  BitMatrix.clearAbove part.1 (mergeChunks part.1 part.2 (range acc.2.1).reverse acc.1) acc.2.1 acc.2.2

/-- On the way up, with the list of the pivots that are left. -/
def Climbs (m : BitMatrix) (r c : Nat) (ps : List Nat) (acc : Reduction × Nat × List Nat) : Prop :=
  Ascends m r c ps acc.2.1 acc.1 ∧ acc.2.2 = (ps.take acc.2.1).reverse

lemma Climbs.clearSection (h : Climbs m r c ps acc) (part : Nat × Nat) :
    Climbs m r c ps (clearSection acc part) ∧ (part.1 = 0 → (BitMatrix.clearSection acc part).2.1 = 0) := by
  obtain ⟨s, left, todo⟩ := acc
  obtain ⟨h, htodo⟩ := h
  dsimp only at h htodo
  subst htodo
  have hr : left ≤ r := h.le.trans h.descends.length_le
  have hm := h.adds hr (mergeChunks_adds _ part.1 part.2 (range left).reverse (by
    rw [pairwise_reverse]
    exact pairwise_lt_range.imp_of_mem fun {x y} _ hy hxy => ⟨hxy, mem_range.1 hy⟩) s)
  obtain ⟨h1, h2, h3⟩ := hm.clearAbove part.1
  exact ⟨⟨h1, h2⟩, h3⟩

lemma Climbs.sections (parts : List (Nat × Nat)) (h : Climbs m r c ps acc) :
    Climbs m r c ps (parts.foldl BitMatrix.clearSection acc) := by
  induction parts generalizing acc with
  | nil => exact h
  | cons part parts ih => exact ih (h.clearSection part).1

/-- **The elimination.**  It makes row additions that bring the matrix into echelon form, in the full form with nothing but
    the pivots in their columns. -/
theorem reduce_spec (width : Nat) (full : Bool) (hw : 0 < width) (hs : m.Shaped r m.numCols) :
    ∃ ps, Descends m r m.numCols ps m.numCols (reduce full width m) ∧
      (full → ∀ i q, ps[i]? = some q → ∀ x, x ≠ i → (reduce full width m).matrix.bit x q = false) := by
  obtain ⟨ps, h⟩ := Descends.sections hw hs
  refine ⟨ps, ?_⟩
  rw [reduce]
  generalize m.numCols = c at *
  generalize hdown : (sections c width).foldl (fun s part => eliminateSection part.1 part.2 s) (Reduction.start m) = down at *
  cases full with
  | false => exact ⟨h, fun hf => by cases hf⟩
  | true =>
    have start : Climbs m r c ps (down, down.rank, down.pivots) := by
      refine ⟨⟨h, h.rank.le, fun i q hi hq => ?_⟩, ?_⟩
      · rw [getElem?_eq_none (h.rank ▸ hi)] at hq
        cases hq
      · rw [h.pivots, h.rank, take_length]
    have top := start.sections (sections c width).reverse
    refine ⟨top.1.descends, fun _ i q hq => ?_⟩
    -- The leftmost section comes last and leaves no pivot.
    have none_left : ((sections c width).reverse.foldl BitMatrix.clearSection (down, down.rank, down.pivots)).2.1 = 0 := by
      rw [sections]
      cases hn : (c + width - 1) / width with
      | zero =>
        have hc : c = 0 := by
          have := (Nat.div_eq_zero_iff_lt hw).1 hn
          omega
        have hnil : ps = [] := eq_nil_iff_forall_not_mem.2 fun q hq => by
          have := h.echelon.within q hq
          omega
        simpa [hnil] using h.rank
      | succ n =>
        rw [range_succ_eq_map, map_cons, reverse_cons, foldl_append]
        exact ((start.sections _).clearSection _).2 (Nat.zero_mul width)
    exact top.1.cleared i q (none_left.trans_le (Nat.zero_le i)) hq

/-! ## How many additions are made -/

/-- At most `k` additions lead from one elimination of `r` rows to another. -/
def Costs (r k : Nat) (s t : Reduction) : Prop :=
  s.matrix.numRows = r → t.matrix.numRows = r ∧ t.steps.length ≤ s.steps.length + k

namespace Costs

variable {l : Nat} {s t u : Reduction} {α σ : Type}

lemma refl : Costs r k s s := fun h => ⟨h, by omega⟩

lemma add (a b : Nat) : Costs r 1 s (s.add a b) := fun h => ⟨(numRows_addRow _ a b).trans h, by simp [Reduction.add]⟩

lemma trans (h : Costs r k s t) (h' : Costs r l t u) : Costs r (k + l) s u := fun hs => by
  obtain ⟨ht, hk⟩ := h hs
  obtain ⟨hu, hl⟩ := h' ht
  exact ⟨hu, by omega⟩

lemma mono (h : Costs r k s t) (hkl : k ≤ l) : Costs r l s t := fun hs => ⟨(h hs).1, (h hs).2.trans (by omega)⟩

/-- A loop that makes at most `k` additions in each turn. -/
lemma foldl (red : σ → Reduction) {f : σ → α → σ} (as : List α)
    (step : ∀ x, ∀ a ∈ as, Costs r k (red x) (red (f x a))) (x : σ) :
    Costs r (as.length * k) (red x) (red (as.foldl f x)) := by
  induction as generalizing x with
  | nil => exact refl
  | cons a as ih =>
    rw [length_cons, Nat.succ_mul, Nat.add_comm]
    exact (step x a (by simp)).trans (ih (fun x b hb => step x b (by simp [hb])) _)

lemma mergeChunks (from_ to_ : Nat) (rows : List Nat) : Costs r rows.length s (mergeChunks from_ to_ rows s) := by
  refine (foldl Prod.fst rows (fun x a _ => ?_) (s, [])).mono (Nat.mul_one _).le
  dsimp only
  split
  · exact refl
  split
  · exact add _ _
  · exact refl

lemma clear {q : Reduction → Nat} {p : Nat} (rows : List Nat) :
    Costs r rows.length s (rows.foldl (fun s x => if s.matrix.bit x p then s.add (q s) x else s) s) := by
  refine (foldl id rows (fun x a _ => ?_) s).mono (Nat.mul_one _).le
  dsimp only [id]
  split
  · exact add _ _
  · exact refl

lemma pivotColumn (p : Nat) : Costs r (r + 1) s (pivotColumn s p) := fun hs => by
  rw [BitMatrix.pivotColumn]
  dsimp only
  split
  · exact refl hs
  · rename_i x _
    have first : Costs r 1 s (if x = s.rank then s else s.add x s.rank) := by
      split
      · exact refl
      · exact add _ _
    refine ((first.trans (clear (rowsFrom _ s.matrix.numRows))).mono ?_) hs
    rw [rowsFrom, length_map, length_range]
    omega

/-- A section of one column. -/
lemma eliminateSection (hp : b ≤ p + 1) : Costs r (2 * r + 1) s (eliminateSection p b s) := fun hs => by
  refine ((mergeChunks p b (rowsFrom s.rank s.matrix.numRows)).trans
    (foldl id (rowsFrom p b) (fun x a _ => pivotColumn a) _)).mono ?_ hs
  have : (rowsFrom p b).length * (r + 1) ≤ 1 * (r + 1) := Nat.mul_le_mul_right _ (by simp [rowsFrom]; omega)
  simp only [rowsFrom, length_map, length_range] at this ⊢
  omega

end Costs

end ZXCircuits.BitMatrix
