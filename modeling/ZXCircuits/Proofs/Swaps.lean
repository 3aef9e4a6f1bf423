/-
  Permutations of wires as swaps.

  `swapsOf_makeUp`: the swaps found for the table of a permutation of the wires make it up.  They are no more than there are wires
  (`swapsOf_carries`).
-/
import ZXCircuits.Permutation
import ZXCircuits.Proofs.Lanes.Sheet

namespace ZXCircuits

open List Function Equiv Course

variable {n : ℕ} {w : Int} {f : Int → Int}

/-! ## The table of a function -/

def tableOf (n : ℕ) (f : Int → Int) : Table Int Int := (range n).map fun i : ℕ => ((i : Int), f i)

lemma keys_tableOf : Table.keys (tableOf n f) = (range n).map Int.ofNat := map_map ..

lemma values_tableOf : Table.values (tableOf n f) = ((range n).map Int.ofNat).map f := by simp [tableOf, Table.values]

lemma find?_tableOf (hw : OnWire n w) : Table.find? (tableOf n f) w = some (f w) := by
  obtain ⟨k, hk, rfl⟩ := mem_map.1 (mem_wires.2 hw)
  exact Table.find?_of_mem (q := ((k : Int), f k)) (keys_tableOf ▸ nodup_wires) (mem_map_of_mem hk)

lemma insert_tableOf (hw : OnWire n w) (v : Int) : Table.insert (tableOf n f) w v = tableOf n (update f w v) := by
  obtain ⟨k, rfl⟩ := Int.eq_ofNat_of_zero_le hw.1
  have hk : k ∈ range n := mem_range.2 (by have := hw.2; omega)
  rw [tableOf, tableOf]
  have hn := nodup_range (n := n)
  generalize range n = is at hk hn
  induction is with
  | nil => simp at hk
  | cons i is ih =>
    obtain ⟨hi, hn⟩ := nodup_cons.1 hn
    rw [map_cons, map_cons, Table.insert]
    by_cases e : i = k
    · subst e
      rw [if_pos rfl, update_self]
      congr 1
      refine map_congr_left fun j hj => ?_
      have : (j : Int) ≠ i := fun e => hi (by rw [← Int.ofNat.inj e]; exact hj)
      rw [update_of_ne this]
    · have e' : (i : Int) ≠ k := by exact_mod_cast e
      rw [if_neg e', ih ((mem_cons.1 hk).resolve_left (Ne.symm e)) hn, update_of_ne e']

variable (t : Table Int Int)

lemma keys_swap : Table.keys (t.map Prod.swap) = Table.values t := map_map ..

lemma values_swap : Table.values (t.map Prod.swap) = Table.keys t := map_map ..

lemma foldl_insert_swap {t : Table Int Int} : ∀ {u : Table Int Int}, (Table.keys u ++ Table.values t).Nodup →
    t.foldl (fun u kv => Table.insert u kv.2 kv.1) u = u ++ t.map Prod.swap := by
  induction t with
  | nil => simp
  | cons kv t ih =>
    intro u hu
    have new : kv.2 ∉ Table.keys u := fun h => (nodup_append.1 hu).2.2 _ h _ mem_cons_self rfl
    rw [foldl_cons, Table.insert_of_not_mem new, ih, append_assoc]
    · rfl
    · simpa [Table.keys, Table.values] using hu

/-! ## Swaps -/

lemma update_swap (σ : Perm Int) (c t : Int) : update (update (σ : Int → Int) c (σ t)) t (σ c) = ⇑(σ * swap c t) := by
  funext w
  by_cases hwt : w = t
  · subst hwt; simp
  by_cases hwc : w = c
  · subst hwc; simp [hwt]
  · simp [hwt, hwc, swap_apply_of_ne_of_ne hwc hwt]

namespace Permutation

/-- Few swaps of different wires that make up a permutation. -/
structure MakeUp (n : ℕ) (σ : Perm Int) (swaps : List (Nat × Int)) : Prop where
  length_le : swaps.length ≤ n
  onWire : ∀ q ∈ swaps, OnWire n (q.1 : Int) ∧ OnWire n q.2 ∧ (q.1 : Int) ≠ q.2
  motion : motionOf (swaps.map fun q => Gate.swap q.1 q.2) = carry σ

lemma MakeUp.course {σ : Perm Int} {swaps : List (Nat × Int)} (h : MakeUp n σ swaps) :
    courseOf (swaps.map fun q => Gate.swap q.1 q.2) = perm σ := by
  rw [← of_motionOf, h.motion]
  rfl

lemma carry_mul (σ τ : Perm Int) : carry σ * carry τ = carry (σ * τ) := rfl

lemma onWire_of_apply {σ : Perm Int} (hσ : ∀ w, ¬ OnWire n w → σ w = w) (hw : OnWire n (σ w)) : OnWire n w :=
  by_contra fun hn => hn (hσ w hn ▸ hw)

/-- After the first `i` positions have been set right: what is left to do is the permutation `τ`. -/
structure Settled (n : ℕ) (σ τ : Equiv.Perm Int) (i : ℕ) (s : Pending) : Prop where
  forward_size : s.forward.size = n
  backward_size : s.backward.size = n
  forward : ∀ j : ℕ, i ≤ j → j < n → s.forward[j]? = some (τ j)
  backward : ∀ j : ℕ, i ≤ j → j < n → s.backward[j]? = some (τ.symm j)
  fixed : ∀ w, ¬ OnWire n w → τ w = w
  done : ∀ j : ℕ, j < i → τ j = j
  swaps : ∀ q ∈ s.swaps, OnWire n (q.1 : Int) ∧ OnWire n q.2 ∧ (q.1 : Int) ≠ q.2
  length : s.swaps.length ≤ i
  motion : carry τ * motionOf (s.swaps.reverse.map fun q => Gate.swap q.1 q.2) = carry σ

lemma exists_later {τ : Perm Int} {i : ℕ} (fixed : ∀ w, ¬ OnWire n w → τ w = w) (done : ∀ j : ℕ, j < i → τ j = j) (hi : i < n)
    (h1 : τ i ≠ i) : ∃ a : ℕ, τ i = a ∧ i < a ∧ a < n := by
  have hon : OnWire n (τ i) := by_contra fun hn => by
    have e := τ.injective (fixed _ hn)
    exact hn (e.symm ▸ ⟨by omega, by exact_mod_cast hi⟩)
  obtain ⟨a, ha⟩ : ∃ a : ℕ, τ i = a := Int.eq_ofNat_of_zero_le hon.1
  refine ⟨a, ha, ?_, by have := hon.2; omega⟩
  by_contra hn
  rcases (not_lt.1 hn).lt_or_eq with hn | rfl
  · exact hn.ne (Int.ofNat.inj (τ.injective ((done a hn).trans ha.symm)))
  · exact h1 ha

section

variable {σ τ : Perm Int} {i : ℕ} {s : Pending} (h : Settled n σ τ i s) (hi : i < n)
include h hi

lemma Settled.trade {a b : ℕ} (ha : τ i = a) (hb : τ.symm i = b) (han : a < n) (hib : i < b) (hbn : b < n) :
    Settled n σ (τ * swap (i : Int) b) (i + 1) ⟨s.forward.setIfInBounds b a, s.backward.setIfInBounds a b, (i, b) :: s.swaps⟩ := by
  have hτb : τ b = i := by rw [← hb, apply_symm_apply]
  have hon : OnWire n (i : Int) := ⟨by omega, by exact_mod_cast hi⟩
  have honb : OnWire n (b : Int) := ⟨by omega, by exact_mod_cast hbn⟩
  have hsi : swap (i : Int) b i = b := swap_apply_left _ _
  have hsb : swap (i : Int) b b = i := swap_apply_right _ _
  refine ⟨by simp [h.forward_size], by simp [h.backward_size], fun j hj hjn => ?_, fun j hj hjn => ?_, fun w hw => ?_, fun j hj => ?_,
    forall_mem_cons.2 ⟨⟨hon, honb, by omega⟩, h.swaps⟩, Nat.succ_le_succ h.length, ?_⟩
  · rw [Perm.mul_apply]
    by_cases hjb : j = b
    · subst hjb
      simp [h.forward_size, hbn, hsb, ha]
    · rw [swap_apply_of_ne_of_ne (by omega) (by omega), Array.getElem?_setIfInBounds_ne (Ne.symm hjb), h.forward j (by omega) hjn]
  · rw [Perm.mul_def, symm_trans_apply, symm_swap]
    by_cases hja : j = a
    · subst hja
      rw [← ha, symm_apply_apply, hsi]
      simp [h.backward_size, han]
    have h2 : τ.symm j ≠ b := fun e => by
      have : (j : Int) = i := by rw [← hτb, ← e, apply_symm_apply]
      omega
    have h3 : τ.symm j ≠ i := fun e => by
      have : (j : Int) = a := by rw [← ha, ← e, apply_symm_apply]
      omega
    rw [swap_apply_of_ne_of_ne h3 h2, Array.getElem?_setIfInBounds_ne (Ne.symm hja), h.backward j (by omega) hjn]
  · have hwi : w ≠ i := fun e => hw (e ▸ hon)
    have hwb : w ≠ b := fun e => hw (e ▸ honb)
    rw [Perm.mul_apply, swap_apply_of_ne_of_ne hwi hwb, h.fixed w hw]
  · rw [Perm.mul_apply]
    by_cases hji : j = i
    · rw [hji, hsi, hτb]
    · rw [swap_apply_of_ne_of_ne (by omega) (by omega), h.done j (by omega)]
  · -- the swap undoes what it adds to the permutation still to be made
    have e : carry (τ * swap (i : Int) b) * carry (swap (i : Int) b) = carry τ := by
      rw [carry_mul, mul_assoc, swap_mul_self, mul_one]
    rw [reverse_cons, map_append, motionOf_append]
    exact (congrArg (· * _) e).trans h.motion

lemma settle_spec : ∃ s' τ', settle s i = .ok s' ∧ Settled n σ τ' (i + 1) s' := by
  rw [settle, h.forward i le_rfl hi]
  simp only [orOutOfRange, bind, Except.bind]
  by_cases h1 : τ i = i
  · refine ⟨s, τ, by simp [h1, pure, Except.pure], { h with
      forward := fun j hj => h.forward j (by omega)
      backward := fun j hj => h.backward j (by omega)
      length := h.length.trans (Nat.le_succ i)
      done := fun j hj => ?_ }⟩
    rcases Nat.lt_succ_iff_lt_or_eq.1 hj with hj | rfl
    · exact h.done j hj
    · exact h1
  obtain ⟨a, ha, -, han⟩ := exists_later h.fixed h.done hi h1
  obtain ⟨b, hb, hib, hbn⟩ := exists_later (fun w hw => τ.symm_apply_eq.2 (h.fixed w hw).symm)
    (fun j hj => τ.symm_apply_eq.2 (h.done j hj).symm) hi fun e => h1 (τ.symm_apply_eq.1 e).symm
  rw [h.backward i le_rfl hi, if_neg h1]
  simp only [ha, hb, h.forward_size, h.backward_size]
  rw [if_neg (by omega), if_neg (by omega)]
  exact ⟨_, _, rfl, h.trade hi ha hb han hib hbn⟩

end

lemma mapM_ok {α β : Type} {f : α → Attempt β} {g : α → β} (xs : List α) (h : ∀ x ∈ xs, f x = .ok (g x)) :
    xs.mapM f = .ok (xs.map g) := by
  induction xs with
  | nil => rfl
  | cons x xs ih =>
    rw [mapM_cons, h x (by simp), ih (forall_mem_cons.1 h).2]
    rfl

variable {σ : Perm Int}

lemma settle_fold (k : ℕ) : ∀ {τ : Perm Int} {i : ℕ} {s : Pending}, Settled n σ τ i s → i + k = n →
    ∃ s' τ', (range' i k).foldlM settle s = .ok s' ∧ Settled n σ τ' n s' := by
  induction k with
  | zero =>
    rintro τ i s h rfl
    exact ⟨s, τ, rfl, h⟩
  | succ k ih =>
    intro τ i s h hi
    obtain ⟨s1, τ1, e, h1⟩ := settle_spec h (by omega)
    obtain ⟨s', τ', e', h'⟩ := ih h1 (by omega)
    exact ⟨s', τ', by rw [range'_succ, foldlM_cons, e]; exact e', h'⟩

variable (hσ : ∀ w, ¬ OnWire n w → σ w = w)
include hσ

lemma settle_all : ∃ s, (range n).foldlM settle
      ⟨((range n).map fun i : ℕ => σ i).toArray, ((range n).map fun i : ℕ => σ.symm i).toArray, []⟩ = .ok s ∧
    MakeUp n σ s.swaps.reverse := by
  have start : Settled n σ σ 0 ⟨((range n).map fun i : ℕ => σ i).toArray, ((range n).map fun i : ℕ => σ.symm i).toArray, []⟩ :=
    ⟨by simp, by simp, fun j _ hj => by simp [hj], fun j _ hj => by simp [hj], hσ, by simp, by simp, le_rfl, mul_one _⟩
  obtain ⟨s, τ, e, hs⟩ := settle_fold n start (by omega)
  rw [← range_eq_range'] at e
  have hτ : τ = 1 := by
    ext w
    by_cases hw : OnWire n w
    · obtain ⟨k, rfl⟩ := Int.eq_ofNat_of_zero_le hw.1
      exact hs.done k (by have := hw.2; omega)
    · exact hs.fixed w hw
  subst hτ
  exact ⟨s, e, by simpa using hs.length, fun q hq => hs.swaps q (mem_reverse.1 hq), hs.motion⟩

/-- **The swaps found for the table of a permutation make it up.** -/
theorem swapsOf_makeUp {t : Table Int Int} (hk : (Table.keys t).Perm ((range n).map Int.ofNat)) (ht : ∀ kv ∈ t, σ kv.1 = kv.2) :
    ∃ swaps, swapsOf t = .ok swaps ∧ MakeUp n σ swaps := by
  have keys : (Table.keys t).Nodup := hk.nodup_iff.2 nodup_wires
  have values : (Table.values t).Nodup := by
    have e : Table.values t = (Table.keys t).map σ := by
      rw [Table.keys, map_map]
      exact map_congr_left fun kv h => (ht kv h).symm
    exact e ▸ keys.map σ.injective
  have entry : ∀ {w}, OnWire n w → (w, σ w) ∈ t := fun hw => by
    obtain ⟨kv, hkv, rfl⟩ := mem_map.1 (hk.mem_iff.2 (mem_wires.2 hw))
    rwa [ht kv hkv]
  have size : t.length = n := by simpa [Table.keys] using hk.length_eq
  have inside : ∀ i ∈ range n, OnWire n (i : Int) := fun i hi => mem_wires.1 (mem_map_of_mem hi)
  have forward := mapM_ok (f := fun i : ℕ => orAbsent (t.find? i)) (range n)
    fun i hi => by rw [Table.find?_of_mem keys (entry (inside i hi))]; rfl
  have backward := mapM_ok (f := fun i : ℕ => orAbsent (Table.find? (t.map Prod.swap) i)) (range n)
    fun i hi => by
      have hon : OnWire n (σ.symm i) := onWire_of_apply hσ (by rw [apply_symm_apply]; exact inside i hi)
      have back : ((i : Int), σ.symm i) ∈ t.map Prod.swap := mem_map.2 ⟨_, entry hon, by simp⟩
      rw [Table.find?_of_mem (keys_swap t ▸ values) back]
      rfl
  obtain ⟨s, e, hs⟩ := settle_all hσ
  refine ⟨s.swaps.reverse, ?_, hs⟩
  rw [swapsOf, foldl_insert_swap (by simpa [Table.keys] using values), nil_append, size, forward]
  simp only [bind, Except.bind, length_map, size, backward]
  rw [e]
  rfl

omit hσ

/-! ## Where a table sends a wire -/

def follow (t : Table Int Int) (w : Int) : Int := (t.find? w).getD w

lemma follow_of_mem {t : Table Int Int} (hn : (Table.keys t).Nodup) {kv : Int × Int} (h : kv ∈ t) : follow t kv.1 = kv.2 := by
  rw [follow, Table.find?_of_mem hn h]
  rfl

lemma follow_of_not_mem {t : Table Int Int} (h : w ∉ Table.keys t) : follow t w = w := by
  rw [follow, (Table.find?_eq_none_iff t w).2 h]
  rfl

lemma follow_back {t : Table Int Int} (hk : (Table.keys t).Nodup) (h : (Table.values t).Perm (Table.keys t)) (w : Int) :
    follow (t.map Prod.swap) (follow t w) = w := by
  by_cases hw : w ∈ Table.keys t
  · obtain ⟨kv, hkv, rfl⟩ := mem_map.1 hw
    rw [follow_of_mem hk hkv]
    exact follow_of_mem (keys_swap t ▸ h.nodup_iff.2 hk) (mem_map_of_mem hkv)
  · rw [follow_of_not_mem hw, follow_of_not_mem (keys_swap t ▸ fun hv => hw (h.mem_iff.1 hv))]

/-- **Swaps that carry every wire to its place.**  For the table of any permutation of `n` positions, written in any order, there are
at most `n` swaps of different positions, and as gates in their order they move the content of each wire to the position the table
gives for it. -/
theorem swapsOf_carries {t : Table Int Int} (hk : (Table.keys t).Perm ((range n).map Int.ofNat))
    (hv : (Table.values t).Perm ((range n).map Int.ofNat)) :
    ∃ swaps, swapsOf t = .ok swaps ∧ swaps.length ≤ n ∧
      (∀ q ∈ swaps, OnWire n (q.1 : Int) ∧ OnWire n q.2 ∧ (q.1 : Int) ≠ q.2) ∧
      ∀ ψ y, motionOf (swaps.map fun q => Gate.swap q.1 q.2) ψ y = ψ fun w => y ((t.find? w).getD w) := by
  have keys : (Table.keys t).Nodup := hk.nodup_iff.2 nodup_wires
  have back := follow_back (t := t.map Prod.swap) (keys_swap t ▸ hv.nodup_iff.2 nodup_wires)
    (keys_swap t ▸ values_swap t ▸ hk.trans hv.symm)
  let σ : Perm Int := ⟨follow t, follow (t.map Prod.swap), follow_back keys (hv.trans hk.symm), fun w => by simpa using back w⟩
  have off : ∀ w, ¬ OnWire n w → σ w = w := fun w hw => follow_of_not_mem fun h => hw (mem_wires.1 (hk.mem_iff.1 h))
  obtain ⟨swaps, e, hs⟩ := swapsOf_makeUp (σ := σ) off hk fun kv h => follow_of_mem keys h
  exact ⟨swaps, e, hs.length_le, hs.onWire, fun ψ y => by rw [hs.motion]; rfl⟩

theorem swapsOf_carries_round : ∃ swaps, swapsOf [(2, 0), (0, 1), (1, 2)] = .ok swaps ∧ swaps.length ≤ 3 ∧
    (∀ q ∈ swaps, OnWire 3 (q.1 : Int) ∧ OnWire 3 q.2 ∧ (q.1 : Int) ≠ q.2) ∧ ∀ ψ y,
      motionOf (swaps.map fun q => Gate.swap q.1 q.2) ψ y = ψ fun w => y ((Table.find? [(2, 0), (0, 1), (1, 2)] w).getD w) :=
  swapsOf_carries (by decide) (by decide)

end Permutation

end ZXCircuits
