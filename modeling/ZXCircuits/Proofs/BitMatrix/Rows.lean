/-
  Rows as vectors over the field of two elements.

  The first rows are brought into a form where each leads at a place of its own (`Led`); then a row is a sum of them exactly if
  it can be cleared.
-/
import ZXCircuits.BitMatrix.Minimal
import ZXCircuits.Proofs.BitMatrix.Reduced

namespace ZXCircuits.BitMatrix

open List Submodule

variable {m : BitMatrix} {r c a b i k n p q : Nat} {s t : Leading} {own : Option Nat}

def line (m : BitMatrix) (c i : Nat) : Fin c → ZMod 2 := fun j => if m.bit i j then 1 else 0

/-- The sums of the first `p` rows. -/
def sums (m : BitMatrix) (c p : Nat) : Submodule (ZMod 2) (Fin c → ZMod 2) := span (ZMod 2) (m.line c '' Set.Iio p)

lemma Shaped.line_addRow (h : m.Shaped r c) (ha : a < r) (hb : b < r) (i : Nat) :
    (m.addRow a b).line c i = if i = b then m.line c b + m.line c a else m.line c i := by
  ext j
  rw [line, h.bit_addRow ha hb]
  split
  · rw [Pi.add_apply, line, line]
    cases m.bit b j <;> cases m.bit a j <;> decide
  · rfl

lemma sums_succ (m : BitMatrix) (c p : Nat) : m.sums c (p + 1) = span (ZMod 2) {m.line c p} ⊔ m.sums c p := by
  rw [sums, sums, ← span_insert, ← Set.image_insert_eq]
  congr 2
  ext
  simp

/-! ## Leading bits -/

def Leads (v : Fin c → ZMod 2) (i : Nat) : Prop := ∃ h : i < c, v ⟨i, h⟩ ≠ 0 ∧ ∀ j : Fin c, j < i → v j = 0

lemma leads_of_leadingBitOf (hs : m.Shaped r c) (hk : k < r) (h : m.leadingBitOf k = some i) : Leads (m.line c k) i := by
  obtain ⟨hi, hb, hz⟩ := findIdx?_eq_some_iff_getElem.1 h
  rw [getElem_row] at hb
  refine ⟨by simpa [hs.cols k hk] using hi, by simp [line, hb], fun j hj => ?_⟩
  have := hz j hj
  rw [getElem_row] at this
  simp [line, this]

lemma line_of_leadingBitOf (hs : m.Shaped r c) (hk : k < r) (h : m.leadingBitOf k = none) : m.line c k = 0 := by
  ext j
  have hj : j < (m.row k).toList.length := by simp [hs.cols k hk]
  have := findIdx?_eq_none_iff.1 h _ (getElem_mem hj)
  rw [getElem_row] at this
  simp [line, this]

/-- Vectors that lead at places of their own add up to vectors that lead at one of these places. -/
lemma exists_lead_of_mem_span {w : Nat → Fin c → ZMod 2} {lead : Nat → Nat} (hw : ∀ a < p, Leads (w a) (lead a))
    (own : Set.InjOn lead (Set.Iio p)) {v : Fin c → ZMod 2} (hv : v ∈ span (ZMod 2) (w '' Set.Iio p))
    (hi : Leads v i) : ∃ a < p, lead a = i := by
  rw [← Finset.coe_range, mem_span_image_finset_iff_exists_fun'] at hv
  obtain ⟨f, rfl⟩ := hv
  obtain ⟨hic, hne, hz⟩ := hi
  simp only [Finset.sum_apply, Pi.smul_apply, smul_eq_mul] at hne hz
  obtain ⟨b, hb, hfb⟩ := Finset.exists_ne_zero_of_sum_ne_zero hne
  have hb : b ∈ (Finset.range p).filter (f · ≠ 0) := Finset.mem_filter.2 ⟨hb, left_ne_zero_of_mul hfb⟩
  -- Of the vectors in the sum, the one that leads first leads the sum.
  obtain ⟨a, ha, least⟩ := Finset.exists_min_image _ lead ⟨b, hb⟩
  simp only [Finset.mem_filter, Finset.mem_range] at ha hb least
  obtain ⟨hac, hwa, -⟩ := hw a ha.1
  have hle : lead a ≤ i := (least b hb).trans (not_lt.1 fun hlt => right_ne_zero_of_mul hfb ((hw b hb.1).2.2 _ hlt))
  refine ⟨a, ha.1, hle.antisymm (not_lt.1 fun hlt => mul_ne_zero ha.2 hwa ?_)⟩
  refine (Finset.sum_eq_single_of_mem a (Finset.mem_range.2 ha.1) fun d hd hda => ?_).symm.trans (hz ⟨lead a, hac⟩ hlt)
  have hd := Finset.mem_range.1 hd
  by_cases hfd : f d = 0
  · rw [hfd, zero_mul]
  · have hlt := (least d ⟨hd, hfd⟩).lt_of_ne fun e => hda (own hd ha.1 e.symm)
    rw [(hw d hd).2.2 _ hlt, mul_zero]

/-! ## Rows that are sums of the first rows -/

/-- The first `p` rows lead at places of their own, which are recorded, and span what those of `m` do. -/
structure Led (m : BitMatrix) (r c p : Nat) (s : Leading) : Prop where
  shaped : s.matrix.Shaped r c
  sums : s.matrix.sums c p = m.sums c p
  leads : ∀ i a, s.taken.lookup i = some a → a < p ∧ Leads (s.matrix.line c a) i
  all : ∀ a < p, ∃ i, s.taken.lookup i = some a

/-- A row brought from `s` to `t` by adding some of the first rows: it is zero, or it leads at a place of its own. -/
structure Cleared (m : BitMatrix) (r c p k : Nat) (s t : Leading) (own : Option Nat) : Prop where
  led : Led m r c p t
  others : ∀ i, i ≠ k → t.matrix.line c i = s.matrix.line c i
  moved : t.matrix.line c k - s.matrix.line c k ∈ m.sums c p
  zero : own = none → t.matrix.line c k = 0
  leads : ∀ i, own = some i → t.taken.lookup i = none ∧ Leads (t.matrix.line c k) i

lemma Led.addRow (h : Led m r c p s) (ha : a < p) (hp : p ≤ k) (hk : k < r) : Led m r c p { s with matrix := s.matrix.addRow a k } := by
  have row : ∀ i < p, (s.matrix.addRow a k).line c i = s.matrix.line c i := fun i hi => by
    rw [h.shaped.line_addRow (by omega) hk, if_neg (by omega)]
  refine ⟨h.shaped.addRow hk, (congrArg _ (Set.image_congr row)).trans h.sums, fun i b hb => ?_, h.all⟩
  obtain ⟨hbp, hl⟩ := h.leads i b hb
  exact ⟨hbp, (row b hbp).symm ▸ hl⟩

/-- Each addition moves the leading bit to the right, so the steps suffice. -/
lemma Led.clearTaken {f : Nat} (h : Led m r c p s) (hp : p ≤ k) (hk : k < r) (hz : ∀ j : Fin c, j + f ≤ c → s.matrix.line c k j = 0) :
    Cleared m r c p k s (clearTaken f k s).1 (clearTaken f k s).2 := by
  have same : s.matrix.line c k - s.matrix.line c k ∈ m.sums c p := by simp
  induction f generalizing s with
  | zero => exact ⟨h, fun _ _ => rfl, same, fun _ => funext fun j => hz j j.2.le, nofun⟩
  | succ f ih =>
    rw [BitMatrix.clearTaken]
    split
    · exact ⟨h, fun _ _ => rfl, same, fun _ => line_of_leadingBitOf h.shaped hk ‹_›, nofun⟩
    rename_i i hi
    have hl := leads_of_leadingBitOf h.shaped hk hi
    split
    · exact ⟨h, fun _ _ => rfl, same, nofun, fun j e => Option.some.inj e ▸ ⟨‹_›, hl⟩⟩
    rename_i a ha
    obtain ⟨hap, hla⟩ := h.leads i a ha
    have row := h.shaped.line_addRow (hap.trans_le (hp.trans hk.le)) hk
    have hlate : c ≤ i + f := not_lt.1 fun hlt => hl.2.1 (hz _ (by simp; omega))
    have step := ih (h.addRow hap hp hk) (fun j hj => ?_) (by simp)
    · refine ⟨step.led, fun x hx => (step.others x hx).trans ?_, ?_, step.zero, step.leads⟩
      · rw [row, if_neg hx]
      have moved := step.moved
      rw [row, if_pos rfl, ← sub_sub] at moved
      rw [← sub_add_cancel (_ - _) (s.matrix.line c a)]
      exact add_mem moved (h.sums ▸ subset_span ⟨a, hap, rfl⟩)
    rw [row, if_pos rfl, Pi.add_apply]
    obtain hji | rfl : j < i ∨ j = ⟨i, hl.1⟩ := by
      rw [Fin.ext_iff]
      simp
      omega
    · rw [hl.2.2 j hji, hla.2.2 j hji, add_zero]
    · exact (by decide : ∀ x y : ZMod 2, x ≠ 0 → y ≠ 0 → x + y = 0) _ _ hl.2.1 hla.2.1

lemma span_singleton_sup_le {V : Type} [AddCommGroup V] [Module (ZMod 2) V] {U : Submodule (ZMod 2) V} {x y : V} (h : x - y ∈ U) :
    span (ZMod 2) {x} ⊔ U ≤ span (ZMod 2) {y} ⊔ U := by
  refine sup_le ((span_singleton_le_iff_mem _ _).2 ?_) le_sup_right
  rw [← sub_add_cancel x y]
  exact add_mem (mem_sup_right h) (mem_sup_left (mem_span_singleton_self y))

lemma Cleared.take (h : Cleared m r c p p s t (some i)) (hs : s.matrix.line c p = m.line c p) :
    Led m r c (p + 1) { t with taken := (i, p) :: t.taken } := by
  obtain ⟨hnone, hl⟩ := h.leads i rfl
  refine ⟨h.led.shaped, ?_, fun j a hj => ?_, fun a ha => ?_⟩
  · have moved := hs ▸ h.moved
    rw [sums_succ, sums_succ, h.led.sums]
    exact (span_singleton_sup_le moved).antisymm (span_singleton_sup_le (neg_sub (t.matrix.line c p) _ ▸ neg_mem moved))
  · rw [lookup_cons] at hj
    split at hj
    · obtain rfl := Option.some.inj hj
      exact ⟨p.lt_succ_self, eq_of_beq ‹_› ▸ hl⟩
    · obtain ⟨hap, ha⟩ := h.led.leads j a hj
      exact ⟨hap.trans p.lt_succ_self, ha⟩
  · obtain hap | rfl := Nat.lt_succ_iff_lt_or_eq.1 ha
    · obtain ⟨j, hj⟩ := h.led.all a hap
      have hne : (j == i) = false := beq_false_of_ne fun e => by simp [e, hnone] at hj
      exact ⟨j, by rw [lookup_cons, hne, hj]⟩
    · exact ⟨i, by simp⟩

lemma takeLeading_makes (hs : m.Shaped r c) (hc : m.numCols = c) (hq : q ≤ r) (hi : ∀ p < q, m.line c p ∉ m.sums c p) :
    Makes (takeLeading q m) fun s => Led m r c q s ∧ ∀ i, q ≤ i → s.matrix.line c i = m.line c i := by
  induction q with
  | zero => exact .pure ⟨⟨hs, rfl, nofun, nofun⟩, fun _ _ => rfl⟩
  | succ q ih =>
    rw [takeLeading, range_succ, foldlM_append]
    refine (ih (by omega) fun p hp => hi p (by omega)).bind fun s ⟨led, rest⟩ => ?_
    rw [foldlM_cons]
    dsimp only
    rw [led.shaped.rows, if_neg (by omega)]
    have clear := led.clearTaken (f := m.numCols + 1) le_rfl hq (by omega)
    generalize clearTaken (m.numCols + 1) q s = out at clear
    obtain ⟨t, _ | i⟩ := out
    · -- A row that vanishes is in the span of the rows before it.
      have moved := clear.moved
      rw [clear.zero rfl, rest q le_rfl, zero_sub, neg_mem_iff] at moved
      exact (hi q (by omega) moved).elim
    · refine .pure ⟨clear.take (rest q le_rfl), fun j hj => ?_⟩
      exact (clear.others j (by omega)).trans (rest j (by omega))

lemma Cleared.mem_sums_iff (h : Cleared m r c q k s t own) (hs : s.matrix.line c k = m.line c k) :
    m.line c k ∈ m.sums c q ↔ own = none := by
  have moved := hs ▸ h.moved
  rw [← Submodule.add_mem_iff_right _ moved, sub_add_cancel]
  cases own with
  | none => simp [h.zero rfl]
  | some i =>
    obtain ⟨hnone, hl⟩ := h.leads i rfl
    refine iff_of_false (fun ht => ?_) nofun
    rw [← h.led.sums] at ht
    choose! lead hlead using h.led.all
    obtain ⟨a, ha, rfl⟩ := exists_lead_of_mem_span (fun a ha => (h.led.leads _ a (hlead a ha)).2)
      (fun a ha b hb e => Option.some.inj ((hlead a ha).symm.trans (e ▸ hlead b hb))) ht hl
    cases hnone.symm.trans (hlead a ha)

open scoped Classical in
lemma Led.firstCleared (h : Led m r c q s) (hq : q ≤ p) (hr : p + n = r) (rest : ∀ i, p ≤ i → s.matrix.line c i = m.line c i) :
    (firstCleared (c + 1) (List.range' p n) s).1 = (List.range' p n).find? fun k => m.line c k ∈ m.sums c q := by
  induction n generalizing p s with
  | zero => rfl
  | succ n ih =>
    rw [range'_succ, BitMatrix.firstCleared, find?_cons]
    have clear := h.clearTaken (f := c + 1) hq (by omega) (by omega)
    have iff := clear.mem_sums_iff (rest p le_rfl)
    generalize BitMatrix.clearTaken (c + 1) p s = out at clear iff
    obtain ⟨t, _ | j⟩ := out
    · simp [iff.2 rfl]
    · rw [decide_eq_false fun hin => nomatch iff.1 hin]
      exact ih clear.led (by omega) (by omega) fun i hi => (clear.others i (by omega)).trans (rest i (by omega))

/-- **Rows that are sums of the first rows.**  If these are independent, the first such row after them is found. -/
theorem reduceBottomRows_first (hm : m.Bits r m.numCols) (hq : q ≤ r)
    (hi : LinearIndepOn (ZMod 2) (m.line m.numCols) (Set.Iio q)) :
    (∃ k t, m.reduceBottomRows q = .ok (k, t) ∧ IsLeast {k | q ≤ k ∧ k < r ∧ m.line m.numCols k ∈ m.sums m.numCols q} k) ∨
      (m.reduceBottomRows q = .error .noReducibleRow ∧ ∀ k, q ≤ k → k < r → m.line m.numCols k ∉ m.sums m.numCols q) := by
  classical
  have hi : ∀ p < q, m.line m.numCols p ∉ m.sums m.numCols p := fun p hp =>
    (hi.mono (Set.insert_subset hp (Set.Iio_subset_Iio hp.le))).notMem_span_of_insert (by simp)
  obtain ⟨s, e, led, rest⟩ := takeLeading_makes hm.shaped rfl hq hi
  have first := led.firstCleared le_rfl (Nat.add_sub_of_le hq) rest
  rw [reduceBottomRows, e, hm.shaped.rows, map_congr_left (g := (q + ·)) fun _ _ => Nat.add_comm .., ← range'_eq_map_range]
  simp only [bind, Except.bind]
  generalize BitMatrix.firstCleared (m.numCols + 1) (List.range' q (r - q)) s = out at first
  obtain ⟨_ | k, t⟩ := out
  · refine .inr ⟨rfl, fun i h1 h2 => ?_⟩
    simpa using find?_eq_none.1 first.symm i (mem_range'_1.2 ⟨h1, by omega⟩)
  obtain ⟨hin, hmem, hfirst⟩ := find?_range'_eq_some.1 first.symm
  have := mem_range'_1.1 hmem
  refine .inl ⟨k, t, rfl, ⟨by omega, by omega, by simpa using hin⟩, fun j hj => not_lt.1 fun hlt => ?_⟩
  simpa [hj.2.2] using hfirst j hj.1 hlt

theorem reduceBottomRows_first_twins : ∃ t, (ofRows [[1], [1]]).reduceBottomRows 1 = .ok (1, t) ∧
    (ofRows [[1], [1]]).line 1 1 ∈ (ofRows [[1], [1]]).sums 1 1 := by
  have hm : (ofRows [[1], [1]]).Bits 2 1 := ⟨⟨rfl, fun i hi => by interval_cases i <;> rfl⟩, by
    rintro (_ | _ | i) (_ | j) <;> simp [entry, row, ofRows]⟩
  have hi : LinearIndepOn (ZMod 2) ((ofRows [[1], [1]]).line 1) (Set.Iio 1) := by
    rw [show Set.Iio 1 = {0} by ext; simp]
    exact .singleton fun e => absurd (congrFun e 0) (by decide)
  rcases reduceBottomRows_first hm (by decide) hi with ⟨k, t, e, ⟨h1, h2, h3⟩, -⟩ | ⟨e, -⟩
  · obtain rfl : k = 1 := by omega
    exact ⟨t, e, h3⟩
  · cases e

end ZXCircuits.BitMatrix
