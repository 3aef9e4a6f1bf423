/-
  Taking gates into a pass.

  A pass means a course: that of its lanes, followed by its marks and its permutation of the wires (`Pass.Means`).  To take
  in a gate multiplies this course by the gate (`Pass.feed_spec`).
-/
import ZXCircuits.Proofs.Pass.Rotations
import ZXCircuits.Proofs.Swaps

namespace ZXCircuits

open List Function Course Equiv PerWire

namespace Pass

variable {n : ℕ} {p : Pass} {l : List Gate} {g : Gate} {w a b c t : Int} {σ : Perm Int} {q : Pass} {k : Rotation}
  {phase : ℚ} {i : ℕ}

/-! ## What a pass means -/

/-- Different wires from zero up to `n`. -/
structure Wires (n : ℕ) (l : List Int) : Prop where
  nodup : l.Nodup
  onWire : ∀ t ∈ l, OnWire n t

namespace Wires

variable {l : List Int}

variable (h : Wires n l)
include h

lemma erase (t : Int) : Wires n (l.erase t) := ⟨h.nodup.erase t, fun s hs => h.onWire s (mem_of_mem_erase hs)⟩

lemma toggle (ht : OnWire n t) : Wires n (toggle l t) :=
  ⟨toggle_nodup h.nodup, fun s hs => by
    rcases mem_toggle hs with hs | rfl
    · exact h.onWire s hs
    · exact ht⟩

lemma append (ht : OnWire n t) (hl : t ∉ l) : Wires n (l ++ [t]) :=
  ⟨nodup_append.2 ⟨h.nodup, by simp, fun a ha b hb => by
    rw [mem_singleton.1 hb]
    rintro rfl
    exact hl ha⟩, fun s hs => by
    rcases mem_append.1 hs with hs | hs
    · exact h.onWire s hs
    · exact mem_singleton.1 hs ▸ ht⟩

lemma exchange (ha : OnWire n a) (hb : OnWire n b) : Wires n (exchange l a b) := by
  have hp := exchange_perm h.nodup a b
  refine ⟨hp.nodup_iff.2 (h.nodup.map (swap a b).injective), fun s hs => ?_⟩
  obtain ⟨u, hu, rfl⟩ := mem_map.1 (hp.mem_iff.1 hs)
  by_cases hua : u = a
  · subst hua; rwa [swap_apply_left]
  by_cases hub : u = b
  · subst hub; rwa [swap_apply_right]
  · rw [swap_apply_of_ne_of_ne hua hub]
    exact h.onWire u hu

end Wires

/-- The marks of a pass are on its wires, and its table of wires is that of a permutation. -/
structure Carries (n : ℕ) (p : Pass) (σ : Equiv.Perm Int) : Prop where
  hadamards : Wires n p.hadamards
  nots : Wires n p.nots
  zs : Wires n p.zs
  table : p.permutation = tableOf n σ
  fixed : ∀ w, ¬ OnWire n w → σ w = w

lemma Carries.onWire (h : Carries n p σ) (w : Int) : OnWire n (σ w) ↔ OnWire n w := by
  by_cases hw : OnWire n w
  · refine iff_of_true (by_contra fun hn => hn ?_) hw
    rw [σ.injective (h.fixed _ hn)]
    exact hw
  · rw [h.fixed w hw]

noncomputable def marks (p : Pass) (σ : Equiv.Perm Int) : Course := Course.hs p.hadamards * (Course.zs p.zs * (Course.xs p.nots * perm σ))

def Means (n : ℕ) (p : Pass) (γ : Course) : Prop := ∃ l σ, Lays n p l ∧ Carries n p σ ∧ courseOf l * p.marks σ = γ

lemma Carries.of_sameMarks (h : Carries n p σ) (s : SameMarks p q) : Carries n q σ := ⟨s.1 ▸ h.1, s.2 ▸ h.2, s.3 ▸ h.3, s.4 ▸ h.4, h.5⟩

lemma SameMarks.marks (s : SameMarks p q) : q.marks σ = p.marks σ := by
  rw [Pass.marks, Pass.marks, s.1, s.2, s.3]

lemma current_spec (h : Carries n p σ) (hw : OnWire n w) : p.current w = .ok (σ.symm w) ∧ OnWire n (σ.symm w) := by
  have hon : OnWire n (σ.symm w) := (h.onWire _).1 (by rwa [apply_symm_apply])
  refine ⟨?_, hon⟩
  rw [current, h.table]
  split
  · next i v hfind =>
    have hv := List.find?_some hfind
    obtain ⟨j, -, e⟩ := mem_map.1 (mem_of_find?_eq_some hfind)
    obtain ⟨rfl, rfl⟩ := Prod.mk.inj e
    have : σ j = w := by simpa using hv
    rw [← this, symm_apply_apply]
  next hfind =>
  obtain ⟨k, hk⟩ := Int.eq_ofNat_of_zero_le hon.1
  have hkn : k ∈ List.range n := mem_range.2 (by have := hon.2; omega)
  have := List.find?_eq_none.1 hfind _ (mem_map.2 ⟨k, hkn, rfl⟩)
  simp [← hk] at this

/-! ## Controlled nots -/

variable (h : Lays n p l) (hm : Carries n p σ)
include h hm

section

variable (hc : OnWire n c) (ht : OnWire n t) (hct : c ≠ t)
include hc ht hct

lemma turnAround_spec {k : Gate} (hop : k.op = .pair .cnot t c) (hkc : k ∈ val p.available c) (hkt : k ∈ val p.available t)
    (hxc : val p.axes c = .x) (hxt : val p.axes t = .z) :
    ∃ q, p.turnAround k (.cnot c t) = .ok q ∧ Means n q (courseOf l * cnot c t * p.marks σ) := by
  have hkl := h.mem_of_available hkc
  have role_k : ∀ v, k.role v = if v = t then .z else if v = c then .x else .absent := fun v => by rw [Gate.role, hop]; rfl
  have hlast : courseOf l = courseOf (l.erase k) * cnot t c := by
    have : of k.op.motion = cnot t c := by rw [hop]; rfl
    rw [← this]
    refine h.laying.last hkl fun v hv => ?_
    rw [role_k] at hv ⊢
    by_cases hvt : v = t
    · subst hvt
      exact ⟨hkt, by rw [if_pos rfl, hxt]; rfl⟩
    by_cases hvc : v = c
    · subst hvc
      exact ⟨hkc, by rw [if_neg hvt, if_pos rfl, hxc]; rfl⟩
    · simp [hvt, hvc] at hv
  have on_lane : ∀ v, k ∈ val p.lanes v ↔ v = c ∨ v = t := fun v => by
    rw [h.laying.sheet.mem_lane, and_iff_right hkl, role_k]
    split <;> [simp_all; (split <;> simp_all)]
  obtain ⟨j, hj⟩ : ∃ j : Gate, j = ⟨.pair .cnot c t, p.count⟩ := ⟨_, rfl⟩
  have role_j : ∀ v, j.role v = if v = c then .z else if v = t then .x else .absent := fun v => by rw [hj]; rfl
  obtain ⟨L1, L2, e1, e2, s2⟩ := h.lanes.removeTwo hc ht hct (fun v => h.laying.sheet.same_iff_of_lane hkl) on_lane
  obtain ⟨L3, L4, e3, e4, s4⟩ := s2.pushTwo (g := j) hc ht hct fun v => by
    rw [role_j]
    split <;> [simp_all; (split <;> simp_all)]
  have sx := (h.axes.set hc .z).set ht .x
  have sa := (h.available.set hc [j]).set ht [j]
  have fa : orAbsent (Table.find? p.permutation c) = .ok (σ c) := by rw [hm.table, find?_tableOf hc]; rfl
  have fb : orAbsent (Table.find? p.permutation t) = .ok (σ t) := by rw [hm.table, find?_tableOf ht]; rfl
  refine ⟨{ p with
    lanes := L4
    available := PerWire.set (PerWire.set p.available c [j]) t [j]
    axes := PerWire.set (PerWire.set p.axes c .z) t .x
    permutation := tableOf n ⇑(σ * swap c t)
    hadamards := exchange p.hadamards t c
    nots := exchange p.nots t c
    zs := exchange p.zs t c
    count := p.count + 1 }, ?_, l.erase k ++ [j], σ * swap c t, ?_, ?_, ?_⟩
  · simp only [turnAround, Gate.cnot, Gate.control, Gate.control?, Gate.target, Gate.target?, Option.getD, lift, lay, number, bind,
      Except.bind, pure, Except.pure, e1, e2, ← hj, e3, e4, fa, fb]
    rw [hm.table, insert_tableOf hc, insert_tableOf ht, update_swap]
  · refine .of_shows s4 sa sx ⟨?_, fun w => ?_⟩
    · subst hj
      exact (h.laying.sheet.remove k).push ⟨.inl rfl, hc, ht, hct⟩ (fun g hg => (h.laying.sheet.index_lt g (mem_of_mem_erase hg)).ne)
        (Nat.lt_succ_self _) (Nat.le_succ _)
    by_cases hwt : w = t
    · subst hwt
      have hr : j.role w = .x := by simp [role_j, hct.symm]
      simp only [update_self, laidOnto, hr, reduceCtorEq, if_false]
      exact ⟨(val p.lanes w).erase k, [], [j], rfl, rfl, by simp, forall_mem_singleton.2 hr⟩
    by_cases hwc : w = c
    · subst hwc
      have hr : j.role w = .z := by simp [role_j]
      simp only [update_self, update_of_ne hct, laidOnto, hr, reduceCtorEq, if_false]
      exact ⟨(val p.lanes w).erase k, [], [j], rfl, rfl, by simp, forall_mem_singleton.2 hr⟩
    · have hk : k ∉ val p.lanes w := by simp [on_lane, hwc, hwt]
      simpa [hwt, hwc, laidOnto, role_j, erase_of_not_mem hk] using h.laying.opens w
  · exact ⟨hm.hadamards.exchange ht hc, hm.nots.exchange ht hc, hm.zs.exchange ht hc, rfl, fun w hw => by
      have hwc : w ≠ c := fun e => hw (e ▸ hc)
      have hwt : w ≠ t := fun e => hw (e ▸ ht)
      rw [Perm.mul_apply, swap_apply_of_ne_of_ne hwc hwt, hm.fixed w hw]⟩
  · -- the swap is taken past the marks
    have exch : ∀ (f : Int → Course), (∀ s t, Commute (f s) (f t)) → (∀ (τ : Perm Int) s, perm τ * f (τ s) = f s * perm τ) →
        ∀ {m : List Int}, m.Nodup → along f (exchange m t c) * perm (swap c t) = perm (swap c t) * along f m := by
      intro f hcomm hperm m hm
      have : (m.map (swap t c)).map (swap c t) = m := by
        have hid : (swap c t : Int → Int) ∘ (swap t c) = id := by
          funext s
          rw [swap_comm t c, comp_apply, swap_apply_self, id]
        rw [map_map, hid, map_id]
      rw [along_perm hcomm (exchange_perm hm t c), ← along_comm_perm _ (hperm _), this]
    have past : ∀ {a b : Course}, a * perm (swap c t) = perm (swap c t) * b →
        ∀ y, a * (perm (swap c t) * y) = perm (swap c t) * (b * y) := fun e y => by
      rw [← mul_assoc, e, mul_assoc]
    have e1 : ∀ y, Course.hs (exchange p.hadamards t c) * (perm (swap c t) * y) = _ :=
      past (exch Course.h commute_h_h perm_mul_h hm.hadamards.nodup)
    have e2 : ∀ y, Course.zs (exchange p.zs t c) * (perm (swap c t) * y) = _ :=
      past (exch (fun s => z s 1) (fun s t => commute_z_z s t 1 1) (fun τ s => perm_mul_z τ s 1) hm.zs.nodup)
    have e3 : ∀ y, xs (exchange p.nots t c) * (perm (swap c t) * y) = _ :=
      past (exch x commute_x_x perm_mul_x hm.nots.nodup)
    have hjm : of j.op.motion = cnot c t := by rw [hj]; rfl
    rw [courseOf_append, courseOf_cons, courseOf_nil, mul_one, hjm, hlast, marks, marks, mul_assoc _ (cnot t c),
      cnot_mul_cnot_swap hct, ← perm_mul_perm]
    simp only [e1, e2, e3, mul_assoc]
    rfl

lemma addNot_spec : ∃ q, p.addNot (.cnot c t) = .ok q ∧ Means n q (courseOf l * cnot c t * p.marks σ) := by
  have lay : ∃ q, p.layOrCancelNot (.cnot c t) = .ok q ∧ Means n q (courseOf l * cnot c t * p.marks σ) := by
    obtain ⟨q, m, hq, hl, hs, hcourse⟩ := layOrCancelNot_spec h hc ht hct
    exact ⟨q, hq, m, σ, hl, hm.of_sameMarks hs, by rw [hcourse, hs.marks]⟩
  have ec : (Gate.cnot c t).control = c := rfl
  have et : (Gate.cnot c t).target = t := rfl
  rw [addNot]
  simp only [ec, et, h.axes.get hc, h.axes.get ht, h.available.look hc, h.available.look ht, bind, Except.bind]
  split
  · next hx =>
    simp only [Bool.and_eq_true, decide_eq_true_eq] at hx
    split
    · next k hk =>
      have hkc : k ∈ val p.available c := by simpa using mem_of_find?_eq_some hk
      have hkl := h.mem_of_available hkc
      have hop : k.op = .pair .cnot t c := op_of_isCnot (by simpa using List.find?_some hk)
      split
      · next hin =>
        have hkt := (Gate.isIn_iff (h.same_iff_of_available hkl)).1 hin
        obtain ⟨q, hq, hmeans⟩ := turnAround_spec h hm hc ht hct hop hkc hkt hx.1 hx.2
        exact ⟨q, hq, hmeans⟩
      · exact lay
    · exact lay
  · exact lay

end

/-! ## Gates behind the marks -/

lemma exchangeMarks_spec (ht : OnWire n t) :
    Lays n (p.exchangeMarks t) l ∧ Carries n (p.exchangeMarks t) σ ∧ (p.exchangeMarks t).hadamards = p.hadamards ∧
      Course.zs p.zs * (xs p.nots * Course.h t) = Course.h t * (Course.zs (p.exchangeMarks t).zs * xs (p.exchangeMarks t).nots) := by
  have hx := xs_mul_h (t := t) hm.nots.nodup
  have hz := zs_mul_h (t := t) hm.zs.nodup
  have ez : ∀ m : List Int, Course.zs (m ++ [t]) = Course.zs m * Course.zs [t] := fun _ => along_append
  have ex : ∀ m : List Int, xs (m ++ [t]) = xs m * xs [t] := fun _ => along_append
  have swapX : xs [t] * xs p.nots = xs p.nots * xs [t] :=
    (commute_along fun s _ => (commute_along fun u _ => commute_x_x u s).symm).eq
  by_cases hn : t ∈ p.nots <;> by_cases hzs : t ∈ p.zs
  · have e : p.exchangeMarks t = p := by simp [exchangeMarks, hn, hzs]
    refine ⟨by rw [e]; exact h, by rw [e]; exact hm, by rw [e], ?_⟩
    rw [if_pos hn] at hx
    rw [if_pos hzs] at hz
    have e1 : Course.zs p.zs = Course.zs (p.zs.erase t) * Course.zs [t] := by
      rw [zs_erase hzs, Course.zs, Course.zs, along_singleton]
    have e2 : xs p.nots = xs [t] * xs (p.nots.erase t) := by
      rw [xs_erase hn, xs, xs, along_singleton]
      exact (commute_along fun s _ => commute_x_x s t).eq
    rw [e, hx, ← mul_assoc, hz, mul_assoc, mul_assoc, ← mul_assoc (xs [t]), ← (commute_zs_xs [t] [t]).eq, mul_assoc,
      ← e2, ← mul_assoc (Course.zs _), ← e1]
  · have e : p.exchangeMarks t = { p with nots := p.nots.erase t, zs := p.zs ++ [t] } := by simp [exchangeMarks, hn, hzs]
    rw [e]
    refine ⟨⟨h.1, h.2, h.3, h.4⟩, ⟨hm.hadamards, hm.nots.erase t, hm.zs.append ht hzs, hm.table, hm.fixed⟩, rfl, ?_⟩
    rw [if_pos hn] at hx
    rw [if_neg hzs] at hz
    rw [hx, ← mul_assoc, hz, ez, mul_assoc, mul_assoc]
  · have e : p.exchangeMarks t = { p with zs := p.zs.erase t, nots := p.nots ++ [t] } := by simp [exchangeMarks, hn, hzs]
    rw [e]
    refine ⟨⟨h.1, h.2, h.3, h.4⟩, ⟨hm.hadamards, hm.nots.append ht hn, hm.zs.erase t, hm.table, hm.fixed⟩, rfl, ?_⟩
    rw [if_neg hn] at hx
    rw [if_pos hzs] at hz
    rw [hx, ← mul_assoc, hz, ex, ← swapX, mul_assoc, mul_assoc]
  · have e : p.exchangeMarks t = p := by simp [exchangeMarks, hn, hzs]
    refine ⟨by rw [e]; exact h, by rw [e]; exact hm, by rw [e], ?_⟩
    rw [if_neg hn] at hx
    rw [if_neg hzs] at hz
    rw [e, hx, ← mul_assoc, hz, mul_assoc]

lemma feedHadamard_spec (ht : OnWire n t) : ∃ q, p.feedHadamard t = .ok q ∧
      Means n q (courseOf l * (Course.hs p.hadamards * (Course.zs p.zs * (xs p.nots * (Course.h t * perm σ))))) := by
  obtain ⟨h1, hm1, eh, e⟩ := exchangeMarks_spec h hm ht
  obtain ⟨q, m, hq, hl, en, ez, ep, hc⟩ := carryHadamard_spec h1 ht
  have e' : Course.zs p.zs * (xs p.nots * (Course.h t * perm σ)) =
      Course.h t * (Course.zs (p.exchangeMarks t).zs * (xs (p.exchangeMarks t).nots * perm σ)) := by
    rw [← mul_assoc (xs p.nots), ← mul_assoc, e]
    simp [mul_assoc]
  refine ⟨q, hq, m, σ, hl, ⟨?_, en ▸ hm1.nots, ez ▸ hm1.zs, ep ▸ hm1.table, hm1.fixed⟩, ?_⟩
  · rcases hc with ⟨e, -⟩ | ⟨e, -⟩
    · exact e ▸ hm1.hadamards.toggle ht
    · exact e ▸ hm1.hadamards
  rw [marks, en, ez, e', ← eh]
  rcases hc with ⟨e, hc⟩ | ⟨e, hc⟩
  · rw [e, hc, hs_toggle, mul_assoc (Course.hs _)]
  · have hcomm : Commute (Course.hs (p.exchangeMarks t).hadamards) (Course.h t) := commute_along fun s _ => commute_h_h s t
    rw [e, hc, mul_assoc, ← mul_assoc (Course.h t), ← hcomm.eq, mul_assoc]

lemma layHadamard_means (ht : t ∈ p.hadamards) :
    ∃ q m, p.layHadamard t = .ok q ∧ Lays n q m ∧ Carries n q σ ∧ q.hadamards = p.hadamards.erase t ∧ q.nots = p.nots ∧
      q.zs = p.zs ∧ courseOf m * Course.hs q.hadamards = courseOf l * Course.hs p.hadamards := by
  obtain ⟨q, m, hq, hl, eh, en, ez, ep, hc⟩ := layHadamard_spec h (hm.hadamards.onWire t ht) ht
  have hcomm : Commute (Course.hs (p.hadamards.erase t)) (Course.h t) := commute_along fun s _ => commute_h_h s t
  refine ⟨q, m, hq, hl, ⟨eh ▸ hm.hadamards.erase t, en ▸ hm.nots, ez ▸ hm.zs, ep ▸ hm.table, hm.fixed⟩, eh, en, ez, ?_⟩
  rw [hc, eh, hs_erase ht, hcomm.eq, mul_assoc]

lemma layPending_spec : ∃ q m, p.layPending t = .ok q ∧ Lays n q m ∧ Carries n q σ ∧ t ∉ q.hadamards ∧ q.nots = p.nots ∧ q.zs = p.zs ∧
      courseOf m * Course.hs q.hadamards = courseOf l * Course.hs p.hadamards := by
  rw [layPending]
  split
  · next hmem =>
    obtain ⟨q, m, hq, hl, hm', eh, en, ez, hc⟩ := layHadamard_means h hm (by simpa using hmem)
    exact ⟨q, m, hq, hl, hm', eh ▸ hm.hadamards.nodup.not_mem_erase, en, ez, hc⟩
  · next hmem => exact ⟨p, l, rfl, h, hm, by simpa using hmem, rfl, rfl, rfl⟩

lemma feedUnmarked_spec (ht : OnWire n t) (hk : k.isZ) : ∃ q, p.feedUnmarked k t phase i = .ok q ∧ Means n q
      (courseOf l * (Course.hs p.hadamards * (Course.zs p.zs * (xs p.nots * (Course.z t phase * perm σ))))) := by
  by_cases h0 : phase = 0
  · exact ⟨p, by rw [feedUnmarked, if_pos h0]; rfl, l, σ, h, hm, by rw [h0, z_zero, one_mul, marks]⟩
  set turned := if p.nots.contains t then Rat.modTwo (-phase) else phase with hturned
  have ex : xs p.nots * Course.z t phase = Course.z t turned * xs p.nots := by
    rw [xs_mul_z hm.nots.nodup, hturned]
    by_cases hn : t ∈ p.nots <;> simp [hn, z_modTwo]
  have e : Course.zs p.zs * (xs p.nots * (Course.z t phase * perm σ)) = Course.z t turned * (Course.zs p.zs * (xs p.nots * perm σ)) := by
    rw [← mul_assoc (xs _), ex, mul_assoc, ← mul_assoc (Course.zs _), zs_mul_z, mul_assoc]
  rw [e]
  simp only [feedUnmarked, h0, if_false, ← hturned, bind, Except.bind]
  split
  · next h1 =>
    refine ⟨_, rfl, l, σ, ⟨h.1, h.2, h.3, h.4⟩, ⟨hm.hadamards, hm.nots, hm.zs.toggle ht, hm.table, hm.fixed⟩, ?_⟩
    rw [marks, h1, zs_toggle, zs_mul_z, mul_assoc (Course.z t 1)]
  obtain ⟨p1, l1, e1, h1, hm1, ht1, en1, ez1, hc1⟩ := layPending_spec h hm
  obtain ⟨q, m, hq, hl, eh, en, ep, hc⟩ := fuseRotation_spec h1 ht (g := withPhase (markedName k turned) t turned i) rfl
    ((isZ_markedName k turned).trans hk)
  refine ⟨q, ?_, m, σ, hl, ⟨eh ▸ hm1.hadamards, en ▸ hm1.nots, ?_, ep ▸ hm1.table, hm1.fixed⟩, ?_⟩
  · rw [e1]
    exact hq
  · rcases hc with ⟨ez, -⟩ | ⟨ez, -⟩
    · exact ez ▸ hm1.zs
    · exact ez ▸ hm1.zs.toggle ht
  · rw [marks, ← mul_assoc (courseOf l), ← hc1, eh, en, en1, ← mul_assoc (courseOf l1 * _), mul_assoc (courseOf l1),
      hs_mul_z ht1, ← mul_assoc (courseOf l1)]
    rcases hc with ⟨ez, hc⟩ | ⟨ez, hc⟩
    · rw [ez, ez1, hc]
      simp [mul_assoc]
    rw [ez, ez1, zs_toggle, zs_mul_z, ← hc]
    simp only [mul_assoc]
    rw [← mul_assoc (Course.hs _), hs_mul_z (eh ▸ ht1), mul_assoc]

lemma feedRotation_spec (ht : OnWire n t) (hk : k.isZ) : ∃ q, p.feedRotation k t phase i = .ok q ∧ Means n q
      (courseOf l * (Course.hs p.hadamards * (Course.zs p.zs * (xs p.nots * (Course.z t phase * perm σ))))) := by
  rw [feedRotation]
  split
  · next hmem =>
    have hmem : t ∈ p.zs := by simpa using hmem
    obtain ⟨q, hq, hmeans⟩ := @feedUnmarked_spec n { p with zs := p.zs.erase t } l t σ k
      (Rat.modTwo (phase + 1)) i ⟨h.1, h.2, h.3, h.4⟩
      ⟨hm.hadamards, hm.nots, hm.zs.erase t, hm.table, hm.fixed⟩ ht hk
    have hx : Commute (xs p.nots) (Course.z t 1) := commute_along fun s _ => commute_x_z_one s t
    refine ⟨q, hq, ?_⟩
    convert hmeans using 3
    rw [zs_erase hmem, z_modTwo, add_comm, ← z_mul_z]
    simp only [mul_assoc]
    rw [← mul_assoc (xs p.nots) (Course.z t 1), hx.eq, mul_assoc]
  · exact feedUnmarked_spec h hm ht hk

/-! ## Gates on two wires -/

lemma markSign_spec (ha : OnWire n a) (hb : OnWire n b) (hab : a ≠ b) :
    Lays n (p.markSign a b) l ∧ Carries n (p.markSign a b) σ ∧ (p.markSign a b).hadamards = p.hadamards ∧
      Course.zs p.zs * (xs p.nots * (cz a b * perm σ)) =
        cz a b * (Course.zs (p.markSign a b).zs * (xs (p.markSign a b).nots * perm σ)) := by
  have hz : Wires n (if p.nots.contains a then toggle p.zs b else p.zs) := by
    split
    · exact hm.zs.toggle hb
    · exact hm.zs
  refine ⟨⟨h.1, h.2, h.3, h.4⟩, ⟨hm.hadamards, hm.nots, ?_, hm.table, hm.fixed⟩, rfl, ?_⟩
  · simp only [markSign]
    split
    · exact hz.toggle ha
    · exact hz
  have ez : Course.zs (p.markSign a b).zs = Course.zs p.zs * ((if a ∈ p.nots then Course.z b 1 else 1) * (if b ∈ p.nots then Course.z a 1 else 1)) := by
    by_cases h1 : a ∈ p.nots <;> by_cases h2 : b ∈ p.nots <;> simp [markSign, h1, h2, zs_toggle, mul_assoc]
  change _ = cz a b * (_ * (xs p.nots * perm σ))
  rw [ez, ← mul_assoc (xs p.nots), xs_mul_cz hm.nots.nodup hab, mul_assoc (cz a b), ← mul_assoc (Course.zs p.zs), zs_mul_cz]
  simp [mul_assoc]

lemma markNot_spec (hc : OnWire n c) (ht : OnWire n t) (hct : c ≠ t) :
    Lays n (p.markNot c t) l ∧ Carries n (p.markNot c t) σ ∧ (p.markNot c t).hadamards = p.hadamards ∧
      Course.zs p.zs * (xs p.nots * (cnot c t * perm σ)) =
        cnot c t * (Course.zs (p.markNot c t).zs * (xs (p.markNot c t).nots * perm σ)) := by
  refine ⟨⟨h.1, h.2, h.3, h.4⟩, ⟨hm.hadamards, ?_, ?_, hm.table, hm.fixed⟩, rfl, ?_⟩
  · simp only [markNot]
    split
    · exact hm.nots.toggle ht
    · exact hm.nots
  · simp only [markNot]
    split
    · exact hm.zs.toggle hc
    · exact hm.zs
  · have ex : xs (p.markNot c t).nots = xs p.nots * (if c ∈ p.nots then x t else 1) := by
      by_cases h1 : c ∈ p.nots <;> simp [markNot, h1, xs_toggle]
    have ez : Course.zs (p.markNot c t).zs = Course.zs p.zs * (if t ∈ p.zs then Course.z c 1 else 1) := by
      by_cases h1 : t ∈ p.zs <;> simp [markNot, h1, zs_toggle]
    rw [ex, ez, ← mul_assoc (xs p.nots), xs_mul_cnot hm.nots.nodup hct, mul_assoc (cnot c t), ← mul_assoc (Course.zs p.zs),
      zs_mul_cnot hm.zs.nodup hct]
    simp [mul_assoc]

section

variable (ha : OnWire n a) (hb : OnWire n b) (hab : a ≠ b)
include ha hb hab

lemma addSign_means : ∃ q, p.addSign (.cz (min a b) (max a b)) = .ok q ∧ Means n q (courseOf l * cz a b * p.marks σ) := by
  have ordered : ∀ {a b : Int}, OnWire n a → OnWire n b → a ≠ b →
      ∃ q, p.addSign (.cz a b) = .ok q ∧ Means n q (courseOf l * cz a b * p.marks σ) := by
    intro a b ha hb hab
    obtain ⟨q, m, hq, hl, hs, hc⟩ := addSign_spec h ha hb hab
    exact ⟨q, hq, m, σ, hl, hm.of_sameMarks hs, by rw [hc, hs.marks]⟩
  rcases le_total a b with hle | hle
  · rw [min_eq_left hle, max_eq_right hle]
    exact ordered ha hb hab
  · rw [min_eq_right hle, max_eq_left hle, cz_comm]
    exact ordered hb ha hab.symm

lemma placeSign_spec : ∃ q, p.placeSign a b = .ok q ∧ Means n q
      (courseOf l * (Course.hs p.hadamards * (cz a b * (Course.zs p.zs * (xs p.nots * perm σ))))) := by
  rw [placeSign]
  cases hca : p.hadamards.contains a <;> cases hcb : p.hadamards.contains b <;> simp only [contains_eq_mem, decide_eq_false_iff_not,
    decide_eq_true_eq] at hca hcb
  · rw [← mul_assoc (Course.hs _), hs_mul_cz hca hcb, mul_assoc (cz a b), ← mul_assoc (courseOf l)]
    exact addSign_means h hm ha hb hab
  · rw [← mul_assoc (Course.hs _), hs_mul_cz_right hm.hadamards.nodup hab hca hcb, mul_assoc (cnot a b), ← mul_assoc (courseOf l)]
    exact addNot_spec h hm ha hb hab
  · rw [← mul_assoc (Course.hs _), cz_comm, hs_mul_cz_right hm.hadamards.nodup hab.symm hcb hca, mul_assoc (cnot b a),
      ← mul_assoc (courseOf l)]
    exact addNot_spec h hm hb ha hab.symm
  · obtain ⟨p1, l1, e1, h1, hm1, eh1, en1, ez1, hc1⟩ := layHadamard_means h hm hca
    obtain ⟨p2, l2, e2, h2, hm2, eh2, en2, ez2, hc2⟩ := layHadamard_means h1 hm1 (by rw [eh1]; exact (mem_erase_of_ne hab.symm).2 hcb)
    obtain ⟨q, hq, hmeans⟩ := addSign_means h2 hm2 ha hb hab
    have ha2 : a ∉ p2.hadamards := by
      rw [eh2, eh1]
      exact fun hm' => hm.hadamards.nodup.not_mem_erase (mem_of_mem_erase hm')
    have hb2 : b ∉ p2.hadamards := eh2 ▸ hm1.hadamards.nodup.not_mem_erase
    refine ⟨q, by simp only [e1, e2, bind, Except.bind]; exact hq, ?_⟩
    rwa [marks, mul_assoc, ← mul_assoc (cz a b), ← hs_mul_cz ha2 hb2, mul_assoc (Course.hs _), ← mul_assoc (courseOf l2), hc2, hc1,
      ez2, ez1, en2, en1, mul_assoc (courseOf l)] at hmeans

end

lemma placeNot_spec (hc : OnWire n c) (ht : OnWire n t) (hct : c ≠ t) : ∃ q, p.placeNot c t = .ok q ∧ Means n q
      (courseOf l * (Course.hs p.hadamards * (cnot c t * (Course.zs p.zs * (xs p.nots * perm σ))))) := by
  rw [placeNot]
  cases hcc : p.hadamards.contains c <;> cases hcn : p.hadamards.contains t <;> simp only [contains_eq_mem, decide_eq_false_iff_not,
    decide_eq_true_eq] at hcc hcn
  · rw [← mul_assoc (Course.hs _), hs_mul_cnot hcc hcn, mul_assoc (cnot c t), ← mul_assoc (courseOf l)]
    exact addNot_spec h hm hc ht hct
  · rw [← mul_assoc (Course.hs _), hs_mul_cnot_target hm.hadamards.nodup hct hcc hcn, mul_assoc (cz c t), ← mul_assoc (courseOf l)]
    exact addSign_means h hm hc ht hct
  · obtain ⟨p1, l1, e1, h1, hm1, eh1, en1, ez1, hc1⟩ := layHadamard_means h hm hcc
    obtain ⟨q, hq, hmeans⟩ := addNot_spec h1 hm1 hc ht hct
    have hc2 : c ∉ p1.hadamards := eh1 ▸ hm.hadamards.nodup.not_mem_erase
    have ht2 : t ∉ p1.hadamards := fun hm' => hcn (mem_of_mem_erase (eh1 ▸ hm'))
    refine ⟨q, by simp only [e1, bind, Except.bind]; exact hq, ?_⟩
    rwa [marks, mul_assoc, ← mul_assoc (cnot c t), ← hs_mul_cnot hc2 ht2, mul_assoc (Course.hs _), ← mul_assoc (courseOf l1), hc1,
      ez1, en1, mul_assoc (courseOf l)] at hmeans
  · rw [← mul_assoc (Course.hs _), hs_mul_cnot_both hm.hadamards.nodup hct hcc hcn, mul_assoc (cnot t c), ← mul_assoc (courseOf l)]
    exact addNot_spec h hm ht hc hct.symm

/-! ## Taking in gates -/

end Pass

/-- The gates that a pass takes in: rotations about the Z axis, Hadamards, `NOT`, controlled nots and controlled signs,
    on different wires from zero up to `n`. -/
def Gate.IsPlain (n : ℕ) (g : Gate) : Prop :=
  match g.op with
  | .had t => OnWire n t
  | .rotation k t p => OnWire n t ∧ (k.isZ ∨ k = .not ∧ Rat.modTwo p = 1)
  | .pair k c t => (k = .cnot ∨ k = .cz) ∧ OnWire n c ∧ OnWire n t ∧ c ≠ t
  | _ => False

namespace Pass

variable {n : ℕ} {p : Pass} {g : Gate} {γ : Course}

lemma motion_not {t : Int} {s : ℚ} (hs : Rat.modTwo s = 1) : of (Operation.rotation .not t s).motion = x t := by
  have hz : z t s = z t 1 := by rw [← z_modTwo, hs]
  exact congrArg (fun m => Course.h t * m * Course.h t) hz

lemma feed_spec (h : Means n p γ) (hg : g.IsPlain n) : ∃ q, p.feed g = .ok q ∧ Means n q (γ * of g.op.motion) := by
  obtain ⟨l, σ, hl, hm, rfl⟩ := h
  obtain ⟨op, i⟩ := g
  -- a gate behind the permutation is the gate on the wires that hold its wires, before the permutation
  have back : ∀ {d e : Course}, perm σ * d = e * perm σ →
      courseOf l * p.marks σ * d = courseOf l * (Course.hs p.hadamards * (Course.zs p.zs * (xs p.nots * (e * perm σ)))) := by
    intro d e hde
    rw [marks, ← hde]
    simp [mul_assoc]
  cases op with
  | had t =>
    obtain ⟨et, ht⟩ := current_spec hm hg
    have e := perm_mul_h σ (σ.symm t)
    rw [apply_symm_apply] at e
    rw [show of (Operation.had t).motion = Course.h t from rfl, back e]
    simp only [feed, et, bind, Except.bind]
    exact feedHadamard_spec hl hm ht
  | rotation k t phase =>
    obtain ⟨hw, hk⟩ := hg
    obtain ⟨et, ht⟩ := current_spec hm hw
    by_cases hn : k = .not
    · subst hn
      have e := perm_mul_x σ (σ.symm t)
      rw [apply_symm_apply] at e
      rw [motion_not (by simpa [Rotation.isZ] using hk), back e]
      simp only [feed, et, bind, Except.bind, pure, Except.pure]
      refine ⟨_, rfl, l, σ, ⟨hl.1, hl.2, hl.3, hl.4⟩, ⟨hm.hadamards, hm.nots.toggle ht, hm.zs, hm.table, hm.fixed⟩, ?_⟩
      rw [marks, xs_toggle, mul_assoc (xs _)]
    have hkz : k.isZ := hk.resolve_right fun h => hn h.1
    have e := perm_mul_z σ (σ.symm t) phase
    rw [apply_symm_apply] at e
    rw [motion_rotation rfl hkz, back e]
    have : Pass.feed p ⟨.rotation k t phase, i⟩ = p.feedRotation k (σ.symm t) phase i := by
      cases k <;> simp_all [feed, bind, Except.bind, Rotation.isZ]
    rw [this]
    exact feedRotation_spec hl hm ht hkz
  | pair k c t =>
    obtain ⟨hk, hwc, hwt, hct⟩ := hg
    obtain ⟨ec, hc⟩ := current_spec hm hwc
    obtain ⟨et, ht⟩ := current_spec hm hwt
    have hne : σ.symm c ≠ σ.symm t := fun e => hct (σ.symm.injective e)
    rcases hk with rfl | rfl
    · have e := perm_mul_cnot σ hne
      rw [apply_symm_apply, apply_symm_apply] at e
      obtain ⟨h1, hm1, eh, em⟩ := markNot_spec hl hm hc ht hne
      obtain ⟨q, hq, hmeans⟩ := placeNot_spec h1 hm1 hc ht hne
      rw [show of (Operation.pair .cnot c t).motion = cnot c t from rfl, back e, em, ← eh]
      exact ⟨q, by simp only [feed, ec, et, bind, Except.bind]; exact hq, hmeans⟩
    have e := perm_mul_cz σ (σ.symm c) (σ.symm t)
    rw [apply_symm_apply, apply_symm_apply] at e
    obtain ⟨h1, hm1, eh, em⟩ := markSign_spec hl hm hc ht hne
    obtain ⟨q, hq, hmeans⟩ := placeSign_spec h1 hm1 hc ht hne
    rw [show of (Operation.pair .cz c t).motion = cz c t from rfl, back e, em, ← eh]
    exact ⟨q, by simp only [feed, ec, et, bind, Except.bind]; exact hq, hmeans⟩
  | _ => exact hg.elim

end Pass

end ZXCircuits
