/-
  Marks on wires.

  A pass carries Hadamards, half turns about the Z axis and half turns about the X axis along as lists of wires.  The
  course of such a list is the product of its gates (`along`), whose order does not matter.  For each sort of mark there
  is a rule that says what becomes of the marks when a gate is taken to their other side.
-/
import ZXCircuits.Proofs.Motion.Commute

namespace ZXCircuits.Course

open List Function Equiv

variable {l : List Int}

noncomputable def along (f : Int → Course) (ws : List Int) : Course := (ws.map f).prod

section Along

variable {f : Int → Course} {l m : List Int} {t : Int} {g : Course}

@[simp] lemma along_nil : along f [] = 1 := rfl

@[simp] lemma along_append : along f (l ++ m) = along f l * along f m := by simp [along]

@[simp] lemma along_singleton : along f [t] = f t := by simp [along]

lemma along_map (σ : Int → Int) : along f (l.map σ) = along (fun s => f (σ s)) l := by simp [along, comp_def]

lemma commute_along (h : ∀ s ∈ l, Commute (f s) g) : Commute (along f l) g := by
  refine Commute.list_prod_left _ _ fun c hc => ?_
  obtain ⟨s, hs, rfl⟩ := mem_map.1 hc
  exact h s hs

section

variable (hc : ∀ s t, Commute (f s) (f t))
include hc

lemma along_perm (h : l.Perm m) : along f l = along f m := by
  refine (h.map f).prod_eq' ?_
  rw [pairwise_map]
  exact pairwise_of_forall fun s t => hc s t

lemma along_erase (ht : t ∈ l) : along f l = along f (l.erase t) * f t := by
  rw [along_perm hc (perm_cons_erase ht), ← singleton_append, along_append, along_singleton]
  exact (commute_along fun s _ => hc s t).eq.symm

lemma along_toggle (h2 : f t * f t = 1) : along f (toggle l t) = along f l * f t := by
  rw [toggle]
  split
  · next ht => rw [along_erase hc (contains_iff_mem.1 ht), mul_assoc, h2, mul_one]
  · rw [along_append, along_singleton]

end

lemma along_comm_perm (σ : Perm Int) (hσ : ∀ s, perm σ * f (σ s) = f s * perm σ) : perm σ * along f (l.map σ) = along f l * perm σ := by
  rw [along_map]
  induction l with
  | nil => simp
  | cons s l ih =>
    have e : ∀ k : Int → Course, along k (s :: l) = k s * along k l := fun k => by simp [along]
    rw [e, e, ← mul_assoc, hσ, mul_assoc, ih, mul_assoc]

end Along

lemma toggle_nodup {t : Int} (h : l.Nodup) : (toggle l t).Nodup := by
  rw [toggle]
  split
  · exact h.erase t
  next ht =>
  rw [contains_iff_mem] at ht
  exact nodup_append.2 ⟨h, by simp, fun a ha b hb => by
    rw [mem_singleton.1 hb]
    rintro rfl
    exact ht ha⟩

lemma mem_toggle {s t : Int} (h : s ∈ toggle l t) : s ∈ l ∨ s = t := by
  rw [toggle] at h
  split at h
  · exact .inl (mem_of_mem_erase h)
  · simpa using h

lemma exchange_perm (h : l.Nodup) (a b : Int) : (exchange l a b).Perm (l.map (swap a b)) := by
  have hnd : (exchange l a b).Nodup := by
    have hadd : ∀ {c d : Int}, ¬ d ∈ l → (l.erase c ++ [d]).Nodup := fun {c d} hd =>
      nodup_append.2 ⟨h.erase c, by simp, fun u hu v hv => by
        rw [mem_singleton.1 hv]
        rintro rfl
        exact hd (mem_of_mem_erase hu)⟩
    by_cases ha : a ∈ l <;> by_cases hb : b ∈ l <;> simp [exchange, ha, hb, h, hadd]
  refine (perm_ext_iff_of_nodup hnd (h.map (swap a b).injective)).2 fun s => ?_
  have hm : s ∈ l.map (swap a b) ↔ swap a b s ∈ l := by
    rw [mem_map]
    constructor
    · rintro ⟨u, hu, rfl⟩
      rwa [swap_apply_self]
    · exact fun hs => ⟨_, hs, swap_apply_self a b s⟩
  rw [hm]
  by_cases hsa : s = a
  · subst hsa
    by_cases ha : s ∈ l <;> by_cases hb : b ∈ l <;> simp [exchange, ha, hb, h.mem_erase_iff]
    exact fun e => hb (e ▸ ha)
  by_cases hsb : s = b
  · subst hsb
    by_cases ha : a ∈ l <;> by_cases hb : s ∈ l <;> simp [exchange, ha, hb, h.mem_erase_iff]
    exact fun e => ha (e ▸ hb)
  · rw [swap_apply_of_ne_of_ne hsa hsb]
    by_cases ha : a ∈ l <;> by_cases hb : b ∈ l <;> simp [exchange, ha, hb, h.mem_erase_iff, hsa, hsb]

/-! ## Gates on different wires -/

variable {a b c s t : Int} {p q : ℚ}

lemma free_factor (h : s ≠ t) : Free s fun y => factor p (y t) := fun y b => by simp [update_of_ne h.symm]

lemma free_factor₂ (ha : s ≠ a) (hb : s ≠ b) : Free s fun y => factor p (y a && y b) := fun y b => by
  simp [update_of_ne ha.symm, update_of_ne hb.symm]

lemma free_bit (h : s ≠ t) : Free s fun y => y t := fun y b => by simp [update_of_ne h.symm]

lemma free_const (v : Bool) : Free s fun _ => v := fun _ _ => rfl

lemma commute_h_h (s t : Int) : Commute (h s) (h t) := by
  by_cases e : s = t
  · exact e ▸ Commute.refl _
  · exact commute_of (commute_had_had e)

lemma commute_z_z (s t : Int) (p q : ℚ) : Commute (z s p) (z t q) := commute_of (commute_diag_diag _ _)

lemma commute_h_z (e : s ≠ t) : Commute (h s) (z t p) := commute_of (commute_had_diag (free_factor e))

lemma commute_x_z (e : s ≠ t) : Commute (x s) (z t p) := by
  rw [x_eq_flip]
  exact commute_of (commute_flip_diag (free_factor e))

lemma commute_x_h (e : s ≠ t) : Commute (x s) (h t) := by
  rw [x_eq_flip]
  exact commute_of (commute_had_flip e.symm (free_const _)).symm

lemma commute_x_x (s t : Int) : Commute (x s) (x t) := by
  rw [x_eq_flip, x_eq_flip]
  by_cases e : s = t
  · exact e ▸ Commute.refl _
  · exact commute_of (commute_flip_flip e (free_const _) (free_const _))

lemma commute_h_cz (ha : s ≠ a) (hb : s ≠ b) : Commute (h s) (cz a b) := commute_of (commute_had_diag (free_factor₂ ha hb))

lemma commute_z_cz : Commute (z s p) (cz a b) := commute_of (commute_diag_diag _ _)

lemma commute_x_cz (ha : s ≠ a) (hb : s ≠ b) : Commute (x s) (cz a b) := by
  rw [x_eq_flip]
  exact commute_of (commute_flip_diag (free_factor₂ ha hb))

lemma commute_h_cnot (hc : s ≠ c) (ht : s ≠ t) : Commute (h s) (cnot c t) := commute_of (commute_had_flip ht (free_bit hc))

lemma commute_z_cnot (ht : s ≠ t) : Commute (z s p) (cnot c t) := commute_of (commute_flip_diag (free_factor ht.symm)).symm

lemma commute_x_cnot (hc : s ≠ c) : Commute (x s) (cnot c t) := by
  rw [x_eq_flip]
  by_cases e : s = t
  · exact e ▸ commute_of (commute_flip_flip_self _ _ _)
  · exact commute_of (commute_flip_flip e (free_const _) (free_bit hc))

lemma z_neg_one (t : Int) : z t (-1) = z t 1 := by
  rw [← z_modTwo t (-1), show Rat.modTwo (-1) = 1 by decide +kernel]

lemma z_one_mul_z_one (t : Int) : z t 1 * z t 1 = 1 := by
  rw [z_mul_z, ← z_modTwo, show Rat.modTwo (1 + 1) = 0 by decide +kernel, z_zero]

lemma x_mul_x (t : Int) : x t * x t = 1 := by
  rw [x_eq, mul_assoc, ← mul_assoc (h t), ← mul_assoc (h t), h_mul_h, one_mul, ← mul_assoc, mul_assoc (h t),
    z_one_mul_z_one, mul_one, h_mul_h]

lemma commute_x_z_one (s t : Int) : Commute (x s) (z t 1) := by
  by_cases e : s = t
  · subst e
    rw [Commute, SemiconjBy, x_mul_z, z_neg_one]
  · exact commute_x_z e

/-! ## Marks and gates -/

noncomputable def zs (l : List Int) : Course := along (fun t => z t 1) l

noncomputable def xs (l : List Int) : Course := along x l

noncomputable def hs (l : List Int) : Course := along h l

variable {l : List Int}

lemma hs_erase (ht : t ∈ l) : hs l = hs (l.erase t) * h t := along_erase commute_h_h ht

lemma zs_erase (ht : t ∈ l) : zs l = zs (l.erase t) * z t 1 := along_erase (fun s t => commute_z_z s t 1 1) ht

lemma xs_erase (ht : t ∈ l) : xs l = xs (l.erase t) * x t := along_erase commute_x_x ht

lemma hs_toggle : hs (toggle l t) = hs l * h t := along_toggle commute_h_h (h_mul_h t)

lemma zs_toggle : zs (toggle l t) = zs l * z t 1 := along_toggle (fun s t => commute_z_z s t 1 1) (z_one_mul_z_one t)

lemma xs_toggle : xs (toggle l t) = xs l * x t := along_toggle commute_x_x (x_mul_x t)

lemma ne_of_mem_erase (hl : l.Nodup) (hs : s ∈ l.erase t) : s ≠ t := (hl.mem_erase_iff.1 hs).1

lemma commute_zs_xs (l m : List Int) : Commute (zs l) (xs m) :=
  commute_along fun s _ => (commute_along fun t _ => commute_x_z_one t s).symm

section

variable (hl : l.Nodup)
include hl

lemma xs_mul_z : xs l * z t p = z t (if t ∈ l then -p else p) * xs l := by
  split
  · next ht =>
    have hc : Commute (xs (l.erase t)) (z t (-p)) := commute_along fun s hs => commute_x_z (ne_of_mem_erase hl hs)
    rw [xs_erase ht, mul_assoc, x_mul_z, ← mul_assoc, hc.eq, mul_assoc]
  · next ht => exact (commute_along fun s hs => commute_x_z (ne_of_mem_of_not_mem hs ht)).eq

lemma xs_mul_h : xs l * h t = h t * (if t ∈ l then zs [t] * xs (l.erase t) else xs l) := by
  split
  · next ht =>
    have hc : Commute (xs (l.erase t)) (h t * z t 1) := commute_along fun s hs =>
      (commute_x_h (ne_of_mem_erase hl hs)).mul_right (commute_x_z (ne_of_mem_erase hl hs))
    rw [xs_erase ht, mul_assoc, x_mul_h, hc.eq, mul_assoc, zs, along_singleton]
  · next ht => exact (commute_along fun s hs => commute_x_h (ne_of_mem_of_not_mem hs ht)).eq

lemma zs_mul_h : zs l * h t = h t * (if t ∈ l then zs (l.erase t) * xs [t] else zs l) := by
  split
  · next ht =>
    have hc : Commute (zs (l.erase t)) (h t) := commute_along fun s hs => (commute_h_z (ne_of_mem_erase hl hs).symm).symm
    rw [zs_erase ht, mul_assoc, ← h_mul_x, ← mul_assoc, hc.eq, mul_assoc, xs, along_singleton]
  · next ht => exact (commute_along fun s hs => (commute_h_z (ne_of_mem_of_not_mem hs ht).symm).symm).eq

lemma xs_mul_cz_left (hab : a ≠ b) (hb : b ∉ l) : xs l * cz a b = cz a b * ((if a ∈ l then z b 1 else 1) * xs l) := by
  split
  · next ha =>
    have hc : Commute (xs (l.erase a)) (cz a b) := commute_along fun s hs =>
      commute_x_cz (ne_of_mem_erase hl hs) (ne_of_mem_of_not_mem (mem_of_mem_erase hs) hb)
    have hz : Commute (xs (l.erase a) * x a) (z b 1) :=
      (commute_along fun s _ => commute_x_z_one s b).mul_left (commute_x_z_one a b)
    rw [xs_erase ha, mul_assoc, x_mul_cz hab, ← mul_assoc, hc.eq, mul_assoc, ← mul_assoc (xs _), hz.eq]
  · next ha =>
    rw [one_mul]
    exact (commute_along fun s hs => commute_x_cz (ne_of_mem_of_not_mem hs ha) (ne_of_mem_of_not_mem hs hb)).eq

lemma xs_mul_cz (hab : a ≠ b) : xs l * cz a b = cz a b * ((if a ∈ l then z b 1 else 1) * (if b ∈ l then z a 1 else 1) * xs l) := by
  by_cases hb : b ∈ l
  · have hb' : b ∉ l.erase b := fun h => (hl.mem_erase_iff.1 h).1 rfl
    have hz : Commute (xs l) (z a 1) := commute_along fun s _ => commute_x_z_one s a
    have ha : a ∈ l.erase b ↔ a ∈ l := mem_erase_of_ne hab
    have e : x b * cz a b = cz a b * (x b * z a 1) := by rw [cz_comm, x_mul_cz hab.symm]
    have hl' := xs_mul_cz_left (hl.erase b) hab hb'
    rw [if_pos hb]
    conv_lhs => rw [xs_erase hb, mul_assoc, e, ← mul_assoc, hl', mul_assoc, mul_assoc, ← mul_assoc (xs _), ← xs_erase hb, hz.eq]
    simp [ha, mul_assoc]
  · rw [xs_mul_cz_left hl hab hb, if_neg hb, mul_one]

lemma xs_mul_cnot (hct : c ≠ t) : xs l * cnot c t = cnot c t * (xs l * if c ∈ l then x t else 1) := by
  split
  · next ht =>
    have hc : Commute (xs (l.erase c)) (cnot c t) := commute_along fun s hs => commute_x_cnot (ne_of_mem_erase hl hs)
    rw [xs_erase ht, mul_assoc, x_mul_cnot_control hct, ← mul_assoc, hc.eq, mul_assoc, mul_assoc]
  · next ht =>
    rw [mul_one]
    exact (commute_along fun s hs => commute_x_cnot (ne_of_mem_of_not_mem hs ht)).eq

lemma zs_mul_cnot (hct : c ≠ t) : zs l * cnot c t = cnot c t * (zs l * if t ∈ l then z c 1 else 1) := by
  split
  · next ht =>
    have hc : Commute (zs (l.erase t)) (cnot c t) := commute_along fun s hs => commute_z_cnot (ne_of_mem_erase hl hs)
    rw [zs_erase ht, mul_assoc, z_mul_cnot_target hct, ← mul_assoc, hc.eq, mul_assoc, mul_assoc, (commute_z_z c t 1 1).eq]
  · next ht =>
    rw [mul_one]
    exact (commute_along fun s hs => commute_z_cnot (ne_of_mem_of_not_mem hs ht)).eq

end

lemma zs_mul_cz : zs l * cz a b = cz a b * zs l := (commute_along fun _ _ => commute_z_cz).eq

lemma zs_mul_z : zs l * z t p = z t p * zs l := (commute_along fun s _ => commute_z_z s t 1 p).eq

lemma hs_mul_z (ht : t ∉ l) : hs l * z t p = z t p * hs l := (commute_along fun _ hs => commute_h_z (ne_of_mem_of_not_mem hs ht)).eq

lemma hs_mul_cz (ha : a ∉ l) (hb : b ∉ l) : hs l * cz a b = cz a b * hs l :=
  (commute_along fun _ hs => commute_h_cz (ne_of_mem_of_not_mem hs ha) (ne_of_mem_of_not_mem hs hb)).eq

lemma hs_mul_cnot (hc : c ∉ l) (ht : t ∉ l) : hs l * cnot c t = cnot c t * hs l :=
  (commute_along fun _ hs => commute_h_cnot (ne_of_mem_of_not_mem hs hc) (ne_of_mem_of_not_mem hs ht)).eq

lemma hs_mul_cz_right (hl : l.Nodup) (hab : a ≠ b) (ha : a ∉ l) (hb : b ∈ l) : hs l * cz a b = cnot a b * hs l := by
  have hc : Commute (hs (l.erase b)) (cnot a b) := commute_along fun s hs =>
    commute_h_cnot (ne_of_mem_of_not_mem (mem_of_mem_erase hs) ha) (ne_of_mem_erase hl hs)
  have e : h b * cz a b = cnot a b * h b := by rw [cnot_eq hab, mul_assoc, h_mul_h, mul_one]
  rw [hs_erase hb, mul_assoc, e, ← mul_assoc, hc.eq, mul_assoc]

lemma hs_mul_cnot_target (hl : l.Nodup) (hct : c ≠ t) (hc : c ∉ l) (ht : t ∈ l) : hs l * cnot c t = cz c t * hs l := by
  have hcomm : Commute (hs (l.erase t)) (cz c t) := commute_along fun s hs =>
    commute_h_cz (ne_of_mem_of_not_mem (mem_of_mem_erase hs) hc) (ne_of_mem_erase hl hs)
  have e : h t * cnot c t = cz c t * h t := by
    rw [cnot_eq hct, ← mul_assoc, ← mul_assoc, h_mul_h, one_mul]
  rw [hs_erase ht, mul_assoc, e, ← mul_assoc, hcomm.eq, mul_assoc]

lemma hs_mul_cnot_both (hl : l.Nodup) (hct : c ≠ t) (hc : c ∈ l) (ht : t ∈ l) : hs l * cnot c t = cnot t c * hs l := by
  have htc : t ∈ l.erase c := (mem_erase_of_ne hct.symm).2 ht
  have hne : c ∉ l.erase c := fun h => (hl.mem_erase_iff.1 h).1 rfl
  have e : h c * cz c t = cnot t c * h c := by
    rw [cnot_eq hct.symm, mul_assoc, h_mul_h, mul_one, cz_comm]
  have hc' : Commute (hs (l.erase c)) (h c) := commute_along fun s _ => commute_h_h s c
  rw [hs_erase hc, hc'.eq, mul_assoc, hs_mul_cnot_target (hl.erase c) hct hne htc, ← mul_assoc, e, mul_assoc]

end ZXCircuits.Course
