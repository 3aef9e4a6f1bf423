/-
  Hadamards and rotations in a pass.

  A Hadamard that was carried along can be laid down, a rotation is fused with an available one, and a Hadamard after a
  Hadamard and a quarter turn changes the turn (`Sheet.turnHadamard`).
-/
import ZXCircuits.Proofs.Pass.Steps

namespace ZXCircuits

open List Function Course PerWire Operation

/-! ## Hadamards between quarter turns -/

lemma turn_mul_self_of_den {p : ℚ} (hp : p.den = 2) : turn p * turn p = -1 := by
  have hcop := p.reduced
  rw [hp] at hcop
  have hodd : p.num % 2 = 1 := by
    have := Nat.Coprime.odd_of_right hcop
    rcases this with ⟨k, hk⟩
    omega
  have h2 : p + p = 2 * ((p.num / 2 : ℤ) : ℚ) + 1 := by
    have hn : (p.num : ℚ) = 2 * ((p.num / 2 : ℤ) : ℚ) + 1 := by
      have : p.num = 2 * (p.num / 2) + 1 := by omega
      exact_mod_cast this
    have hq : p = p.num / 2 := by
      conv_lhs => rw [← Rat.num_div_den p, hp]
      norm_num
    linarith
  rw [← turn_add, h2, turn_add, turn_two_mul_int, turn_one, one_mul]

namespace Pass

variable {g : Gate} {k : Rotation} {t : Int} {phase : ℚ} (hg : g.op = .rotation k t phase) (hk : k.isZ)
include hg hk

lemma role_rotation (v : Int) : g.role v = if v = t then .z else .absent := by
  rw [Gate.role, hg]
  simp [role, hk]

lemma on_rotation (v : Int) : g.role v ≠ .absent ↔ v = t := by simp [role_rotation hg hk]

lemma motion_rotation : Course.of g.op.motion = Course.z t phase := by
  rw [hg]
  simp [motion, hk, Course.z]

end Pass

namespace Sheet

variable {n count : ℕ} {lane : Int → List Gate} {l : List Gate} {t : Int}

lemma courseOf_eq_last {g : Gate} {k : List Gate} (h : Sheet n count lane l) (hg : g ∈ l) (single : ∀ w, g.role w ≠ .absent ↔ w = t)
    (e : lane t = k ++ [g]) : courseOf l = courseOf (l.erase g) * Course.of g.op.motion := by
  have := h.courseOf_eq (h.toLast hg fun w b hc hb => by
    obtain rfl := (single w).1 hc.1
    rw [e] at hb
    simp only [precedes_append, precedes_cons, not_precedes_nil, mem_singleton, not_mem_nil, and_false, or_false] at hb
    exact (not_mem_of_nodup (e ▸ h.nodup w)).1 (hb.elim Precedes.mem_left And.left))
  rw [this, courseOf_append, courseOf_cons, courseOf_nil, mul_one]

lemma turnHadamard {pre : List Gate} {hd last first last' : Gate} {k k1 k2 : Rotation} {p q : ℚ}
    (h : Sheet n count lane l) (e : lane t = pre ++ [hd, last]) (hhd : hd.op = .had t)
    (hlast : last.op = .rotation k t p) (hfirst : first = ⟨.rotation k1 t q, count⟩)
    (hlast' : last' = ⟨.rotation k2 t q, last.index⟩) (hk : k.isZ) (hk1 : k1.isZ) (hk2 : k2.isZ)
    (hp : p.den = 2) (hq : q = Rat.modTwo (-p)) :
    ∃ m, Sheet n (count + 1) (update lane t (pre ++ [first, hd, last'])) m ∧ courseOf m = courseOf l * Course.h t := by
  have hdl : hd ∈ l := h.mem_of_lane (by rw [e]; simp)
  have lastl : last ∈ l := h.mem_of_lane (by rw [e]; simp)
  have hne : hd ≠ last := fun eq => by rw [eq, hlast] at hhd; cases hhd
  have hnd : (pre ++ [hd, last]).Nodup := e ▸ h.nodup t
  have honT : OnWire n t := by
    have := h.laid hd hdl
    rwa [Gate.IsLaid, hhd] at this
  have on_hd : ∀ w, hd.role w ≠ .absent ↔ w = t := fun w => by simp [Gate.role, hhd, role]
  have on_last := Pass.on_rotation hlast hk
  have hpre : hd ∉ pre ∧ last ∉ pre := by
    have := nodup_append.1 hnd
    exact ⟨fun hm => this.2.2 hd hm hd (by simp) rfl, fun hm => this.2.2 last hm last (by simp) rfl⟩
  -- the quarter turn is taken off, then the Hadamard
  have elast := h.courseOf_eq_last (k := pre ++ [hd]) lastl on_last (by simpa using e)
  have h1 := h.remove last
  have et1 : (lane t).erase last = pre ++ [hd] := by
    rw [e, erase_append_right _ hpre.2, erase_cons_tail (by simpa using hne), erase_cons_head]
  have hdl1 : hd ∈ l.erase last := (h.nodup_list.mem_erase_iff).2 ⟨hne, hdl⟩
  have ehd := h1.courseOf_eq_last hdl1 on_hd et1
  have h2 := h1.remove hd
  have lane2 : (fun w => ((lane w).erase last).erase hd) = update lane t pre := by
    rw [← update_erase fun w hm => (on_hd w).1 ((h1.mem_lane w hd).1 hm).2, et1, erase_append_right _ hpre.1, erase_cons_head,
      append_nil, ← update_erase fun w hm => (on_last w).1 ((h.mem_lane w last).1 hm).2, update_idem]
  -- and the three gates are laid down
  subst hfirst hlast'
  have h3 := h2.push (g := ⟨.rotation k1 t q, count⟩) ⟨hk1, honT⟩ (fun g hg => (h2.index_lt g hg).ne) (Nat.lt_succ_self _) (Nat.le_succ _)
  have index_ne : ∀ {a b : Gate}, a ∈ l → b ∈ l → a ≠ b → a.index ≠ b.index := fun ha hb hab hi => hab (h.eq_of_index ha hb hi)
  have h4 := h3.push (h.laid hd hdl) (fun g hg => by
      rcases mem_append.1 hg with hg | hg
      · have hg' := h1.nodup_list.mem_erase_iff.1 hg
        exact index_ne (mem_of_mem_erase hg'.2) hdl hg'.1
      · rw [mem_singleton.1 hg]
        exact (h.index_lt hd hdl).ne')
    ((h.index_lt hd hdl).trans (Nat.lt_succ_self _)) le_rfl
  have h5 := h4.push (g := ⟨.rotation k2 t q, last.index⟩) ⟨hk2, honT⟩
    (fun g hg => by
      rcases mem_append.1 hg with hg | hg
      · rcases mem_append.1 hg with hg | hg
        · have hg' := h.nodup_list.mem_erase_iff.1 (mem_of_mem_erase hg)
          exact index_ne (b := last) hg'.2 lastl hg'.1
        · rw [mem_singleton.1 hg]
          exact (h.index_lt last lastl).ne'
      · rw [mem_singleton.1 hg]
        exact index_ne (b := last) hdl lastl hne)
    ((h.index_lt last lastl).trans (Nat.lt_succ_self _)) le_rfl
  rw [lane2, ← update_laidOnto (Pass.on_rotation rfl hk2), ← update_laidOnto on_hd, ← update_laidOnto (Pass.on_rotation rfl hk1)] at h5
  simp only [update_self, update_idem, append_assoc, singleton_append] at h5
  refine ⟨_, h5, ?_⟩
  have hh : Course.of hd.op.motion = Course.h t := by rw [hhd]; rfl
  have hz : ∀ {k : Rotation}, k.isZ → of (rotation k t q).motion = Course.z t (-p) := fun hk =>
    (Pass.motion_rotation (g := ⟨_, 0⟩) rfl hk).trans (by rw [hq, z_modTwo])
  rw [elast, ehd]
  simp only [courseOf_append, courseOf_cons, courseOf_nil, mul_one, hh, hz hk1, hz hk2, Pass.motion_rotation hlast hk]
  simp only [mul_assoc]
  rw [← mul_assoc (Course.h t), h_mul_quarter_mul_h t p (turn_mul_self_of_den hp), mul_assoc]

end Sheet

namespace Pass

variable {n : ℕ} {p : Pass} {l : List Gate} {g : Gate} {w a b c t : Int}

/-! ## Hadamards and rotations in the lanes -/

lemma layHadamard_spec (h : Lays n p l) (hw : OnWire n w) (hm : w ∈ p.hadamards) :
    ∃ q m, p.layHadamard w = .ok q ∧ Lays n q m ∧ q.hadamards = p.hadamards.erase w ∧ q.nots = p.nots ∧ q.zs = p.zs ∧
      q.permutation = p.permutation ∧ courseOf m = courseOf l * Course.h w := by
  set k : Gate := ⟨.had w, p.count⟩ with hk
  obtain ⟨lanes, el, sl⟩ := h.lanes.pushOne (g := k) hw fun v => by simp [hk]
  refine ⟨{ p with lanes := lanes, available := PerWire.set p.available w [], axes := PerWire.set p.axes w .z,
                   hadamards := p.hadamards.erase w, count := p.count + 1 }, l ++ [k], ?_, ?_, rfl, rfl, rfl, rfl, ?_⟩
  · have hc : p.hadamards.contains w := by simpa using hm
    simp only [layHadamard, number, lay, Pass.restart, Gate.had, takeOut, bind, Except.bind, pure, Except.pure, ← hk, el, hc, if_true]
  · refine .of_shows sl (h.available.set hw []) (h.axes.set hw .z) ⟨?_, fun v => ?_⟩
    · exact h.laying.sheet.push hw (fun g hg => (h.laying.sheet.index_lt g hg).ne) (Nat.lt_succ_self _) (Nat.le_succ _)
    by_cases hv : v = w
    · subst hv
      simpa using Open.nil v .z _
    · simpa [hv, laidOnto, hk] using h.laying.opens v
  · simp [hk, motion, Course.h]

variable {k : Rotation} {phase : ℚ}

section

variable (h : Lays n p l) (ht : OnWire n t) (hg : g.op = .rotation k t phase) (hk : k.isZ)
include h ht hg hk

lemma layRotation_spec (hz : val p.axes t = .z) : Adds n p l (p.laySingle t g) (Course.z t phase) := by
  rw [← motion_rotation hg hk]
  exact laySingle_spec h ht (by rw [Gate.IsLaid, hg]; exact ⟨hk, ht⟩) (on_rotation hg hk) (by rw [role_rotation hg hk, if_pos rfl, hz]; rfl)

lemma fuseRotation_spec : ∃ q m, p.fuseRotation t g phase = .ok q ∧ Lays n q m ∧ q.hadamards = p.hadamards ∧ q.nots = p.nots ∧
      q.permutation = p.permutation ∧
      (q.zs = p.zs ∧ courseOf m = courseOf l * Course.z t phase ∨
        q.zs = toggle p.zs t ∧ courseOf m * Course.z t 1 = courseOf l * Course.z t phase) := by
  rw [fuseRotation, h.available.look ht, h.axes.get ht]
  simp only [bind, Except.bind]
  split
  · have hz : val (p.restart t .z).axes t = .z := (congrFun (h.axes.set ht .z).val t).trans (update_self ..)
    obtain ⟨q, m, hq, hl, hs, hc⟩ := layRotation_spec (h.restart ht .z) ht hg hk hz
    exact ⟨q, m, hq, hl, hs.1, hs.2, hs.4, .inl ⟨hs.3, hc⟩⟩
  next hx =>
  have hz : val p.axes t = .z := by
    cases e : val p.axes t with
    | z => rfl
    | x => exact (hx e).elim
  split
  · obtain ⟨q, m, hq, hl, hs, hc⟩ := layRotation_spec h ht hg hk hz
    exact ⟨q, m, hq, hl, hs.1, hs.2, hs.4, .inl ⟨hs.3, hc⟩⟩
  next j hj =>
  have hja := mem_of_find?_eq_some hj
  have hjz : j.isZRotation := List.find?_some hj
  have hjl := h.mem_of_available hja
  obtain ⟨k', hop, hk'⟩ : ∃ k', j.op = .rotation k' t j.phase ∧ k'.isZ := by
    have hjt := ((h.laying.sheet.mem_lane t j).1 (h.mem_lane_of_available hja)).2
    obtain ⟨op, i⟩ := j
    cases op with
    | rotation k' u r =>
      have : t = u := by
        by_contra hn
        simp [hn] at hjt
      exact ⟨k', by simp [Gate.phase, Gate.phase?, this], hjz⟩
    | _ => simp [Gate.isZRotation] at hjz
  have on_t : ∀ v, j ∈ val p.lanes v ↔ v = t := fun v => by
    rw [h.laying.sheet.mem_lane, and_iff_right hjl, on_rotation hop hk']
  have hlast : courseOf l = courseOf (l.erase j) * Course.z t j.phase := by
    rw [← motion_rotation hop hk']
    refine h.laying.last hjl fun v hv => ?_
    obtain rfl := (on_rotation hop hk' v).1 hv
    exact ⟨hja, by rw [role_rotation hop hk', if_pos rfl, hz]; rfl⟩
  obtain ⟨available, ea, sa⟩ := h.available.removeOne ht (h.same_iff_of_available hjl)
    fun v => ⟨fun hm => (on_t v).1 (h.mem_lane_of_available hm), by rintro rfl; exact hja⟩
  obtain ⟨lanes, el, sl⟩ := h.lanes.removeOne ht (h.laying.sheet.same_iff_of_lane hjl) on_t
  have h' : Lays n { p with lanes := lanes, available := available } (l.erase j) := .of_shows sl sa h.axes (h.laying.remove j)
  have hsum : Course.z t (Rat.modTwo (phase + j.phase)) = Course.z t j.phase * Course.z t phase := by
    rw [z_modTwo, z_mul_z, add_comm]
  simp only [withdraw, lift, ea, el, bind, Except.bind, pure, Except.pure]
  split
  · next h1 =>
    refine ⟨_, _, rfl, ⟨h'.1, h'.2, h'.3, h'.4⟩, rfl, rfl, rfl, .inr ⟨rfl, ?_⟩⟩
    rw [hlast, ← h1, hsum, mul_assoc]
  split
  · next h0 =>
    refine ⟨_, _, rfl, h', rfl, rfl, rfl, .inl ⟨rfl, ?_⟩⟩
    rw [hlast, mul_assoc, ← hsum, h0, z_zero, mul_one]
  · obtain ⟨q, m, hq, hl, hs, hc⟩ := layRotation_spec h' ht (g := .zPhase t (Rat.modTwo (phase + j.phase))) rfl rfl hz
    exact ⟨q, m, hq, hl, hs.1, hs.2, hs.4, .inl ⟨hs.3, by rw [hc, hsum, hlast, mul_assoc]⟩⟩

end

lemma isZ_turnedName (k : Rotation) (q : ℚ) : (turnedName k q).isZ = k.isZ := by cases k <;> rfl

lemma isZ_markedName (k : Rotation) (q : ℚ) : (markedName k q).isZ = k.isZ := by cases k <;> rfl

variable (h : Lays n p l) (ht : OnWire n t)
include h ht

lemma turnHadamard_spec {pre : List Gate} {hd last : Gate}
    (e : val p.lanes t = pre ++ [hd, last]) (hhd : hd.op = .had t) (hop : last.op = .rotation k t phase)
    (hk : k.isZ) (hp : phase.den = 2) :
    Adds n p l (p.turnHadamard t last k t phase) (Course.h t) := by
  set turned := Rat.modTwo (-phase) with hturned
  set first : Gate := ⟨.rotation .zPhase t turned, p.count⟩ with hfirst
  set last' : Gate := ⟨.rotation (turnedName k turned) t turned, last.index⟩ with hlast'
  have hk' : (turnedName k turned).isZ := (isZ_turnedName k turned).trans hk
  obtain ⟨m, hs, hc⟩ := h.laying.sheet.turnHadamard e hhd hop hfirst hlast' hk rfl hk' hp hturned
  have lastl : last ∈ l := h.laying.sheet.mem_of_lane (by rw [e]; simp)
  have hn : (pre ++ [hd, last]).Nodup := e ▸ h.laying.sheet.nodup t
  -- only the quarter turn has its serial number
  set replace : Gate → Gate := fun g => if g.index == last.index then last' else g with hreplace
  have keep : ∀ g ∈ l, g ≠ last → replace g = g := fun g hg hne => by
    have : ¬ g.index = last.index := fun hi => hne (h.laying.sheet.eq_of_index hg lastl hi)
    simp [hreplace, this]
  have rlast : replace last = last' := by simp [hreplace]
  have hpre : ∀ g ∈ pre, g ≠ last := fun g hg eq => (nodup_append.1 hn).2.2 g hg last (by simp) eq
  have hhl : hd ≠ last := fun eq => by rw [eq, hop] at hhd; cases hhd
  have elane : (val p.lanes t).map replace = pre ++ [hd, last'] := by
    have hmap : pre.map replace = pre := by
      conv_rhs => rw [← map_id pre]
      exact map_congr_left fun g hg => keep g (h.laying.sheet.mem_of_lane (by rw [e]; simp [hg])) (hpre g hg)
    rw [e, map_append, hmap, map_cons, map_cons, map_nil, rlast, keep hd (h.laying.sheet.mem_of_lane (by rw [e]; simp)) hhl]
  have einsert : insertBefore 2 first (pre ++ [hd, last']) = pre ++ [first, hd, last'] := insertBefore_append first pre [hd, last']
  -- the Hadamard is not available, so at most the quarter turn is
  have hav : val p.available t = [] ∨ val p.available t = [last] := by
    obtain ⟨pre', old, run, e', eo, hold, hrun⟩ := h.laying.opens t
    have hhd' : hd ∉ val p.available t := fun hm => by
      have hr : hd.role t = .mixed := by rw [Gate.role, hhd]; simp [role]
      rw [eo] at hm
      rcases mem_append.1 hm with hm | hm
      · exact absurd (hold hd hm).2 (by simp [Gate.isZRotation, hhd])
      have := hrun hd hm
      rw [hr] at this
      cases hx : val p.axes t <;> simp [hx, Axis.role] at this
    rcases append_eq_append_iff.1 (e.symm.trans e') with ⟨as, -, eas⟩ | ⟨cs, -, ecs⟩
    · rcases as with _ | ⟨a, _ | ⟨b, as⟩⟩
      · exact absurd (by rw [← nil_append (val p.available t), ← eas]; simp) hhd'
      · exact .inr (List.cons.inj eas).2.symm
      · have := congrArg List.length eas
        simp only [length_cons, length_nil, length_append] at this
        exact .inl (eq_nil_of_length_eq_zero (by omega))
    · exact absurd (by rw [ecs]; simp) hhd'
  have sl := h.lanes.set ht (pre ++ [first, hd, last'])
  have sa := h.available.set ht ((val p.available t).map replace)
  refine ⟨{ p with lanes := PerWire.set p.lanes t (pre ++ [first, hd, last'])
                   available := PerWire.set p.available t ((val p.available t).map replace)
                   count := p.count + 1 }, m, ?_, .of_shows sl sa h.axes ⟨hs, fun w => ?_⟩, ⟨rfl, rfl, rfl, rfl⟩, hc⟩
  · simp only [Pass.turnHadamard, number, withPhase, Gate.zPhase, h.lanes.look ht, h.available.look ht, bind, Except.bind, pure,
      Except.pure, ← hturned, ← hfirst, ← hlast', ← hreplace, elane, einsert]
  by_cases hw : w = t
  · subst hw
    rw [update_self, update_self]
    rcases hav with hav | hav
    · rw [hav]
      exact Open.nil _ _ _
    rw [hav, map_singleton, rlast]
    cases hx : val p.axes w with
    | z =>
      refine ⟨pre ++ [first, hd], [], [last'], by simp, rfl, by simp, fun g hg => ?_⟩
      rw [mem_singleton.1 hg, role_rotation rfl hk', if_pos rfl]
      rfl
    | x =>
      refine ⟨pre ++ [first, hd], [last'], [], by simp, rfl, fun g hg => ?_, by simp⟩
      rw [mem_singleton.1 hg]
      exact ⟨rfl, hk'⟩
  · simpa [hw] using h.laying.opens w

lemma carryHadamard_spec : ∃ q m, p.carryHadamard t = .ok q ∧ Lays n q m ∧ q.nots = p.nots ∧ q.zs = p.zs ∧ q.permutation = p.permutation ∧
      (q.hadamards = toggle p.hadamards t ∧ courseOf m = courseOf l ∨
        q.hadamards = p.hadamards ∧ courseOf m = courseOf l * Course.h t) := by
  have carried : ∃ q m, (.ok { p with hadamards := toggle p.hadamards t } : Attempt Pass) = .ok q ∧ Lays n q m ∧
      q.nots = p.nots ∧ q.zs = p.zs ∧ q.permutation = p.permutation ∧
      (q.hadamards = toggle p.hadamards t ∧ courseOf m = courseOf l ∨ q.hadamards = p.hadamards ∧ courseOf m = courseOf l * Course.h t) :=
    ⟨_, l, rfl, ⟨h.1, h.2, h.3, h.4⟩, rfl, rfl, rfl, .inl ⟨rfl, rfl⟩⟩
  rw [carryHadamard, h.lanes.look ht]
  simp only [bind, Except.bind, pure, Except.pure]
  split
  · next last hd rest hrev =>
    have e : val p.lanes t = rest.reverse ++ [hd, last] := by
      rw [← reverse_reverse (val p.lanes t), hrev]
      simp
    have on_t : ∀ g ∈ val p.lanes t, g.role t ≠ .absent := fun g hg => ((h.laying.sheet.mem_lane t g).1 hg).2
    split
    · exact carried
    next hhad =>
    split
    · next k w phase hop =>
      split
      · exact carried
      next hcond =>
      have hhd : hd.op = .had t := by
        have hr := on_t hd (by rw [e]; simp)
        obtain ⟨op, i⟩ := hd
        cases op with
        | had u =>
          have : t = u := by simpa using hr
          rw [this]
        | _ => simp [Gate.isHad] at hhad
      have hw : w = t := by
        have hr := on_t last (by rw [e]; simp)
        by_contra hn
        rw [Gate.role, hop] at hr
        simp [role, Ne.symm hn] at hr
      subst hw
      simp only [Bool.or_eq_true, Bool.not_eq_true', decide_eq_true_eq, not_or, Bool.not_eq_false, ne_eq, not_not] at hcond
      obtain ⟨q, m, hq, hl, hs, hc⟩ := turnHadamard_spec h ht e hhd hop hcond.1 hcond.2
      exact ⟨q, m, hq, hl, hs.2, hs.3, hs.4, .inr ⟨hs.1, hc⟩⟩
    · exact carried
  · exact carried

end Pass

end ZXCircuits
