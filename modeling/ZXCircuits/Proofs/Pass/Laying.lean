/-
  Lanes with the gates that are available at their ends.

  The available gates of a wire are the last ones of its lane and of one sort (`Open`), but for rotations about the Z axis
  that may stand before those of the X sort.  A gate that is available on all its wires can be taken for the last
  one of all (`Laying.last`).
-/
import ZXCircuits.Proofs.Lanes.Sheet
import ZXCircuits.Proofs.Pass.Marks

namespace ZXCircuits

open List Function Gate

def Axis.role : Axis → Role
  | z => .z
  | x => .x

/-- The gates in `op` are the end of the lane of a wire and of one sort. -/
def Open (w : Int) (a : Axis) (lane op : List Gate) : Prop :=
  ∃ pre old run, lane = pre ++ op ∧ op = old ++ run ∧ (∀ g ∈ old, a = .x ∧ g.isZRotation) ∧ ∀ g ∈ run, g.role w = a.role

namespace Open

variable {w : Int} {a : Axis} {lane op : List Gate} {g : Gate}

lemma nil (w : Int) (a : Axis) (lane : List Gate) : Open w a lane [] := ⟨lane, [], [], by simp, rfl, by simp, by simp⟩

lemma subset (h : Open w a lane op) : ∀ g ∈ op, g ∈ lane := by
  obtain ⟨pre, old, run, rfl, -⟩ := h
  exact fun g hg => mem_append_right _ hg

lemma push (h : Open w a lane op) (hg : g.role w = a.role) : Open w a (lane ++ [g]) (op ++ [g]) := by
  obtain ⟨pre, old, run, rfl, rfl, hold, hrun⟩ := h
  refine ⟨pre, old, run ++ [g], by simp, by simp, hold, ?_⟩
  exact forall_mem_append.2 ⟨hrun, forall_mem_singleton.2 hg⟩

lemma erase (h : Open w a lane op) (hn : lane.Nodup) (g : Gate) : Open w a (lane.erase g) (op.erase g) := by
  obtain ⟨pre, old, run, rfl, rfl, hold, hrun⟩ := h
  have hold' : ∀ k ∈ old.erase g, a = .x ∧ k.isZRotation := fun k hk => hold k (mem_of_mem_erase hk)
  have hrun' : ∀ k ∈ run.erase g, k.role w = a.role := fun k hk => hrun k (mem_of_mem_erase hk)
  by_cases hp : g ∈ pre
  · have hg : g ∉ old ++ run := fun hm => (nodup_append.1 hn).2.2 g hp g hm rfl
    rw [erase_append_left _ hp, erase_of_not_mem hg]
    exact ⟨pre.erase g, old, run, rfl, rfl, hold, hrun⟩
  rw [erase_append_right _ hp]
  by_cases ho : g ∈ old
  · rw [erase_append_left _ ho]
    exact ⟨pre, old.erase g, run, rfl, rfl, hold', hrun⟩
  · rw [erase_append_right _ ho]
    exact ⟨pre, old, run.erase g, rfl, rfl, hold, hrun'⟩

lemma role_of_isZRotation (hg : g.isZRotation) : g.role w ≠ .x := by
  obtain ⟨op, i⟩ := g
  cases op with
  | rotation k t p =>
    have hk : k.isZ := hg
    by_cases e : w = t <;> simp [e, hk]
  | _ => simp [isZRotation] at hg

lemma not_clash (h : Open w a lane op) (hn : lane.Nodup) (hg : g ∈ op) (hr : g.role w = a.role) {b : Gate}
    (hb : Precedes lane g b) : b.role w = a.role := by
  obtain ⟨pre, old, run, rfl, rfl, hold, hrun⟩ := h
  have hgo : g ∉ old := fun ho => by
    obtain ⟨rfl, hz⟩ := hold g ho
    exact role_of_isZRotation hz hr
  have hgp : g ∉ pre := fun hp => (nodup_append.1 hn).2.2 g hp g hg rfl
  simp only [precedes_append] at hb
  refine hrun b ?_
  rcases hb with hb | ⟨hb, -⟩ | hb | ⟨hb, -⟩ | hb
  · exact (hgp hb.mem_left).elim
  · exact (hgp hb).elim
  · exact (hgo hb.mem_left).elim
  · exact (hgo hb).elim
  · exact hb.mem_right

end Open

lemma Axis.role_not_clashes (a : Axis) : ¬ a.role.Clashes a.role := by
  cases a <;> simp [Axis.role, Role.Clashes]

/-- Lanes, the gates available in them and their sorts, for a list of gates. -/
structure Laying (n count : ℕ) (lane opens : Int → List Gate) (axis : Int → Axis) (l : List Gate) : Prop where
  sheet : Sheet n count lane l
  opens : ∀ w, Open w (axis w) (lane w) (opens w)

namespace Laying

variable {n count : ℕ} {lane op : Int → List Gate} {axis : Int → Axis} {l : List Gate} {g : Gate} {w : Int}

variable (h : Laying n count lane op axis l)
include h

lemma push (hg : g.IsLaid n) (hi : g.index = count) (hr : ∀ w, g.role w ≠ .absent → g.role w = (axis w).role) :
    Laying n (count + 1) (laidOnto lane g) (laidOnto op g) axis (l ++ [g]) where
  sheet := h.sheet.push hg (fun k hk => by have := h.sheet.index_lt k hk; omega) (by omega) (by omega)
  opens w := by
    unfold laidOnto
    split
    · exact h.opens w
    · next hw => exact (h.opens w).push (hr w hw)

lemma restart (w : Int) (a : Axis) : Laying n count lane (update op w []) (update axis w a) l where
  sheet := h.sheet
  opens v := by
    by_cases hv : v = w
    · subst hv
      simpa using Open.nil v a (lane v)
    · simpa [hv] using h.opens v

lemma remove (g : Gate) : Laying n count (fun w => (lane w).erase g) (fun w => (op w).erase g) axis (l.erase g) where
  sheet := h.sheet.remove g
  opens w := (h.opens w).erase (h.sheet.nodup w) g

/-- **A gate available on all its wires may be taken for the last one.** -/
theorem last (hg : g ∈ l) (hw : ∀ w, g.role w ≠ .absent → g ∈ op w ∧ g.role w = (axis w).role) :
    courseOf l = courseOf (l.erase g) * Course.of g.op.motion := by
  have hs := h.sheet.toLast hg fun w b hc hp => by
    obtain ⟨hm, hr⟩ := hw w hc.1
    have hb := (h.opens w).not_clash (h.sheet.nodup w) hm hr hp
    rw [Clash, hr, hb] at hc
    exact Axis.role_not_clashes _ hc
  rw [h.sheet.courseOf_eq hs, courseOf_append, courseOf_cons, courseOf_nil, mul_one]

end Laying

/-! ## Signs after controlled nots -/

lemma exists_split_first {α : Type} (p : α → Prop) (l : List α) :
    ∃ as bs, l = as ++ bs ∧ (∀ a ∈ as, p a) ∧ (bs = [] ∨ ∃ b cs, bs = b :: cs ∧ ¬ p b) := by
  induction l with
  | nil => exact ⟨[], [], rfl, by simp, .inl rfl⟩
  | cons a l ih =>
    by_cases ha : p a
    · obtain ⟨as, bs, rfl, has, hbs⟩ := ih
      exact ⟨a :: as, bs, rfl, by simpa [ha] using has, hbs⟩
    · exact ⟨[], a :: l, rfl, by simp, .inr ⟨a, l, rfl, ha⟩⟩

namespace Sheet

variable {n count : ℕ} {lane : Int → List Gate} {l : List Gate} {g : Gate} {c t : Int} {pre op : List Gate}

variable (h : Sheet n count lane l) (hop : g.op = .pair .cnot c t) (hgl : g ∈ l) (e : lane t = pre ++ op) (hgp : g ∈ pre)
  (hz : ∀ k ∈ op, k.role t = .z) (between : ∀ k, Precedes pre g k → k.role t = .x)
  (control : ∀ b, Precedes (lane c) g b → b.role c = .z)
include h hop hgl e hgp hz between control

lemma split_at_target : ∃ m rest, Sheet n count lane (m ++ g :: rest) ∧ (∀ k ∈ pre, k ≠ g → k ∈ m) ∧ (∀ k ∈ op, k ∈ rest) ∧
      ∀ k ∈ rest, (k.role t = .absent ∨ k.role t = .z) ∧ (k.role c = .absent ∨ k.role c = .z) := by
  have hlaid := h.laid g hgl
  have hct : c ≠ t := by
    rw [IsLaid, hop] at hlaid
    exact hlaid.2.2.2
  have hgt : g.role t = .x := by simp [role, hop, Operation.role, hct.symm]
  have hgc : g.role c = .z := by simp [role, hop, Operation.role]
  have wires : ∀ w, g.role w ≠ .absent → w = c ∨ w = t := by
    intro w hw
    by_contra hn
    obtain ⟨h1, h2⟩ := not_or.1 hn
    simp [role, hop, Operation.role, h1, h2] at hw
  obtain ⟨as, bs, rfl⟩ := append_of_mem hgl
  obtain ⟨b1, b2, rfl, free, first⟩ := exists_split_first (fun b => ∀ w, ¬ Clash w g b) bs
  have hs : Sheet n count lane (as ++ (b1 ++ g :: b2)) := (slide free).1 h
  have hnd := h.nodup_list
  have after : ∀ k ∈ b2, Precedes (as ++ g :: (b1 ++ b2)) g k := fun k hk => by simp [hk]
  have on_target : ∀ k ∈ pre ++ op, k ∈ as ++ g :: (b1 ++ b2) ∧ k.role t ≠ .absent := fun k hk => (h.mem_lane t k).1 (e ▸ hk)
  have hop2 : ∀ k ∈ op, k ∈ b2 := by
    intro k hk
    have hc : Clash t g k := ⟨by simp [hgt], by simp [hz k hk], .inl (by simp [hgt, hz k hk])⟩
    have hp := (h.order t g k hc).1 (by rw [e]; simp [hgp, hk])
    have hkb : k ∈ b1 ++ b2 := by
      simp only [precedes_append, precedes_cons, mem_cons] at hp
      grind [Precedes.mem_left]
    exact (mem_append.1 hkb).resolve_left fun hm => free k hm t hc
  have hpre : ∀ k ∈ pre, k ≠ g → k ∈ as ++ b1 := by
    intro k hk hkg
    by_contra hkm
    have hk2 : k ∈ b2 := by
      have := (on_target k (by simp [hk])).1
      simp only [mem_append, mem_cons] at this hkm
      tauto
    -- the first gate that clashes with `g` is available on the target
    obtain ⟨o, cs, rfl, ho⟩ : ∃ o cs, b2 = o :: cs ∧ ¬ ∀ w, ¬ Clash w g o := first.resolve_left fun e => by simp [e] at hk2
    obtain ⟨w, hw⟩ := not_forall_not.1 ho
    have hgo := (h.order w g o hw).2 (after o (by simp))
    have hwt : w = t := (wires w hw.1).resolve_left fun ew => by
      subst ew
      rcases hw.2.2 with hne | hm
      · exact hne (hgc.trans (control o hgo).symm)
      · simp [hgc] at hm
    subst hwt
    have hgop : g ∉ op := fun hm => (nodup_append.1 (e ▸ h.nodup w)).2.2 g hgp g hm rfl
    have hoop : o ∈ op := by
      rw [e, precedes_append] at hgo
      rcases hgo with hgo | ⟨-, hgo⟩ | hgo
      · rcases hw.2.2 with hne | hm
        · exact (hne (hgt.trans (between o hgo).symm)).elim
        · simp [hgt] at hm
      · exact hgo
      · exact (hgop hgo.mem_left).elim
    have hkw := (on_target k (by simp [hk])).2
    by_cases hkx : k.role w = .x
    · -- a gate of the role of `g` comes before the available ones
      have hc : Clash w k o := ⟨hkw, by simp [hz o hoop], .inl (by simp [hkx, hz o hoop])⟩
      have hko := (h.order w k o hc).1 (by rw [e]; simp [hk, hoop])
      have hne : k ≠ o := fun ek => (nodup_append.1 (e ▸ h.nodup w)).2.2 k hk o hoop ek
      have hkc : k ∈ cs := (mem_cons.1 hk2).resolve_left hne
      exact hko.asymm hnd (by simp [hkc])
    -- any other gate before the available ones comes before `g`
    have hc : Clash w k g := ⟨hkw, by simp [hgt], .inl (by rw [hgt]; exact hkx)⟩
    have hkg' := (precedes_or_precedes hk hgp hkg).resolve_right fun hp => hkx (between k hp)
    exact ((h.order w k g hc).1 (by rw [e]; simp [hkg'])).asymm hnd (after k hk2)
  have hdisj : ∀ k ∈ b2, k ∉ as ++ b1 := by
    intro k hk hm
    have : (as ++ b1 ++ g :: b2).Nodup := by simpa using hs.nodup_list
    exact (nodup_append.1 this).2.2 k hm k (by simp [hk]) rfl
  refine ⟨as ++ b1, b2, by simpa using hs, hpre, hop2, fun k hk => ⟨?_, ?_⟩⟩
  · by_contra hr
    obtain ⟨h1, h2⟩ := not_or.1 hr
    have hkt : k ∈ pre ++ op := e ▸ (h.mem_lane t k).2 ⟨(after k hk).mem_right, h1⟩
    rcases mem_append.1 hkt with hkt | hkt
    · refine hdisj k hk (hpre k hkt ?_)
      rintro rfl
      exact (not_mem_of_nodup hnd).2 (by simp [hk])
    · exact h2 (hz k hkt)
  by_contra hr
  obtain ⟨h1, h2⟩ := not_or.1 hr
  have hc : Clash c g k := ⟨by simp [hgc], h1, .inl (by rw [hgc]; exact Ne.symm h2)⟩
  exact h2 (control k ((h.order c g k hc).2 (after k hk)))

/-- **A sign merged into a controlled not**: an inverse `S` on the target before it, and an `S` on either wire at the
    end. -/
theorem mergeSign {before onTarget onControl : Gate} (hbefore : before = { Gate.s t true with index := count })
    (htarget : onTarget = { Gate.s t false with index := count + 1 })
    (hcontrol : onControl = { Gate.s c false with index := count + 2 }) :
    ∃ l', Sheet n (count + 3) (update (update lane t (pre.erase g ++ before :: g :: (op ++ [onTarget]))) c
        ((lane c).erase g ++ [g, onControl])) l' ∧ courseOf l' = courseOf l * Course.cz c t := by
  subst hbefore htarget hcontrol
  have hlaid := h.laid g hgl
  rw [IsLaid, hop] at hlaid
  obtain ⟨-, hc, ht, hct⟩ := hlaid
  have hgt : g.role t = .x := by simp [role, hop, Operation.role, hct.symm]
  have hgc : g.role c = .z := by simp [role, hop, Operation.role]
  have role_s : ∀ (u : Int) (b : Bool) (i : ℕ) (w : Int), role { Gate.s u b with index := i } w =
      if w = u then .z else .absent := by
    intro u b i w
    simp [Gate.s, Rotation.isZ]
  have on_s : ∀ (u : Int) (b : Bool) (i : ℕ) (w : Int), role { Gate.s u b with index := i } w ≠ .absent ↔ w = u := by
    intro u b i w
    simp [role_s]
  have laid_s : ∀ (u : Int) (b : Bool) (i : ℕ), OnWire n u → IsLaid n { Gate.s u b with index := i } :=
    fun u b i hu => ⟨rfl, hu⟩
  obtain ⟨m, rest, hs, hm, hrest, hroles⟩ := h.split_at_target hop hgl e hgp hz between control
  -- the controlled not is moved to the end of its part of the target's lane, and to the end of the control's lane
  obtain ⟨p1, p2, rfl⟩ := append_of_mem hgp
  obtain ⟨c1, c2, ec⟩ := append_of_mem ((h.mem_lane c g).2 ⟨hgl, by simp [hgc]⟩)
  have hp := (nodup_append.1 (e ▸ h.nodup t)).1
  have hp2 : ∀ k ∈ p2, k.role t = .x := fun k hk => between k (by simp [hk])
  have hc2 : ∀ k ∈ c2, k.role c = .z := fun k hk => control k (by rw [ec]; simp [hk])
  have hs1 := hs.slideLane (u := p1) (v := p2) (s := op) (by simpa using e) fun k hk => by simp [Clash, Role.Clashes, hgt, hp2 k hk]
  have hs2 := hs1.slideLane (t := c) (u := c1) (v := c2) (s := []) (by rw [update_of_ne hct, ec, append_nil])
    fun k hk => by simp [Clash, Role.Clashes, hgc, hc2 k hk]
  have hs3 : Sheet n (count + 1) (update (update (update lane t (p1 ++ (p2 ++ g :: op))) c (c1 ++ (c2 ++ [g]))) t
      (p1 ++ p2 ++ { Gate.s t true with index := count } :: g :: op)) (m ++ { Gate.s t true with index := count } :: g :: rest) := by
    refine hs2.insert (laid_s t true count ht) (fun k hk => (hs.index_lt k hk).ne) (Nat.lt_succ_self _) (Nat.le_succ _)
      (fun w hw => update_of_ne (fun ew => (on_s t true count w).2 ew hw) _ _) fun w hw => ?_
    obtain rfl := (on_s t true count w).1 hw
    refine ⟨p1 ++ p2, g :: op, by simp [hct.symm], by simp, fun a ha => hm a ?_ ?_, fun a ha => ?_⟩
    · simp only [mem_append, mem_cons] at ha ⊢
      tauto
    · rintro rfl
      exact (mem_append.1 ha).elim (not_mem_of_nodup hp).1 (not_mem_of_nodup hp).2
    · rcases mem_cons.1 ha with rfl | ha
      · simp
      · simp [hrest a ha]
  have hs4 := hs3.push (laid_s t false (count + 1) ht) (fun k hk => (hs3.index_lt k hk).ne) (Nat.lt_succ_self _) (Nat.le_succ _)
  have hs5 := hs4.push (laid_s c false (count + 2) hc) (fun k hk => (hs4.index_lt k hk).ne) (Nat.lt_succ_self _) (Nat.le_succ _)
  rw [← update_laidOnto (on_s c false (count + 2)), ← update_laidOnto (on_s t false (count + 1))] at hs5
  rw [erase_middle hp, ec, erase_middle (ec ▸ h.nodup c)]
  refine ⟨_, by simpa [update_comm hct, hct, hct.symm] using hs5, ?_⟩
  -- signs and rotations about the Z axis pass all that stays behind the controlled not
  have pass : ∀ k : Gate, k.IsLaid n → (∀ w, k.role w = .absent ∨ (w = c ∨ w = t) ∧ k.role w = .z) →
      Commute (courseOf rest) (Course.of k.op.motion) := by
    intro k hk hkw
    refine commute_courseOf hk (fun a ha => hs.laid a (by simp [ha])) fun a ha w hclash => ?_
    obtain ⟨h1, h2, h3⟩ := hclash
    obtain ⟨hwct, hkz⟩ := (hkw w).resolve_left h2
    have haz : a.role w = .z := by
      rcases hwct with rfl | rfl
      · exact ((hroles a ha).2).resolve_left h1
      · exact ((hroles a ha).1).resolve_left h1
    simp [haz, hkz] at h3
  have hcz : Commute (courseOf rest) (Course.cz c t) := pass { op := .pair .cz c t } ⟨.inr rfl, hc, ht, hct⟩ fun w => by
    by_cases hw : w = c ∨ w = t <;> simp [hw]
  have pass_s : ∀ u, OnWire n u → u = c ∨ u = t → Commute (courseOf rest) (Course.z u (1 / 2)) := by
    refine fun u hon hu => pass { Gate.s u false with index := 0 } (laid_s u false 0 hon) fun w => ?_
    by_cases hw : w = u <;> simp [role_s, hw, hu]
  have hg : Course.of g.op.motion = Course.cnot c t := by rw [hop]; rfl
  have hzz := ((pass_s t ht (.inr rfl)).mul_right (pass_s c hc (.inl rfl))).eq
  have merge : Course.cnot c t * (courseOf rest * Course.cz c t) =
      Course.z t (-1 / 2) * (Course.cnot c t * (courseOf rest * (Course.z t (1 / 2) * Course.z c (1 / 2)))) := by
    rw [hcz.eq, ← mul_assoc, Course.cnot_mul_cz hct, hzz]
    simp [mul_assoc]
  rw [h.courseOf_eq hs]
  simp only [courseOf_append, courseOf_cons, courseOf_nil, mul_one, hg, mul_assoc, merge]
  rfl

end Sheet

end ZXCircuits
