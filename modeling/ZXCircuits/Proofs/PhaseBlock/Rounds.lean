/-
  Rounds of a phase block keep the course.

  In a round the rotations before the first Hadamards leave their lanes, then the signs that no Hadamard stands before, then
  the signs behind a single Hadamard, as controlled nots, and pairs of Hadamards cancel.  The signs within reach are kept as a list of
  pairs of wires (`Open`).
-/
import ZXCircuits.Proofs.PhaseBlock.Layers
import ZXCircuits.Proofs.Swaps
import Mathlib.Data.List.TakeWhile

namespace ZXCircuits.PhaseBlock

open List Function Gate

variable {n : ℕ} {lanes : Lanes} {l p q u v : List Gate} {g : Gate} {a b w : Int}

/-! ## Signs within reach -/

/-- The far ends of the signs of a lane before its first Hadamard. -/
def near (lane : List Gate) (w : Int) : List Int := ((beforeHadamard lane).filter isSign).map fun g => farEnd g w

lemma beforeHadamard_append (hu : ∀ x ∈ u, x.isHad = false) : beforeHadamard (u ++ v) = u ++ beforeHadamard v := by
  rw [beforeHadamard, takeWhile_append_of_pos fun x hx => by simp [hu x hx]]
  rfl

lemma count_near_remove (hu : ∀ x ∈ u, x.isHad = false) (hg : g.Joins a b) (hab : a ≠ b) (c : Int) :
    (near (u ++ g :: v) a).count c = (near (u ++ v) a).count c + if b = c then 1 else 0 := by
  have hv : beforeHadamard (g :: v) = g :: beforeHadamard v := by simp [beforeHadamard, hg.not_had]
  simp [near, beforeHadamard_append hu, hv, hg.isSign, hg.farEnd hab, count_cons, add_assoc]

section

variable (hd : ∀ x ∈ l, x.IsDealt n) (h : b ∈ near (deal l a) a)
include hd h

lemma exists_of_mem_near : a ≠ b ∧ OnWire n b ∧ ∃ x ∈ beforeHadamard (deal l a), x.Joins a b := by
  obtain ⟨x, hx, rfl⟩ := mem_map.1 h
  obtain ⟨hx, hs⟩ := mem_filter.1 hx
  obtain ⟨hl, hr⟩ := mem_deal.1 (takeWhile_subset _ hx)
  rcases (hd x hl).kinds hr with h' | h' | h'
  · rw [h'.2.1] at hs
    cases hs
  · rw [h'.2.1] at hs
    cases hs
  · exact ⟨h'.2.2.2.2.2.2.symm, h'.2.2.2.2.2.1, x, hx, h'.2.2.2.2.1⟩

lemma clear_of_mem_near (e : deal l a = u ++ v) (hu : ∀ x ∈ u, ¬ x.Joins a b) : ∀ x ∈ u, x.isHad = false := by
  obtain ⟨-, -, x, hx, hj⟩ := exists_of_mem_near hd h
  rw [e, beforeHadamard, takeWhile_append] at hx
  split at hx
  · next hlen =>
    intro y hy
    have hsub := (List.takeWhile_prefix (fun g : Gate => !g.isHad)).eq_of_length hlen
    rw [← hsub] at hy
    simpa using mem_takeWhile_imp hy
  · exact absurd hj (hu x (takeWhile_subset _ hx))

lemma exists_first_near : ∃ u g v, deal l a = u ++ g :: v ∧ g.Joins a b ∧ ∀ x ∈ u, ¬ x.Joins a b := by
  obtain ⟨-, -, x, hx, hj⟩ := exists_of_mem_near hd h
  have hm : x ∈ deal l a := takeWhile_subset _ hx
  cases hf : (deal l a).find? fun g => decide (g.Joins a b) with
  | none => exact absurd hj (by simpa using find?_eq_none.1 hf x hm)
  | some g =>
    obtain ⟨hg, u, v, e, hu⟩ := find?_eq_some_iff_append.1 hf
    exact ⟨u, g, v, e, by simpa using hg, by simpa using hu⟩

end

/-- The pairs of wires of a list count the signs within reach, of wires that are not blocked. -/
def Open (blocked : List Int) (pairs : List (Int × Int)) (l : List Gate) : Prop :=
  ∀ a b, pairs.count (a, b) = if a ∈ blocked then 0 else (near (deal l a) a).count b

variable {pairs : List (Int × Int)} {blocked : List Int} {ws : List Int} {l' : List Gate} {rest : List Gate}

lemma Open.mem (h : Open blocked pairs l) (hp : (a, b) ∈ pairs) : a ∉ blocked ∧ b ∈ near (deal l a) a := by
  have hc := h a b
  have := count_pos_iff.2 hp
  split at hc
  · omega
  · exact ⟨‹_›, count_pos_iff.1 (hc ▸ this)⟩

lemma count_links (f : Int → List Int) (ws : List Int) (hn : ws.Nodup) (a b : Int) :
    (ws.flatMap fun w => (f w).map fun v => (w, v)).count (a, b) = if a ∈ ws then (f a).count b else 0 := by
  induction ws with
  | nil => rfl
  | cons w ws ih =>
    obtain ⟨hw, hn⟩ := nodup_cons.1 hn
    rw [flatMap_cons, count_append, ih hn]
    by_cases e : a = w
    · subst e
      rw [count_map_of_injective _ _ fun x y hxy => (Prod.mk.inj hxy).2]
      simp [hw]
    have : ((f w).map fun v => (w, v)).count (a, b) = 0 := by
      refine count_eq_zero.2 fun hm => ?_
      obtain ⟨v, -, hv⟩ := mem_map.1 hm
      exact e (Prod.mk.inj hv).1.symm
    simp [this, e]

lemma links_eq (h : Holds n lanes l) (hws : ∀ w ∈ ws, OnWire n w) :
    links lanes ws = .ok (ws.flatMap fun w => (near (deal l w) w).map fun v => (w, v)) := by
  unfold links
  rw [Permutation.mapM_ok (g := fun w => (near (deal l w) w).map fun v => (w, v)) ws fun w hw => ?_]
  · rfl
  · simp only [h.look (hws w hw), near, map_map]
    rfl

lemma links_open (h : Holds n lanes l) (blocked : List Int) :
    ∃ pairs, links lanes (lanes.wires.filter fun w => !blocked.contains w) = .ok pairs ∧ Open blocked pairs l := by
  refine ⟨_, links_eq h fun w hw => ?_, fun a b => ?_⟩
  · rw [← h.size]
    exact mem_wires.1 (mem_filter.1 hw).1
  have hn : (lanes.wires.filter fun w => !blocked.contains w).Nodup :=
    nodup_wires.filter _
  rw [count_links _ _ hn]
  by_cases hb : a ∈ blocked
  · simp [hb]
  by_cases ha : a ∈ lanes.wires
  · simp [ha]
  have : deal l a = [] := by
    refine eq_nil_iff_forall_not_mem.2 fun x hx => ha (mem_wires.2 ?_)
    rw [h.size]
    exact h.onWire_of_mem_deal hx
  simp [ha, this, near, beforeHadamard]

/-! ## Rotations -/

lemma rotations_commute (hd : ∀ x ∈ l, x.IsDealt n) (hg : g.IsDealt n) (hr : g.role w = .absent ∨ g.role w = .z) :
    Commute (courseOf ((beforeHadamard (deal l w)).filter isZRotation).reverse) (Course.of g.op.motion) := by
  refine commute_courseOf hg.laid (fun x hx => ?_) fun x hx v => ?_
  · rw [mem_reverse, mem_filter] at hx
    exact (hd x (mem_deal.1 (takeWhile_subset _ hx.1)).1).laid
  rw [mem_reverse, mem_filter] at hx
  obtain ⟨hxl, hxr⟩ := mem_deal.1 (takeWhile_subset _ hx.1)
  obtain ⟨-, -, h', -⟩ | ⟨-, -, -, hz, single⟩ | ⟨-, -, h', -⟩ := (hd x hxl).kinds hxr
  · rw [h'] at hx
    cases hx.2
  · by_cases e : v = w
    · subst e
      exact not_clash_of_z (.inr hz) hr
    · exact not_clash_of_absent (.inl (by_contra fun hr => e (single v hr)))
  · rw [h'] at hx
    cases hx.2

lemma deal_cons_eq_update {x y : List Gate} (hl : deal l' = update (deal l) w x)
    (hy : deal (g :: l') w = y) : deal (g :: l') = update (deal (g :: l)) w y := by
  funext v
  by_cases e : v = w
  · rw [e, update_self, hy]
  rw [update_of_ne e]
  by_cases hv : g.role v = .absent
  · rw [deal_cons_of_absent hv, deal_cons_of_absent hv, hl, update_of_ne e]
  · rw [deal_cons_of_role hv, deal_cons_of_role hv, hl, update_of_ne e]

lemma leave_rotations (hd : ∀ x ∈ l, x.IsDealt n) (w : Int) : ∃ l',
    courseOf l = courseOf ((beforeHadamard (deal l w)).filter isZRotation).reverse * courseOf l' ∧
    deal l' = update (deal l) w ((beforeHadamard (deal l w)).filter (!·.isZRotation) ++
      (deal l w).drop (beforeHadamard (deal l w)).length) ∧
    l'.length + ((beforeHadamard (deal l w)).filter isZRotation).length = l.length ∧ ∀ x ∈ l', x ∈ l := by
  induction l with
  | nil => exact ⟨[], by simp [beforeHadamard], (update_eq_self w (deal [])).symm, by simp [beforeHadamard], by simp⟩
  | cons g l ih =>
    have hdl : ∀ x ∈ l, x.IsDealt n := (forall_mem_cons.1 hd).2
    have hgd := hd g (by simp)
    obtain ⟨l', hc, hl, hn, hm⟩ := ih hdl
    have mem : ∀ x ∈ g :: l', x ∈ g :: l := cons_subset_cons g hm
    have lane' := congrFun hl w
    rw [update_self] at lane'
    by_cases hr : g.role w = .absent
    · -- on other wires
      refine ⟨g :: l', ?_, deal_cons_eq_update hl ?_, ?_, mem⟩
      · rw [deal_cons_of_absent hr, courseOf_cons, courseOf_cons, hc, ← mul_assoc, ← mul_assoc, (rotations_commute hdl hgd (.inl hr)).eq]
      · rw [deal_cons_of_absent hr, deal_cons_of_absent hr, lane']
      · rw [deal_cons_of_absent hr, length_cons, length_cons]
        omega
    rw [deal_cons_of_role hr]
    have goes : g.isHad = false → beforeHadamard (g :: deal l w) = g :: beforeHadamard (deal l w) := fun hh => by simp [beforeHadamard, hh]
    obtain ⟨hh, -⟩ | ⟨hh, -, hz, hrz, single⟩ | ⟨hh, -, hz, hrz, -⟩ := hgd.kinds hr
    · -- a Hadamard ends the search
      have hb : beforeHadamard (g :: deal l w) = [] := by simp [beforeHadamard, hh]
      refine ⟨g :: l, by simp [hb], ?_, by simp [hb], fun x hx => hx⟩
      rw [hb]
      simp only [filter_nil, length_nil, drop_zero, nil_append]
      rw [← deal_cons_of_role hr, update_eq_self]
    · -- a rotation leaves
      have hb := goes hh
      refine ⟨l', ?_, ?_, ?_, fun x hx => mem_cons_of_mem _ (hm x hx)⟩
      · rw [hb, filter_cons, if_pos hz, reverse_cons, courseOf_append, courseOf_cons, courseOf_cons, courseOf_nil,
          mul_one, hc, ← mul_assoc, (rotations_commute hdl hgd (.inr hrz)).eq]
      · rw [hb, filter_cons, if_neg (by simp [hz]), length_cons, drop_succ_cons, hl]
        funext v
        by_cases e : v = w
        · rw [e, update_self, update_self]
        · rw [update_of_ne e, update_of_ne e, deal_cons_of_absent (by_contra fun hv => e (single v hv))]
      · rw [hb, filter_cons, if_pos hz, length_cons, length_cons]
        omega
    · -- a sign stays
      have hb := goes hh
      refine ⟨g :: l', ?_, deal_cons_eq_update hl ?_, ?_, mem⟩
      · rw [hb, filter_cons, if_neg (by simp [hz]), courseOf_cons, courseOf_cons, hc, ← mul_assoc, ← mul_assoc,
          (rotations_commute hdl hgd (.inr hrz)).eq]
      · rw [hb, filter_cons, if_pos (by simp [hz]), length_cons, drop_succ_cons, deal_cons_of_role hr, lane', cons_append]
      · rw [hb, filter_cons, if_neg (by simp [hz]), length_cons, length_cons]
        omega

lemma near_rotations (hd : ∀ x ∈ deal l w, x.IsDealt n ∧ x.role w ≠ .absent) :
    near ((beforeHadamard (deal l w)).filter (!·.isZRotation) ++ (deal l w).drop (beforeHadamard (deal l w)).length) w =
      near (deal l w) w := by
  have front : ∀ x ∈ (beforeHadamard (deal l w)).filter (!·.isZRotation), x.isHad = false := by
    intro x hx
    simpa using mem_takeWhile_imp (mem_filter.1 hx).1
  have back : beforeHadamard ((deal l w).drop (beforeHadamard (deal l w)).length) = [] := by
    have : (deal l w).drop (beforeHadamard (deal l w)).length = (deal l w).dropWhile fun g => !g.isHad := by
      conv_lhs => arg 2; rw [← takeWhile_append_dropWhile (p := fun g : Gate => !g.isHad) (l := deal l w)]
      exact drop_left ..
    rw [this, beforeHadamard]
    cases hdw : (deal l w).dropWhile fun g => !g.isHad with
    | nil => rfl
    | cons x xs =>
      have := head_dropWhile_not (fun g : Gate => !g.isHad) (l := deal l w) (by simp [hdw])
      simp only [hdw, head_cons] at this
      simp [this]
  rw [near, beforeHadamard_append front, back, append_nil, filter_filter]
  congr 1
  refine filter_congr fun x hx => ?_
  obtain ⟨hx, hr⟩ := hd x (takeWhile_subset _ hx)
  obtain ⟨-, h', -⟩ | ⟨-, h', -⟩ | ⟨-, h', h'', -⟩ := hx.kinds hr
  · simp [h']
  · simp [h']
  · simp [h'']

/-! ## Taking gates off -/

/-- What a step of a block keeps: the gates of the block and those left in the lanes make up the same course. -/
structure Taking.Keeps (n : ℕ) (s : Taking) (l : List Gate) (s' : Taking) (l' : List Gate) : Prop where
  holds : Holds n s'.lanes l'
  course : courseOf s'.block * courseOf l' = courseOf s.block * courseOf l
  plain : ∀ g ∈ s'.block, g ∈ s.block ∨ g.isHad = false
  length : l'.length ≤ l.length

namespace Taking

variable {s s' s'' : Taking} {l' l'' : List Gate}

lemma Keeps.refl (h : Holds n s.lanes l) : Keeps n s l s l := ⟨h, rfl, fun _ => .inl, le_rfl⟩

lemma Keeps.trans (h : Keeps n s l s' l') (h' : Keeps n s' l' s'' l'') : Keeps n s l s'' l'' :=
  ⟨h'.holds, h'.course.trans h.course, fun g hg => (h'.plain g hg).elim (h.plain g) .inr, h'.length.trans h.length⟩

lemma rotations_spec (h : Holds n s.lanes l) (hw : OnWire n w) : ∃ s' l', s.rotations w = .ok s' ∧ Keeps n s l s' l' ∧
    (∀ v, near (deal l' v) v = near (deal l v) v) ∧ (∀ v, v ≠ w → deal l' v = deal l v) ∧
    ∀ g rest, deal l w = g :: rest → g.isZRotation → l'.length < l.length := by
  obtain ⟨l', hc, hl, hn, hm⟩ := leave_rotations h.dealt w
  refine ⟨_, l', by simp only [rotations, h.look hw]; rfl, ⟨⟨?_, fun x hx => h.dealt x (hm x hx)⟩, ?_, ?_, by omega⟩,
    fun v => ?_, fun v hv => by rw [hl, update_of_ne hv], fun g rest e hg => ?_⟩
  · rw [hl]
    exact h.shows.set hw _
  · rw [courseOf_append, mul_assoc, ← hc]
  · intro x hx
    rcases mem_append.1 hx with hx | hx
    · exact .inl hx
    · rw [mem_reverse, mem_filter] at hx
      exact .inr (by simpa using mem_takeWhile_imp hx.1)
  · by_cases e : v = w
    · subst e
      rw [hl, update_self, near_rotations fun x hx => h.dealt_of_mem_deal hx]
    · rw [hl, update_of_ne e]
  · have hh : g.isHad = false := by
      unfold isZRotation at hg
      unfold isHad
      split at hg
      · next e => rw [e]
      · cases hg
    have : 0 < ((beforeHadamard (deal l w)).filter isZRotation).length := by
      rw [e, length_filter_pos_iff]
      exact ⟨g, by simp [beforeHadamard, hh], hg⟩
    omega

lemma foldlM_rotations_spec (hws : ∀ w ∈ ws, OnWire n w) : ∀ {s : Taking} {l : List Gate}, Holds n s.lanes l →
    ∃ s' l', ws.foldlM rotations s = .ok s' ∧ Keeps n s l s' l' ∧ (∀ v, near (deal l' v) v = near (deal l v) v) ∧
      ∀ w ∈ ws, ∀ g rest, deal l w = g :: rest → g.isZRotation → l'.length < l.length := by
  induction ws with
  | nil => exact fun {s l} h => ⟨s, l, rfl, .refl h, fun _ => rfl, by simp⟩
  | cons w ws ih =>
    intro s l h
    obtain ⟨s1, l1, e1, h1, near1, lane1, short1⟩ := rotations_spec h (hws w (by simp))
    obtain ⟨s2, l2, e2, h2, near2, short2⟩ := ih (forall_mem_cons.1 hws).2 h1.holds
    refine ⟨s2, l2, by rw [foldlM_cons, e1]; exact e2, h1.trans h2, fun v => (near2 v).trans (near1 v), fun v hv g rest e hg => ?_⟩
    by_cases hvw : v = w
    · subst hvw
      exact h2.length.trans_lt (short1 g rest e hg)
    · have hv' := (mem_cons.1 hv).resolve_left hvw
      exact (short2 v hv' g rest ((lane1 v hvw).trans e) hg).trans_le h1.length

end Taking

/-! ## Signs that are free on both wires -/

lemma removeFrom_append (hg : g.Joins a b) (hu : ∀ x ∈ u, ¬ x.Joins a b) : (Gate.cz a b).removeFrom (u ++ g :: v) = .ok (u ++ v) := by
  induction u with
  | nil => simp [removeFrom, same_cz_iff.2 hg]
  | cons x u ih =>
    have hx : x.same (.cz a b) = false := by
      rw [← Bool.not_eq_true, same_cz_iff]
      exact hu x (by simp)
    rw [cons_append, removeFrom, ih (forall_mem_cons.1 hu).2]
    simp [hx]

lemma remove_first {f : Int → List Gate} (h : Shows n lanes f) (hw : OnWire n w) (e : f w = u ++ g :: v) (hg : g.Joins a b)
    (hu : ∀ x ∈ u, ¬ x.Joins a b) : ∃ lanes', lanes.remove w (.cz a b) = .ok lanes' ∧ Shows n lanes' (update f w (u ++ v)) := by
  refine ⟨_, ?_, h.set hw (u ++ v)⟩
  simp only [Lanes.remove, h.look hw, e, removeFrom_append hg hu, bind, Except.bind]
  rfl

lemma remove_sign (h : Holds n lanes l) (hb : b ∈ near (deal l a) a) (ha : a ∈ near (deal l b) b) :
    ∃ lanes1 lanes2 l', lanes.remove a (.cz a b) = .ok lanes1 ∧ lanes1.remove b (.cz a b) = .ok lanes2 ∧ Holds n lanes2 l' ∧
      courseOf l = Course.cz a b * courseOf l' ∧ l'.length < l.length ∧
      (∀ c, (near (deal l a) a).count c = (near (deal l' a) a).count c + if b = c then 1 else 0) ∧
      (∀ c, (near (deal l b) b).count c = (near (deal l' b) b).count c + if a = c then 1 else 0) ∧
      ∀ v, v ≠ a → v ≠ b → deal l' v = deal l v := by
  obtain ⟨hab, hbw, -⟩ := exists_of_mem_near h.dealt hb
  obtain ⟨-, haw, -⟩ := exists_of_mem_near h.dealt ha
  obtain ⟨u, g, v, e, hg, hu⟩ := exists_first_near h.dealt hb
  obtain ⟨p, q, rfl, rfl, rfl, eb, hpb⟩ := exists_sign e hg hu
  have clear_a := clear_of_mem_near h.dealt hb e hu
  have clear_b := clear_of_mem_near h.dealt ha eb fun x hx hj => hpb x hx hj.symm
  have hl := leaves_sign h.dealt haw hbw hab hg clear_a clear_b
  obtain ⟨l1, e1, h1⟩ := remove_first h.shows haw e hg hu
  obtain ⟨l2, e2, h2⟩ := remove_first h1 hbw (by rw [update_of_ne hab.symm, eb]) hg hpb
  refine ⟨l1, l2, p ++ q, e1, e2, h.leaves hl h2, hl.course, hl.shorter, fun c => ?_, fun c => ?_, fun v hva hvb => ?_⟩
  · rw [e, deal_append]
    exact count_near_remove clear_a hg hab c
  · rw [eb, deal_append]
    exact count_near_remove clear_b hg.symm hab.symm c
  · rw [hl.lanes, update_of_ne hvb, update_of_ne hva]

lemma Open.erase_both (h : Open [] pairs l) (hab : a ≠ b)
    (ha : ∀ c, (near (deal l a) a).count c = (near (deal l' a) a).count c + if b = c then 1 else 0)
    (hb : ∀ c, (near (deal l b) b).count c = (near (deal l' b) b).count c + if a = c then 1 else 0)
    (hv : ∀ v, v ≠ a → v ≠ b → deal l' v = deal l v) : Open [] ((pairs.erase (a, b)).erase (b, a)) l' := by
  intro x y
  have hxy := h x y
  rw [count_erase, count_erase, hxy]
  simp only [beq_iff_eq, Prod.mk.injEq]
  by_cases hxa : x = a
  · subst hxa
    have := ha y
    simp only [hab.symm, false_and]
    split at this <;> simp_all
  by_cases hxb : x = b
  · have := hb y
    split at this <;> simp_all
  · rw [hv x hxa hxb]
    simp [Ne.symm hxa, Ne.symm hxb]

namespace Taking

/-- **Signs that are free on both wires leave**, and one does if there is one. -/
theorem signs_spec : ∀ (todo pairs : List (Int × Int)) {s : Taking} {l : List Gate}, Holds n s.lanes l → Open [] pairs l →
    ∃ s' l', signs todo pairs s = .ok s' ∧ Keeps n s l s' l' ∧
      ((∃ a b, (a, b) ∈ todo ∧ (a, b) ∈ pairs ∧ (b, a) ∈ pairs) → l'.length < l.length) := by
  intro todo
  induction todo with
  | nil => exact fun pairs {s l} h _ => ⟨s, l, rfl, .refl h, by simp⟩
  | cons t todo ih =>
    intro pairs s l h ho
    obtain ⟨i, j⟩ := t
    by_cases hij : (j, i) ∈ pairs ∧ (i, j) ∈ pairs
    · obtain ⟨hji, hij⟩ := hij
      have hj := (ho.mem hij).2
      have hi := (ho.mem hji).2
      have hne := (exists_of_mem_near h.dealt hj).1
      obtain ⟨l1, l2, l', e1, e2, h2, hc, short, hni, hnj, hnv⟩ := remove_sign h hj hi
      have ho' := ho.erase_both hne hni hnj hnv
      obtain ⟨s'', l'', e'', h'', -⟩ := ih _ (s := { lanes := l2, block := s.block ++ [.cz i j] }) h2 ho'
      have still : (j, i) ∈ pairs.erase (i, j) :=
        (mem_erase_of_ne fun e => hne (Prod.mk.inj e).2).2 hji
      refine ⟨s'', l'', ?_, ⟨h''.holds, ?_, fun x hx => ?_, (h''.length.trans_lt short).le⟩, fun _ => h''.length.trans_lt short⟩
      · rw [signs]
        simp only [contains_iff_mem.2 hji, contains_iff_mem.2 hij, contains_iff_mem.2 still, e1, e2, Bool.not_true, Bool.false_eq_true, bind, Except.bind]
        exact e''
      · rw [h''.course, hc]
        simp only [courseOf_append, courseOf_cons, courseOf_nil, mul_one, mul_assoc]
        rfl
      · rcases h''.plain x hx with hx | hx
        · exact (mem_append.1 hx).imp_right fun hx => by rw [mem_singleton.1 hx]; rfl
        · exact .inr hx
    · obtain ⟨s', l', e', h', hs⟩ := ih pairs h ho
      refine ⟨s', l', ?_, h', ?_⟩
      · rw [signs, if_neg (by simpa using hij)]
        exact e'
      rintro ⟨a, b, hm, hab, hba⟩
      refine hs ⟨a, b, (mem_cons.1 hm).resolve_left ?_, hab, hba⟩
      rintro ⟨⟩
      exact hij ⟨hba, hab⟩

end Taking

/-! ## Signs behind a Hadamard -/

lemma Open.erase_one (h : Open blocked pairs l) (ha : a ∉ blocked)
    (hn : ∀ c, (near (deal l a) a).count c = (near (deal l' a) a).count c + if b = c then 1 else 0)
    (hv : ∀ v, v ∉ blocked → v ≠ a → deal l' v = deal l v) : Open blocked (pairs.erase (a, b)) l' := by
  intro x y
  rw [count_erase, h x y]
  by_cases hxb : x ∈ blocked
  · simp [hxb]
  by_cases hxa : x = a
  · have := hn y
    split at this <;> simp_all
  · rw [hv x hxb hxa]
    simp [Ne.symm hxa]

namespace Moving

variable {blocked : List Int} {k : Gate} {s : Moving}

/-- Midway along a lane behind the Hadamard at its head: `done` has been gone along and `list` is to come.  The lane
    still holds the gates that were moved, at the places `gone`; `kept` are the gates passed by. -/
structure Midway (n : ℕ) (blocked : List Int) (w : Int) (k : Gate) (done list kept : List Gate) (gone : List ℕ) (s : Moving)
    (f : Int → List Gate) (l : List Gate) : Prop where
  shows : Shows n s.taking.lanes f
  lane : f w = k :: (done ++ list)
  deals : deal l = update f w (k :: (kept ++ list))
  dealt : ∀ x ∈ l, x.IsDealt n
  pairs : Open blocked s.open_ l
  passed : ∀ x ∈ kept, x.isHad = false ∧ (isSign x → farEnd x w ∈ blocked ∨ (farEnd x w, w) ∉ s.open_)
  drops : ∀ tail, gone.foldlM dropAt (done ++ tail) = .ok (kept ++ tail)

/-- Signs move into the block, and the lanes of blocked wires stay as they are. -/
structure Moves (n : ℕ) (blocked : List Int) (s : Moving) (f : Int → List Gate) (l : List Gate) (s' : Moving)
    (f' : Int → List Gate) (l' : List Gate) : Prop where
  shows : Shows n s'.taking.lanes f'
  same : ∀ v ∈ blocked, f' v = f v
  mem : ∀ x ∈ l', x ∈ l
  pairs : Open blocked s'.open_ l'
  course : courseOf s'.taking.block * courseOf l' = courseOf s.taking.block * courseOf l
  plain : ∀ x ∈ s'.taking.block, x ∈ s.taking.block ∨ x.isHad = false
  length : l'.length ≤ l.length
  moved : s'.moved → s.moved ∨ l'.length < l.length

lemma Moves.trans {s1 s2 s3 : Moving} {f1 f2 f3 : Int → List Gate} {l1 l2 l3 : List Gate} (h : Moves n blocked s1 f1 l1 s2 f2 l2)
    (h' : Moves n blocked s2 f2 l2 s3 f3 l3) : Moves n blocked s1 f1 l1 s3 f3 l3 where
  shows := h'.shows
  same v hv := (h'.same v hv).trans (h.same v hv)
  mem x hx := h.mem x (h'.mem x hx)
  pairs := h'.pairs
  course := h'.course.trans h.course
  plain x hx := (h'.plain x hx).elim (h.plain x) .inr
  length := h'.length.trans h.length
  moved hm := (h'.moved hm).elim (fun hm => (h.moved hm).imp_right h'.length.trans_lt) fun hl => .inr (hl.trans_le h.length)

/-- The state after the sign from a wire to another has been moved through the Hadamard on it. -/
def send (s : Moving) (w far : Int) (lanes : Lanes) : Moving :=
  { taking := { lanes := lanes, block := s.taking.block ++ [.cnot far w] }
    open_ := s.open_.erase (far, w)
    moved := true }

namespace Midway

variable {done list kept : List Gate} {gone : List ℕ} {s : Moving} {f : Int → List Gate}

lemma refl (h : Midway n blocked w k done list kept gone s f l) : Moves n blocked s f l s f l :=
  ⟨h.shows, fun _ _ => rfl, fun _ hx => hx, h.pairs, rfl, fun _ => .inl, le_rfl, .inl⟩

variable (h : Midway n blocked w k done (g :: list) kept gone s f l)
include h

lemma deal_eq : deal l w = (k :: kept) ++ g :: list := by
  rw [h.deals, update_self]
  rfl

lemma pass (hh : g.isHad = false) (hsign : isSign g → farEnd g w ∈ blocked ∨ (farEnd g w, w) ∉ s.open_) :
    Midway n blocked w k (done ++ [g]) list (kept ++ [g]) gone s f l where
  shows := h.shows
  lane := by simpa using h.lane
  deals := by simpa using h.deals
  dealt := h.dealt
  pairs := h.pairs
  passed := by
    intro x hx
    rcases mem_append.1 hx with hx | hx
    · exact h.passed x hx
    · rw [mem_singleton.1 hx]
      exact ⟨hh, hsign⟩
  drops tail := by simpa using h.drops (g :: tail)

lemma take (hw : w ∈ blocked) (hk : k.isHad)
    (hj : g.Joins w (farEnd g w)) (hf : OnWire n (farEnd g w)) (hne : farEnd g w ≠ w) (hfb : farEnd g w ∉ blocked)
    (hopen : (farEnd g w, w) ∈ s.open_) : ∃ lanes1 f1 l1, s.taking.lanes.remove (farEnd g w) (.cz (farEnd g w) w) = .ok lanes1 ∧
      Midway n blocked w k (done ++ [g]) list kept (done.length :: gone) (s.send w (farEnd g w) lanes1) f1 l1 ∧
      Moves n blocked s f l (s.send w (farEnd g w) lanes1) f1 l1 := by
  have hfar := (h.pairs.mem hopen).2
  have first : ∀ x ∈ k :: kept, ¬ x.Joins w (farEnd g w) := by
    intro x hx hjx
    rcases mem_cons.1 hx with rfl | hx
    · rw [hjx.not_had] at hk
      cases hk
    have := (h.passed x hx).2 hjx.isSign
    rw [hjx.farEnd hne.symm] at this
    exact this.elim hfb fun hno => hno hopen
  obtain ⟨p, q, rfl, hp, hq, ef, hpf⟩ := exists_sign h.deal_eq hj first
  have clear := clear_of_mem_near h.dealt hfar ef fun x hx hjx => hpf x hx hjx.symm
  have hl := leaves_through h.dealt hf hne hj hp hk (fun x hx => (h.passed x hx).1) clear
  have ffar : f (farEnd g w) = deal p (farEnd g w) ++ g :: deal q (farEnd g w) := by
    rw [← ef, h.deals, update_of_ne hne]
  obtain ⟨lanes1, e1, h1⟩ := remove_first h.shows hf ffar hj.symm fun x hx hjx => hpf x hx hjx.symm
  have open' : Open blocked (s.open_.erase (farEnd g w, w)) (p ++ q) := by
    refine h.pairs.erase_one hfb (fun c => ?_) fun v hvb hv => ?_
    · rw [ef, deal_append]
      exact count_near_remove clear hj.symm hne c
    · have hvw : v ≠ w := fun e => hvb (e ▸ hw)
      rw [hl.lanes, update_of_ne hv, update_of_ne hvw]
  refine ⟨lanes1, _, p ++ q, e1, ⟨h1, ?_, ?_, fun x hx => h.dealt x (hl.mem x hx), open', fun x hx => ?_, fun tail => ?_⟩,
    ⟨h1, fun v hv => ?_, hl.mem, open', ?_, fun x hx => ?_, hl.shorter.le, fun _ => .inr hl.shorter⟩⟩
  · rw [update_of_ne hne.symm, h.lane]
    simp
  · rw [hl.lanes, hp, hq, h.deals, update_idem, update_comm hne.symm]
    rfl
  · exact ⟨(h.passed x hx).1, fun hsx => ((h.passed x hx).2 hsx).imp_right fun hno hm => hno (mem_of_mem_erase hm)⟩
  · rw [append_assoc, singleton_append, foldlM_cons, Lanes.dropAt_length]
    exact h.drops tail
  · rw [update_of_ne fun e : v = farEnd g w => hfb (e ▸ hv)]
  · rw [hl.course]
    simp only [send, courseOf_append, courseOf_cons, courseOf_nil, mul_one, mul_assoc]
    rfl
  · exact (mem_append.1 hx).imp_right fun hx => by rw [mem_singleton.1 hx]; rfl

end Midway

lemma through_spec (hw : w ∈ blocked) (hk : k.isHad) (list : List Gate) : ∀ {done kept : List Gate} {gone : List ℕ}
    {s : Moving} {f : Int → List Gate} {l : List Gate}, Midway n blocked w k done list kept gone s f l →
    ∃ s' gone' xs f' l', through w blocked list done.length gone s = .ok (s', gone') ∧ Moves n blocked s f l s' f' l' ∧
      gone'.foldlM dropAt (done ++ list) = .ok xs ∧ deal l' = update f' w (k :: xs) := by
  induction list with
  | nil => exact fun {done kept gone s f l} h => ⟨s, gone, kept ++ [], f, l, rfl, h.refl, h.drops [], h.deals⟩
  | cons g list ih =>
    intro done kept gone s f l h
    -- What comes after a step along the lane.
    have go : ∀ {kept' gone' s' f' l'}, Midway n blocked w k (done ++ [g]) list kept' gone' s' f' l' → Moves n blocked s f l s' f' l' →
        through w blocked (g :: list) done.length gone s = through w blocked list (done.length + 1) gone' s' →
        ∃ s' gone' xs f' l', through w blocked (g :: list) done.length gone s = .ok (s', gone') ∧ Moves n blocked s f l s' f' l' ∧
          gone'.foldlM dropAt (done ++ g :: list) = .ok xs ∧ deal l' = update f' w (k :: xs) := by
      intro kept' gone' s' f' l' h' hm e
      obtain ⟨s2, gone2, xs, f2, l2, e2, hm2, hx, hl⟩ := ih h'
      exact ⟨s2, gone2, xs, f2, l2, by rw [e]; simpa using e2, hm.trans hm2, by simpa using hx, hl⟩
    obtain ⟨hgl, hgr⟩ : g ∈ l ∧ g.role w ≠ .absent := mem_deal.1 (by rw [h.deal_eq]; simp)
    obtain ⟨hh, hs, -, -⟩ | ⟨hh, hs, -, -, -⟩ | ⟨hh, hs, -, -, hj, hf, hne⟩ := (h.dealt g hgl).kinds hgr
    · -- a Hadamard ends the search
      refine ⟨s, gone, kept ++ g :: list, f, l, ?_, h.refl, h.drops _, h.deals⟩
      rw [through]
      simp only [hs, hh, Bool.false_eq_true]
      rfl
    · refine go (h.pass hh fun e => by rw [hs] at e; cases e) h.refl ?_
      rw [through]
      simp only [hs, hh, Bool.false_eq_true, if_false]
    · by_cases stuck : farEnd g w ∈ blocked ∨ (farEnd g w, w) ∉ s.open_
      · refine go (h.pass hh fun _ => stuck) h.refl ?_
        have : (blocked.contains (farEnd g w) || !s.open_.contains (farEnd g w, w)) := by simpa using stuck
        rw [through]
        simp only [hs, if_true, this]
      obtain ⟨hfb, hopen⟩ := not_or.1 stuck
      rw [not_not] at hopen
      obtain ⟨lanes1, f1, l1, e1, h1, hm1⟩ := h.take hw hk hj hf hne hfb hopen
      refine go h1 hm1 ?_
      have free : (blocked.contains (farEnd g w) || !s.open_.contains (farEnd g w, w)) = false := by simp [hfb, hopen]
      rw [through]
      simp only [hs, free, Bool.false_eq_true, e1]
      rfl

lemma lane_spec (h : Holds n s.taking.lanes l) (hw : w ∈ blocked) (e : deal l w = k :: rest)
    (hk : k.isHad) (ho : Open blocked s.open_ l) : ∃ s' l', s.lane blocked w = .ok s' ∧ s.taking.Keeps n l s'.taking l' ∧
      Open blocked s'.open_ l' ∧ (∀ v ∈ blocked, (deal l' v).head? = (deal l v).head?) ∧
      (s'.moved → s.moved ∨ l'.length < l.length) := by
  have hww := h.onWire_of_mem_deal (g := k) (w := w) (by simp [e])
  have start : Midway n blocked w k [] rest [] [] s (deal l) l :=
    ⟨h.shows, e, by rw [nil_append, ← e, update_eq_self], h.dealt, ho, by simp, fun tail => rfl⟩
  obtain ⟨s', gone, xs, f', l', h1, hm, hx, hl⟩ := through_spec hw hk rest start
  have lane' : PerWire.val s'.taking.lanes w = k :: rest := by rw [hm.shows.val, hm.same w hw, e]
  obtain ⟨lanes', e', hs', hv⟩ := Lanes.removeAt_foldlM (hm.shows.size.symm ▸ hww) lane' hx
  refine ⟨{ s' with taking := { s'.taking with lanes := lanes' } }, l', ?_,
    ⟨⟨⟨hs'.trans hm.shows.size, ?_⟩, fun x hx => h.dealt x (hm.mem x hx)⟩, hm.course, hm.plain, hm.length⟩, hm.pairs,
    fun v hv => ?_, hm.moved⟩
  · simp only [Moving.lane, h.look hww, e, drop_succ_cons, drop_zero, bind, Except.bind]
    rw [show through w blocked rest 0 [] s = .ok (s', gone) from h1]
    simp only [e']
    rfl
  · rw [hv, hm.shows.val, hl]
  · by_cases ev : v = w
    · subst ev
      rw [hl, update_self, e]
      rfl
    · rw [hl, update_of_ne ev, hm.same v hv]

lemma foldlM_lane_spec (hws : ∀ w ∈ ws, w ∈ blocked) : ∀ {s : Moving} {l : List Gate}, Holds n s.taking.lanes l →
    Open blocked s.open_ l → (∀ w ∈ blocked, ∃ k, (deal l w).head? = some k ∧ k.isHad) →
    ∃ s' l', ws.foldlM (lane blocked) s = .ok s' ∧ s.taking.Keeps n l s'.taking l' ∧ (s'.moved → s.moved ∨ l'.length < l.length) := by
  induction ws with
  | nil => exact fun {s l} h _ _ => ⟨s, l, rfl, .refl h, .inl⟩
  | cons w ws ih =>
    intro s l h ho heads
    obtain ⟨k, hk, hkh⟩ := heads w (hws w (by simp))
    obtain ⟨rest, e⟩ := head?_eq_some_iff.1 hk
    obtain ⟨s1, l1, e1, h1, ho1, heads1, moved1⟩ := lane_spec h (hws w (by simp)) e hkh ho
    obtain ⟨s2, l2, e2, h2, moved2⟩ := ih (forall_mem_cons.1 hws).2 h1.holds ho1 fun v hv => by rw [heads1 v hv]; exact heads v hv
    refine ⟨s2, l2, by rw [foldlM_cons, e1]; exact e2, h1.trans h2, fun hm => ?_⟩
    rcases moved2 hm with hm | hm
    · exact (moved1 hm).imp_right h2.length.trans_lt
    · exact .inr (hm.trans_le h1.length)

lemma cancel_spec (h : Holds n s.taking.lanes l) (hw : OnWire n w) : ∃ s' l', s.cancel w = .ok s' ∧
    s.taking.Keeps n l s'.taking l' ∧ (s'.moved → s.moved ∨ l'.length < l.length) := by
  unfold cancel
  simp only [h.look hw, bind, Except.bind]
  split
  · next x y rest e =>
    split
    · next hxy =>
      rw [Bool.and_eq_true] at hxy
      obtain ⟨l', hl⟩ := leaves_cancel h.dealt e hxy.1 hxy.2
      refine ⟨_, l', rfl, ⟨h.leaves hl (h.shows.set hw rest), ?_, fun _ => .inl, hl.shorter.le⟩, fun _ => .inr hl.shorter⟩
      rw [hl.course, one_mul]
    · exact ⟨s, l, rfl, .refl h, .inl⟩
  · exact ⟨s, l, rfl, .refl h, .inl⟩

lemma foldlM_cancel_spec (hws : ∀ w ∈ ws, OnWire n w) : ∀ {s : Moving} {l : List Gate}, Holds n s.taking.lanes l →
    ∃ s' l', ws.foldlM cancel s = .ok s' ∧ s.taking.Keeps n l s'.taking l' ∧ (s'.moved → s.moved ∨ l'.length < l.length) := by
  induction ws with
  | nil => exact fun {s l} h => ⟨s, l, rfl, .refl h, .inl⟩
  | cons w ws ih =>
    intro s l h
    obtain ⟨s1, l1, e1, h1, moved1⟩ := cancel_spec h (hws w (by simp))
    obtain ⟨s2, l2, e2, h2, moved2⟩ := ih (forall_mem_cons.1 hws).2 h1.holds
    refine ⟨s2, l2, by rw [foldlM_cons, e1]; exact e2, h1.trans h2, fun hm => ?_⟩
    rcases moved2 hm with hm | hm
    · exact (moved1 hm).imp_right h2.length.trans_lt
    · exact .inr (hm.trans_le h1.length)

end Moving

/-! ## Rounds -/

namespace Taking

variable {s : Taking}

def blockedIn (heads : List (Int × List Gate)) : List Int :=
  (heads.filter fun h => match h.2 with
    | g :: _ => g.isHad
    | [] => false).map (·.1)

/-- The second half of a round, with the wires whose lanes begin with a Hadamard. -/
def sweep (s : Taking) (ws blocked : List Int) : Attempt (Taking × Bool) := do
  let pairs ← links s.lanes (ws.filter fun w => !blocked.contains w)
  let m ← blocked.foldlM (Moving.lane blocked) { taking := s, open_ := pairs }
  let m ← ws.foldlM Moving.cancel m
  return (m.taking, m.moved)

lemma round_eq (s : Taking) : s.round = links s.lanes s.lanes.wires >>= fun pairs => s.lanes.wires.foldlM rotations s >>= fun s1 =>
    signs pairs pairs s1 >>= fun s2 => (s.lanes.wires.mapM fun w => do return (w, ← s2.lanes.on w)) >>= fun heads =>
      s2.sweep s.lanes.wires (blockedIn heads) := rfl

lemma mem_blockedIn (h : w ∈ blockedIn (ws.map fun w => (w, deal l w))) : ∃ k, (deal l w).head? = some k ∧ k.isHad := by
  obtain ⟨x, hx, rfl⟩ := mem_map.1 h
  obtain ⟨hx, hh⟩ := mem_filter.1 hx
  obtain ⟨v, hv, rfl⟩ := mem_map.1 hx
  dsimp only at hh ⊢
  split at hh
  · next k rest e => exact ⟨k, by rw [e]; rfl, hh⟩
  · cases hh

lemma sweep_spec (h : Holds n s.lanes l) (hb : ∀ w ∈ blocked, ∃ k, (deal l w).head? = some k ∧ k.isHad) :
    ∃ s' m l', s.sweep s.lanes.wires blocked = .ok (s', m) ∧ Keeps n s l s' l' ∧ (m → l'.length < l.length) := by
  obtain ⟨pairs, ep, ho⟩ := links_open h blocked
  obtain ⟨m1, l1, e1, h1, moved1⟩ := Moving.foldlM_lane_spec (fun w hw => hw) (s := { taking := s, open_ := pairs }) h ho hb
  obtain ⟨m2, l2, e2, h2, moved2⟩ := Moving.foldlM_cancel_spec (fun w (hw : w ∈ s.lanes.wires) => h.size ▸ mem_wires.1 hw) h1.holds
  refine ⟨m2.taking, m2.moved, l2, ?_, h1.trans h2, fun hm => ?_⟩
  · simp only [sweep, ep, e1, e2, bind, Except.bind]
    rfl
  rcases moved2 hm with hm | hm
  · rcases moved1 hm with hm | hm
    · cases hm
    · exact h2.length.trans_lt hm
  · exact hm.trans_le h1.length

lemma exists_pair_of_head {pairs : List (Int × Int)} (hd : ∀ x ∈ l, x.IsDealt n) (e : l = g :: rest)
    (hg : g.isHad = false) (ho : Open [] pairs l) :
    (∃ w, OnWire n w ∧ g.isZRotation ∧ deal l w = g :: deal rest w) ∨ ∃ a b, (a, b) ∈ pairs ∧ (b, a) ∈ pairs := by
  have hgd := hd g (by simp [e])
  obtain ⟨w, hr⟩ := hgd.laid.exists_role
  have hw := hgd.laid.onWire hr
  have head : ∀ {v}, g.role v ≠ .absent → deal l v = g :: deal rest v := fun hv => by rw [e, deal_cons_of_role hv]
  obtain ⟨hh, -⟩ | ⟨-, -, hz, -⟩ | ⟨-, hs, -, -, hj, -, hne⟩ := hgd.kinds hr
  · rw [hh] at hg
    cases hg
  · exact .inl ⟨w, hw, hz, head hr⟩
  · have mem : ∀ {u v : Int}, g.Joins u v → u ≠ v → (u, v) ∈ pairs := by
      intro u v hj huv
      have hc := ho u v
      have : v ∈ near (deal l u) u := by
        rw [head (by simp [hj.role])]
        refine mem_map.2 ⟨g, mem_filter.2 ⟨by simp [beforeHadamard, hg], hj.isSign⟩, hj.farEnd huv⟩
      exact count_pos_iff.1 (hc ▸ count_pos_iff.2 this)
    exact .inr ⟨w, farEnd g w, mem hj hne.symm, mem hj.symm hne⟩

/-- **A round keeps the course**, and takes off the first gate of the list unless it is a Hadamard. -/
theorem round_spec (h : Holds n s.lanes l) : ∃ s' m l', s.round = .ok (s', m) ∧ Keeps n s l s' l' ∧ (m → l'.length < l.length) ∧
    ∀ g rest, l = g :: rest → g.isHad = false → l'.length < l.length := by
  have hws : ∀ w ∈ s.lanes.wires, OnWire n w := fun w hw => h.size ▸ mem_wires.1 hw
  obtain ⟨pairs, ep, ho⟩ := links_open h []
  obtain ⟨s1, l1, e1, h1, near1, short1⟩ := foldlM_rotations_spec hws h
  have ho1 : Open [] pairs l1 := fun a b => by rw [ho a b, near1]
  obtain ⟨s2, l2, e2, h2, short2⟩ := signs_spec pairs pairs h1.holds ho1
  have same : s2.lanes.wires = s.lanes.wires := by rw [Lanes.wires, Lanes.wires, h2.holds.size, h.size]
  have eh : (s.lanes.wires.mapM fun w => do return (w, ← s2.lanes.on w) : Attempt _) =
      .ok (s.lanes.wires.map fun w => (w, deal l2 w)) := by
    refine Permutation.mapM_ok _ fun w hw => ?_
    rw [h2.holds.look (hws w hw)]
    rfl
  obtain ⟨s3, m, l3, e3, h3, moved3⟩ := sweep_spec h2.holds fun w (hw : w ∈ blockedIn (s.lanes.wires.map fun w => (w, deal l2 w))) =>
    mem_blockedIn hw
  rw [same] at e3
  refine ⟨s3, m, l3, ?_, h1.trans (h2.trans h3), fun hm => ?_, fun g rest e hg => ?_⟩
  · have ep' : links s.lanes s.lanes.wires = .ok pairs := by simpa using ep
    rw [round_eq, ep']
    rw [e1]
    show (signs pairs pairs s1 >>= _) = _
    rw [e2]
    show ((s.lanes.wires.mapM fun w => do return (w, ← s2.lanes.on w) : Attempt _) >>= _) = _
    rw [eh]
    exact e3
  · exact (moved3 hm).trans_le (h2.length.trans h1.length)
  · rcases exists_pair_of_head h.dealt e hg ho with ⟨w, hw, hz, el⟩ | ⟨a, b, hab, hba⟩
    · exact (h3.length.trans h2.length).trans_lt (short1 w (mem_wires.2 (h.size.symm ▸ hw)) g _ el hz)
    · exact h3.length.trans_lt ((short2 ⟨a, b, hab, hab, hba⟩).trans_le h1.length)

/-- **Rounds until nothing is moved** end before the bound is reached. -/
theorem rounds_spec : ∀ (fuel : ℕ) {s : Taking} {l : List Gate}, Holds n s.lanes l → l.length < fuel →
    ∃ s' l', rounds fuel s = .ok s' ∧ Keeps n s l s' l' ∧ ∀ g rest, l = g :: rest → g.isHad = false → l'.length < l.length := by
  intro fuel
  induction fuel with
  | zero => exact fun _ hf => absurd hf (Nat.not_lt_zero _)
  | succ fuel ih =>
    intro s l h hf
    obtain ⟨s1, m, l1, e1, h1, moved, short⟩ := round_spec h
    cases m with
    | false => exact ⟨s1, l1, by simp [rounds, e1, bind, Except.bind, pure, Except.pure], h1, short⟩
    | true =>
      have := moved rfl
      obtain ⟨s2, l2, e2, h2, -⟩ := ih h1.holds (by omega)
      refine ⟨s2, l2, by simpa [rounds, e1, bind, Except.bind] using e2, h1.trans h2, fun _ _ _ _ => h2.length.trans_lt this⟩

end Taking

end ZXCircuits.PhaseBlock
