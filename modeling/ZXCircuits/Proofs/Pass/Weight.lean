/-
  The T gates that a forward pass lays down.

  No step of a pass lays down more T gates than it takes in: links, Hadamards and quarter turns take none, and two rotations
  that are fused take one only if one of them did.
-/
import ZXCircuits.Optimise.Forward
import ZXCircuits.Proofs.Motion.Splitting

namespace ZXCircuits

open List ZXCircuits.Rat Gate

variable {p q r : ℚ} {w t a b : ℤ} {g h : Gate} {k : ℕ}

/-! ## Gates -/

lemma turnWeight_le (h : ∀ i j : ℤ, 2 * p = i → 2 * q = j → ∃ k : ℤ, 2 * r = k) : turnWeight r ≤ turnWeight p + turnWeight q := by
  have one : ∀ p, turnWeight p ≤ 1 := fun p => by unfold turnWeight; split <;> simp
  by_contra hlt
  have hr := one r
  obtain ⟨i, hi⟩ := turnWeight_eq_zero.1 (show turnWeight p = 0 by omega)
  obtain ⟨j, hj⟩ := turnWeight_eq_zero.1 (show turnWeight q = 0 by omega)
  have := turnWeight_eq_zero.2 (h i j hi hj)
  omega

lemma turnWeight_modTwo_add (p q : ℚ) : turnWeight (modTwo (p + q)) ≤ turnWeight p + turnWeight q :=
  turnWeight_le fun i j hi hj => ⟨i + j + 2 * (-2 * ((p + q) / 2).floor), by
    rw [modTwo_eq]; push_cast; linear_combination hi + hj⟩

lemma turnWeight_modTwo_neg (p : ℚ) : turnWeight (modTwo (-p)) ≤ turnWeight p :=
  turnWeight_le (q := 0) fun i _ hi _ => ⟨-i + 2 * (-2 * (-p / 2).floor), by
    rw [modTwo_eq]; push_cast; linear_combination -hi⟩

lemma weight_of_isZRotation (h : g.isZRotation) : g.weight = turnWeight g.phase := by
  obtain ⟨op, i⟩ := g
  cases op with
  | rotation => rfl
  | _ => cases h

lemma weight_of_isCnot (h : g.isCnot) : g.weight = 0 := by
  obtain ⟨op, i⟩ := g
  cases op with
  | pair => rfl
  | _ => cases h

lemma weight_eq_of_same (e : g.same h) : g.weight = h.weight := by
  obtain ⟨x, i⟩ := g
  obtain ⟨y, j⟩ := h
  cases x <;> cases y <;> simp_all [same, Gate.weight, tCount]

lemma removeFrom_weight (g : Gate) (l : List Gate) : Gives (g.removeFrom l) fun l' => weightOf l' + g.weight = weightOf l := by
  induction l with
  | nil => exact .error _
  | cons h l ih =>
    refine .ite (fun e => .ok ?_) fun _ => ?_
    · rw [weightOf_cons, weight_eq_of_same e, add_comm]
    split
    · refine .ok ?_
      have := ih _ ‹_›
      simp only [weightOf_cons]
      omega
    · exact .error _

lemma weightOf_insertBefore (n : ℕ) (g : Gate) (l : List Gate) : weightOf (insertBefore n g l) = weightOf l + g.weight := by
  have e := congrArg weightOf (take_append_drop (l.length - n) l)
  simp only [insertBefore, weightOf_append, weightOf_cons] at e ⊢
  omega

/-! ## Lanes -/

namespace Lanes

variable {l : Lanes} {lane : List Gate}

def weight (l : Lanes) : ℕ := weightOf l.toList.flatten

lemma weight_set (h : l.on w = .ok lane) (lane' : List Gate) :
    weight (PerWire.set l w lane') + weightOf lane = l.weight + weightOf lane' := by
  rw [on, PerWire.get] at h
  split at h
  · cases h
  have e : l.toList[w.toNat]? = some lane := by simpa using gives_orAbsent _ _ h
  obtain ⟨hi, e⟩ := List.getElem?_eq_some_iff.1 e
  have whole := congrArg (fun xs => weightOf xs.flatten) (take_append_drop w.toNat l.toList)
  rw [drop_eq_getElem_cons hi, e] at whole
  rw [weight, weight, PerWire.set, Array.toList_setIfInBounds, set_eq_take_append_cons_drop, if_pos hi]
  simp only [flatten_append, flatten_cons, weightOf_append] at whole ⊢
  omega

lemma push_weight (l : Lanes) (w : ℤ) (g : Gate) : Gives (l.push w g) fun l' => l'.weight = l.weight + g.weight :=
  .bind (.self _) fun lane e => .pure (by
    have := weight_set e (lane ++ [g])
    simp only [weightOf_append, weightOf_cons, weightOf_nil] at this
    omega)

lemma remove_weight (l : Lanes) (w : ℤ) (g : Gate) : Gives (l.remove w g) fun l' => l'.weight + g.weight = l.weight :=
  .bind (.self _) fun lane e => .bind (removeFrom_weight g lane) fun lane' e' => .pure (by
    have := weight_set e lane'
    omega)

end Lanes

/-! ## Steps of a pass -/

namespace Pass

variable {s : Pass}

lemma findM?_mem {f : Gate → Attempt Bool} (l : List Gate) : Gives (l.findM? f) fun o => ∀ h ∈ o, h ∈ l := by
  induction l with
  | nil => exact .pure (by simp)
  | cons g l ih =>
    refine .skip fun x => ?_
    cases x with
    | true => exact .pure (by simp)
    | false => exact ih.mono fun o ho h hh => mem_cons_of_mem _ (ho h hh)

lemma partner_weight (s : Pass) (a b : ℤ) : Gives (s.partner a b) fun o => ∀ h ∈ o, h.weight = 0 :=
  .skip fun l => (findM?_mem _).mono fun o ho h hh => weight_of_isCnot (by
    have := (mem_filter.1 (ho h hh)).2
    simp only [Bool.and_eq_true] at this
    exact this.1.1)

lemma weight_start (n : ℤ) (m : Bool) : (start n m).lanes.weight = 0 := by simp [start, Lanes.weight, Lanes.empty]

/-- The lanes of the pass take at most `k` T gates. -/
def Under (k : ℕ) (s : Pass) : Prop := s.lanes.weight ≤ k

variable (hs : s.Under k)
include hs

lemma lay_under (w : ℤ) (g : Gate) : Gives (s.lay w g) (Under (k + g.weight)) :=
  .bind (Lanes.push_weight _ _ _) fun _ e => .pure (e.le.trans (Nat.add_le_add_right hs _))

lemma lay_under_of_zero (hg : g.weight = 0) : Gives (s.lay w g) (Under k) := by
  have := lay_under hs w g
  rwa [hg] at this

lemma lift_under (w : ℤ) (g : Gate) : Gives (s.lift w g) fun s' => s'.lanes.weight + g.weight ≤ k :=
  .bind (Lanes.remove_weight _ _ _) fun _ e => .pure (e.le.trans hs)

lemma lift_under_of_le : Gives (s.lift w g) (Under k) := (lift_under hs w g).mono fun _ => Nat.le_of_add_right_le

lemma offer_under : Gives (s.offer w g) (Under k) := .skip fun _ => .pure hs

lemma withdraw_under : Gives (s.withdraw w g) (Under k) := .skip fun _ => .pure hs

lemma restartIf_under {old new : Axis} : Gives (s.restartIf w old new) (Under k) :=
  .skip fun _ => .ite (fun _ => .pure hs) fun _ => .pure hs

lemma layHadamard_under : Gives (s.layHadamard w) (Under k) :=
  .bind (lay_under_of_zero (show Under k (s.number (.had w)).2 from hs) rfl) fun _ hs => .skip fun _ => .pure hs

lemma laySingle_under : Gives (s.laySingle w g) (Under (k + g.weight)) :=
  .bind (lay_under (show Under k (s.number g).2 from hs) w _) fun _ hs => offer_under hs

lemma layPair_under (hg : g.weight = 0) : Gives (s.layPair a b g) (Under k) :=
  .bind (lay_under_of_zero (show Under k (s.number g).2 from hs) hg) fun _ hs =>
    .bind (lay_under_of_zero hs hg) fun _ hs => .bind (offer_under hs) fun _ hs => offer_under hs

lemma liftPair_under : Gives (s.liftPair a b g) (Under k) :=
  .bind (withdraw_under hs) fun _ hs => .bind (lift_under_of_le hs) fun _ hs =>
    .bind (withdraw_under hs) fun _ hs => lift_under_of_le hs

/-! ### Links -/

section

variable (hg : g.weight = 0)
include hg

lemma mergeBefore_under : Gives (s.mergeBefore a b g) (Under k) := by
  refine .bind (lift_under_of_le hs) fun s1 h1 => .bind (lift_under_of_le h1) fun s2 h2 => .bind (withdraw_under h2) fun s3 h3 => ?_
  refine .skip fun open_ => .bind (.self _) fun lane (e : s3.lanes.on b = .ok lane) => ?_
  set before : Gate := { Gate.s b true with index := s3.count }
  have h4 : Lanes.weight (PerWire.set s3.lanes b (insertBefore open_.length g (insertBefore open_.length before lane))) ≤ k := by
    have he := Lanes.weight_set e (insertBefore open_.length g (insertBefore open_.length before lane))
    rw [weightOf_insertBefore, weightOf_insertBefore, hg, show before.weight = 0 from weight_s b true] at he
    have h3 : s3.lanes.weight ≤ k := h3
    omega
  refine .bind (laySingle_under h4) fun s5 h5 => ?_
  rw [weight_s] at h5
  refine .bind (offer_under (show Under k (s5.number (.s a false)).2 from h5)) fun _ h6 => .bind (offer_under h6) fun _ h7 => ?_
  exact .bind (lay_under_of_zero h7 hg) fun _ h8 => lay_under_of_zero h8 (weight_s a false)

lemma mergeSign_under : Gives (s.mergeSign g) (Under k) := .skip fun _ => mergeBefore_under (by split <;> exact hs) hg

lemma layOrCancel_under : Gives (s.layOrCancelSign g) (Under k) ∧ Gives (s.layOrCancelNot g) (Under k) := by
  constructor <;> refine .bind (restartIf_under hs) fun _ hs => .bind (restartIf_under hs) fun _ hs => .skip fun _ => ?_
  all_goals
    dsimp only
    split
    · exact .skip fun _ => .ite (fun _ => liftPair_under hs) fun _ => layPair_under hs hg
    · exact layPair_under hs hg

lemma addSign_under : Gives (s.addSign g) (Under k) := by
  have lay := (layOrCancel_under hs hg).1
  refine .ite (fun _ => .bind (partner_weight _ _ _) fun o ho => ?_) fun _ => lay
  cases o with
  | some h => exact mergeSign_under hs (ho h rfl)
  | none =>
    refine .bind (partner_weight _ _ _) fun o ho => ?_
    cases o with
    | some h => exact mergeSign_under hs (ho h rfl)
    | none => exact lay

lemma turnAround_under : Gives (s.turnAround h g) (Under k) := by
  refine .bind (lift_under_of_le hs) fun _ hs => .bind (lift_under_of_le hs) fun s2 hs => ?_
  refine .bind (lay_under_of_zero hs hg) fun _ hs => .bind (lay_under_of_zero hs hg) fun _ hs => ?_
  exact .skip fun _ => .skip fun _ => .pure hs

lemma addNot_under : Gives (s.addNot g) (Under k) := by
  have lay := (layOrCancel_under hs hg).2
  refine .skip fun _ => .skip fun _ => .ite (fun _ => .skip fun _ => ?_) fun _ => lay
  dsimp only
  split
  · exact .skip fun _ => .ite (fun _ => turnAround_under hs hg) fun _ => lay
  · exact lay

end

/-! ### Gates taken in -/

lemma turnHadamard_under {n : Rotation} (hp : p.den = 2) : Gives (s.turnHadamard t g n w p) (Under k) := by
  have zero : turnWeight (modTwo (-p)) = 0 := Nat.le_zero.1 ((turnWeight_modTwo_neg p).trans (by simp [turnWeight, hp]))
  refine .bind (.self _) fun lane (e : s.lanes.on t = .ok lane) => .skip fun _ => .pure (le_trans ?_ hs)
  set last := withPhase (turnedName n (modTwo (-p))) w (modTwo (-p)) g.index
  set z : Gate := { zPhase t (modTwo (-p)) with index := s.count }
  have hm := weightOf_map_le (f := fun h => if h.index == g.index then last else h) (fun h => by
    split
    · exact (show last.weight = 0 from zero).le.trans (Nat.zero_le _)
    · exact le_rfl) lane
  have he := Lanes.weight_set e (insertBefore 2 z (lane.map fun h => if h.index == g.index then last else h))
  rw [weightOf_insertBefore, show z.weight = 0 from zero] at he
  show Lanes.weight (PerWire.set s.lanes t (insertBefore 2 z (lane.map fun h => if h.index == g.index then last else h))) ≤ _
  omega

lemma carryHadamard_under : Gives (s.carryHadamard t) (Under k) := by
  refine .skip fun lane => ?_
  split
  · refine .ite (fun _ => .pure hs) fun _ => ?_
    split
    · exact .ite (fun _ => .pure hs) fun hp => turnHadamard_under hs (by simp_all)
    · exact .pure hs
  · exact .pure hs

lemma feedHadamard_under : Gives (s.feedHadamard t) (Under k) :=
  carryHadamard_under (by unfold exchangeMarks; dsimp only; split_ifs <;> exact hs)

lemma fuseRotation_under (hg : g.weight = turnWeight p) : Gives (s.fuseRotation t g p) (Under (k + turnWeight p)) := by
  rw [← hg]
  refine .skip fun lane => .skip fun _ => .ite (fun _ => laySingle_under hs) fun _ => ?_
  split
  · exact laySingle_under hs
  rename_i h hh
  have hz := weight_of_isZRotation (find?_some hh)
  refine .bind (withdraw_under hs) fun _ hs => .bind (lift_under hs _ _) fun s' hs => ?_
  have under : Under (k + g.weight) s' := (Nat.le_of_add_right_le hs).trans (Nat.le_add_right _ _)
  refine .ite (fun _ => .pure under) fun _ => .ite (fun _ => .pure under) fun _ => ?_
  refine (laySingle_under (le_refl s'.lanes.weight)).mono fun _ h' => ?_
  -- `h` went, which pays for its part of the sum
  have := turnWeight_modTwo_add p h.phase
  rw [show (zPhase t (modTwo (p + h.phase))).weight = turnWeight (modTwo (p + h.phase)) from rfl] at h'
  simp only [Under] at *
  omega

lemma feedUnmarked_under {n : Rotation} {i : ℕ} : Gives (s.feedUnmarked n t p i) (Under (k + turnWeight p)) := by
  have under : s.Under (k + turnWeight p) := Nat.le_add_right_of_le hs
  refine .ite (fun _ => .pure under) fun _ => .ite (fun _ => .pure under) fun _ => ?_
  refine .bind (.ite (fun _ => layHadamard_under hs) fun _ => .ok hs) fun _ hs => ?_
  refine (fuseRotation_under hs rfl).mono fun _ h => le_trans h (Nat.add_le_add_left ?_ k)
  split
  · exact turnWeight_modTwo_neg p
  · exact le_rfl

lemma feedRotation_under {n : Rotation} {i : ℕ} : Gives (s.feedRotation n t p i) (Under (k + turnWeight p)) := by
  refine .ite (fun _ => ?_) fun _ => feedUnmarked_under hs
  have turned : turnWeight (modTwo (p + 1)) ≤ turnWeight p := turnWeight_modTwo_add p 1
  exact (feedUnmarked_under (s := { s with zs := s.zs.erase t }) hs).mono fun _ h =>
    le_trans h (Nat.add_le_add_left turned k)

lemma feedSign_under : Gives (s.feedSign a b) (Under k) := by
  unfold feedSign placeSign
  split
  · exact .bind (layHadamard_under hs) fun _ hs => .bind (layHadamard_under hs) fun _ hs => addSign_under hs rfl
  · exact addNot_under hs rfl
  · exact addNot_under hs rfl
  · exact addSign_under hs rfl

lemma feedNot_under : Gives (s.feedNot a b) (Under k) := by
  unfold feedNot placeNot
  split
  · exact addNot_under hs rfl
  · exact addNot_under hs rfl
  · exact addSign_under hs rfl
  · exact .bind (layHadamard_under hs) fun _ hs => addNot_under hs rfl

lemma feed_under (g : Gate) : Gives (s.feed g) (Under (k + g.weight)) := by
  have more : ∀ s, Under k s → Under (k + g.weight) s := fun _ => Nat.le_add_right_of_le
  obtain ⟨op, i⟩ := g
  unfold feed
  split
  · exact .skip fun _ => (feedHadamard_under hs).mono more
  · exact .skip fun _ => .pure (more s hs)
  · next e =>
    cases e
    exact .skip fun _ => .ite (fun _ => feedRotation_under hs) fun _ => .throw _
  · refine .skip fun _ => ?_
    split
    · exact .skip fun _ => (feedSign_under hs).mono more
    · exact .skip fun _ => (feedNot_under hs).mono more
    · exact .throw _
  · exact .skip fun _ => .throw _
  all_goals exact .throw _

lemma finish_under : Gives s.finish (Under k) :=
  .bind (.foldlM hs fun _ _ _ hs => layHadamard_under hs) fun _ hs =>
    .foldlM hs fun _ _ _ hs => lay_under_of_zero hs rfl

end Pass

end ZXCircuits
