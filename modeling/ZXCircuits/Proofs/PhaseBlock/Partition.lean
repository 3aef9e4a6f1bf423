/-
  Phase blocks keep the matrix of a circuit.

  Each gate goes to the ends of its lanes, where a Hadamard may cancel one that is there and a sign one that stands last on both of its
  wires.  A controlled not is laid out as a sign between Hadamards; behind a sign on the same wires it takes quarter turns.

  Layers and blocks are taken off until no gate is left.  Each turn takes off the first gate of the list at the latest.
-/
import ZXCircuits.Proofs.PhaseBlock.Rounds
import ZXCircuits.Proofs.Passes

namespace ZXCircuits

open List Function Gate Course

namespace Gate

/-- A Hadamard, a rotation about the Z axis, a `NOT`, a controlled not or a controlled sign without a serial number, on different
    wires from zero up to `n`. -/
def IsPhased (n : ℕ) (g : Gate) : Prop :=
  match g.op with
  | .had t => OnWire n t
  | .rotation k t p => (k.isZ ∨ k = .not ∧ Rat.modTwo p = 1) ∧ OnWire n t
  | .pair k c t => (k = .cnot ∨ k = .cz ∧ g.index = 0) ∧ OnWire n c ∧ OnWire n t ∧ c ≠ t
  | _ => False

instance decidableIsPhased (n : ℕ) : (g : Gate) → Decidable (g.IsPhased n)
  | ⟨.had _, _⟩ => inferInstanceAs (Decidable (OnWire _ _))
  | ⟨.rotation _ _ _, _⟩ => inferInstanceAs (Decidable (_ ∧ _))
  | ⟨.pair _ _ _, _⟩ => inferInstanceAs (Decidable (_ ∧ _))
  | ⟨.triple _ _ _ _, _⟩ | ⟨.parity _ _, _⟩ | ⟨.initAncilla _, _⟩ | ⟨.postSelect _, _⟩ => inferInstanceAs (Decidable False)

end Gate

namespace Course

lemma cz_mul_cnot {c t : Int} (hct : c ≠ t) : cz c t * cnot c t = z c (1 / 2) * z t (1 / 2) * cnot c t * z t (-1 / 2) := by
  refine of_eq_of_apply fun ψ y => ?_
  simp only [LinearEquiv.mul_apply, cFlip, cSign, zTurn, diag_apply, relabel_apply, flipWhen_apply, update_self, update_of_ne hct]
  cases y c <;> cases y t <;> simp [turn_inv_two, turn_neg_half, ← mul_assoc]

end Course

namespace PhaseBlock

variable {n : ℕ} {lanes : Lanes} {l p q : List Gate} {g : Gate} {a b c t w : Int} {gs : List Gate} {i : ℕ}

lemma courseOf_toBack (hd : ∀ x ∈ q, x.IsDealt n) (hg : g.IsLaid n) (h : ∀ x ∈ q, ∀ w, ¬ Clash w x g) :
    courseOf (p ++ g :: q) = courseOf (p ++ q) * of g.op.motion := by
  rw [courseOf_append, courseOf_cons, courseOf_append, mul_assoc, (commute_courseOf hg (fun x hx => (hd x hx).laid) h).eq]

/-! ## One wire -/

lemma Holds.push (h : Holds n lanes l) (hg : g.IsDealt n) (single : ∀ v, g.role v ≠ .absent ↔ v = w) :
    ∃ lanes', lanes.push w g = .ok lanes' ∧ Holds n lanes' (l ++ [g]) := by
  obtain ⟨lanes', e, hs⟩ := h.shows.pushOne (hg.laid.onWire ((single w).2 rfl)) single
  exact ⟨lanes', e, laidOnto_deal ▸ hs, forall_mem_append.2 ⟨h.dealt, forall_mem_singleton.2 hg⟩⟩

lemma Holds.pushAll (h : Holds n lanes l) (hg : ∀ g ∈ gs, g.IsDealt n ∧ ∀ v, g.role v ≠ .absent ↔ v = w) :
    ∃ lanes', PhaseBlock.pushAll lanes w gs = .ok lanes' ∧ Holds n lanes' (l ++ gs) := by
  refine Makes.foldlM (I := fun done lanes => Holds n lanes (l ++ done)) (d := []) (fun done lanes g hm h => ?_) (by simpa using h)
  rw [← append_assoc]
  exact h.push (hg g hm).1 (hg g hm).2

lemma had_single (w v : Int) : (Gate.had w).role v ≠ .absent ↔ v = w := by simp [Gate.had]

lemma rotation_single {k : Rotation} (hk : k.isZ) (w : Int) (s : ℚ) (v : Int) : role ⟨.rotation k w s, i⟩ v ≠ .absent ↔ v = w := by
  simp [hk]

/-- A step succeeds, and the lanes then hold a list that has gained a course. -/
def Gains (n : ℕ) (l : List Gate) (x : Attempt Lanes) (γ : Course) : Prop :=
  ∃ lanes' l', x = .ok lanes' ∧ Holds n lanes' l' ∧ courseOf l' = courseOf l * γ

lemma addHadamard_spec (h : Holds n lanes l) (hw : OnWire n w) (hg : g.op = .had w) : Gains n l (addHadamard lanes w g) (Course.h w) := by
  have hd : g.IsDealt n := by
    rw [IsDealt, hg]
    exact hw
  have hr := role_of_op_had hg
  have course : courseOf (l ++ [g]) = courseOf l * Course.h w := by
    rw [courseOf_append, courseOf_cons, courseOf_nil, mul_one, hg]
    rfl
  obtain ⟨lanes', e', h'⟩ := h.push (w := w) hd fun v => by simp [hr]
  unfold addHadamard
  simp only [h.look hw, bind, Except.bind]
  cases hl : (deal l w).getLast? with
  | none => exact ⟨lanes', _, e', h', course⟩
  | some k =>
    dsimp only
    split
    · next hk =>
      obtain ⟨u, eu⟩ := getLast?_eq_some_iff.1 hl
      obtain ⟨p, q, rfl, rfl, hq, hkw⟩ := exists_of_deal_eq eu
      have hk' := (isHad_iff_of_role (h.dealt k (by simp)) hkw).1 hk
      have hrk := role_of_op_had hk'
      obtain ⟨l1, e1, h1⟩ := h.shows.popLast hw (by rw [eu]; simp)
      refine ⟨l1, p ++ q, e1, ⟨?_, fun x hx => h.dealt x (by simp at hx ⊢; tauto)⟩, ?_⟩
      · rw [eu, dropLast_concat] at h1
        rw [deal_remove_one fun v hv => ?_, hq, append_nil]
        · exact h1
        · by_contra e
          simp [hrk, e] at hv
      have hkl := (h.dealt k (by simp)).laid
      rw [courseOf_toBack (fun x hx => h.dealt x (by simp [hx])) hkl fun x hx v => ?_, hk']
      · rw [mul_assoc]
        exact (mul_one _).symm.trans (congrArg _ (h_mul_h w).symm)
      refine not_clash_of_absent ?_
      by_cases e : v = w
      · exact .inl (e ▸ role_absent_of_deal_eq_nil hq x hx)
      · exact .inr (by rw [hrk, if_neg e])
    · exact ⟨lanes', _, e', h', course⟩

/-! ## Two wires -/

lemma signsMeet_spec (h : Holds n lanes l) (ha : OnWire n a) (hb : OnWire n b) (hab : a ≠ b) : ∃ m, signsMeet lanes a b = .ok m ∧
      (m → ∃ p g q, l = p ++ g :: q ∧ g.Joins a b ∧ deal q a = [] ∧ deal q b = []) := by
  unfold signsMeet
  simp only [h.look ha, h.look hb, bind, Except.bind]
  -- a sign on one wire that touches the other one joins them
  have joins : ∀ {x : Gate} {u v : Int}, x.IsDealt n → x.role u ≠ .absent → u ≠ v → isSign x →
      (x.control == v || x.target == v) → x.Joins u v := by
    intro x u v hx hr huv hs ht
    obtain ⟨-, h', -⟩ | ⟨-, h', -⟩ | ⟨-, -, -, -, hj, -⟩ := hx.kinds hr
    · rw [h'] at hs
      cases hs
    · rw [h'] at hs
      cases hs
    · rw [Bool.or_eq_true, beq_iff_eq, beq_iff_eq] at ht
      have : farEnd x u = v := by
        unfold farEnd
        split
        · next e => exact ht.resolve_right fun e' => huv (e.symm.trans e')
        next e =>
        refine ht.resolve_left fun e' => e ?_
        rcases hj with hj | hj
        · rw [hj] at e' ⊢
          exact absurd (show u = v from e') huv
        · rw [hj]
          rfl
      exact this ▸ hj
  cases hx : (deal l a).getLast? with
  | none => exact ⟨false, rfl, fun e => by cases e⟩
  | some x =>
    cases hy : (deal l b).getLast? with
    | none => exact ⟨false, rfl, fun e => by cases e⟩
    | some y =>
      refine ⟨_, rfl, fun e => ?_⟩
      simp only [Bool.and_eq_true] at e
      obtain ⟨⟨⟨hsx, hsy⟩, htx⟩, hty⟩ := e
      obtain ⟨u, eu⟩ := getLast?_eq_some_iff.1 hx
      obtain ⟨p, q, rfl, rfl, hq, hxa⟩ := exists_of_deal_eq eu
      have hj := joins (h.dealt x (by simp)) hxa hab hsx htx
      refine ⟨p, x, q, rfl, hj, hq, ?_⟩
      rw [deal_joins_right hj] at hy
      by_contra hne
      have hyq : y ∈ deal q b := by
        rw [getLast?_append, getLast?_cons, getLast?_eq_some_getLast hne] at hy
        simp only [Option.getD_some, Option.some_or, Option.some.injEq] at hy
        exact hy ▸ getLast_mem hne
      obtain ⟨hyq', hyb⟩ := mem_deal.1 hyq
      have hjy := joins (h.dealt y (by simp [hyq'])) hyb hab.symm hsy hty
      have : y ∈ deal q a := mem_deal.2 ⟨hyq', by simp [hjy.role]⟩
      rw [hq] at this
      cases this

lemma Holds.popSign (h : Holds n lanes (p ++ g :: q)) (ha : OnWire n a) (hb : OnWire n b) (hab : a ≠ b) (hg : g.Joins a b)
    (hqa : deal q a = []) (hqb : deal q b = []) :
    ∃ lanes1 lanes2, popLast lanes a = .ok lanes1 ∧ popLast lanes1 b = .ok lanes2 ∧ Holds n lanes2 (p ++ q) ∧
      courseOf (p ++ g :: q) = courseOf (p ++ q) * Course.cz a b := by
  have hla := deal_joins_left (p := p) (q := q) hg
  have hlb := deal_joins_right (p := p) (q := q) hg
  rw [hqa] at hla
  rw [hqb] at hlb
  obtain ⟨l1, e1, h1⟩ := h.shows.popLast ha (by rw [hla]; simp)
  obtain ⟨l2, e2, h2⟩ := h1.popLast hb (by rw [update_of_ne hab.symm, hlb]; simp)
  refine ⟨l1, l2, e1, e2, ⟨?_, fun x hx => h.dealt x (by simp at hx ⊢; tauto)⟩, ?_⟩
  · rw [deal_remove_sign hg, hqa, hqb, append_nil, append_nil]
    rwa [update_of_ne hab.symm, hla, hlb, dropLast_concat, dropLast_concat] at h2
  rw [courseOf_toBack (fun x hx => h.dealt x (by simp [hx])) (h.dealt g (by simp)).laid fun x hx v => ?_, hg.course]
  refine not_clash_of_absent ?_
  have hr := hg.role v
  by_cases e : v = a ∨ v = b
  · rcases e with rfl | rfl
    · exact .inl (role_absent_of_deal_eq_nil hqa x hx)
    · exact .inl (role_absent_of_deal_eq_nil hqb x hx)
  · rw [if_neg e] at hr
    exact .inr hr

lemma Holds.pushSign (h : Holds n lanes l) (ha : OnWire n a) (hb : OnWire n b) (hab : a ≠ b) :
    ∃ lanes1 lanes2, lanes.push a (.cz a b) = .ok lanes1 ∧ lanes1.push b (.cz a b) = .ok lanes2 ∧ Holds n lanes2 (l ++ [.cz a b]) := by
  obtain ⟨l1, l2, e1, e2, hs⟩ := h.shows.pushTwo (g := .cz a b) ha hb hab fun v => by simp [Gate.cz, or_iff_not_imp_left]
  exact ⟨l1, l2, e1, e2, laidOnto_deal ▸ hs, forall_mem_append.2 ⟨h.dealt, forall_mem_singleton.2 (.cz ha hb hab)⟩⟩

/-! ## Gates -/

lemma layOut_cz (h : Holds n lanes l) (hc : OnWire n c) (ht : OnWire n t) (hct : c ≠ t) :
    Gains n l (layOut lanes (.cz c t)) (Course.cz c t) := by
  obtain ⟨m, em, hm⟩ := signsMeet_spec h hc ht hct
  have e : layOut lanes (.cz c t) = (signsMeet lanes c t >>= fun m => if m then popLast lanes c >>= fun l => popLast l t
      else lanes.push c (.cz c t) >>= fun l => l.push t (.cz c t)) := rfl
  rw [e, em]
  simp only [bind, Except.bind]
  cases m with
  | true =>
    obtain ⟨p, g, q, rfl, hj, hqc, hqt⟩ := hm rfl
    obtain ⟨l1, l2, e1, e2, h2, hcourse⟩ := h.popSign hc ht hct hj hqc hqt
    refine ⟨l2, p ++ q, by simp [e1, e2], h2, ?_⟩
    rw [hcourse, mul_assoc, cz_mul_cz, mul_one]
  | false =>
    obtain ⟨l1, l2, e1, e2, h2⟩ := h.pushSign hc ht hct
    refine ⟨l2, l ++ [.cz c t], by simp [e1, e2], h2, ?_⟩
    rw [courseOf_append, courseOf_cons, courseOf_nil, mul_one]
    rfl

def turnedNot (c t : Int) : List Gate := [.s c false, .s t false, .had t, .cz c t, .had t, .s t true]

lemma courseOf_turnedNot (hct : c ≠ t) : courseOf (turnedNot c t) = Course.cz c t * Course.cnot c t := by
  rw [Course.cz_mul_cnot hct, cnot_eq hct]
  rfl

section

variable (h : Holds n lanes l)
include h

lemma Holds.pushTurnedNot (hc : OnWire n c) (ht : OnWire n t) (hct : c ≠ t) :
    ∃ lanes1 lanes2, PhaseBlock.pushAll lanes c [.s c false, .cz c t] = .ok lanes1 ∧
      PhaseBlock.pushAll lanes1 t [.s t false, .had t, .cz c t, .had t, .s t true] = .ok lanes2 ∧
      Holds n lanes2 (l ++ turnedNot c t) := by
  obtain ⟨l1, e1, h1⟩ := h.shows.pushAll hc [.s c false, .cz c t]
  obtain ⟨l2, e2, h2⟩ := h1.pushAll ht [.s t false, .had t, .cz c t, .had t, .s t true]
  refine ⟨l1, l2, e1, e2, ?_, fun x hx => ?_⟩
  · convert h2 using 1
    funext v
    by_cases et : v = t
    · subst et
      simp [deal, turnedNot, Gate.s, Gate.had, Gate.cz, Rotation.isZ, hct.symm]
    by_cases ec : v = c
    · subst ec
      simp [deal, turnedNot, Gate.s, Gate.had, Gate.cz, Rotation.isZ, hct]
    · simp [deal, turnedNot, Gate.s, Gate.had, Gate.cz, ec, et]
  rcases mem_append.1 hx with hx | hx
  · exact h.dealt x hx
  simp only [turnedNot, mem_cons, not_mem_nil, or_false] at hx
  rcases hx with rfl | rfl | rfl | rfl | rfl | rfl
  · exact ⟨rfl, hc⟩
  · exact ⟨rfl, ht⟩
  · exact ht
  · exact .cz hc ht hct
  · exact ht
  · exact ⟨rfl, ht⟩

lemma layOut_cnot (hc : OnWire n c) (ht : OnWire n t) (hct : c ≠ t) :
    Gains n l (layOut lanes ⟨.pair .cnot c t, i⟩) (Course.cnot c t) := by
  obtain ⟨m, em, hm⟩ := signsMeet_spec h hc ht hct
  have e : layOut lanes ⟨.pair .cnot c t, i⟩ = (signsMeet lanes c t >>= fun m =>
      if m then popLast lanes c >>= fun l => popLast l t >>= fun l => pushAll l c [.s c false, .cz c t] >>= fun l =>
        pushAll l t [.s t false, .had t, .cz c t, .had t, .s t true]
      else addHadamard lanes t (.had t) >>= fun l => l.push c (.cz c t) >>= fun l => l.push t (.cz c t) >>= fun l =>
        l.push t (.had t)) := rfl
  rw [e, em]
  simp only [bind, Except.bind]
  cases m with
  | true =>
    obtain ⟨p, g, q, rfl, hj, hqc, hqt⟩ := hm rfl
    obtain ⟨l1, l2, e1, e2, h2, hcourse⟩ := h.popSign hc ht hct hj hqc hqt
    obtain ⟨l3, l4, e3, e4, h4⟩ := h2.pushTurnedNot hc ht hct
    refine ⟨l4, _, by simp [e1, e2, e3, e4], h4, ?_⟩
    rw [courseOf_append, courseOf_turnedNot hct, hcourse, mul_assoc]
  | false =>
    obtain ⟨l1, k, e1, h1, c1⟩ := addHadamard_spec h ht (g := .had t) rfl
    obtain ⟨l2, l3, e2, e3, h3⟩ := h1.pushSign hc ht hct
    obtain ⟨l4, e4, h4⟩ := h3.push (.had ht) (had_single t)
    refine ⟨l4, _, by simp [e1, e2, e3, e4], h4, ?_⟩
    rw [courseOf_append, courseOf_append, c1, cnot_eq hct]
    simp only [courseOf_cons, courseOf_nil, mul_one, mul_assoc]
    rfl

lemma layOut_not {s : ℚ} (ht : OnWire n t) (hs : Rat.modTwo s = 1) :
    Gains n l (layOut lanes ⟨.rotation .not t s, i⟩) (of (xTurn t s)) := by
  obtain ⟨l1, k, e1, h1, c1⟩ := addHadamard_spec h ht (g := .had t) rfl
  have single : ∀ g ∈ [Gate.z t, Gate.had t], g.IsDealt n ∧ ∀ v, g.role v ≠ .absent ↔ v = t := by
    simp only [mem_cons, not_mem_nil, or_false]
    rintro x (rfl | rfl)
    · exact ⟨⟨rfl, ht⟩, rotation_single rfl t 1⟩
    · exact ⟨.had ht, had_single t⟩
  obtain ⟨l2, e2, h2⟩ := h1.pushAll single
  have e : layOut lanes ⟨.rotation .not t s, i⟩ = (addHadamard lanes t (.had t) >>= fun l => pushAll l t [.z t, .had t]) := rfl
  refine ⟨l2, _, by simp [e, e1, e2, bind, Except.bind], h2, ?_⟩
  rw [courseOf_append, c1, show of (xTurn t s) = Course.x t from Pass.motion_not hs]
  simp only [courseOf_cons, courseOf_nil, mul_one, mul_assoc]
  rfl

lemma layOut_spec (hg : g.IsPhased n) : Gains n l (layOut lanes g) (of g.op.motion) := by
  obtain ⟨op, i⟩ := g
  cases op with
  | had t => exact addHadamard_spec h hg rfl
  | rotation k t s =>
    obtain ⟨hk | ⟨rfl, hs⟩, ht⟩ := hg
    · obtain ⟨lanes', e, h'⟩ := h.push (g := .zPhase t s) ⟨rfl, ht⟩ (rotation_single rfl t s)
      refine ⟨lanes', _, ?_, h', ?_⟩
      · simp only [layOut, hk, if_true]
        exact e
      rw [courseOf_append, courseOf_cons, courseOf_nil, mul_one]
      simp only [Operation.motion, hk, if_true]
      rfl
    · exact layOut_not h ht hs
  | pair k c t =>
    obtain ⟨rfl | ⟨rfl, hi⟩, hc, ht, hct⟩ := hg
    · exact layOut_cnot h hc ht hct
    · subst hi
      exact layOut_cz h hc ht hct
  | _ => exact hg.elim

end

lemma foldlM_layOut_spec (hg : ∀ g ∈ gs, g.IsPhased n) (h : Holds n lanes l) : Makes (gs.foldlM layOut lanes) fun lanes' =>
    ∃ l', Holds n lanes' l' ∧ courseOf l' = courseOf l * courseOf gs := by
  refine foldlM_courseOf (I := fun lanes m => ∃ l, Holds n lanes l ∧ courseOf l = m) (fun g hm lanes m h => ?_) ⟨l, h, rfl⟩
  obtain ⟨l, h, rfl⟩ := h
  obtain ⟨lanes', l', e, h', hc⟩ := layOut_spec h (hg g hm)
  exact ⟨lanes', e, l', h', hc⟩

/-- **The lanes of a circuit** hold a list with its course. -/
theorem lanesOf_spec {c : Circuit} (hg : ∀ g ∈ c.gates, g.IsPhased c.qubits.toNat) :
    ∃ lanes l, lanesOf c = .ok lanes ∧ Holds c.qubits.toNat lanes l ∧ courseOf l = courseOf c.gates := by
  have start : Holds c.qubits.toNat (Lanes.empty c.qubits) [] := ⟨.empty c.qubits, by simp⟩
  obtain ⟨lanes, e, l, h, hc⟩ := foldlM_layOut_spec hg start
  exact ⟨lanes, l, e, h, by rw [hc, courseOf_nil, one_mul]⟩

/-! ## Gates and places -/

lemma length_le_sum_deal (hd : ∀ g ∈ l, g.IsDealt n) : l.length ≤ ((List.range n).map fun i : ℕ => (deal l i).length).sum := by
  induction l with
  | nil => exact Nat.zero_le _
  | cons g l ih =>
    have ih := ih (forall_mem_cons.1 hd).2
    obtain ⟨w, hw⟩ := (hd g (by simp)).laid.exists_role
    obtain ⟨h0, h1⟩ := (hd g (by simp)).laid.onWire hw
    have split : ∀ i : ℕ, (deal (g :: l) i).length = (deal l i).length + if g.role i = .absent then 0 else 1 := by
      intro i
      by_cases hr : g.role i = .absent
      · rw [deal_cons_of_absent hr, if_pos hr, Nat.add_zero]
      · rw [deal_cons_of_role hr, if_neg hr, length_cons]
    have one : 1 ≤ ((List.range n).map fun i : ℕ => if g.role i = .absent then 0 else 1).sum := by
      refine single_le_sum (fun _ _ => Nat.zero_le _) 1 (mem_map.2 ⟨w.toNat, mem_range.2 (by omega), ?_⟩)
      rw [Int.toNat_of_nonneg h0, if_neg hw]
    simp only [split, sum_map_add, length_cons]
    omega

lemma Holds.length_le_load (h : Holds n lanes l) : l.length ≤ lanes.load := by
  rw [Lanes.load, h.shows.toList_eq, length_flatten, map_map]
  exact length_le_sum_deal h.dealt

lemma Holds.isEmpty_iff (h : Holds n lanes l) : lanes.isEmpty ↔ l = [] := by
  rw [Lanes.isEmpty, h.shows.toList_eq, all_map, all_eq_true]
  constructor
  · intro he
    refine eq_nil_iff_forall_not_mem.2 fun g hg => ?_
    obtain ⟨w, hw⟩ := (h.dealt g hg).laid.exists_role
    obtain ⟨h0, h1⟩ := (h.dealt g hg).laid.onWire hw
    have := he w.toNat (List.mem_range.2 (by omega))
    rw [Function.comp_apply, Int.toNat_of_nonneg h0, List.isEmpty_iff] at this
    have hm := mem_deal.2 ⟨hg, hw⟩
    rw [this] at hm
    cases hm
  · rintro rfl i -
    rfl

/-! ## The partition -/

lemma takeOff_spec (h : Holds n lanes l) (hl : l ≠ []) : ∃ layer taking l', takeLayer lanes = .ok layer ∧
    Taking.rounds (layer.lanes.load + 1) { lanes := layer.lanes, block := layer.nots.reverse } = .ok taking ∧
    Holds n taking.lanes l' ∧ courseOf layer.hadamards.reverse * (courseOf taking.block * courseOf l') = courseOf l ∧
    (∀ g ∈ layer.hadamards, g.isHad) ∧ (∀ g ∈ taking.block, g.isHad = false) ∧ l'.length < l.length := by
  obtain ⟨layer, l1, e1, h1, c1, hads, nots, len1, short1⟩ := takeLayer_spec h
  obtain ⟨taking, l2, e2, h2, short2⟩ := Taking.rounds_spec (layer.lanes.load + 1)
    (s := { lanes := layer.lanes, block := layer.nots.reverse }) h1 (Nat.lt_succ_of_le h1.length_le_load)
  refine ⟨layer, taking, l2, e1, e2, h2.holds, ?_, hads, fun g hg => ?_, ?_⟩
  · rw [h2.course, ← c1, mul_assoc]
  · exact (h2.plain g hg).elim (fun hm => nots g (by simpa using hm)) id
  · rcases short1 with short1 | ⟨rfl, none⟩
    · exact h2.length.trans_lt short1
    obtain ⟨g, rest, rfl⟩ := exists_cons_of_ne_nil hl
    obtain ⟨w, hw⟩ := (h.dealt g (by simp)).laid.exists_role
    exact short2 g rest rfl (none w g _ (deal_cons_of_role hw))

/-- A layer of Hadamards or a block without any. -/
def IsPart (b : List Gate) : Prop := b ≠ [] ∧ ((∀ g ∈ b, g.isHad) ∨ ∀ g ∈ b, g.isHad = false)

def Parts (γ : Course) (blocks : List (List Gate)) : Prop := courseOf blocks.flatten = γ ∧ ∀ b ∈ blocks, IsPart b

lemma parts_of_list {b : List Gate} (hb : (∀ g ∈ b, g.isHad) ∨ ∀ g ∈ b, g.isHad = false) :
    Parts (courseOf b) (if b.isEmpty then [] else [b]) := by
  split
  · next he => exact ⟨by rw [isEmpty_iff.1 he]; rfl, by simp⟩
  · next he => exact ⟨by simp, fun x hx => mem_singleton.1 hx ▸ ⟨fun e => he (isEmpty_iff.2 e), hb⟩⟩

lemma Parts.append {γ δ : Course} {bs cs : List (List Gate)} (hb : Parts γ bs) (hc : Parts δ cs) : Parts (γ * δ) (bs ++ cs) := by
  refine ⟨by rw [flatten_append, courseOf_append, hb.1, hc.1], fun b hm => ?_⟩
  exact (mem_append.1 hm).elim (hb.2 b) (hc.2 b)

/-- **Layers and blocks one after another** have the course of the lanes. -/
theorem partitionLanes_yields (qubits : ℕ) (verbose : Bool) : ∀ (fuel : ℕ) {lanes : Lanes} {l : List Gate}, Holds n lanes l →
    l.length < fuel → Run.Yields (partitionLanes qubits false verbose fuel lanes) (Parts (courseOf l)) := by
  intro fuel
  induction fuel with
  | zero => exact fun _ hf => absurd hf (Nat.not_lt_zero _)
  | succ fuel ih =>
    intro lanes l h hf
    rw [partitionLanes]
    by_cases hl : l = []
    · rw [if_pos (h.isEmpty_iff.2 hl)]
      exact .pure ⟨by rw [hl]; rfl, by simp⟩
    rw [if_neg fun he => hl (h.isEmpty_iff.1 he)]
    obtain ⟨layer, taking, l', e1, e2, h', hc, hads, plain, short⟩ := takeOff_spec h hl
    refine .bind (.lift e1 rfl) fun _ e => e ▸ .bind (.lift e2 rfl) fun _ e => e ▸ ?_
    have block := parts_of_list (.inr plain)
    have layers := parts_of_list (b := layer.hadamards.reverse) (.inl fun g hg => hads g (by simpa using hg))
    rw [isEmpty_reverse] at layers
    have finish : ∀ b, Parts (courseOf taking.block) b → Run.Yields (partitionLanes qubits false verbose fuel taking.lanes >>= fun rest =>
        pure ((if layer.hadamards.isEmpty then [] else [layer.hadamards.reverse]) ++ b ++ rest)) (Parts (courseOf l)) := by
      intro b hb
      refine .bind (ih h' (by omega)) fun rest hrest => .pure ?_
      rw [← hc, ← mul_assoc]
      exact (layers.append hb).append hrest
    dsimp only
    split
    · next he =>
      rw [if_pos he] at block
      exact .bind (.pure block) finish
    · next he =>
      rw [if_neg he] at block
      exact .bind (.pure block) finish

end PhaseBlock

namespace Circuit

/-- **The phase blocks of a circuit** of Hadamards, rotations about the Z axis, `NOT` gates, controlled nots and controlled signs are found:
    layers of Hadamards and blocks without any.  The circuit that is returned has them one after another, and it has the matrix of the
    given one up to a factor other than zero. -/
theorem phaseBlocks_unitary (c : Circuit) (verbose : Bool) (hc : ∀ g ∈ c.gates, g.IsPhased c.qubits.toNat) :
    ∃ blocks, let d : Circuit := { qubits := c.qubits, gates := blocks.flatten }
      (c.inPhaseBlocks false verbose).result = .ok (d, blocks) ∧ (∀ b ∈ blocks, PhaseBlock.IsPart b) ∧
        ∃ s : ℂ, s ≠ 0 ∧ d.unitary = s • c.unitary := by
  obtain ⟨lanes, l, e, h, hl⟩ := PhaseBlock.lanesOf_spec hc
  have yields : Run.Yields (c.phaseBlocks false verbose) (PhaseBlock.Parts (courseOf c.gates)) := by
    rw [phaseBlocks]
    refine .bind (.lift e rfl) fun _ e => e ▸ ?_
    rw [← hl]
    exact PhaseBlock.partitionLanes_yields _ verbose _ h (Nat.lt_succ_of_le h.length_le_load)
  have returned : Run.Yields (c.inPhaseBlocks false verbose) fun r =>
      ∃ blocks, r = ({ qubits := c.qubits, gates := blocks.flatten }, blocks) ∧ PhaseBlock.Parts (courseOf c.gates) blocks :=
    .bind yields fun _ parts => .pure ⟨_, rfl, parts⟩
  obtain ⟨_, run, blocks, rfl, course, parts⟩ := returned.result
  exact ⟨blocks, run, parts, matrixOn_eq_smul course.symm _⟩

/-- Signs between Hadamards, a controlled not behind a sign and one with a serial number. -/
theorem phaseBlocks_unitary_turned_not :
    let c : Circuit :=
      { qubits := 3
        gates := [.had 0, .cz 0 1, .cnot 0 1, .t 1 true, .not 0, ⟨.pair .cnot 1 2, 5⟩, .had 2, .cz 2 0, .had 0, .zPhase 0 (2 / 7),
          .cnot 2 0] }
    ∃ blocks, let d : Circuit := { qubits := c.qubits, gates := blocks.flatten }
      (c.inPhaseBlocks false false).result = .ok (d, blocks) ∧ (∀ b ∈ blocks, PhaseBlock.IsPart b) ∧
        ∃ s : ℂ, s ≠ 0 ∧ d.unitary = s • c.unitary :=
  phaseBlocks_unitary _ false (by decide +kernel)

/-- A controlled sign with a serial number is not found again on its other wire. -/
theorem phaseBlocks_numbered_sign :
    let c : Circuit := { qubits := 2, gates := [⟨.pair .cz 0 1, 1⟩] }
    (∀ g ∈ c.gates, OnWire 2 g.control ∧ OnWire 2 g.target ∧ g.control ≠ g.target) ∧
      (c.inPhaseBlocks false false).result = .error .badValue := by
  exact ⟨by decide +kernel, rfl⟩

end Circuit

end ZXCircuits
