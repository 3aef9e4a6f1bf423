/-
  Laying down and taking up gates in a pass.

  `Pass.Lays` ties the state of a pass to a list of gates that its lanes are a sheet of.  Every step that lays down,
  cancels, fuses or merges a gate succeeds on wires that are there, keeps this tie and leaves the marks alone
  (`Pass.SameMarks`), and the course of the list gains the course of the gate.
-/
import ZXCircuits.Optimise.Forward
import ZXCircuits.Proofs.Pass.Laying

namespace ZXCircuits.Pass

open List Function Operation PerWire
open Course (cnot_mul_cnot cz cz_comm cz_mul_cz of)
open Gate (IsLaid cnot control? isCnot isCz isIn_iff isZRotation target?)

/-- The lanes of a pass are a sheet of the list, with the available gates at their ends. -/
structure Lays (n : ℕ) (p : Pass) (l : List Gate) : Prop where
  lanes_size : p.lanes.size = n
  available_size : p.available.size = n
  axes_size : p.axes.size = n
  laying : Laying n p.count (PerWire.val p.lanes) (PerWire.val p.available) (PerWire.val p.axes) l

/-- The marks are the same. -/
structure SameMarks (p q : Pass) : Prop where
  hadamards : q.hadamards = p.hadamards
  nots : q.nots = p.nots
  zs : q.zs = p.zs
  permutation : q.permutation = p.permutation

lemma SameMarks.refl (p : Pass) : SameMarks p p := ⟨rfl, rfl, rfl, rfl⟩

lemma SameMarks.trans {p q r : Pass} (h : SameMarks p q) (h' : SameMarks q r) : SameMarks p r :=
  ⟨h'.1.trans h.1, h'.2.trans h.2, h'.3.trans h.3, h'.4.trans h.4⟩

variable {n : ℕ} {p : Pass} {l : List Gate} {g : Gate} {w a b c t : Int}

/-! ## Single steps -/

namespace Lays

lemma lanes (h : Lays n p l) : Shows n p.lanes (val p.lanes) := ⟨h.lanes_size, rfl⟩

lemma available (h : Lays n p l) : Shows n p.available (val p.available) := ⟨h.available_size, rfl⟩

lemma axes (h : Lays n p l) : Shows n p.axes (val p.axes) := ⟨h.axes_size, rfl⟩

lemma of_shows {lane op : Int → List Gate} {axis : Int → Axis} (hl : Shows n p.lanes lane) (ho : Shows n p.available op)
    (ha : Shows n p.axes axis) (h : Laying n p.count lane op axis l) : Lays n p l :=
  ⟨hl.size, ho.size, ha.size, by rw [hl.val, ho.val, ha.val]; exact h⟩

variable (h : Lays n p l)
include h

lemma mem_lane_of_available (hg : g ∈ val p.available w) : g ∈ val p.lanes w := (h.laying.opens w).subset g hg

lemma mem_of_available (hg : g ∈ val p.available w) : g ∈ l := h.laying.sheet.mem_of_lane (h.mem_lane_of_available hg)

lemma same_iff_of_available (hg : g ∈ l) : ∀ k ∈ val p.available w, k.same g ↔ k = g :=
  fun _ hk => h.laying.sheet.same_iff (h.mem_of_available hk) hg

lemma restart (hw : OnWire n w) (y : Axis) : Lays n (p.restart w y) l :=
  .of_shows h.lanes (h.available.set hw []) (h.axes.set hw y) (h.laying.restart w y)

end Lays

lemma restartIf_spec (h : Lays n p l) (hw : OnWire n w) (y : Axis) : ∃ q, p.restartIf w y y.other = .ok q ∧ Lays n q l ∧ SameMarks p q ∧
      val q.axes = update (val p.axes) w y.other := by
  rw [restartIf, h.axes.get hw]
  simp only [bind, Except.bind]
  split
  · exact ⟨_, rfl, h.restart hw y.other, ⟨rfl, rfl, rfl, rfl⟩, (h.axes.set hw _).val⟩
  next hy =>
  refine ⟨p, rfl, h, .refl p, ?_⟩
  have : val p.axes w = y.other := by
    revert hy
    cases val p.axes w <;> cases y <;> simp [Axis.other]
  rw [← this, update_eq_self]

/-! ## Laying down -/

/-- A step succeeds, leaves the marks alone and adds a course to that of the list. -/
def Adds (n : ℕ) (p : Pass) (l : List Gate) (x : Attempt Pass) (γ : Course) : Prop :=
  ∃ q m, x = .ok q ∧ Lays n q m ∧ SameMarks p q ∧ courseOf m = courseOf l * γ

lemma laySingle_spec (h : Lays n p l) (hw : OnWire n w) (hg : g.IsLaid n) (single : ∀ v, g.role v ≠ .absent ↔ v = w)
    (hr : g.role w = (val p.axes w).role) : Adds n p l (p.laySingle w g) (of g.op.motion) := by
  set k : Gate := { g with index := p.count } with hk
  obtain ⟨lanes, el, sl⟩ := h.lanes.pushOne (g := k) hw single
  obtain ⟨available, ea, sa⟩ := h.available.pushOne (g := k) hw single
  refine ⟨{ p with lanes := lanes, available := available, count := p.count + 1 }, l ++ [k], ?_, ?_, ⟨rfl, rfl, rfl, rfl⟩, by simp [hk]⟩
  · simp [laySingle, number, lay, offer, bind, Except.bind, pure, Except.pure, ← hk, el, ea]
  refine .of_shows sl sa h.axes (h.laying.push hg rfl fun v hv => ?_)
  rw [(single v).1 hv]
  exact hr

section

variable (h : Lays n p l) (hab : a ≠ b) (pair : ∀ v, g.role v ≠ .absent ↔ v = a ∨ v = b)
  (hr : ∀ v, v = a ∨ v = b → g.role v = (val p.axes v).role)
include h hab pair hr

lemma layPair_spec (hg : g.IsLaid n) : Adds n p l (p.layPair a b g) (of g.op.motion) := by
  set k : Gate := { g with index := p.count } with hk
  have ha : OnWire n a := hg.onWire ((pair a).2 (.inl rfl))
  have hb : OnWire n b := hg.onWire ((pair b).2 (.inr rfl))
  obtain ⟨lanes1, lanes2, el1, el2, sl⟩ := h.lanes.pushTwo (g := k) ha hb hab pair
  obtain ⟨available₁, available₂, ea1, ea2, sa⟩ := h.available.pushTwo (g := k) ha hb hab pair
  refine ⟨{ p with lanes := lanes2, available := available₂, count := p.count + 1 }, l ++ [k], ?_, ?_, ⟨rfl, rfl, rfl, rfl⟩, by simp [hk]⟩
  · simp [layPair, number, lay, offer, bind, Except.bind, pure, Except.pure, ← hk, el1, el2, ea1, ea2]
  · exact .of_shows sl sa h.axes (h.laying.push hg rfl fun v hv => hr v ((pair v).1 hv))

/-! ## Taking up -/

lemma liftPair_spec (hg : g ∈ l) (ha : g ∈ val p.available a) (hb : g ∈ val p.available b) :
    ∃ q, p.liftPair a b g = .ok q ∧ Lays n q (l.erase g) ∧ SameMarks p q ∧ courseOf l = courseOf (l.erase g) * of g.op.motion := by
  have hlaid := h.laying.sheet.laid g hg
  have hwa : OnWire n a := hlaid.onWire ((pair a).2 (.inl rfl))
  have hwb : OnWire n b := hlaid.onWire ((pair b).2 (.inr rfl))
  have on_lane : ∀ v, g ∈ val p.lanes v ↔ v = a ∨ v = b := fun v => by rw [h.laying.sheet.mem_lane, pair, and_iff_right hg]
  have on_available : ∀ v, v = a ∨ v = b → g ∈ val p.available v := by
    rintro v (rfl | rfl)
    · exact ha
    · exact hb
  obtain ⟨available₁, available₂, ea1, ea2, sa⟩ := h.available.removeTwo hwa hwb hab (fun v => h.same_iff_of_available hg)
    fun v => ⟨fun hm => (on_lane v).1 (h.mem_lane_of_available hm), on_available v⟩
  obtain ⟨lanes1, lanes2, el1, el2, sl⟩ := h.lanes.removeTwo hwa hwb hab (fun v => h.laying.sheet.same_iff_of_lane hg) on_lane
  refine ⟨{ p with lanes := lanes2, available := available₂ }, ?_, .of_shows sl sa h.axes (h.laying.remove g), ⟨rfl, rfl, rfl, rfl⟩, ?_⟩
  · simp [liftPair, lift, withdraw, bind, Except.bind, pure, Except.pure, ea1, el1, ea2, el2]
  · exact h.laying.last hg fun v hv => ⟨on_available v ((pair v).1 hv), hr v ((pair v).1 hv)⟩

end

/-- A gate that is its own inverse cancels an available one, or is laid down. -/
lemma cancel_or_lay_spec {r s : Axis} {f : Gate → Bool} (h : Lays n p l) (hab : a ≠ b)
    (pair : ∀ v, g.role v ≠ .absent ↔ v = a ∨ v = b) (hg : g.IsLaid n) (ra : g.role a = r.other.role) (rb : g.role b = s.other.role)
    (hp : ∀ k, f k → k.op = g.op) (inv : of g.op.motion * of g.op.motion = 1) : Adds n p l (do
      let p ← p.restartIf a r r.other
      let p ← p.restartIf b s s.other
      match (← p.available.on a).reverse.find? f with
      | some k => if k.isIn (← p.available.on b) then p.liftPair a b k else p.layPair a b g
      | none => p.layPair a b g) (of g.op.motion) := by
  have ha : OnWire n a := hg.onWire ((pair a).2 (.inl rfl))
  have hb : OnWire n b := hg.onWire ((pair b).2 (.inr rfl))
  obtain ⟨p1, e1, h1, s1, x1⟩ := restartIf_spec h ha r
  obtain ⟨p2, e2, h2, s2, x2⟩ := restartIf_spec h1 hb s
  have hr : ∀ v, v = a ∨ v = b → g.role v = (val p2.axes v).role := by
    rintro v (rfl | rfl)
    · rw [x2, update_of_ne hab, x1, update_self, ra]
    · rw [x2, update_self, rb]
  have marks : ∀ {x γ}, Adds n p2 l x γ → Adds n p l x γ := fun ⟨q, m, e, hm, hs, hc⟩ => ⟨q, m, e, hm, (s1.trans s2).trans hs, hc⟩
  have lay := layPair_spec h2 hab pair hr hg
  simp only [e1, e2, bind, Except.bind, h2.available.look ha, h2.available.look hb]
  refine marks ?_
  split
  · next k hk =>
    have hka : k ∈ val p2.available a := by simpa using mem_of_find?_eq_some hk
    have hkl := h2.mem_of_available hka
    have hop : k.op = g.op := hp k (List.find?_some hk)
    have role_eq : ∀ v, k.role v = g.role v := fun v => by rw [Gate.role, Gate.role, hop]
    split
    · next hin =>
      have hkb := (isIn_iff (h2.same_iff_of_available hkl)).1 hin
      obtain ⟨q, hq, hm, hs, hc⟩ := liftPair_spec h2 hab (fun v => by rw [role_eq]; exact pair v)
        (fun v hv => by rw [role_eq]; exact hr v hv) hkl hka hkb
      refine ⟨q, _, hq, hm, hs, ?_⟩
      rw [hc, hop, mul_assoc, inv, mul_one]
    · exact lay
  · exact lay

lemma role_cz (v : Int) : (Gate.cz a b).role v = if v = a ∨ v = b then .z else .absent := rfl

lemma role_cnot (v : Int) : (cnot a b).role v = if v = a then .z else if v = b then .x else .absent := rfl

lemma layOrCancelSign_spec (h : Lays n p l) (ha : OnWire n a) (hb : OnWire n b) (hab : a ≠ b) :
    Adds n p l (p.layOrCancelSign (.cz a b)) (cz a b) := by
  refine cancel_or_lay_spec (g := .cz a b) (a := a) (b := b) h hab (fun v => ?_) ⟨.inr rfl, ha, hb, hab⟩ ?_ ?_ (fun k hk => ?_) (cz_mul_cz a b)
  · rw [role_cz]
    split <;> simp_all
  · simp [role_cz, Axis.other, Axis.role]
  · simp [role_cz, Axis.other, Axis.role]
  · obtain ⟨op, i⟩ := k
    cases op with
    | pair k c t => cases k <;> simp_all [isCz, Gate.control, control?, Gate.target, target?, Gate.cz]
    | _ => simp [isCz] at hk

lemma op_of_isCnot {k : Gate} (hk : k.isCnot && k.control == a && k.target == b) : k.op = .pair .cnot a b := by
  obtain ⟨op, i⟩ := k
  cases op with
  | pair k c t => cases k <;> simp_all [isCnot, Gate.control, control?, Gate.target, target?]
  | _ => simp [isCnot] at hk

lemma layOrCancelNot_spec (h : Lays n p l) (hc : OnWire n c) (ht : OnWire n t) (hct : c ≠ t) :
    Adds n p l (p.layOrCancelNot (.cnot c t)) (Course.cnot c t) := by
  refine cancel_or_lay_spec (g := .cnot c t) (a := c) (b := t) h hct (fun v => ?_) ⟨.inl rfl, hc, ht, hct⟩ ?_ ?_ (fun _ => op_of_isCnot) (cnot_mul_cnot c t)
  · rw [role_cnot]
    split <;> [simp_all; (split <;> simp_all)]
  · simp [role_cnot, Axis.other, Axis.role]
  · simp [role_cnot, hct.symm, Axis.other, Axis.role]

/-! ## Merging signs -/

lemma insertBefore_append {α : Type} (x : α) (pre post : List α) : insertBefore post.length x (pre ++ post) = pre ++ x :: post := by
  simp [insertBefore]

lemma meets_spec {gs : List Gate} (hgs : ∀ k ∈ gs, k.same g ↔ k = g) (h : meets g t gs) :
    ∃ as bs, gs = as ++ g :: bs ∧ ∀ k ∈ as, k.isCnot ∧ k.target = t := by
  induction gs with
  | nil => simp [meets] at h
  | cons k gs ih =>
    rw [meets] at h
    split at h
    · simp at h
    next hk =>
    simp only [Bool.or_eq_true, Bool.not_eq_true', bne_iff_ne, not_or, Bool.not_eq_false, ne_eq, not_not] at h hk
    rcases h with h | h
    · exact ⟨[], gs, by simp [(hgs k (by simp)).1 h], by simp⟩
    · obtain ⟨as, bs, rfl, has⟩ := ih (forall_mem_cons.1 hgs).2 h
      exact ⟨k :: as, bs, rfl, forall_mem_cons.2 ⟨hk, has⟩⟩

/-- A controlled not can be brought next to a sign that comes after it on the target: it is available there, or only
    controlled nots on the target stand between it and the available gates. -/
def Reachable (p : Pass) (t : Int) (g : Gate) : Prop :=
  PerWire.val p.axes t = .x ∧ g ∈ PerWire.val p.available t ∨
    PerWire.val p.axes t = .z ∧ ∃ pre, PerWire.val p.lanes t = pre ++ PerWire.val p.available t ∧ g ∈ pre ∧
      ∀ k, Precedes pre g k → k.isCnot ∧ k.target = t

/-- A controlled not that a sign on its wires can be merged with. -/
structure CanMerge (p : Pass) (c t : Int) (g : Gate) : Prop where
  op : g.op = .pair .cnot c t
  control : g ∈ PerWire.val p.available c
  target : p.Reachable t g

lemma reachable_spec (h : Lays n p l) (ht : OnWire n t) (hg : g ∈ l) : ∃ r, p.reachable t g = .ok r ∧ (r → p.Reachable t g) := by
  rw [reachable]
  simp only [h.available.look ht, h.axes.get ht, h.lanes.look ht, bind, Except.bind]
  split
  · next hx =>
    exact ⟨_, rfl, fun hr => .inl ⟨hx, (isIn_iff (h.same_iff_of_available hg)).1 hr⟩⟩
  next hx =>
  have hz : val p.axes t = .z := by
    cases e : val p.axes t with
    | z => rfl
    | x => exact (hx e).elim
  split
  · exact ⟨_, rfl, by simp⟩
  refine ⟨_, rfl, fun hr => .inr ⟨hz, ?_⟩⟩
  obtain ⟨pre, -, -, e, -⟩ := h.laying.opens t
  have hn := h.laying.sheet.nodup t
  rw [e] at hr hn
  simp only [length_append, Nat.add_sub_cancel, take_left] at hr
  obtain ⟨as, bs, eab, has⟩ := meets_spec (fun k hk => h.laying.sheet.same_iff (h.laying.sheet.mem_of_lane
    (by rw [e]; simp [mem_reverse.1 hk])) hg) hr
  have epre : pre = bs.reverse ++ g :: as.reverse := by
    rw [← reverse_reverse pre, eab]; simp
  refine ⟨pre, e, by simp [epre], fun k hk => has k ?_⟩
  have hgn := not_mem_of_nodup (epre ▸ (nodup_append.1 hn).1)
  rw [epre] at hk
  simp only [precedes_append, precedes_cons, mem_reverse, mem_cons] at hk hgn
  have := fun h : Precedes bs.reverse g k => h.mem_left
  have := fun h : Precedes as.reverse g k => h.mem_left
  grind

lemma findM?_ok {α : Type} {f : α → Attempt Bool} {P : α → Prop} (xs : List α) (hf : ∀ x ∈ xs, ∃ r, f x = .ok r ∧ (r → P x)) :
    ∃ o, xs.findM? f = .ok o ∧ ∀ x, o = some x → x ∈ xs ∧ P x := by
  induction xs with
  | nil => exact ⟨none, rfl, by simp⟩
  | cons x xs ih =>
    obtain ⟨r, hr, hp⟩ := hf x (by simp)
    obtain ⟨o, ho, hx⟩ := ih (forall_mem_cons.1 hf).2
    simp only [List.findM?, hr, bind, Except.bind]
    cases r with
    | true => exact ⟨some x, rfl, fun y hy => by cases hy; exact ⟨by simp, hp rfl⟩⟩
    | false => exact ⟨o, ho, fun y hy => ⟨by simp [(hx y hy).1], (hx y hy).2⟩⟩

lemma partner_spec (h : Lays n p l) (hc : OnWire n c) (ht : OnWire n t) :
    ∃ o, p.partner c t = .ok o ∧ ∀ k, o = some k → CanMerge p c t k := by
  rw [partner]
  simp only [h.available.look hc, bind, Except.bind]
  obtain ⟨o, ho, hk⟩ := findM?_ok ((val p.available c).filter fun g =>
    g.isCnot && g.control == c && g.target == t) fun k hk => reachable_spec h ht (h.mem_of_available (mem_filter.1 hk).1)
  refine ⟨o, ho, fun k e => ?_⟩
  obtain ⟨hm, htarget⟩ := hk k e
  obtain ⟨hav, hop⟩ := mem_filter.1 hm
  exact ⟨op_of_isCnot hop, hav, htarget⟩

lemma Lays.axis_eq (h : Lays n p l) (hg : g ∈ val p.available w) (hz : g.isZRotation = false) : g.role w = (val p.axes w).role := by
  obtain ⟨pre, old, run, -, e, hold, hrun⟩ := h.laying.opens w
  rw [e] at hg
  rcases mem_append.1 hg with hg | hg
  · simp [(hold g hg).2] at hz
  · exact hrun g hg

lemma role_of_isCnot (hlaid : g.IsLaid n) (hk : g.isCnot) : g.role g.target = .x := by
  obtain ⟨op, i⟩ := g
  cases op with
  | pair k c t =>
    have hct : c ≠ t := hlaid.2.2.2
    cases k <;> simp_all [isCnot, Gate.role, role, Gate.target, target?, Ne.symm hct]
  | _ => simp [isCnot] at hk

lemma mergeBefore_spec (pre : List Gate) (h : Lays n p l) (hg : g ∈ l) (hop : g.op = .pair .cnot c t)
    (hc : g ∈ val p.available c) (e : val p.lanes t = pre ++ val p.available t) (hgp : g ∈ pre)
    (hz : ∀ k ∈ val p.available t, k.role t = .z) (hx : val p.axes t = .x → val p.available t = [])
    (between : ∀ k, Precedes pre g k → k.role t = .x) :
    Adds n p l (p.mergeBefore c t g) (cz c t) := by
  have hlaid := h.laying.sheet.laid g hg
  have hlaid' := hlaid
  rw [IsLaid, hop] at hlaid'
  obtain ⟨-, hwc, hwt, hct⟩ := hlaid'
  have hgc : g.role c = .z := by simp [Gate.role, hop, role]
  have hnz : g.isZRotation = false := by simp [isZRotation, hop]
  have hac : (val p.axes c).role = .z := (h.axis_eq hc hnz).symm.trans hgc
  obtain ⟨before, hbefore⟩ : ∃ k : Gate, k = ⟨(Gate.s t true).op, p.count⟩ := ⟨_, rfl⟩
  obtain ⟨onTarget, htarget⟩ : ∃ k : Gate, k = ⟨(Gate.s t false).op, p.count + 1⟩ := ⟨_, rfl⟩
  obtain ⟨onControl, hcontrol⟩ : ∃ k : Gate, k = ⟨(Gate.s c false).op, p.count + 2⟩ := ⟨_, rfl⟩
  obtain ⟨m, hs, hcourse⟩ := h.laying.sheet.mergeSign hop hg e hgp hz between
    (fun b hb => ((h.laying.opens c).not_clash (h.laying.sheet.nodup c) hc (h.axis_eq hc hnz) hb).trans hac)
    hbefore htarget hcontrol
  -- the lanes and the available gates after each step
  have on_lane : ∀ v, g ∈ val p.lanes v ↔ v = t ∨ v = c := fun v => by
    rw [h.laying.sheet.mem_lane, and_iff_right hg, Gate.role, hop, role]
    split <;> [simp_all; (split <;> simp_all)]
  obtain ⟨L1, L2, e1, e2, s2⟩ := h.lanes.removeTwo hwt hwc hct.symm (fun v => h.laying.sheet.same_iff_of_lane hg) on_lane
  obtain ⟨A1, a1, r1⟩ := h.available.remove hwc (h.same_iff_of_available hg) hc
  have e3 := s2.look hwt
  have a2 := r1.look hwt
  rw [e, erase_append_left _ hgp] at e3
  rw [update_of_ne hct.symm] at a2
  have ei : insertBefore (val p.available t).length g (insertBefore (val p.available t).length before
      (pre.erase g ++ val p.available t)) = pre.erase g ++ before :: g :: val p.available t := by
    rw [insertBefore_append, ← singleton_append, ← append_assoc, insertBefore_append]
    simp
  have s3 := s2.set hwt (pre.erase g ++ before :: g :: val p.available t)
  obtain ⟨L4, e4, s4⟩ := s3.push hwt onTarget
  obtain ⟨A2, a3, r2⟩ := r1.push hwt onTarget
  obtain ⟨A3, a4, r3⟩ := r2.push hwc g
  obtain ⟨A4, a5, r4⟩ := r3.push hwc onControl
  obtain ⟨L5, e5, s5⟩ := s4.push hwc g
  obtain ⟨L6, e6, s6⟩ := s5.push hwc onControl
  have hlanes : val L6 = update (update (val p.lanes) t (pre.erase g ++ before :: g ::
      (val p.available t ++ [onTarget]))) c ((val p.lanes c).erase g ++ [g, onControl]) := by
    rw [s6.val]
    funext w
    by_cases hwc' : w = c
    · subst hwc'; simp [hct]
    by_cases hwt' : w = t
    · subst hwt'; simp [hwc']
    · simp [hwc', hwt', on_lane]
  have hav : val A4 = update (update (val p.available) t (val p.available t ++ [onTarget])) c
      ((val p.available c).erase g ++ [g, onControl]) := by
    rw [r4.val]
    simp [update_comm hct, hct, hct.symm]
  refine ⟨{ p with lanes := L6, available := A4, count := p.count + 3 }, m, ?_,
    ⟨s6.size, r4.size, h.axes_size, hlanes ▸ hs, fun w => ?_⟩, ⟨rfl, rfl, rfl, rfl⟩, hcourse⟩
  · simp [mergeBefore, lift, withdraw, laySingle, number, lay, offer, bind, Except.bind, pure, Except.pure, e1, e2, e3, a1, a2, ← hbefore, ← htarget, ← hcontrol, ei, e4, a3, a4, a5, e5, e6]
  rw [hlanes, hav]
  by_cases hwc' : w = c
  · subst hwc'
    have hco : onControl.role w = .z := by simp [hcontrol, Gate.role, Gate.s, role, Rotation.isZ]
    have := (((h.laying.opens w).erase (h.laying.sheet.nodup w) g).push (h.axis_eq hc hnz)).push (hco.trans hac.symm)
    simpa using this
  by_cases hwt' : w = t
  · subst hwt'
    have hto : onTarget.role w = .z := by simp [htarget, Gate.role, Gate.s, role, Rotation.isZ]
    rw [update_of_ne hwc', update_self, update_of_ne hwc', update_self]
    cases hax : val p.axes w with
    | z =>
      refine ⟨pre.erase g ++ [before, g], [], val p.available w ++ [onTarget], by simp, rfl, by simp, ?_⟩
      exact forall_mem_append.2 ⟨hz, forall_mem_singleton.2 hto⟩
    | x =>
      refine ⟨pre.erase g ++ [before, g], [onTarget], [], by simp [hx hax], by simp [hx hax], fun k hk => ?_, by simp⟩
      rw [mem_singleton.1 hk]
      exact ⟨rfl, by simp [htarget, isZRotation, Gate.s, Rotation.isZ]⟩
  · simpa [hwc', hwt'] using h.laying.opens w

lemma mergeSign_spec (h : Lays n p l) (hm : CanMerge p c t g) : Adds n p l (p.mergeSign g) (cz c t) := by
  obtain ⟨hop, hc, htarget⟩ := hm
  have hg := h.mem_of_available hc
  have hlaid := h.laying.sheet.laid g hg
  rw [IsLaid, hop] at hlaid
  obtain ⟨-, hwc, hwt, hct⟩ := hlaid
  have hgt : g.role t = .x := by simp [Gate.role, hop, role, hct.symm]
  have et : g.target = t := by simp [Gate.target, target?, hop]
  have ec : g.control = c := by simp [Gate.control, control?, hop]
  rw [mergeSign]
  simp only [et, ec, h.axes.get hwt]
  rcases htarget with ⟨hx, hgt'⟩ | ⟨hz, pre, e, hgp, between⟩
  · -- the controlled not is available on the target, whose gates are made unavailable
    have sa := h.available.set hwt []
    have h0 : Lays n { p with available := PerWire.set p.available t [] } l := by
      refine .of_shows h.lanes sa h.axes ⟨h.laying.sheet, fun w => ?_⟩
      by_cases hw : w = t
      · subst hw
        simpa using Open.nil w _ _
      · simpa [hw] using h.laying.opens w
    have hav : val (PerWire.set p.available t []) t = [] := by rw [sa.val, update_self]
    obtain ⟨q, m, e, hl, hs, hcourse⟩ := mergeBefore_spec (val p.lanes t) h0 hg hop
      (by rw [sa.val, update_of_ne hct]; exact hc) (by simp [hav]) (h.mem_lane_of_available hgt') (by simp [hav])
      (fun _ => hav) (fun k hk => by
        have := (h.laying.opens t).not_clash (h.laying.sheet.nodup t) hgt' (by rw [hgt, hx]; rfl) hk
        rw [this, hx]; rfl)
    refine ⟨q, m, ?_, hl, ⟨hs.1, hs.2, hs.3, hs.4⟩, hcourse⟩
    rw [← e]
    simp [bind, Except.bind, hx]
  · obtain ⟨q, m, e', hl, hs, hcourse⟩ := mergeBefore_spec pre h hg hop hc e hgp (fun k hk => by
        obtain ⟨_, old, run, -, eo, hold, hrun⟩ := h.laying.opens t
        rw [eo] at hk
        rcases mem_append.1 hk with hk | hk
        · exact absurd ((hold k hk).1) (by simp [hz])
        · rw [hrun k hk, hz]; rfl)
      (fun hx => by simp [hz] at hx) (fun k hk => by
        obtain ⟨hcn, htg⟩ := between k hk
        have hk' : k ∈ l := h.laying.sheet.mem_of_lane (by rw [e]; simp [hk.mem_right])
        have := role_of_isCnot (h.laying.sheet.laid k hk') hcn
        rwa [htg] at this)
    refine ⟨q, m, ?_, hl, hs, hcourse⟩
    rw [← e']
    simp [bind, Except.bind, hz]

lemma addSign_spec (h : Lays n p l) (ha : OnWire n a) (hb : OnWire n b) (hab : a ≠ b) : Adds n p l (p.addSign (.cz a b)) (cz a b) := by
  have lay := layOrCancelSign_spec h ha hb hab
  rw [addSign]
  split
  · obtain ⟨o, ho, hk⟩ := partner_spec h ha hb
    obtain ⟨o', ho', hk'⟩ := partner_spec h hb ha
    have e1 : p.partner (Gate.cz a b).control (Gate.cz a b).target = .ok o := ho
    have e2 : p.partner (Gate.cz a b).target (Gate.cz a b).control = .ok o' := ho'
    simp only [e1, e2, bind, Except.bind]
    cases o with
    | some k =>
      obtain ⟨q, m, hq, hl, hs, hcourse⟩ := mergeSign_spec h (hk k rfl)
      exact ⟨q, m, by simp [hq], hl, hs, hcourse⟩
    | none =>
      cases o' with
      | some k =>
        obtain ⟨q, m, hq, hl, hs, hcourse⟩ := mergeSign_spec h (hk' k rfl)
        exact ⟨q, m, by simp [hq], hl, hs, by rw [hcourse, cz_comm]⟩
      | none => simpa using lay
  · exact lay

end ZXCircuits.Pass
