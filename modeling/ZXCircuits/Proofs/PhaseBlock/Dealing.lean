/-
  Lanes dealt out of one list.

  Unlike in a sheet, the gates of these lanes carry no serial numbers: controlled signs are told apart by their wires only.  Lanes
  are dealt out of a list if every lane holds the gates of the list on its wire, in order (`deal`).  The first sign between two wires
  stands at the same place of the list for both of its lanes, so to take it out of both lanes takes one gate out of the list.
-/
import ZXCircuits.PhaseBlock.Partition
import ZXCircuits.Proofs.Lanes.Flatten
import ZXCircuits.Proofs.Pass.Marks

namespace ZXCircuits

open List Function PhaseBlock Course

variable {u v : List Gate} {g : Gate}

namespace Gate

/-! ## Gates that are dealt -/

/-- A Hadamard, a rotation about the Z axis or a controlled sign without a serial number, on different wires from zero up to `n`. -/
def IsDealt (n : ℕ) (g : Gate) : Prop :=
  match g.op with
  | .had t => OnWire n t
  | .rotation k t _ => k.isZ ∧ OnWire n t
  | .pair k c t => (k = .cz ∧ g.index = 0) ∧ OnWire n c ∧ OnWire n t ∧ c ≠ t
  | _ => False

def Joins (a b : Int) (g : Gate) : Prop := g = .cz a b ∨ g = .cz b a

instance (a b : Int) (g : Gate) : Decidable (g.Joins a b) := inferInstanceAs (Decidable (_ ∨ _))

variable {n : ℕ} {g : Gate} {a b w : Int} {x : Gate}

lemma Joins.symm (h : g.Joins a b) : g.Joins b a := Or.symm h

lemma IsDealt.laid (hg : g.IsDealt n) : g.IsLaid n := by
  obtain ⟨op, i⟩ := g
  cases op with
  | had t => exact hg
  | rotation k t p => exact hg
  | pair k c t => exact ⟨.inr hg.1.1, hg.2⟩
  | _ => exact hg.elim

lemma IsDealt.had (hw : OnWire n w) : (Gate.had w).IsDealt n := hw

lemma IsDealt.cz (ha : OnWire n a) (hb : OnWire n b) (hab : a ≠ b) : (Gate.cz a b).IsDealt n := ⟨⟨rfl, rfl⟩, ha, hb, hab⟩

lemma IsDealt.kinds (hg : g.IsDealt n) (hw : g.role w ≠ .absent) : (g.isHad ∧ isSign g = false ∧ g.isZRotation = false ∧ g.op = .had w) ∨
    (g.isHad = false ∧ isSign g = false ∧ g.isZRotation ∧ g.role w = .z ∧ ∀ v, g.role v ≠ .absent → v = w) ∨
    (g.isHad = false ∧ isSign g ∧ g.isZRotation = false ∧ g.role w = .z ∧
      g.Joins w (farEnd g w) ∧ OnWire n (farEnd g w) ∧ farEnd g w ≠ w) := by
  obtain ⟨op, i⟩ := g
  cases op with
  | had t =>
    have e : w = t := by simpa using hw
    exact .inl ⟨rfl, rfl, rfl, e ▸ rfl⟩
  | rotation k t p =>
    have e : ∀ v, role ⟨.rotation k t p, i⟩ v ≠ .absent → v = t := by
      intro v h
      by_contra h'
      simp [h'] at h
    refine .inr (.inl ⟨rfl, rfl, hg.1, ?_, fun v h => (e v h).trans (e w hw).symm⟩)
    simp [e w hw, hg.1]
  | pair k c t =>
    obtain ⟨⟨rfl, e⟩, hc, ht, hct⟩ := hg
    subst e
    have hw' : w = c ∨ w = t := by
      by_contra h
      simp [h] at hw
    refine .inr (.inr ⟨rfl, rfl, rfl, by simp [hw'], ?_⟩)
    rcases hw' with rfl | rfl
    · have e : farEnd ⟨.pair .cz w t, 0⟩ w = t := by simp [farEnd, target, target?, hct.symm]
      rw [e]
      exact ⟨.inl rfl, ht, hct.symm⟩
    · have e : farEnd ⟨.pair .cz c w, 0⟩ w = c := by simp [farEnd, target, target?, control, control?]
      rw [e]
      exact ⟨.inr rfl, hc, hct⟩
  | _ => exact hg.elim

lemma IsDealt.role_of_not_had (hg : g.IsDealt n) (h : g.isHad = false) (w : Int) : g.role w = .absent ∨ g.role w = .z := by
  by_cases hw : g.role w = .absent
  · exact .inl hw
  rcases hg.kinds hw with h' | h' | h'
  · rw [h'.1] at h
    cases h
  · exact .inr h'.2.2.2.1
  · exact .inr h'.2.2.2.1

section

variable (h : g.Joins a b)
include h

lemma Joins.role (v : Int) : g.role v = if v = a ∨ v = b then .z else .absent := by
  rcases h with rfl | rfl
  · rfl
  · simp only [or_comm (a := v = a)]
    rfl

lemma Joins.not_had : g.isHad = false := by
  rcases h with rfl | rfl <;> rfl

lemma Joins.course : Course.of g.op.motion = Course.cz a b := by
  rcases h with rfl | rfl
  · rfl
  · exact cz_comm b a

lemma Joins.farEnd (hab : a ≠ b) : farEnd g a = b := by
  rcases h with rfl | rfl
  · simp [farEnd, Gate.cz, target, target?, hab.symm]
  · simp [farEnd, Gate.cz, target, target?, control, control?]

lemma Joins.isSign : isSign g := by
  rcases h with rfl | rfl <;> rfl

end

lemma same_cz_iff : g.same (.cz a b) ↔ g.Joins a b := by
  obtain ⟨op, i⟩ := g
  cases op with
  | pair k c t =>
    simp only [same, Joins, Gate.cz, mk.injEq, Operation.pair.injEq, Bool.and_eq_true, Bool.or_eq_true, beq_iff_eq, bne_iff_ne]
    grind
  | _ => simp [same, Joins, Gate.cz]

lemma isHad_iff_of_role (hg : g.IsDealt n) (hw : g.role w ≠ .absent) : g.isHad ↔ g.op = .had w := by
  rcases hg.kinds hw with h | h | h
  · simp [h.1, h.2.2.2]
  · refine ⟨fun e => ?_, fun e => ?_⟩
    · rw [h.1] at e
      cases e
    · rw [isHad, e]
  · refine ⟨fun e => ?_, fun e => ?_⟩
    · rw [h.1] at e
      cases e
    · rw [isHad, e]

lemma role_of_op_had (h : g.op = .had w) (v : Int) : g.role v = if v = w then .mixed else .absent := by
  rw [role, h, Operation.role]

lemma not_clash_of_z (hx : x.role w = .absent ∨ x.role w = .z) (hg : g.role w = .absent ∨ g.role w = .z) : ¬ Clash w x g := by
  rintro ⟨h1, h2, h3⟩
  rw [hx.resolve_left h1, hg.resolve_left h2] at h3
  simp at h3

lemma not_clash_of_absent (h : x.role w = .absent ∨ g.role w = .absent) : ¬ Clash w x g := by
  rintro ⟨h1, h2, -⟩
  exact h.elim h1 h2

end Gate

/-! ## Dealing -/

namespace PhaseBlock

def deal (l : List Gate) (w : Int) : List Gate := l.filter fun g => decide (g.role w ≠ .absent)

variable {n : ℕ} {l p q r : List Gate} {g h : Gate} {a b w : Int} {rest : List Gate}

lemma mem_deal : g ∈ deal l w ↔ g ∈ l ∧ g.role w ≠ .absent := by simp [deal]

@[simp] lemma deal_nil (w : Int) : deal [] w = [] := rfl

@[simp] lemma deal_append (p q : List Gate) (w : Int) : deal (p ++ q) w = deal p w ++ deal q w := filter_append ..

lemma deal_cons_of_role (hw : g.role w ≠ .absent) : deal (g :: l) w = g :: deal l w := by simp [deal, hw]

lemma deal_cons_of_absent (hw : g.role w = .absent) : deal (g :: l) w = deal l w := by simp [deal, hw]

lemma exists_of_deal_eq (e : deal l w = u ++ g :: v) : ∃ p q, l = p ++ g :: q ∧ deal p w = u ∧ deal q w = v ∧ g.role w ≠ .absent := by
  have hg : g.role w ≠ .absent := (mem_deal.1 (e ▸ by simp : g ∈ deal l w)).2
  obtain ⟨p, x, rfl, rfl, hx⟩ := filter_eq_append_iff.1 e
  obtain ⟨y, z, rfl, hy, hgp, rfl⟩ := filter_eq_cons_iff.1 hx
  refine ⟨p ++ y, z, by simp, ?_, rfl, hg⟩
  have : deal y w = [] := filter_eq_nil_iff.2 hy
  rw [deal_append, this, append_nil]
  rfl

lemma laidOnto_deal : laidOnto (deal l) g = deal (l ++ [g]) := by
  funext w
  by_cases hw : g.role w = .absent <;> simp [laidOnto, deal, hw]

lemma deal_remove_one (hv : ∀ v, g.role v ≠ .absent → v = w) : deal (p ++ q) = update (deal (p ++ g :: q)) w (deal p w ++ deal q w) := by
  refine eq_update_iff.2 ⟨deal_append .., fun v e => ?_⟩
  rw [deal_append, deal_append, deal_cons_of_absent (by_contra fun h => e (hv v h))]

lemma deal_remove_sign (hg : g.Joins a b) :
    deal (p ++ q) = update (update (deal (p ++ g :: q)) a (deal p a ++ deal q a)) b (deal p b ++ deal q b) := by
  refine eq_update_iff.2 ⟨deal_append .., fun v hb => ?_⟩
  by_cases ha : v = a
  · subst ha
    rw [update_self, deal_append]
  · rw [update_of_ne ha, deal_append, deal_append, deal_cons_of_absent (by simp [hg.role, ha, hb])]

lemma deal_joins_left (hg : g.Joins a b) : deal (p ++ g :: q) a = deal p a ++ g :: deal q a := by
  rw [deal_append, deal_cons_of_role (by simp [hg.role])]

lemma deal_joins_right (hg : g.Joins a b) : deal (p ++ g :: q) b = deal p b ++ g :: deal q b := deal_joins_left hg.symm

/-! ## Courses -/

def Clear (w : Int) (l : List Gate) : Prop := ∀ x ∈ deal l w, x.isHad = false

lemma Clear.role (hp : Clear w p) (hd : ∀ x ∈ p, x.IsDealt n) : ∀ x ∈ p, x.role w = .absent ∨ x.role w = .z := by
  intro x hx
  by_cases hw : x.role w = .absent
  · exact .inl hw
  · exact (hd x hx).role_of_not_had (hp x (mem_deal.2 ⟨hx, hw⟩)) w

lemma role_absent_of_deal_eq_nil (hp : deal p w = []) : ∀ x ∈ p, x.role w = .absent := by
  intro x hx
  by_contra hw
  have := mem_deal.2 ⟨hx, hw⟩
  rw [hp] at this
  cases this

/-- **A gate that nothing before it clashes with may be taken off the front.** -/
theorem courseOf_toFront (hd : ∀ x ∈ p, x.IsLaid n) (hg : g.IsLaid n) (h : ∀ x ∈ p, ∀ w, ¬ Gate.Clash w x g) :
    courseOf (p ++ g :: q) = Course.of g.op.motion * courseOf (p ++ q) := by
  rw [courseOf_append, courseOf_cons, courseOf_append, ← mul_assoc, (commute_courseOf hg hd h).eq, mul_assoc]

lemma courseOf_had (hd : ∀ x ∈ p, x.IsDealt n) (hw : OnWire n w) (hg : g.op = .had w) (hp : deal p w = []) :
    courseOf (p ++ g :: q) = Course.h w * courseOf (p ++ q) := by
  have hl : g.IsLaid n := by
    rw [Gate.IsLaid, hg]
    exact hw
  refine (courseOf_toFront (fun x hx => (hd x hx).laid) hl fun x hx v => ?_).trans (by rw [hg]; rfl)
  refine Gate.not_clash_of_absent ?_
  by_cases e : v = w
  · exact .inl (e ▸ role_absent_of_deal_eq_nil hp x hx)
  · exact .inr (by rw [Gate.role_of_op_had hg, if_neg e])

lemma courseOf_sign (hd : ∀ x ∈ p, x.IsDealt n) (ha : OnWire n a) (hb : OnWire n b) (hab : a ≠ b) (hg : g.Joins a b)
    (hpa : Clear a p) (hpb : Clear b p) : courseOf (p ++ g :: q) = Course.cz a b * courseOf (p ++ q) := by
  have hl : g.IsLaid n := by
    rcases hg with rfl | rfl
    · exact ⟨.inr rfl, ha, hb, hab⟩
    · exact ⟨.inr rfl, hb, ha, hab.symm⟩
  refine (courseOf_toFront (fun x hx => (hd x hx).laid) hl fun x hx v => ?_).trans (by rw [hg.course])
  have hr := hg.role v
  by_cases e : v = a ∨ v = b
  · rw [if_pos e] at hr
    refine Gate.not_clash_of_z ?_ (.inr hr)
    rcases e with rfl | rfl
    · exact hpa.role hd x hx
    · exact hpb.role hd x hx
  · rw [if_neg e] at hr
    exact Gate.not_clash_of_absent (.inr hr)

lemma h_mul_cz {c t : Int} (hct : c ≠ t) : Course.h t * Course.cz c t = cnot c t * Course.h t := by
  rw [cnot_eq hct, mul_assoc, h_mul_h, mul_one]

/-- **A sign behind one Hadamard is taken off the front as a controlled not.** -/
theorem courseOf_through (hd : ∀ x ∈ p ++ r, x.IsDealt n) (hw : OnWire n w) (hb : OnWire n b) (hbw : b ≠ w) (hh : h.op = .had w)
    (hg : g.Joins w b) (hp : deal p w = []) (hr : Clear w r) (hpb : Clear b (p ++ r)) :
    courseOf (p ++ h :: r ++ g :: q) = cnot b w * courseOf (p ++ h :: r ++ q) := by
  have hdp : ∀ x ∈ p, x.IsDealt n := fun x hx => hd x (by simp [hx])
  have hdr : ∀ x ∈ r, x.IsDealt n := fun x hx => hd x (by simp [hx])
  have hpb' : Clear b p := fun x hx => hpb x (by simp [hx])
  have hrb : Clear b r := fun x hx => hpb x (by simp [hx])
  have before : courseOf (r ++ g :: q) = Course.cz b w * courseOf (r ++ q) := by
    rw [courseOf_sign hdr hw hb hbw.symm hg hr hrb, cz_comm]
  have hc : Commute (courseOf p) (cnot b w) := by
    refine commute_courseOf (g := .cnot b w) ⟨.inl rfl, hb, hw, hbw⟩ (fun x hx => (hdp x hx).laid) fun x hx v => ?_
    by_cases ew : v = w
    · exact Gate.not_clash_of_absent (.inl (ew ▸ role_absent_of_deal_eq_nil hp x hx))
    by_cases eb : v = b
    · subst eb
      exact Gate.not_clash_of_z (hpb'.role hdp x hx) (.inr (by simp [Gate.cnot]))
    · exact Gate.not_clash_of_absent (.inr (by simp [Gate.cnot, ew, eb]))
  have hm : Course.of h.op.motion = Course.h w := by
    rw [hh]
    rfl
  calc courseOf (p ++ h :: r ++ g :: q) = courseOf p * (Course.h w * courseOf (r ++ g :: q)) := by
        rw [append_assoc, courseOf_append, List.cons_append, courseOf_cons, hm]
    _ = courseOf p * cnot b w * (Course.h w * courseOf (r ++ q)) := by
        rw [before, ← mul_assoc (Course.h w), h_mul_cz hbw]
        simp [mul_assoc]
    _ = cnot b w * courseOf (p ++ h :: r ++ q) := by
        rw [hc.eq, append_assoc, courseOf_append p, List.cons_append, courseOf_cons, hm, mul_assoc]

/-! ## Taking gates off -/

/-- What is left of a list when a course has been taken off its front, with the lanes that are left. -/
structure Leaves (l : List Gate) (γ : Course) (lane : Int → List Gate) (l' : List Gate) : Prop where
  course : courseOf l = γ * courseOf l'
  lanes : deal l' = lane
  shorter : l'.length < l.length
  mem : ∀ g ∈ l', g ∈ l

lemma Leaves.trans {γ δ : Course} {f k : Int → List Gate} {l' l'' : List Gate} (h1 : Leaves l γ f l') (h2 : Leaves l' δ k l'') :
    Leaves l (γ * δ) k l'' where
  course := by rw [h1.course, h2.course, mul_assoc]
  lanes := h2.lanes
  shorter := h2.shorter.trans h1.shorter
  mem g hg := h1.mem g (h2.mem g hg)

lemma leaves_had (hd : ∀ x ∈ l, x.IsDealt n) (e : deal l w = h :: rest) (hh : h.isHad) :
    ∃ l', Leaves l (Course.h w) (update (deal l) w rest) l' := by
  obtain ⟨p, q, rfl, hp, rfl, hw⟩ := exists_of_deal_eq (u := []) e
  have hdh := hd h (by simp)
  have op := (Gate.isHad_iff_of_role hdh hw).1 hh
  refine ⟨p ++ q, courseOf_had (fun x hx => hd x (by simp [hx])) (hdh.laid.onWire hw) op hp, ?_, by simp, fun x hx => ?_⟩
  · rw [deal_remove_one fun v hv => ?_, hp, nil_append]
    by_contra ne
    simp [Gate.role_of_op_had op, ne] at hv
  · simp only [mem_append, mem_cons] at hx ⊢
    tauto

lemma leaves_cancel {k : Gate} (hd : ∀ x ∈ l, x.IsDealt n) (e : deal l w = h :: k :: rest)
    (hh : h.isHad) (hk : k.isHad) : ∃ l', Leaves l 1 (update (deal l) w rest) l' := by
  obtain ⟨l1, h1⟩ := leaves_had hd e hh
  have e1 : deal l1 w = k :: rest := by rw [h1.lanes, update_self]
  obtain ⟨l2, h2⟩ := leaves_had (fun x hx => hd x (h1.mem x hx)) e1 hk
  refine ⟨l2, ?_⟩
  have := h1.trans h2
  rwa [h_mul_h, h1.lanes, update_idem] at this

lemma exists_sign (e : deal l a = u ++ g :: v) (hg : g.Joins a b) (hu : ∀ x ∈ u, ¬ x.Joins a b) :
    ∃ p q, l = p ++ g :: q ∧ deal p a = u ∧ deal q a = v ∧ deal l b = deal p b ++ g :: deal q b ∧ ∀ x ∈ deal p b, ¬ x.Joins a b := by
  obtain ⟨p, q, rfl, rfl, rfl, -⟩ := exists_of_deal_eq e
  refine ⟨p, q, rfl, rfl, rfl, deal_joins_right hg, fun x hx hj => hu x (mem_deal.2 ⟨(mem_deal.1 hx).1, ?_⟩) hj⟩
  simp [hj.role]

variable (hd : ∀ x ∈ p ++ g :: q, x.IsDealt n)
include hd

lemma leaves_sign (ha : OnWire n a) (hb : OnWire n b) (hab : a ≠ b) (hg : g.Joins a b)
    (hpa : Clear a p) (hpb : Clear b p) : Leaves (p ++ g :: q) (Course.cz a b)
      (update (update (deal (p ++ g :: q)) a (deal p a ++ deal q a)) b (deal p b ++ deal q b)) (p ++ q) where
  course := courseOf_sign (fun x hx => hd x (by simp [hx])) ha hb hab hg hpa hpb
  lanes := deal_remove_sign hg
  shorter := by simp
  mem x hx := by
    simp only [mem_append, mem_cons] at hx ⊢
    tauto

lemma leaves_through {u : List Gate} (hb : OnWire n b) (hbw : b ≠ w) (hg : g.Joins w b)
    (hp : deal p w = h :: u) (hh : h.isHad) (hu : ∀ x ∈ u, x.isHad = false) (hpb : Clear b p) :
    Leaves (p ++ g :: q) (cnot b w) (update (update (deal (p ++ g :: q)) w (deal p w ++ deal q w)) b (deal p b ++ deal q b)) (p ++ q) := by
  obtain ⟨p, r, rfl, hp', rfl, hw⟩ := exists_of_deal_eq (u := []) hp
  have hdh := hd h (by simp)
  have op := (Gate.isHad_iff_of_role hdh hw).1 hh
  refine ⟨?_, deal_remove_sign hg, by simp, fun x hx => ?_⟩
  · refine courseOf_through (fun x hx => hd x ?_) (hdh.laid.onWire hw) hb hbw op hg hp' hu fun x hx => hpb x ?_
    · simp only [mem_append, mem_cons] at hx ⊢
      tauto
    · simp only [mem_deal, mem_append, mem_cons] at hx ⊢
      tauto
  · simp only [mem_append, mem_cons] at hx ⊢
    tauto

/-! ## Lanes that hold a list -/

end PhaseBlock

namespace Shows

variable {n : ℕ} {lanes : Lanes} {f : Int → List Gate} {w : Int}

variable (h : Shows n lanes f) (hw : OnWire n w)
include h hw

lemma popLast (hf : f w ≠ []) : ∃ lanes', PhaseBlock.popLast lanes w = .ok lanes' ∧ Shows n lanes' (update f w (f w).dropLast) := by
  have e : (f w).isEmpty = false := by simpa using hf
  refine ⟨_, ?_, h.set hw _⟩
  simp [PhaseBlock.popLast, h.look hw, bind, Except.bind, e, pure, Except.pure]

lemma pushAll (gs : List Gate) : ∃ lanes', PhaseBlock.pushAll lanes w gs = .ok lanes' ∧ Shows n lanes' (update f w (f w ++ gs)) := by
  refine Makes.foldlM (I := fun done lanes => Shows n lanes (update f w (f w ++ done))) (d := []) (fun done lanes g _ h => ?_)
    (by simpa using h)
  simpa [Makes] using h.push hw g

lemma removeAt (e : f w = u ++ g :: v) : ∃ lanes', lanes.removeAt w u.length = .ok lanes' ∧ Shows n lanes' (update f w (u ++ v)) := by
  refine ⟨_, ?_, h.set hw (u ++ v)⟩
  simp only [Lanes.removeAt, h.look hw, e, Lanes.dropAt_length, bind, Except.bind]
  rfl

end Shows

namespace PhaseBlock

/-- Lanes dealt out of a list of gates. -/
structure Holds (n : ℕ) (lanes : Lanes) (l : List Gate) : Prop where
  shows : Shows n lanes (deal l)
  dealt : ∀ g ∈ l, g.IsDealt n

namespace Holds

variable {n : ℕ} {lanes : Lanes} {l : List Gate} {w : Int}

variable (h : Holds n lanes l)
include h

lemma look (hw : OnWire n w) : lanes.on w = .ok (deal l w) := h.shows.look hw

lemma dealt_of_mem_deal (hg : g ∈ deal l w) : g.IsDealt n ∧ g.role w ≠ .absent := by
  obtain ⟨hm, hr⟩ := mem_deal.1 hg
  exact ⟨h.dealt g hm, hr⟩

lemma onWire_of_mem_deal (hg : g ∈ deal l w) : OnWire n w := (h.dealt_of_mem_deal hg).1.laid.onWire (h.dealt_of_mem_deal hg).2

lemma size : lanes.size = n := h.shows.size

lemma leaves {γ : Course} {f : Int → List Gate} {lanes' : Lanes} {l' : List Gate} (hl : Leaves l γ f l')
    (hs : Shows n lanes' f) : Holds n lanes' l' :=
  ⟨hl.lanes.symm ▸ hs, fun x hx => h.dealt x (hl.mem x hx)⟩

end Holds

end PhaseBlock

end ZXCircuits
