/-
  Links.

  A controlled sign with Hadamards around it on one or both of its wires is a link: it has a sort on each of its two wires.
  Passing a Hadamard changes the sort on its wire, and gates of the sort of the link on the wires they share let it
  through (`courseOf_mul_link`).
-/
import ZXCircuits.Proofs.PhaseBlock.Dealing

namespace ZXCircuits

open PhaseBlock Course

namespace Course

/-- A controlled sign, with Hadamards around it on the wires that are marked. -/
noncomputable def link (a b : Int) (ra rb : Bool) : Course :=
  (if ra then h a else 1) * ((if rb then h b else 1) * cz a b * (if rb then h b else 1)) * (if ra then h a else 1)

variable {a b : Int} {ra rb : Bool}

lemma link_comm (a b : Int) (ra rb : Bool) : link a b ra rb = link b a rb ra := by
  have e := (commute_h_h a b).eq
  cases ra <;> cases rb <;> simp only [link, if_true, Bool.false_eq_true, if_false, one_mul, mul_one, cz_comm a b]
  calc h a * (h b * cz b a * h b) * h a = (h a * h b) * cz b a * (h b * h a) := by simp only [mul_assoc]
    _ = (h b * h a) * cz b a * (h a * h b) := congrArg₂ (· * cz b a * ·) e e.symm
    _ = h b * (h a * cz b a * h a) * h b := by simp only [mul_assoc]

lemma h_mul_link (a b : Int) (ra rb : Bool) : h a * link a b ra rb = link a b (!ra) rb * h a := by
  cases ra <;> simp only [link, Bool.not_true, Bool.not_false, if_true, Bool.false_eq_true, if_false, one_mul, mul_one]
  · rw [mul_assoc _ (h a) (h a), h_mul_h, mul_one]
  · rw [← mul_assoc, ← mul_assoc, h_mul_h, one_mul]

lemma h_mul_link_right (a b : Int) (ra rb : Bool) : h b * link a b ra rb = link a b ra (!rb) * h b := by
  rw [link_comm _ _, h_mul_link, link_comm _ _]

lemma link_cz (a b : Int) : link a b false false = cz a b := by simp [link]

lemma link_cnot (hab : a ≠ b) : link a b false true = cnot a b := by simp [link, cnot_eq hab]

lemma link_cnot_swap (hab : a ≠ b) : link a b true false = cnot b a := by
  rw [link_comm _ _, link_cnot hab.symm]

end Course

namespace Gate

open Course

variable {n : ℕ} {a b : Int} {g : Gate}

def sortRole (r : Bool) : Role := if r then .x else .z

lemma commute_conj_h {P Q : Course} (w : Int) (e : Commute P Q) : Commute (h w * P * h w) (h w * Q * h w) := by
  have cancel : ∀ R S : Course, h w * R * h w * (h w * S * h w) = h w * (R * S) * h w := fun R S => by
    calc h w * R * h w * (h w * S * h w) = h w * R * (h w * h w) * S * h w := by simp only [mul_assoc]
      _ = h w * (R * S) * h w := by rw [h_mul_h, mul_one]; simp only [mul_assoc]
  rw [Commute, SemiconjBy, cancel, cancel, e.eq]

lemma IsLaid.eq_cnot_of_role (hg : g.IsLaid n) (hr : g.role a = .x) : ∃ c, g.op = .pair .cnot c a ∧ OnWire n c ∧ OnWire n a ∧ c ≠ a := by
  rcases hg.shape (w := a) (by simp [hr]) with ⟨i, rfl⟩ | ⟨k, p, i, rfl, hk⟩ | ⟨t, i, rfl, -⟩ | ⟨c, i, rfl, hca⟩ | ⟨c, t, i, rfl, hct⟩
  · simp at hr
  · simp [hk] at hr
  · simp at hr
  · exact ⟨c, rfl, hg.2.1, hg.2.2.1, hca⟩
  · simp [hct] at hr

lemma not_clash_of_same {w : Int} {k : Gate} {r : Bool} (hg : g.role w = .absent ∨ g.role w = sortRole r)
    (hk : k.role w = sortRole r) : ¬ Clash w g k := by
  rintro ⟨h1, -, h3⟩
  rw [hg.resolve_left h1, hk] at h3
  cases r <;> simp [sortRole] at h3

lemma commute_link_both (hg : g.IsLaid n) (hb : OnWire n b) (hab : a ≠ b) (hra : g.role a = .x)
    (hrb : g.role b = .absent ∨ g.role b = .x) : Commute (of g.op.motion) (link a b true true) := by
  obtain ⟨c, hop, hc, ha, hca⟩ := hg.eq_cnot_of_role hra
  have hcb : c ≠ b := by
    rintro rfl
    simp [role, hop, Operation.role] at hrb
  have e1 : of g.op.motion = h a * Course.cz c a * h a := by
    rw [hop]
    exact cnot_eq hca
  have e2 : link a b true true = h a * Course.cnot a b * h a := by simp [link, cnot_eq hab]
  rw [e1, e2]
  refine commute_conj_h a (commute_of_forall_not_clash (n := n) (a := Gate.cz c a) (b := Gate.cnot a b)
    ⟨.inr rfl, hc, ha, hca⟩ ⟨.inl rfl, ha, hb, hab⟩ fun w => ?_)
  by_cases hwa : w = a
  · subst hwa
    exact not_clash_of_same (r := false) (.inr (by simp [Gate.cz, sortRole])) (by simp [Gate.cnot, sortRole])
  by_cases hwb : w = b
  · subst hwb
    exact not_clash_of_absent (.inl (by simp [Gate.cz, hcb.symm, hab.symm]))
  · exact not_clash_of_absent (.inr (by simp [Gate.cnot, hwa, hwb]))

lemma commute_link_apart (hg : g.IsLaid n) (ha : OnWire n a) (hb : OnWire n b) (hab : a ≠ b) (hra : g.role a = .absent)
    (hrb : g.role b = .absent) (ra rb : Bool) : Commute (of g.op.motion) (link a b ra rb) := by
  have single : ∀ {w}, OnWire n w → g.role w = .absent → Commute (of g.op.motion) (h w) := fun {w} hw hr =>
    commute_of_forall_not_clash (b := Gate.had w) hg hw fun v => by
      by_cases e : v = w
      · exact not_clash_of_absent (.inl (e ▸ hr))
      · exact not_clash_of_absent (.inr (by simp [Gate.had, e]))
  have sign : Commute (of g.op.motion) (Course.cz a b) :=
    commute_of_forall_not_clash (b := Gate.cz a b) hg ⟨.inr rfl, ha, hb, hab⟩ fun v => by
      by_cases e : v = a ∨ v = b
      · exact not_clash_of_absent (.inl (e.elim (fun e => e ▸ hra) fun e => e ▸ hrb))
      · exact not_clash_of_absent (.inr (by simp [Gate.cz, e]))
  have marked : ∀ {w} (r : Bool), OnWire n w → g.role w = .absent → Commute (of g.op.motion) (if r then h w else 1) :=
    fun r hw hr => by
      cases r
      · exact Commute.one_right _
      · exact single hw hr
  have hma := marked ra ha hra
  have hmb := marked rb hb hrb
  exact (hma.mul_right ((hmb.mul_right sign).mul_right hmb)).mul_right hma

lemma commute_link (hg : g.IsLaid n) (ha : OnWire n a) (hb : OnWire n b) (hab : a ≠ b) {ra rb : Bool}
    (hra : g.role a = .absent ∨ g.role a = sortRole ra) (hrb : g.role b = .absent ∨ g.role b = sortRole rb) :
    Commute (of g.op.motion) (link a b ra rb) := by
  -- All links but one are courses of gates in lanes.
  have laid : ∀ {k : Gate}, k.IsLaid n → k.role a = sortRole ra → k.role b = sortRole rb →
      (∀ w, w ≠ a → w ≠ b → k.role w = .absent) → Commute (of g.op.motion) (of k.op.motion) := by
    intro k hk hka hkb hkw
    refine commute_of_forall_not_clash hg hk fun w => ?_
    by_cases hwa : w = a
    · subst hwa
      exact not_clash_of_same hra hka
    by_cases hwb : w = b
    · subst hwb
      exact not_clash_of_same hrb hkb
    · exact not_clash_of_absent (.inr (hkw w hwa hwb))
  cases ra with
  | false =>
    cases rb with
    | false =>
      exact laid (k := Gate.cz a b) ⟨.inr rfl, ha, hb, hab⟩ (by simp [Gate.cz, sortRole])
        (by simp [Gate.cz, sortRole]) fun w h1 h2 => by simp [Gate.cz, h1, h2]
    | true =>
      rw [link_cnot hab]
      exact laid (k := Gate.cnot a b) ⟨.inl rfl, ha, hb, hab⟩ (by simp [Gate.cnot, sortRole])
        (by simp [Gate.cnot, sortRole, hab.symm])
        fun w h1 h2 => by simp [Gate.cnot, h1, h2]
  | true =>
    cases rb with
    | false =>
      rw [link_cnot_swap hab]
      exact laid (k := Gate.cnot b a) ⟨.inl rfl, hb, ha, hab.symm⟩ (by simp [Gate.cnot, sortRole, hab])
        (by simp [Gate.cnot, sortRole])
        fun w h1 h2 => by simp [Gate.cnot, h1, h2]
    | true =>
      rcases hra with hra | hra
      · rcases hrb with hrb | hrb
        · exact commute_link_apart hg ha hb hab hra hrb true true
        · rw [link_comm _ _]
          exact commute_link_both hg ha hab.symm hrb (.inl hra)
      · exact commute_link_both hg hb hab hra hrb

end Gate

/-! ## Moving links to the front -/

/-- What a lane lets pass: with the gates nearest first, the sort of a link on a wire before and after. -/
inductive Lets (w : Int) : Bool → List Gate → Bool → Prop
  | nil (r : Bool) : Lets w r [] r
  | same {x : Gate} {u : List Gate} {r r' : Bool} (hx : x.role w = Gate.sortRole r) (h : Lets w r u r') : Lets w r (x :: u) r'
  | had {x : Gate} {u : List Gate} {r r' : Bool} (hx : x.op = .had w) (h : Lets w (!r) u r') : Lets w r (x :: u) r'

namespace Lets

variable {w : Int} {r r' : Bool} {u v : List Gate} {x : Gate}

lemma remove (h : Lets w r (u ++ x :: v) r') (hx : x.isHad = false) : Lets w r (u ++ v) r' := by
  induction u generalizing r with
  | nil =>
    cases h with
    | same _ h => exact h
    | had hop h => simp [Gate.isHad, hop] at hx
  | cons y u ih =>
    cases h with
    | same hy h => exact .same hy (ih h)
    | had hy h => exact .had hy (ih h)

lemma of_forall (h : ∀ x ∈ u, x.role w = Gate.sortRole r) : Lets w r u r := by
  induction u with
  | nil => exact .nil r
  | cons x u ih => exact .same (h x (by simp)) (ih (List.forall_mem_cons.1 h).2)

lemma append {r'' : Bool} (h1 : Lets w r u r') (h2 : Lets w r' v r'') : Lets w r (u ++ v) r'' := by
  induction h1 with
  | nil => exact h2
  | same hx _ ih => exact .same hx (ih h2)
  | had hx _ ih => exact .had hx (ih h2)

end Lets

variable {n : ℕ} {a b : Int}

/-- **A link moves to the front.**  On the way it changes its sorts as the lanes of its wires have it. -/
theorem courseOf_mul_link {p : List Gate} (hp : ∀ x ∈ p, x.IsLaid n) (ha : OnWire n a) (hb : OnWire n b) (hab : a ≠ b)
    {ra rb ra' rb' : Bool} (hla : Lets a ra (deal p a).reverse ra') (hlb : Lets b rb (deal p b).reverse rb') :
    courseOf p * Course.link a b ra rb = Course.link a b ra' rb' * courseOf p := by
  induction p using List.reverseRecOn generalizing ra rb with
  | nil =>
    cases hla
    cases hlb
    rw [courseOf_nil, one_mul, mul_one]
  | append_singleton p x ih =>
    have hp' : ∀ y ∈ p, y.IsLaid n := fun y hy => hp y (by simp [hy])
    have hx := hp x (by simp)
    have lane : ∀ w, (deal (p ++ [x]) w).reverse = if x.role w = .absent then (deal p w).reverse else x :: (deal p w).reverse := by
      intro w
      rw [deal_append, List.reverse_append]
      split
      · rename_i h
        rw [deal_cons_of_absent h, deal_nil]
        rfl
      · rename_i h
        rw [deal_cons_of_role h, deal_nil]
        rfl
    rw [lane] at hla hlb
    have cons : courseOf (p ++ [x]) = courseOf p * of x.op.motion := by
      rw [courseOf_append, courseOf_cons, courseOf_nil, mul_one]
    rw [cons, mul_assoc]
    -- A gate that is let pass has the sort of the link, or it is the Hadamard on the wire.
    have split : ∀ {w r r'}, Lets w r (if x.role w = .absent then (deal p w).reverse else x :: (deal p w).reverse) r' →
        ((x.role w = .absent ∨ x.role w = Gate.sortRole r) ∧ Lets w r (deal p w).reverse r') ∨
          (x.op = .had w ∧ Lets w (!r) (deal p w).reverse r') := by
      intro w r r' h
      split at h
      · rename_i e
        exact .inl ⟨.inl e, h⟩
      cases h with
      | same e h => exact .inl ⟨.inr e, h⟩
      | had e h => exact .inr ⟨e, h⟩
    rcases split hla with ⟨hra, hla⟩ | ⟨hop, hla⟩
    · rcases split hlb with ⟨hrb, hlb⟩ | ⟨hop, hlb⟩
      · rw [(Gate.commute_link hx ha hb hab hra hrb).eq, ← mul_assoc, ih hp' hla hlb, mul_assoc]
      · have e : of x.op.motion = Course.h b := by rw [hop]; rfl
        rw [e, Course.h_mul_link_right, ← mul_assoc, ih hp' hla hlb, mul_assoc]
    have hrb : x.role b = .absent := by
      rw [Gate.role_of_op_had hop, if_neg hab.symm]
    rw [if_pos hrb] at hlb
    have e : of x.op.motion = Course.h a := by rw [hop]; rfl
    rw [e, Course.h_mul_link, ← mul_assoc, ih hp' hla hlb, mul_assoc]

end ZXCircuits
