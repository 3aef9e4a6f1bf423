/-
  Taking blocks off lanes.

  Gates that no earlier gate clashes with are taken off first (`courseOf_take`), gates behind Hadamards move through them
  as links (`moveAll_yields`), and Hadamards next to each other cancel.  So the gates of the lanes are the block, the
  Hadamards and what is left of the lanes (`consume_yields`).
-/
import ZXCircuits.Proofs.Blocks.Fronts
import ZXCircuits.Proofs.Motion.Splitting

namespace ZXCircuits

open List Function PhaseBlock Course Operation Run PerWire
open Gate (Clash control? isCnot isCz not_clash_of_same role_of_op_had sortRole target?)

namespace Consume

variable {n : ℕ} {lanes : Lanes} {l : List Gate} {g : Gate} {w : Int} {gs : List Gate} {x : Gate} {u v : List Gate} {f : Front}
  {blocked : Table Int Gate}

def First (l : List Gate) (g : Gate) : Prop := ∀ w x, Gate.Clash w x g → ¬ Precedes l x g

lemma First.erase (h : First l g) (k : Gate) : First (l.erase k) g := fun w x hc hp => h w x hc (Sublist.trans hp erase_sublist)

lemma courseOf_erase (hn : l.Nodup) (laid : ∀ x ∈ l, x.IsLaid n) (hg : g ∈ l) (h : First l g) :
    courseOf l = of g.op.motion * courseOf (l.erase g) := by
  obtain ⟨p, q, rfl⟩ := append_of_mem hg
  rw [erase_middle hn]
  refine courseOf_toFront (fun x hx => laid x (by simp [hx])) (laid g hg) fun x hx w hc => h w x hc ?_
  simp [hx]

lemma courseOf_take (hn : l.Nodup) (laid : ∀ x ∈ l, x.IsLaid n) (hg : ∀ g ∈ gs, g ∈ l) (hd : gs.Nodup)
    (h : ∀ g ∈ gs, First l g) : courseOf l = courseOf gs * courseOf (l.filter fun x => decide (x ∉ gs)) := by
  induction gs generalizing l with
  | nil => simp
  | cons g gs ih =>
    obtain ⟨hgn, hd⟩ := nodup_cons.1 hd
    have e := ih (hn.erase g) (fun x hx => laid x (mem_of_mem_erase hx))
      (fun k hk => hn.mem_erase_iff.2 ⟨fun e => hgn (e ▸ hk), hg k (by simp [hk])⟩) hd fun k hk => (h k (by simp [hk])).erase g
    have hf : (l.erase g).filter (fun x => decide (x ∉ gs)) = l.filter fun x => decide (x ∉ g :: gs) := by
      rw [hn.erase_eq_filter, filter_filter]
      refine filter_congr fun x _ => ?_
      by_cases hx : x = g <;> simp [hx]
    rw [courseOf_erase hn laid (hg g (by simp)) (h g (by simp)), e, courseOf_cons, mul_assoc, hf]

lemma precedes_deal (h : Precedes l x g) (hx : x.role w ≠ .absent) (hg : g.role w ≠ .absent) : Precedes (deal l w) x g := by
  have := h.filter fun k => decide (k.role w ≠ .absent)
  simpa [Precedes, deal, hx, hg] using this

lemma first_of_open (hd : Dealt n lanes l) (h : ∀ w, g.role w ≠ .absent → Open l w g) : First l g := by
  intro w x hc hp
  obtain ⟨u, v, r, e, hr, hu⟩ := h w hc.2.1
  have hx : x ∈ u := Precedes.mem_of_nodup (e ▸ hd.nodup.filter _) (e ▸ precedes_deal hp hc.1 hc.2.1)
  exact not_clash_of_same (.inr (hu x hx)) hr hc

/-- What can be part of a block: no Hadamards, and no new rotations. -/
def InBlock (n : ℕ) (l : List Gate) (g : Gate) : Prop := g.IsLaid n ∧ g.isHad = false ∧ (g.isLinked ∨ g ∈ l)

/-- Lanes are left, with the list `l'`, when a block of gates has been taken off the list `l`. -/
structure TakenOff (n : ℕ) (l gs : List Gate) (lanes : Lanes) (l' : List Gate) : Prop where
  dealt : Dealt n lanes l'
  mem : ∀ x ∈ l', x ∈ l
  block : ∀ g ∈ gs, InBlock n l g
  course : courseOf l = courseOf gs * courseOf l'
  weight : weightOf gs + weightOf l' ≤ weightOf l

namespace TakenOff

variable {l1 l2 hs : List Gate} {lanes' : Lanes} {g' : Gate}

lemma refl (hd : Dealt n lanes l) : TakenOff n l [] lanes l := ⟨hd, fun _ => id, by simp, by simp, by simp⟩

lemma trans (h : TakenOff n l gs lanes l1) (h' : TakenOff n l1 hs lanes' l2) : TakenOff n l (gs ++ hs) lanes' l2 where
  dealt := h'.dealt
  mem x hx := h.mem x (h'.mem x hx)
  block := forall_mem_append.2 ⟨h.block, fun g hg => (h'.block g hg).imp_right fun h1 => h1.imp_right (Or.imp_right (h.mem g))⟩
  course := by rw [h.course, h'.course, courseOf_append, mul_assoc]
  weight := by
    have := h.weight
    have := h'.weight
    rw [weightOf_append]
    omega

lemma one (hd : Dealt n lanes (l.erase g)) (hg : g ∈ l) (hb : InBlock n l g') (hw : g'.weight ≤ g.weight)
    (hc : courseOf l = of g'.op.motion * courseOf (l.erase g)) : TakenOff n l [g'] lanes (l.erase g) :=
  ⟨hd, fun _ => mem_of_mem_erase, forall_mem_singleton.2 hb, hc, by
    rw [weightOf_erase hg, weightOf_cons, weightOf_nil]
    omega⟩

end TakenOff

lemma weight_of_isLinked (h : g.isLinked) : g.weight = 0 := by
  obtain ⟨op, i⟩ := g
  cases op with
  | pair => rfl
  | _ => cases h

lemma takeFree_makes (hd : Dealt n lanes l) (hg : ∀ g ∈ gs, g ∈ l ∧ g.isHad = false) (hn : gs.Nodup) (h : ∀ g ∈ gs, First l g) :
    Makes (takeFree lanes gs) fun lanes' => ∃ l', TakenOff n l gs lanes' l' ∧ l'.length + gs.length = l.length := by
  induction gs generalizing lanes l with
  | nil => exact .pure ⟨l, .refl hd, rfl⟩
  | cons g gs ih =>
    obtain ⟨hgn, hn⟩ := nodup_cons.1 hn
    obtain ⟨hgl, hh⟩ := hg g (by simp)
    have laid := hd.laid g hgl
    have one : Makes (do
        let l ← lanes.remove (← g.onTarget) g
        if g.isLinked then l.remove g.control g else return l) fun lanes' => Dealt n lanes' (l.erase g) := by
      rw [laid.onTarget_eq]
      cases hl : g.isLinked with
      | false =>
        have wires := laid.role_ne_absent_iff
        simp only [hl, Bool.false_eq_true, false_and, or_false] at wires
        exact (hd.remove_one hgl fun v hv => (wires v).1 hv).bind fun lanes' h => .pure h
      | true => exact hd.remove_two hgl hl
    refine one.bind fun lanes1 h1 => ?_
    refine (ih h1 (fun k hk => ?_) hn fun k hk => (h k (by simp [hk])).erase g).mono fun lanes2 h2 => ?_
    · have hk' := hg k (by simp [hk])
      exact ⟨(mem_erase_of_ne fun e : k = g => hgn (e ▸ hk)).2 hk'.1, hk'.2⟩
    obtain ⟨l', hl', hlen⟩ := h2
    have first := TakenOff.one h1 hgl ⟨laid, hh, .inr hgl⟩ le_rfl (courseOf_erase hd.nodup hd.laid hgl (h g (by simp)))
    refine ⟨l', first.trans hl', ?_⟩
    have := length_erase_add_one hgl
    rw [length_cons]
    omega

/-! ## Moving through Hadamards -/

/-- What is before a gate on a wire lets it pass, and changes its sort there if the mark is set. -/
def Passes (l : List Gate) (w : Int) (g : Gate) (b : Bool) : Prop :=
  ∃ u v r, deal l w = u ++ g :: v ∧ g.role w = Gate.sortRole r ∧ Lets w r u.reverse (xor r b)

lemma Passes.erase {b : Bool} (h : Passes l w g b) (hn : l.Nodup) (hx : x ≠ g) (hh : x.isHad = false) : Passes (l.erase x) w g b := by
  obtain ⟨u, v, r, e, hr, hlets⟩ := h
  have en : (deal l w).Nodup := hn.filter _
  by_cases hu : x ∈ u
  · obtain ⟨u1, u2, rfl⟩ := append_of_mem hu
    refine ⟨u1 ++ u2, v, r, ?_, hr, ?_⟩
    · have hx1 : x ∉ u1 := by
        rw [e] at en
        exact fun hm => (nodup_append.1 (nodup_append.1 en).1).2.2 x hm x (by simp) rfl
      rw [deal_erase hn, e, append_assoc, erase_append_right _ hx1, cons_append, erase_cons_head, append_assoc]
    · rw [reverse_append, reverse_cons, append_assoc] at hlets
      rw [reverse_append]
      exact hlets.remove hh
  · refine ⟨u, v.erase x, r, ?_, hr, hlets⟩
    rw [deal_erase hn, e, erase_append_right _ hu, erase_cons_tail (by simpa using hx.symm)]

lemma passes_of_open (hd : Dealt n lanes l) (hf : Found l (fun _ _ => True) f)
    (h : Open l w g) : Passes l w g (isBehind f.blocked w g) ∧ isBehind f.blocked w g = false := by
  obtain ⟨u, v, r, e, hr, hu⟩ := h
  have hb : isBehind f.blocked w g = false := by
    rw [isBehind]
    split
    · rename_i k hk
      obtain ⟨a, b, e', hop, -⟩ := hf.blocked w k hk
      by_contra hlt
      have hlt : k.index < g.index := by simpa using hlt
      have hkl := mem_deal.1 (e' ▸ by simp : k ∈ deal l w)
      have hgl := mem_deal.1 (e ▸ by simp : g ∈ deal l w)
      have hp : Precedes l k g := by
        refine (precedes_or_precedes hkl.1 hgl.1 fun e => ?_).resolve_right fun hp => ?_
        · rw [e] at hlt
          omega
        · have := pairwise_iff_forall_sublist.1 hd.ascending hp
          omega
      have hku : k ∈ u := Precedes.mem_of_nodup (e ▸ hd.nodup.filter _) (e ▸ precedes_deal hp hkl.2 hgl.2)
      have := hu k hku
      rw [role_of_op_had hop] at this
      cases r <;> simp [sortRole] at this
    · rfl
  refine ⟨⟨u, v, r, e, hr, ?_⟩, hb⟩
  rw [hb, Bool.xor_false]
  exact Lets.of_forall fun x hx => hu x (mem_reverse.1 hx)

lemma passes_of_pastHad (hd : Dealt n lanes l) {k : Gate} (hk : blocked.find? w = some k)
    (h : PastHad l w k g) : Passes l w g (isBehind blocked w g) ∧ isBehind blocked w g := by
  obtain ⟨u, u', v, r, e, hop, hr, hu', hu⟩ := h
  have hlt : k.index < g.index := by
    have hp : Precedes (deal l w) k g := by rw [e]; simp
    exact pairwise_iff_forall_sublist.1 hd.ascending (Sublist.trans hp filter_sublist)
  have hb : isBehind blocked w g := by simp [isBehind, hk, hlt]
  refine ⟨⟨u ++ k :: u', v, r, by simp [e], hr, ?_⟩, hb⟩
  rw [hb, reverse_append, reverse_cons, append_assoc, Bool.xor_true]
  exact (Lets.of_forall fun x hx => hu' x (mem_reverse.1 hx)).append (.had hop (Lets.of_forall fun x hx => hu x (mem_reverse.1 hx)))

lemma exists_link (hg : g.IsLaid n) (hl : g.isLinked) : ∃ rt rc, g.role g.target = sortRole rt ∧
    g.role g.control = sortRole rc ∧ of g.op.motion = link g.target g.control rt rc ∧
    OnWire n g.target ∧ OnWire n g.control ∧ g.target ≠ g.control ∧ g.isHad = false := by
  obtain ⟨op, i⟩ := g
  cases op with
  | pair k c t =>
    obtain ⟨hk, hc, ht, hct⟩ := hg
    rcases hk with rfl | rfl
    · refine ⟨true, false, ?_, ?_, ?_, ht, hc, hct.symm, rfl⟩
      · simp [Gate.role, role, Gate.target, target?, hct.symm, sortRole]
      · simp [Gate.role, role, Gate.control, control?, sortRole]
      · exact (link_cnot_swap hct.symm).symm
    refine ⟨false, false, ?_, ?_, ?_, ht, hc, hct.symm, rfl⟩
    · simp [Gate.role, role, Gate.target, target?, sortRole]
    · simp [Gate.role, role, Gate.control, control?, sortRole]
    · exact (cz_comm c t).trans (link_cz t c).symm
  | _ => cases hl

lemma movedThrough_yields (hg : g.IsLaid n) (hl : g.isLinked) {rt rc : Bool}
    (hrt : g.role g.target = sortRole rt) (hrc : g.role g.control = sortRole rc)
    (hb : isBehind blocked g.target g ∨ isBehind blocked g.control g)
    (hs : g.isCnot ∨ isBehind blocked g.target g = false ∨ isBehind blocked g.control g = false) :
    Yields (movedThrough blocked g) fun o => ∀ g' ∈ o, InBlock n [] g' ∧
      of g'.op.motion = link g.target g.control (xor rt (isBehind blocked g.target g)) (xor rc (isBehind blocked g.control g)) := by
  obtain ⟨op, i⟩ := g
  cases op with
  | pair k c t =>
    obtain ⟨hk, hc, ht, hct⟩ := hg
    simp only [Gate.target, target?, Gate.control, control?] at hrt hrc hb hs ⊢
    have cnot : ∀ {a b : Int}, OnWire n a → OnWire n b → a ≠ b → InBlock n [] { Gate.cnot a b with index := i } :=
      fun ha hb hab => ⟨⟨.inl rfl, ha, hb, hab⟩, rfl, .inl rfl⟩
    rcases hk with rfl | rfl
    · obtain rfl : rt := sortRole_inj (hrt.symm.trans (by simp [Gate.role, role, hct.symm, sortRole]))
      obtain rfl : rc = false := sortRole_inj (hrc.symm.trans (by simp [Gate.role, role, sortRole]))
      cases hbt : isBehind blocked t { op := .pair .cnot c t, index := i } <;>
        cases hbc : isBehind blocked c { op := .pair .cnot c t, index := i } <;>
        simp [movedThrough, Gate.target, target?, Gate.control, control?, hbt, hbc]
      · simp [hbt, hbc] at hb
      · exact .pure (by simp)
      · refine .pure fun g' hg' => ?_
        obtain rfl := Option.some.inj hg'
        refine ⟨⟨⟨.inr rfl, hc, ht, hct⟩, rfl, .inl rfl⟩, ?_⟩
        exact (cz_comm c t).trans (link_cz t c).symm
      · refine .pure fun g' hg' => ?_
        obtain rfl := Option.some.inj hg'
        exact ⟨cnot ht hc hct.symm, (link_cnot hct.symm).symm⟩
    · obtain rfl : rt = false := sortRole_inj (hrt.symm.trans (by simp [Gate.role, role, sortRole]))
      obtain rfl : rc = false := sortRole_inj (hrc.symm.trans (by simp [Gate.role, role, sortRole]))
      cases hbt : isBehind blocked t { op := .pair .cz c t, index := i } <;>
        cases hbc : isBehind blocked c { op := .pair .cz c t, index := i } <;>
        simp [movedThrough, Gate.target, target?, Gate.control, control?, hbt, hbc, hct]
      · simp [hbt, hbc] at hb
      · refine .pure fun g' hg' => ?_
        obtain rfl := Option.some.inj hg'
        exact ⟨cnot ht hc hct.symm, (link_cnot hct.symm).symm⟩
      · refine .pure fun g' hg' => ?_
        obtain rfl := Option.some.inj hg'
        exact ⟨cnot hc ht hct, (link_cnot_swap hct.symm).symm⟩
      · simp [isCnot, hbt, hbc] at hs
  | _ => cases hl

lemma courseOf_pass (hd : Dealt n lanes l) (hl : g.isLinked) {bt bc rt rc : Bool} (ht : Passes l g.target g bt)
    (hc : Passes l g.control g bc) (hrt : g.role g.target = sortRole rt) (hrc : g.role g.control = sortRole rc) :
    courseOf l = link g.target g.control (xor rt bt) (xor rc bc) * courseOf (l.erase g) := by
  obtain ⟨u, v, r, e, hr, hlets⟩ := ht
  obtain ⟨u', v', r', e', hr', hlets'⟩ := hc
  obtain rfl : r = rt := sortRole_inj (hr.symm.trans hrt)
  obtain rfl : r' = rc := sortRole_inj (hr'.symm.trans hrc)
  have hgl := mem_deal.1 (e ▸ by simp : g ∈ deal l g.target)
  obtain ⟨p, q, hpq, herase, hp, hq⟩ := hd.split e
  have hp' : deal p g.control = u' := by
    have hrole := (mem_deal.1 (e' ▸ by simp : g ∈ deal l g.control)).2
    have hn : (deal l g.control).Nodup := hd.nodup.filter _
    have e'' : deal l g.control = deal p g.control ++ g :: deal q g.control := by
      rw [hpq, deal_append, deal_cons_of_role hrole]
    rw [e'] at e'' hn
    obtain ⟨h1, h2⟩ := not_mem_of_nodup hn
    exact ((append_cons_inj_of_notMem h1 h2).1 e'').1.symm
  obtain ⟨rt', rc', h1, h2, hlink, hot, hoc, htc, -⟩ := exists_link (hd.laid g hgl.1) hl
  obtain rfl : r = rt' := sortRole_inj (hr.symm.trans h1)
  obtain rfl : r' = rc' := sortRole_inj (hr'.symm.trans h2)
  have laid : ∀ x ∈ p, x.IsLaid n := fun x hx => hd.laid x (by rw [hpq]; simp [hx])
  rw [herase, hpq, courseOf_append, courseOf_cons, hlink, ← mul_assoc,
    courseOf_mul_link laid hot hoc htc (hp.symm ▸ hlets) (hp'.symm ▸ hlets'), mul_assoc, courseOf_append]

/-- A gate that can move to the front. -/
structure Movable (n : ℕ) (l : List Gate) (blocked : Table Int Gate) (g : Gate) : Prop where
  laid : g.IsLaid n
  linked : g.isLinked
  target : Passes l g.target g (isBehind blocked g.target g)
  control : Passes l g.control g (isBehind blocked g.control g)
  behind : isBehind blocked g.target g ∨ isBehind blocked g.control g
  single : g.isCnot ∨ isBehind blocked g.target g = false ∨ isBehind blocked g.control g = false

lemma moveAll_yields (hnd : gs.Nodup) (hd : Dealt n lanes l) (h : ∀ g ∈ gs, Movable n l blocked g) (moved : List Gate) :
    Yields (moveAll blocked gs lanes moved) fun r => ∃ l' new, TakenOff n l new r.1 l' ∧ r.2 = moved.reverse ++ new ∧
      l'.length + new.length = l.length := by
  induction gs generalizing lanes l moved with
  | nil => exact .pure ⟨l, [], .refl hd, by simp, rfl⟩
  | cons g gs ih =>
    obtain ⟨hgn, hnd⟩ := nodup_cons.1 hnd
    have hg := h g (by simp)
    obtain ⟨rt, rc, hrt, hrc, -, -, -, -, hh⟩ := exists_link hg.laid hg.linked
    refine (movedThrough_yields hg.laid hg.linked hrt hrc hg.behind hg.single).bind fun o ho => ?_
    cases o with
    | none => exact ih hnd hd (forall_mem_cons.1 h).2 moved
    | some g' =>
      obtain ⟨hg', hlink⟩ := ho g' rfl
      have hgl : g ∈ l := by
        obtain ⟨u, v, r, e, -⟩ := hg.target
        exact (mem_deal.1 (e ▸ by simp : g ∈ deal l g.target)).1
      obtain ⟨lanes2, e, h2⟩ := hd.remove_two hgl hg.linked
      cases e1 : lanes.remove g.target g with
      | error s => simp [e1, Bind.bind, Except.bind] at e
      | ok lanes1 => ?_
      rw [e1] at e
      refine .bind (.lift rfl rfl) fun _ er => er ▸ .bind (.lift e rfl) fun _ er => er ▸ ?_
      refine (ih hnd h2 (fun k hk => ?_) (g' :: moved)).mono fun r hr => ?_
      · have hk' := h k (by simp [hk])
        have hne : g ≠ k := fun e => hgn (e ▸ hk)
        exact ⟨hk'.laid, hk'.linked, hk'.target.erase hd.nodup hne hh, hk'.control.erase hd.nodup hne hh, hk'.behind, hk'.single⟩
      obtain ⟨l', new, hnew, e, hlen⟩ := hr
      have linked : g'.isLinked := hg'.2.2.resolve_right (by simp)
      have first := TakenOff.one h2 hgl ⟨hg'.1, hg'.2.1, .inl linked⟩ (by rw [weight_of_isLinked linked]; exact Nat.zero_le _)
        (by rw [courseOf_pass hd hg.linked hg.target hg.control hrt hrc, hlink])
      refine ⟨l', g' :: new, first.trans hnew, by simp [e], ?_⟩
      have := length_erase_add_one hgl
      rw [length_cons]
      omega

lemma courseOf_double (hd : Dealt n lanes l) {a b : Gate} (e : deal l w = u ++ a :: b :: v)
    (ha : a.op = .had w) (hb : b.op = .had w) : courseOf ((l.erase a).erase b) = courseOf l := by
  obtain ⟨p, q, rfl, he, hp, hq⟩ := hd.split e
  obtain ⟨m, q, rfl, hm, hq, -⟩ := exists_of_deal_eq (u := []) hq
  have hn := hd.nodup.erase a
  have laid : ∀ x ∈ m, x.IsLaid n := fun x hx => hd.laid x (by simp [hx])
  have hla : a.IsLaid n := hd.laid a (by simp)
  have hc : Commute (courseOf m) (of a.op.motion) := commute_courseOf hla laid fun x hx v hv => by
    have hx' := role_absent_of_deal_eq_nil hm x hx
    have hv' := hv.2.1
    rw [role_of_op_had ha] at hv'
    split at hv'
    · rename_i h
      exact hv.1 (h ▸ hx')
    · exact hv' rfl
  have hab : of a.op.motion * of b.op.motion = 1 := by
    rw [ha, hb]
    exact h_mul_h w
  rw [he, ← append_assoc] at hn ⊢
  rw [erase_middle hn]
  calc courseOf (p ++ m ++ q) = courseOf p * (courseOf m * (of a.op.motion * of b.op.motion)) * courseOf q := by
        rw [hab, mul_one, courseOf_append, courseOf_append]
    _ = courseOf p * (courseOf m * of a.op.motion * of b.op.motion) * courseOf q := by rw [mul_assoc (courseOf m)]
    _ = courseOf (p ++ a :: (m ++ b :: q)) := by
        rw [hc.eq, courseOf_append, courseOf_cons, courseOf_append]
        simp [mul_assoc]

lemma eq_of_role_had {v : Int} (hop : g.op = .had w) (hr : g.role v ≠ .absent) : v = w := by
  rw [role_of_op_had hop] at hr
  by_contra h
  simp [h] at hr

section

variable (hd : Dealt n lanes l) (hf : Found l (fun _ _ => True) f)
include hd hf

lemma movable_of_found (hb : Behind.Is l f.blocked (.candidates gs)) : ∀ g ∈ gs, Movable n l f.blocked g := by
  intro g hg
  obtain ⟨hgl, hlink, ⟨w, k, hk, hp⟩, hone, hall⟩ := hb.found g hg
  have laid := hd.laid g hgl
  have wires := laid.role_ne_absent_iff
  simp only [hlink, true_and] at wires
  have pass : ∀ v, g.role v ≠ .absent → Passes l v g (isBehind f.blocked v g) := fun v hv => by
    rcases hall v hv with ho | ⟨k, hk, hp⟩
    · exact (passes_of_open hd hf ho).1
    · exact (passes_of_pastHad hd hk hp).1
  have hbehind := (passes_of_pastHad hd hk hp).2
  refine ⟨laid, hlink, pass _ ((wires _).2 (.inl rfl)), pass _ ((wires _).2 (.inr rfl)), ?_, hone.imp_right fun ⟨v, hv⟩ => ?_⟩
  · rcases (wires w).1 hp.mem.2 with rfl | rfl
    · exact .inl hbehind
    · exact .inr hbehind
  · rcases (wires v).1 hv.mem.2 with rfl | rfl
    · exact .inl (passes_of_open hd hf hv).2
    · exact .inr (passes_of_open hd hf hv).2

lemma isHad_of_free (hg : g ∈ f.free) : g.isHad = false := by
  obtain ⟨hgl, hop⟩ := hf.free g hg
  obtain ⟨w, hw⟩ := (hd.laid g hgl).exists_role
  obtain ⟨u, v, r, -, hr, -⟩ := (hop w hw).1
  by_contra hh
  have := (isHad_iff (hd.laid g hgl) hw).1 (by simpa using hh)
  rw [role_of_op_had this] at hr
  cases r <;> simp [sortRole] at hr

end

lemma collect_yields (fuel : Nat) : ∀ {lanes : Lanes} {l l0 block : List Gate}, l.length < fuel → TakenOff n l0 block lanes l →
    Yields (collect fuel lanes block) fun r => ∃ l', TakenOff n l0 r.2 r.1 l' := by
  induction fuel with
  | zero => exact fun h _ => absurd h (Nat.not_lt_zero _)
  | succ fuel ih =>
    intro lanes l l0 block hfuel ht
    have hd := ht.dealt
    refine (Yields.makes (lookAtFront_makes hd)).bind fun f hf => ?_
    by_cases hfree : f.free.isEmpty
    · simp only [hfree, Bool.not_true, Bool.false_eq_true]
      have hentry : ∀ b ∈ f.blocked, f.blocked.find? b.1 = some b.2 := fun b hb => Table.find?_of_mem hf.keys hb
      refine (Yields.makes (lookBehindAll_makes hd hf f.blocked (fun _ => False) [] hf.keys (fun _ _ => id) hentry
        ⟨fun i hi => ?_, by simp, nodup_nil⟩)).bind fun b hb => ?_
      · obtain ⟨g, hg, e, w, -, ho⟩ := hf.reached i hi
        exact ⟨g, hg, e, w, .inl ho⟩
      cases b with
      | double w a b =>
        obtain ⟨u, v, e, ha, hb⟩ := hb
        have hal := (mem_deal.1 (e ▸ by simp : a ∈ deal l w)).1
        have hbl := (mem_deal.1 (e ▸ by simp : b ∈ deal l w)).1
        have hn : (u ++ a :: b :: v).Nodup := e ▸ hd.nodup.filter _
        have hab : b ≠ a := fun e => (nodup_cons.1 (nodup_append.1 hn).2.1).1 (by simp [e])
        have hbl' : b ∈ l.erase a := (mem_erase_of_ne hab).2 hbl
        refine (Yields.makes (hd.remove_one hal fun v => eq_of_role_had ha)).bind fun lanes1 h1 => ?_
        refine (Yields.makes (h1.remove_one hbl' fun v => eq_of_role_had hb)).bind fun lanes2 h2 => ?_
        have two : TakenOff n l [] lanes2 ((l.erase a).erase b) := by
          refine ⟨h2, fun x hx => mem_of_mem_erase (mem_of_mem_erase hx), by simp, by simp [courseOf_double hd e ha hb], ?_⟩
          rw [weightOf_erase hal, weightOf_erase hbl', weightOf_nil]
          omega
        refine ih ?_ (append_nil block ▸ ht.trans two)
        have := length_erase_add_one hal
        have := length_erase_add_one hbl'
        omega
      | candidates gs =>
        refine (moveAll_yields hb.nodup hd (movable_of_found hd hf hb) []).bind fun r hr => ?_
        obtain ⟨lanes', moved⟩ := r
        obtain ⟨l', new, hnew, e, hlen⟩ := hr
        subst e
        split
        · rename_i he
          obtain rfl := isEmpty_iff.1 he
          exact .pure ⟨l', append_nil block ▸ ht.trans hnew⟩
        · rename_i he
          have := length_pos_iff.2 (mt isEmpty_iff.2 he)
          exact ih (by omega) (ht.trans hnew)
    · have hfree' : f.free.isEmpty = false := by simpa using hfree
      simp only [hfree', Bool.not_false]
      refine (Yields.makes (takeFree_makes hd (fun g hg => ⟨(hf.free g hg).1, isHad_of_free hd hf hg⟩) hf.nodup fun g hg =>
        first_of_open hd fun w hw => ((hf.free g hg).2 w hw).1)).bind fun lanes' h' => ?_
      obtain ⟨l', hl', hlen⟩ := h'
      have := length_pos_iff.2 (mt isEmpty_iff.2 hfree)
      exact ih (by omega) (ht.trans hl')

/-! ## The Hadamards at the heads -/

def afterHad (gs : List Gate) : List Gate :=
  match gs with
  | g :: rest => if g.isHad then rest else g :: rest
  | [] => []

def headHad (gs : List Gate) : Option Gate :=
  match gs with
  | g :: _ => if g.isHad then some g else none
  | [] => none

lemma headHad_eq_some {g : Gate} : headHad gs = some g ↔ ∃ rest, gs = g :: rest ∧ g.isHad := by
  cases gs with
  | nil => simp [headHad]
  | cons k gs =>
    by_cases hk : k.isHad
    · simp only [headHad, hk, if_true, Option.some.injEq]
      constructor
      · rintro rfl
        exact ⟨gs, rfl, hk⟩
      · rintro ⟨rest, e, -⟩
        exact (cons.inj e).1
    simp only [headHad, hk, if_false, reduceCtorEq, false_iff]
    rintro ⟨_, e, h⟩
    rw [(cons.inj e).1] at hk
    exact hk h

lemma mem_lanes (hd : Dealt n lanes l) : g ∈ lanes.toList.flatten ↔ g ∈ l := by
  rw [hd.shows.toList_eq, ← flatMap_def, mem_flatMap]
  constructor
  · rintro ⟨i, -, hg⟩
    exact (mem_deal.1 hg).1
  intro hg
  have hw := (hd.laid g hg).onWire_target
  obtain ⟨i, hi⟩ := Int.eq_ofNat_of_zero_le hw.1
  refine ⟨i, mem_range.2 (by have := hw.2; omega), ?_⟩
  rw [← hi]
  exact mem_deal.2 ⟨hg, ((hd.laid g hg).role_ne_absent_iff _).2 (.inl rfl)⟩

lemma length_le_load (hd : Dealt n lanes l) : l.length ≤ lanes.load := (hd.nodup.subperm fun _ hg => (mem_lanes hd).2 hg).length_le

lemma afterHad_eq_filter (hn : gs.Nodup) : afterHad gs = gs.filter fun x => decide (headHad gs ≠ some x) := by
  cases gs with
  | nil => rfl
  | cons g rest =>
    have hgr := (nodup_cons.1 hn).1
    by_cases hh : g.isHad
    · have hg : ∀ x ∈ rest, x ≠ g := fun x hx e => hgr (e ▸ hx)
      simp only [afterHad, headHad, hh]
      rw [filter_cons_of_neg (by simp)]
      exact (filter_eq_self.2 fun x hx => by simpa using (hg x hx).symm).symm
    · simp only [afterHad, headHad, hh, Bool.false_eq_true]
      exact (filter_eq_self.2 fun x hx => by simp).symm

def heads (n : ℕ) (l : List Gate) : List Gate := (range n).filterMap fun (i : Nat) => headHad (deal l i)

lemma takeHadamards_heads (hd : Dealt n lanes l) : (takeHadamards lanes).2 = heads n l := by
  have : (takeHadamards lanes).2 = lanes.toList.filterMap headHad := rfl
  rw [this, hd.shows.toList_eq, filterMap_map]
  rfl

lemma mem_heads : g ∈ heads n l ↔ ∃ i : Nat, i < n ∧ headHad (deal l i) = some g := by
  rw [heads]
  simp

variable (hd : Dealt n lanes l)
include hd

lemma facts_of_headHad (h : headHad (deal l w) = some g) : g ∈ l ∧ g.op = .had w ∧ g.isHad ∧ ∃ rest, deal l w = g :: rest := by
  obtain ⟨rest, e, hh⟩ := headHad_eq_some.1 h
  have hgl := mem_deal.1 (e ▸ by simp : g ∈ deal l w)
  exact ⟨hgl.1, (isHad_iff (hd.laid g hgl.1) hgl.2).1 hh, hh, rest, e⟩

lemma nodup_heads : (heads n l).Nodup := by
  refine nodup_range.filterMap fun i j g hi hj => ?_
  have h1 := (facts_of_headHad hd hi).2.1
  have h2 := (facts_of_headHad hd hj).2.1
  rw [h1] at h2
  simpa using h2

lemma mem_heads_iff (hg : g ∈ deal l w) : g ∈ heads n l ↔ headHad (deal l w) = some g := by
  have hw := hd.mem_deal_onWire hg
  constructor
  · intro hm
    obtain ⟨i, -, hi⟩ := mem_heads.1 hm
    rw [eq_of_role_had (facts_of_headHad hd hi).2.1 (mem_deal.1 hg).2]
    exact hi
  · intro hh
    refine mem_heads.2 ⟨w.toNat, by have := hw.2; have := hw.1; omega, ?_⟩
    rwa [Int.toNat_of_nonneg hw.1]

lemma first_of_mem_heads (hg : g ∈ heads n l) : First l g := by
  intro w x hc hp
  obtain ⟨i, -, hi⟩ := mem_heads.1 hg
  obtain ⟨hgl, hop, -, rest, e⟩ := facts_of_headHad hd hi
  obtain rfl := eq_of_role_had hop hc.2.1
  have : x ∈ ([] : List Gate) := Precedes.mem_of_nodup (e ▸ (hd.nodup.filter _ : (deal l i).Nodup)) (e ▸ precedes_deal hp hc.1 hc.2.1)
  cases this

lemma shows_takeHadamards : Shows n (takeHadamards lanes).1 (deal (l.filter fun x => decide (x ∉ heads n l))) := by
  refine ⟨by simp [takeHadamards, hd.shows.size], ?_⟩
  funext w
  by_cases hw : OnWire n w
  · have hsz : w.toNat < lanes.size := by have := hd.shows.size; have := hw.1; have := hw.2; omega
    have hlane : lanes[w.toNat] = deal l w := by
      have := congrFun hd.shows.val w
      simpa [val, not_lt.2 hw.1, hsz] using this
    have hval : val (takeHadamards lanes).1 w = afterHad (deal l w) := by
      simp only [takeHadamards, val, if_neg (not_lt.2 hw.1), Array.getElem?_map, Array.getElem?_eq_getElem hsz, Option.map_some, hlane]
      cases deal l w <;> rfl
    have hleft : deal (l.filter fun x => decide (x ∉ heads n l)) w = (deal l w).filter fun x => decide (headHad (deal l w) ≠ some x) := by
      rw [deal, deal, filter_filter, filter_filter]
      refine filter_congr fun x hx => ?_
      by_cases hr : x.role w = .absent
      · simp [hr]
      have := mem_heads_iff hd (mem_deal.2 ⟨hx, hr⟩)
      rw [deal] at this
      simp [hr, this]
    have hnd : (deal l w).Nodup := hd.nodup.filter _
    rw [hval, hleft, afterHad_eq_filter hnd]
  · rw [val_of_not_onWire (by simpa [takeHadamards, hd.shows.size] using hw)]
    refine (eq_nil_iff_forall_not_mem.2 fun x hx => hw ?_).symm
    exact (hd.laid x (mem_of_mem_filter (mem_deal.1 hx).1)).onWire (mem_deal.1 hx).2

lemma takeHadamards_spec : ∃ l', Dealt n (takeHadamards lanes).1 l' ∧ l'.Sublist l ∧
    (∀ g ∈ (takeHadamards lanes).2, g ∈ l ∧ g.isHad) ∧ courseOf l = courseOf (takeHadamards lanes).2 * courseOf l' ∧
    weightOf l' ≤ weightOf l := by
  have facts : ∀ g ∈ heads n l, g ∈ l ∧ g.isHad := fun g hg => by
    obtain ⟨i, -, hi⟩ := mem_heads.1 hg
    exact ⟨(facts_of_headHad hd hi).1, (facts_of_headHad hd hi).2.2.1⟩
  rw [takeHadamards_heads hd]
  exact ⟨l.filter fun x => decide (x ∉ heads n l), ⟨shows_takeHadamards hd, fun g hg => hd.laid g (mem_of_mem_filter hg),
    hd.ascending.sublist filter_sublist⟩, filter_sublist, facts,
    courseOf_take hd.nodup hd.laid (fun g hg => (facts g hg).1) (nodup_heads hd) fun g hg => first_of_mem_heads hd hg,
    (filter_sublist.map _).sum_le_sum fun _ _ => Nat.zero_le _⟩

end Consume

/-- **What is consumed comes first.**  The gates of the lanes are the block, then the Hadamards, then what is left. -/
theorem consume_yields {n : ℕ} {lanes : Lanes} {l : List Gate} (hd : Dealt n lanes l) :
    Yields (consume lanes) fun r => ∃ l', Dealt n r.1 l' ∧ (∀ x ∈ l', x ∈ l) ∧ (∀ g ∈ r.2.1, Consume.InBlock n l g) ∧
      (∀ g ∈ r.2.2, g ∈ l ∧ g.isHad) ∧ courseOf l = courseOf r.2.1 * courseOf r.2.2 * courseOf l' ∧
      weightOf r.2.1 + weightOf l' ≤ weightOf l := by
  refine (Consume.collect_yields (lanes.load + 1) (Nat.lt_succ_of_le (Consume.length_le_load hd)) (.refl hd)).bind fun r hr => ?_
  obtain ⟨l', ht⟩ := hr
  obtain ⟨l'', hd'', hsub', hhads, hc', hw⟩ := Consume.takeHadamards_spec ht.dealt
  refine .pure ⟨l'', hd'', fun x hx => ht.mem x (hsub'.subset hx), ht.block, fun g hg => ⟨ht.mem g (hhads g hg).1, (hhads g hg).2⟩,
    (ht.course.trans (congrArg _ hc')).trans (mul_assoc _ _ _).symm, ?_⟩
  have := ht.weight
  dsimp only at this ⊢
  omega

end ZXCircuits
