/-
  Gates that can be taken from the front of lanes.

  Lanes hold a list of gates with ascending serial numbers if each of them is the list dealt to its wire (`Dealt`).  On each of its
  wires a gate can be open, with only gates of its own sort before it, or behind the first Hadamard of the wire (`Open`, `PastHad`).
  The look-ups find gates that are so on all of their wires (`lookAtFront_makes`, `lookBehindAll_makes`).
-/
import ZXCircuits.Proofs.Blocks.Linking

namespace ZXCircuits

open List Function PhaseBlock

/-- Lanes that hold a list of gates with ascending serial numbers. -/
structure Dealt (n : ℕ) (lanes : Lanes) (l : List Gate) : Prop where
  shows : Shows n lanes (deal l)
  laid : ∀ g ∈ l, g.IsLaid n
  ascending : l.Pairwise fun a b => a.index < b.index

namespace Gate

variable {n : ℕ} {g : Gate}

variable (hg : g.IsLaid n)
include hg

lemma IsLaid.role_ne_absent_iff (w : Int) : g.role w ≠ .absent ↔ w = g.target ∨ (g.isLinked ∧ w = g.control) := by
  obtain ⟨op, i⟩ := g
  cases op with
  | had t => simp [target, target?, isLinked, isCz, isCnot]
  | rotation k t p =>
    have hk := hg.1
    simp [target, target?, isLinked, isCz, isCnot, hk]
  | pair k c t =>
    rcases hg.1 with rfl | rfl
    · have hct := hg.2.2.2
      by_cases h1 : w = c <;> by_cases h2 : w = t <;> simp [target, target?, control, control?, isLinked, isCnot, h2, hct.symm]
    · by_cases h1 : w = c <;> by_cases h2 : w = t <;> simp [target, target?, control, control?, isLinked, isCz, h2]
  | _ => exact hg.elim

lemma IsLaid.eq_or_eq {v w w' : Int} (hne : w' ≠ w) (hw : g.role w ≠ .absent) (hw' : g.role w' ≠ .absent)
    (hv : g.role v ≠ .absent) : v = w ∨ v = w' := by
  rw [hg.role_ne_absent_iff] at hw hw' hv
  rcases hw with h1 | ⟨-, h1⟩ <;> rcases hw' with h2 | ⟨-, h2⟩ <;> rcases hv with h3 | ⟨-, h3⟩ <;> grind

lemma IsLaid.onWire_target : OnWire n g.target := hg.onWire ((hg.role_ne_absent_iff _).2 (.inl rfl))

lemma IsLaid.control_ne_target (hl : g.isLinked) : g.control ≠ g.target := by
  obtain ⟨op, i⟩ := g
  cases op with
  | had t | rotation k t p => cases hl
  | pair k c t => exact hg.2.2.2
  | _ => exact hg.elim

lemma IsLaid.onTarget_eq : g.onTarget = .ok g.target := by
  obtain ⟨op, i⟩ := g
  cases op with
  | had t | rotation k t p | pair k c t => rfl
  | _ => exact hg.elim

end Gate

namespace PhaseBlock

variable {l : List Gate} {g : Gate} {w : Int}

lemma deal_erase (hl : l.Nodup) (g : Gate) (w : Int) : deal (l.erase g) w = (deal l w).erase g := by
  rw [deal, deal, hl.erase_eq_filter, (hl.filter _).erase_eq_filter, filter_filter, filter_filter]
  exact filter_congr fun x _ => Bool.and_comm _ _

end PhaseBlock

namespace Dealt

variable {n : ℕ} {lanes : Lanes} {l : List Gate} {g : Gate} {w : Int}

variable (h : Dealt n lanes l)
include h

lemma nodup : l.Nodup := h.ascending.imp fun hab e => by
  rw [e] at hab
  exact Nat.lt_irrefl _ hab

lemma eq_of_index {a b : Gate} (ha : a ∈ l) (hb : b ∈ l) (e : a.index = b.index) : a = b :=
  inj_on_of_nodup_map (pairwise_map.2 (h.ascending.imp Nat.ne_of_lt)) ha hb e

lemma same_iff (hg : g ∈ l) : ∀ k ∈ l, k.same g ↔ k = g := fun k hk =>
  ⟨fun e => h.eq_of_index hk hg (Gate.index_eq_of_same e), fun e => e ▸ (h.laid k hk).same_self⟩

lemma erase {lanes' : Lanes} (hs : Shows n lanes' fun w => (deal l w).erase g) : Dealt n lanes' (l.erase g) :=
  ⟨funext (deal_erase h.nodup g) ▸ hs, fun k hk => h.laid k (mem_of_mem_erase hk), h.ascending.sublist erase_sublist⟩

lemma mem_deal_onWire (hg : g ∈ deal l w) : OnWire n w := (h.laid g (mem_deal.1 hg).1).onWire (mem_deal.1 hg).2

section

variable (hg : g ∈ l)
include hg

lemma remove_one (hw : ∀ v, g.role v ≠ .absent → v = w) : Makes (lanes.remove w g) fun lanes' => Dealt n lanes' (l.erase g) := by
  obtain ⟨u, hu⟩ := (h.laid g hg).exists_role
  obtain rfl := hw u hu
  obtain ⟨lanes', e, hs⟩ := h.shows.removeOne ((h.laid g hg).onWire hu) (fun k hk => h.same_iff hg k (mem_deal.1 hk).1)
    fun v => mem_deal.trans ⟨fun hv => hw v hv.2, fun hv => ⟨hg, hv ▸ hu⟩⟩
  exact ⟨lanes', e, h.erase hs⟩

lemma remove_two (hl : g.isLinked) : Makes (lanes.remove g.target g >>= fun lanes => lanes.remove g.control g)
    fun lanes' => Dealt n lanes' (l.erase g) := by
  have hlaid := h.laid g hg
  have wires := hlaid.role_ne_absent_iff
  simp only [hl, true_and] at wires
  obtain ⟨lanes1, lanes2, e1, e2, hs⟩ := h.shows.removeTwo hlaid.onWire_target (hlaid.onWire ((wires _).2 (.inr rfl)))
    (hlaid.control_ne_target hl).symm (fun v k hk => h.same_iff hg k (mem_deal.1 hk).1)
    fun v => mem_deal.trans ((and_iff_right hg).trans (wires v))
  exact ⟨lanes2, by rw [e1]; exact e2, h.erase hs⟩

end

lemma split {u v : List Gate} (e : deal l w = u ++ g :: v) :
    ∃ p q, l = p ++ g :: q ∧ l.erase g = p ++ q ∧ deal p w = u ∧ deal q w = v := by
  obtain ⟨p, q, rfl, hp, hq, -⟩ := exists_of_deal_eq e
  exact ⟨p, q, rfl, erase_middle h.nodup, hp, hq⟩

end Dealt

end ZXCircuits

namespace ZXCircuits.Consume

open List Function PhaseBlock Gate Table

variable {n : ℕ} {lanes : Lanes} {l : List Gate} {g : Gate} {w : Int} {f : Front} {seen seen' : Int → Gate → Prop} {k : Gate}
  {blocked : Table Int Gate}

/-- Only gates of its own sort are before a gate on a wire. -/
def Open (l : List Gate) (w : Int) (g : Gate) : Prop :=
  ∃ u v r, deal l w = u ++ g :: v ∧ g.role w = Gate.sortRole r ∧ ∀ x ∈ u, x.role w = Gate.sortRole r

/-- A gate is behind a Hadamard on a wire, with gates of its own sort between them and only gates of the other sort before
    the Hadamard. -/
def PastHad (l : List Gate) (w : Int) (k g : Gate) : Prop :=
  ∃ u u' v r, deal l w = u ++ k :: (u' ++ g :: v) ∧ k.op = .had w ∧ g.role w = Gate.sortRole r ∧
    (∀ x ∈ u', x.role w = Gate.sortRole r) ∧ ∀ x ∈ u, x.role w = Gate.sortRole (!r)

def isX : Axis → Bool
  | .z => false
  | .x => true

/-! ## Gates as the look-ups tell them apart -/

section

variable (hg : g.IsLaid n) (hw : g.role w ≠ .absent)
include hg hw

lemma isHad_iff : g.isHad ↔ g.op = .had w := by
  rcases hg.shape hw with ⟨i, rfl⟩ | ⟨k, p, i, rfl, -⟩ | ⟨t, i, rfl, -⟩ | ⟨c, i, rfl, -⟩ | ⟨c, t, i, rfl, -⟩ <;> simp [isHad]

lemma exists_sort (hh : g.isHad = false) : ∃ r, g.role w = sortRole r := by
  rcases hg.shape hw with ⟨i, rfl⟩ | ⟨k, p, i, rfl, hk⟩ | ⟨t, i, rfl, -⟩ | ⟨c, i, rfl, hcw⟩ | ⟨c, t, i, rfl, hct⟩
  · cases hh
  · exact ⟨false, by simp [hk, sortRole]⟩
  · exact ⟨false, by simp [sortRole]⟩
  · exact ⟨true, by simp [hcw.symm, sortRole]⟩
  · exact ⟨false, by simp [hct, sortRole]⟩

lemma isZOn_eq (hh : g.isHad = false) : isZOn g w = .ok (decide (g.role w = .z)) := by
  rcases hg.shape hw with ⟨i, rfl⟩ | ⟨k, p, i, rfl, hk⟩ | ⟨t, i, rfl, -⟩ | ⟨c, i, rfl, hcw⟩ | ⟨c, t, i, rfl, hct⟩
  · cases hh
  · simp [isZOn, isZRotation, hk, pure, Except.pure]
  · simp [isZOn, onControl, control?, bind, Except.bind, pure, Except.pure]
  · simp [isZOn, isZRotation, isCz, onControl, control?, hcw, hcw.symm, bind, Except.bind, pure, Except.pure]
  · simp [isZOn, isCz, hct, pure, Except.pure]

end

lemma sortRole_inj {r s : Bool} (h : sortRole r = sortRole s) : r = s := by
  cases r <;> cases s <;> simp [sortRole] at h ⊢

section

variable (hg : g.IsLaid n) (hw : g.role w ≠ .absent) (sort : Axis) (rest : List Gate)
include hg hw sort rest

lemma lookAlong_cons (f : Front) : lookAlong w sort (g :: rest) f =
      if g.isHad then .ok { f with blocked := insert f.blocked w g }
      else if g.role w = sortRole (isX sort) then
        lookAlong w sort rest (if g.isLinked then f.meet g else { f with free := f.free ++ [g] })
      else .ok f := by
  rcases hg.shape hw with ⟨i, rfl⟩ | ⟨k, p, i, rfl, hk⟩ | ⟨t, i, rfl, hwt⟩ | ⟨c, i, rfl, hcw⟩ | ⟨c, t, i, rfl, hct⟩
  · rfl
  · cases sort <;> simp [lookAlong, isZRotation, hk, isX, sortRole, isLinked, isCnot, pure, Except.pure]
  · cases sort <;> simp [lookAlong, isZRotation, isCz, onTarget, onControl, target?,
      control?, isX, sortRole, isLinked, isCnot, bind, Except.bind, pure, Except.pure, hwt.symm]
  · cases sort <;> simp [lookAlong, isZRotation, isCz, onTarget, onControl, target?,
      control?, isX, sortRole, isLinked, isCnot, bind, Except.bind, pure, Except.pure, hcw, hcw.symm]
  · cases sort <;> simp [lookAlong, isCz, isX, sortRole, isLinked, hct, pure, Except.pure]

lemma lookBehind_cons (reached : List Nat) (found : List Gate) : lookBehind w sort (g :: rest) reached found =
      if g.isHad = false ∧ g.role w = sortRole (isX sort) then
        if g.isLinked = false then lookBehind w sort rest reached found
        else if reached.contains g.index then lookBehind w sort rest reached (if g.isIn found then found else found ++ [g])
        else lookBehind w sort rest (if g.isCnot then reached ++ [g.index] else reached) found
      else .ok (reached, found) := by
  by_cases hh : g.isHad
  · simp [lookBehind, hh, pure, Except.pure]
  have hh' : g.isHad = false := by simpa using hh
  obtain ⟨r, hr⟩ := exists_sort hg hw hh'
  have hz := isZOn_eq hg hw hh'
  rw [lookBehind]
  by_cases hl : g.isZRotation
  · have hlink : g.isLinked = false := by
      obtain ⟨op, i⟩ := g
      cases op <;> simp_all [isZRotation, isLinked, isCz, isCnot]
    have hrz : g.role w = .z := by simpa [isZOn, hl, pure, Except.pure] using hz.symm
    cases sort <;> simp [hh', hl, hlink, hrz, isX, sortRole, pure, Except.pure]
  have hlink : g.isLinked := by
    obtain ⟨op, i⟩ := g
    cases op with
    | had t => cases hh'
    | rotation k t p => exact absurd hg.1 (by simpa [isZRotation] using hl)
    | pair k c t => rcases hg.1 with rfl | rfl <;> rfl
    | _ => exact hg.elim
  cases sort <;> cases r <;> simp [hh', hl, hlink, hz, hr, isX, sortRole, bind, Except.bind, pure, Except.pure]

end

/-! ## The front -/

/-- What a look at the front knows: free gates are open on all of their wires, gates that were reached are open on a wire where
    they were seen, and only gates of one sort are before the first Hadamard of a wire. -/
structure Found (l : List Gate) (seen : Int → Gate → Prop) (f : Front) : Prop where
  free : ∀ g ∈ f.free, g ∈ l ∧ ∀ w, g.role w ≠ .absent → Open l w g ∧ seen w g
  reached : ∀ i ∈ f.reached, ∃ g ∈ l, g.index = i ∧ ∃ w, seen w g ∧ Open l w g
  blocked : ∀ w k, f.blocked.find? w = some k → ∃ u v, deal l w = u ++ k :: v ∧ k.op = .had w ∧
    ∀ x ∈ u, ∃ s, f.sorts.find? w = some s ∧ x.role w = Gate.sortRole (isX s)
  known : ∀ w k, f.blocked.find? w = some k → seen w k
  keys : (Table.keys f.blocked).Nodup
  nodup : f.free.Nodup

lemma Found.mono {seen t : Int → Gate → Prop} (h : Found l seen f) (hs : ∀ w g, seen w g → t w g) : Found l t f where
  free g hg := ⟨(h.free g hg).1, fun w hw => ((h.free g hg).2 w hw).imp_right (hs w g)⟩
  reached i hi := by
    obtain ⟨g, hg, e, w, hw, ho⟩ := h.reached i hi
    exact ⟨g, hg, e, w, hs w g hw, ho⟩
  blocked := h.blocked
  known w k hk := hs w k (h.known w k hk)
  keys := h.keys
  nodup := h.nodup

lemma Found.block {seen : Int → Gate → Prop} (h : Found l seen f) {u v : List Gate} (e : deal l w = u ++ g :: v)
    (hop : g.op = .had w) (hu : ∀ x ∈ u, ∃ s, f.sorts.find? w = some s ∧ x.role w = sortRole (isX s)) (hs : seen w g) :
    Found l seen { f with blocked := insert f.blocked w g } := by
  refine ⟨h.free, h.reached, fun v k hk => ?_, fun v k hk => ?_, nodup_insert h.keys w g, h.nodup⟩ <;>
    obtain ⟨rfl, rfl⟩ | hk := find?_insert_eq_some _ hk
  · exact ⟨u, _, e, hop, hu⟩
  · exact h.blocked v k hk
  · exact hs
  · exact h.known v k hk

lemma Open.mem (h : Open l w g) : g ∈ l ∧ g.role w ≠ .absent := by
  obtain ⟨u, v, r, e, -⟩ := h
  exact mem_deal.1 (e ▸ by simp : g ∈ deal l w)

lemma Found.release (h : Found l seen f) (hs : ∀ w g, seen w g → seen' w g) (hg : g ∈ l) (hw : g.role w ≠ .absent)
    (fresh : ¬ seen w g) (ho : ∀ v, g.role v ≠ .absent → Open l v g ∧ seen' v g) : Found l seen' { f with free := f.free ++ [g] } := by
  refine ⟨forall_mem_append.2 ⟨(h.mono hs).free, forall_mem_singleton.2 ⟨hg, ho⟩⟩, (h.mono hs).reached, h.blocked, (h.mono hs).known,
    h.keys, nodup_append.2 ⟨h.nodup, nodup_singleton g, fun k hk k' hk' e => fresh ?_⟩⟩
  obtain rfl := mem_singleton.1 hk'
  exact ((h.free k' (e ▸ hk)).2 w hw).2

lemma Found.meet (hd : Dealt n lanes l) (h : Found l seen f) (ho : Open l w g)
    (fresh : ¬ seen w g) (hs : ∀ w g, seen w g → seen' w g) (hw : seen' w g) : Found l seen' (f.meet g) := by
  rw [Front.meet]
  split
  · rename_i hc
    refine h.release hs ho.mem.1 ho.mem.2 fresh fun v hv => ?_
    obtain ⟨k', hk', e, w', hw', ho'⟩ := h.reached g.index (by simpa using hc)
    obtain rfl := hd.eq_of_index hk' ho.mem.1 e
    have hne : w' ≠ w := fun e => fresh (e ▸ hw')
    rcases (hd.laid k' hk').eq_or_eq hne ho.mem.2 ho'.mem.2 hv with rfl | rfl
    · exact ⟨ho, hw⟩
    · exact ⟨ho', hs _ _ hw'⟩
  refine ⟨(h.mono hs).free, fun i hi => ?_, h.blocked, (h.mono hs).known, h.keys, h.nodup⟩
  rcases mem_append.1 hi with hi | hi
  · exact (h.mono hs).reached i hi
  · exact ⟨g, ho.mem.1, (mem_singleton.1 hi).symm, w, hw, ho⟩

lemma seen_concat {done : Int → Prop} {u : List Gate} (v : Int) (k : Gate) (h : done v ∨ v = w ∧ k ∈ u) : done v ∨ v = w ∧ k ∈ u ++ [g] :=
  h.imp_right fun h => ⟨h.1, mem_append_left _ h.2⟩

lemma lookAlong_makes (hd : Dealt n lanes l) (done : Int → Prop) (hw : ¬ done w) (sort : Axis) (gs : List Gate) :
    ∀ {u : List Gate} {f : Front}, deal l w = u ++ gs → (∀ x ∈ u, x.role w = sortRole (isX sort)) →
      Found l (fun v g => done v ∨ v = w ∧ g ∈ u) f → f.sorts.find? w = some sort →
      Makes (lookAlong w sort gs f) (Found l fun v _ => done v ∨ v = w) := by
  induction gs with
  | nil =>
    intro u f _ _ hf _
    exact .ok (hf.mono fun v g h => h.imp_right And.left)
  | cons g gs ih =>
    intro u f e hu hf hsort
    have hg := mem_deal.1 (e ▸ by simp : g ∈ deal l w)
    have laid := hd.laid g hg.1
    rw [lookAlong_cons laid hg.2]
    have hnd : (u ++ g :: gs).Nodup := e ▸ hd.nodup.filter _
    split
    · rename_i hh
      exact .ok ((hf.mono fun v g h => h.imp_right And.left).block e ((isHad_iff laid hg.2).1 hh)
        (fun x hx => ⟨sort, hsort, hu x hx⟩) (.inr rfl))
    split
    · rename_i hr
      have ho : Open l w g := ⟨u, gs, isX sort, e, hr, hu⟩
      have e' : deal l w = (u ++ [g]) ++ gs := by rw [e, append_assoc]; rfl
      have hu' := forall_mem_append.2 ⟨hu, forall_mem_singleton.2 hr⟩
      have fresh : ¬ (done w ∨ w = w ∧ g ∈ u) := by
        rintro (h | ⟨-, h⟩)
        · exact hw h
        · exact (not_mem_of_nodup hnd).1 h
      refine ih e' hu' ?_ ?_
      · split
        · exact hf.meet hd ho fresh seen_concat (.inr ⟨rfl, by simp⟩)
        rename_i hlink
        refine hf.release seen_concat hg.1 hg.2 fresh fun v hv => ?_
        have h1 := (laid.role_ne_absent_iff v).1 hv
        have h2 := (laid.role_ne_absent_iff w).1 hg.2
        simp only [hlink, Bool.false_eq_true, false_and, or_false] at h1 h2
        rw [h1, ← h2]
        exact ⟨ho, .inr ⟨rfl, by simp⟩⟩
      split
      · rw [Front.meet]
        split <;> exact hsort
      · exact hsort
    · exact .ok (hf.mono fun v g h => h.imp_right And.left)

def frontStep (lanes : Lanes) (f : Front) (wire : Int) : Attempt Front := do
  match ← lanes.on wire with
  | [] => return f
  | g :: rest =>
    if g.isHad then return { f with blocked := Table.insert f.blocked wire g }
    let sort := if ← isZOn g wire then Axis.z else Axis.x
    let f := { f with sorts := Table.insert f.sorts wire sort }
    lookAlong wire sort (g :: rest) f

lemma lookAtFront_eq (lanes : Lanes) : lookAtFront lanes = lanes.wires.foldlM (frontStep lanes) {} := rfl

lemma lookAtFront_makes (hd : Dealt n lanes l) : Makes (lookAtFront lanes) (Found l fun _ _ => True) := by
  have hwires : lanes.wires = (List.range n).map Int.ofNat := by rw [Lanes.wires, hd.shows.size]
  have key : ∀ (ws : List Int), ws.Nodup → (∀ w ∈ ws, OnWire n w) → ∀ (done : Int → Prop) (f : Front), (∀ w ∈ ws, ¬ done w) →
      Found l (fun v _ => done v) f → Makes (ws.foldlM (frontStep lanes) f) (Found l fun _ _ => True) := by
    intro ws
    induction ws with
    | nil => exact fun _ _ done f _ hf => .pure (hf.mono fun _ _ _ => trivial)
    | cons w ws ih =>
      intro hnd hon done f hdone hf
      obtain ⟨hwn, hnd⟩ := nodup_cons.1 hnd
      refine .bind ?_ fun f' hf' =>
        ih hnd (forall_mem_cons.1 hon).2 (fun v => done v ∨ v = w) f' (fun v hv h => ?_) hf'
      · rw [frontStep, hd.shows.look (hon w (by simp))]
        cases hlane : deal l w with
        | nil => exact .pure (hf.mono fun v g h => .inl h)
        | cons g rest =>
          have hg := mem_deal.1 (hlane ▸ by simp : g ∈ deal l w)
          have laid := hd.laid g hg.1
          by_cases hh : g.isHad
          · simp only [bind, Except.bind, hh]
            exact .pure ((hf.mono fun v g h => .inl h).block (u := []) hlane ((isHad_iff laid hg.2).1 hh) (by simp) (.inr rfl))
          have hh' : g.isHad = false := by simpa using hh
          simp only [bind, Except.bind, hh', Bool.false_eq_true, isZOn_eq laid hg.2 hh']
          refine lookAlong_makes hd done (hdone w (by simp)) _ (g :: rest) (u := []) hlane (by simp) ?_ (find?_insert_self ..)
          refine ⟨(hf.mono fun v g h => .inl h).free, (hf.mono fun v g h => .inl h).reached, fun v k hk => ?_,
            fun v k hk => .inl (hf.known v k hk), hf.keys, hf.nodup⟩
          obtain ⟨a, b, h1, h2, h3⟩ := hf.blocked v k hk
          have hv : v ≠ w := fun e => hdone w (by simp) (e ▸ hf.known v k hk)
          exact ⟨a, b, h1, h2, fun x hx => by rw [find?_insert_of_ne _ hv]; exact h3 x hx⟩
      · rcases h with h | rfl
        · exact hdone v (by simp [hv]) h
        · exact hwn hv
  rw [lookAtFront_eq, hwires]
  refine key _ nodup_wires (fun w hw => mem_wires.1 hw) (fun _ => False) {} (fun _ _ => id) ?_
  exact ⟨by simp, by simp, by simp, by simp, by simp [Table.keys], by simp⟩

/-! ## Behind the first Hadamards -/

lemma after_eq {a v : List Gate} (hk : k ∉ a) (hs : ∀ x ∈ a ++ k :: v, x.same k ↔ x = k) : after k (a ++ k :: v) = .ok v := by
  induction a with
  | nil => rw [nil_append, after, if_pos ((hs k (by simp)).2 rfl)]
  | cons x a ih =>
    obtain ⟨hx, hk⟩ := not_or.1 (mt mem_cons.2 hk)
    rw [cons_append, after, if_neg fun h => hx ((hs x (by simp)).1 h).symm]
    exact ih hk fun y hy => hs y (mem_cons_of_mem _ hy)

/-- What a look behind the Hadamards knows: gates that were reached are open on a wire, or controlled nots past the
    Hadamard on a wire where they were seen, and those found are so on all of their wires and past a Hadamard on some wire. -/
structure Gathered (l : List Gate) (blocked : Table Int Gate) (seen : Int → Gate → Prop) (is : List Nat) (gs : List Gate) : Prop where
  reached : ∀ i ∈ is, ∃ g ∈ l, g.index = i ∧ ∃ w, Open l w g ∨ (seen w g ∧ g.isCnot ∧ ∃ k, blocked.find? w = some k ∧ PastHad l w k g)
  found : ∀ g ∈ gs, g ∈ l ∧ g.isLinked ∧ (∃ w k, blocked.find? w = some k ∧ PastHad l w k g) ∧
    (g.isCnot ∨ ∃ w, Open l w g) ∧ ∀ w, g.role w ≠ .absent → Open l w g ∨ ∃ k, blocked.find? w = some k ∧ PastHad l w k g
  nodup : gs.Nodup

lemma Gathered.mono {reached : List Nat} {found : List Gate}
    (h : Gathered l blocked seen reached found) (hs : ∀ w g, seen w g → seen' w g) : Gathered l blocked seen' reached found where
  reached i hi := by
    obtain ⟨g, hg, e, w, hw⟩ := h.reached i hi
    exact ⟨g, hg, e, w, hw.imp_right fun h => ⟨hs w g h.1, h.2⟩⟩
  found := h.found
  nodup := h.nodup

lemma PastHad.mem (h : PastHad l w k g) : g ∈ l ∧ g.role w ≠ .absent := by
  obtain ⟨u, u', v, r, e, -⟩ := h
  exact mem_deal.1 (e ▸ by simp : g ∈ deal l w)

lemma PastHad.not_open (hd : Dealt n lanes l) (h : PastHad l w k g) : ¬ Open l w g := by
  obtain ⟨u, u', v, r, e, hop, -⟩ := h
  rintro ⟨a, b, s, e', -, ha⟩
  have hn : (deal l w).Nodup := hd.nodup.filter _
  have hkg : Precedes (deal l w) k g := by rw [e]; simp
  rw [e'] at hkg hn
  have := ha k (hkg.mem_of_nodup hn)
  rw [role_of_op_had hop] at this
  cases s <;> simp [sortRole] at this

lemma lookBehind_makes (hd : Dealt n lanes l) (hk : blocked.find? w = some k)
    {done : Int → Prop} (hw : ¬ done w) (sort : Axis) {a : List Gate} (hop : k.op = .had w)
    (ha : ∀ x ∈ a, x.role w = sortRole (!isX sort)) (gs : List Gate) :
    ∀ {u : List Gate} {reached : List Nat} {found : List Gate}, deal l w = a ++ k :: (u ++ gs) → (∀ x ∈ u, x.role w = sortRole (isX sort)) →
      Gathered l blocked (fun v g => done v ∨ v = w ∧ g ∈ u) reached found →
      Makes (lookBehind w sort gs reached found) fun r => Gathered l blocked (fun v _ => done v ∨ v = w) r.1 r.2 := by
  induction gs with
  | nil =>
    intro u reached found _ _ hf
    exact .ok (hf.mono fun v g h => h.imp_right And.left)
  | cons g gs ih =>
    intro u reached found e hu hf
    have hg := mem_deal.1 (e ▸ by simp : g ∈ deal l w)
    have laid := hd.laid g hg.1
    rw [lookBehind_cons laid hg.2]
    split
    · rename_i hr
      have hp : PastHad l w k g := ⟨a, u, gs, isX sort, e, hop, hr.2, hu, ha⟩
      have e' : deal l w = a ++ k :: ((u ++ [g]) ++ gs) := by rw [e]; simp
      have hu' := forall_mem_append.2 ⟨hu, forall_mem_singleton.2 hr.2⟩
      split
      · exact ih e' hu' (hf.mono seen_concat)
      rename_i hlink
      split
      · rename_i hc
        refine ih e' hu' ?_
        split
        · exact hf.mono seen_concat
        rename_i hin
        have hgf : g ∉ found := fun hm => hin (any_eq_true.2 ⟨g, hm, laid.same_self⟩)
        refine ⟨(hf.mono seen_concat).reached, fun x hx => ?_, nodup_append.2 ⟨hf.nodup, nodup_singleton g, fun x hx y hy e =>
          hgf (mem_singleton.1 hy ▸ e ▸ hx)⟩⟩
        rcases mem_append.1 hx with hx | hx
        · exact hf.found x hx
        obtain rfl := mem_singleton.1 hx
        obtain ⟨x', hx', ei, w', hw'⟩ := hf.reached x.index (by simpa using hc)
        obtain rfl := hd.eq_of_index hx' hg.1 ei
        have one : x'.isCnot ∨ ∃ w, Open l w x' := hw'.symm.imp (fun h => h.2.1) fun h => ⟨w', h⟩
        refine ⟨hg.1, by simpa using hlink, ⟨w, k, hk, hp⟩, one, fun v hv => ?_⟩
        -- It was seen on its other wire.
        have hne : w' ≠ w := by
          rintro rfl
          rcases hw' with ho | ⟨h | ⟨-, h⟩, -⟩
          · exact hp.not_open hd ho
          · exact hw h
          · have hn : (a ++ k :: (u ++ x' :: gs)).Nodup := e ▸ hd.nodup.filter _
            have hn' := (nodup_cons.1 (nodup_append.1 hn).2.1).2
            exact (nodup_append.1 hn').2.2 x' h x' (by simp) rfl
        have role' : x'.role w' ≠ .absent := by
          rcases hw' with ho | ⟨-, -, k', -, ho⟩
          · exact ho.mem.2
          · exact ho.mem.2
        rcases laid.eq_or_eq hne hg.2 role' hv with rfl | rfl
        · exact .inr ⟨k, hk, hp⟩
        · exact hw'.imp_right fun h => h.2.2
      · refine ih e' hu' ⟨fun i hi => ?_, hf.found, hf.nodup⟩
        have : i ∈ reached ∨ g.isCnot ∧ i = g.index := by
          split at hi
          · rename_i hn
            simpa [hn] using hi
          · exact .inl hi
        rcases this with hi | ⟨hn, rfl⟩
        · exact (hf.mono seen_concat).reached i hi
        · exact ⟨g, hg.1, rfl, w, .inr ⟨.inr ⟨rfl, by simp⟩, hn, k, hk, hp⟩⟩
    · exact .ok (hf.mono fun v g h => h.imp_right And.left)

def Behind.Is (l : List Gate) (blocked : Table Int Gate) : Behind → Prop
  | .double w a b => ∃ u v, deal l w = u ++ a :: b :: v ∧ a.op = .had w ∧ b.op = .had w
  | .candidates gs => Gathered l blocked (fun _ _ => True) [] gs

lemma lookBehindAll_makes (hd : Dealt n lanes l) (hf : Found l (fun _ _ => True) f) (bs : Table Int Gate) :
    ∀ (done : Int → Prop) {reached : List Nat} (found : List Gate), (bs.map Prod.fst).Nodup → (∀ b ∈ bs, ¬ done b.1) →
      (∀ b ∈ bs, f.blocked.find? b.1 = some b.2) → Gathered l f.blocked (fun v _ => done v) reached found →
      Makes (lookBehindAll lanes f.sorts bs reached found) (Behind.Is l f.blocked) := by
  induction bs with
  | nil =>
    intro done reached found _ _ _ h
    exact .ok ⟨by simp, h.found, h.nodup⟩
  | cons b bs ih =>
    obtain ⟨w, k⟩ := b
    intro done reached found hnd hdone hb h
    obtain ⟨hwn, hnd⟩ := nodup_cons.1 hnd
    have hk := hb (w, k) (by simp)
    have hw := hdone (w, k) (by simp)
    obtain ⟨a, v, e, hop, ha⟩ := hf.blocked w k hk
    have hkl := (mem_deal.1 (e ▸ by simp : k ∈ deal l w)).1
    have onw : OnWire n w := hd.mem_deal_onWire (e ▸ by simp : k ∈ deal l w)
    have rest : ∀ {reached found}, Gathered l f.blocked (fun v _ => done v ∨ v = w) reached found →
        Makes (lookBehindAll lanes f.sorts bs reached found) (Behind.Is l f.blocked) := fun h' =>
      ih (fun v => done v ∨ v = w) _ hnd (fun b' hb' h => by
        rcases h with h | h
        · exact hdone b' (by simp [hb']) h
        · exact hwn (mem_map.2 ⟨b', hb', h⟩)) (fun b' hb' => hb b' (by simp [hb'])) h'
    have hn : (a ++ k :: v).Nodup := e ▸ hd.nodup.filter _
    have hka : k ∉ a := (not_mem_of_nodup hn).1
    have after : after k (deal l w) = .ok v := e ▸ after_eq hka fun x hx => hd.same_iff hkl x (mem_deal.1 (e ▸ hx)).1
    rw [lookBehindAll, hd.shows.look onw]
    refine .bind (.ok rfl) fun lane hlane => hlane ▸ .bind ⟨v, after, rfl⟩ fun v' hv' => hv' ▸ ?_
    cases v with
    | nil => exact rest (h.mono fun v g hv => .inl hv)
    | cons g gs =>
      have hg := mem_deal.1 (e ▸ by simp : g ∈ deal l w)
      have laid := hd.laid g hg.1
      by_cases hh : g.isHad
      · simp only [hh]
        exact .pure ⟨a, gs, e, hop, (isHad_iff laid hg.2).1 hh⟩
      have hh' : g.isHad = false := by simpa using hh
      simp only [bind, Except.bind, hh', Bool.false_eq_true, if_false, isZOn_eq laid hg.2 hh']
      generalize hright : (if decide (g.role w = .z) then Axis.z else Axis.x) = right
      split
      · exact rest (h.mono fun v g hv => .inl hv)
      have ha' : ∀ x ∈ a, x.role w = sortRole (!isX right) := by
        intro x hx
        obtain ⟨s, hs, hr⟩ := ha x hx
        cases s <;> cases right <;> simp_all [isX]
      refine .bind (lookBehind_makes hd hk hw right hop ha' (g :: gs) (u := []) e (by simp) (h.mono fun v g hv => .inl hv)) fun r hr => ?_
      exact rest hr

end ZXCircuits.Consume
