/-
  Taking off a layer of Hadamards keeps the course.

  A layer takes Hadamards off the heads of lanes, and controlled nots where a sign stands between two Hadamards.  The controlled nots
  come behind all Hadamards of the layer, also behind those that are found later: a wire that a controlled not is on is claimed, and no
  Hadamard is taken from a claimed wire any more.
-/
import ZXCircuits.Proofs.PhaseBlock.Dealing

namespace ZXCircuits.PhaseBlock

open List Function Gate

variable {n : ℕ} {γ : Course} {s : Layer} {l rest : List Gate} {g a b c : Gate} {w : Int} {far : Int} {lanes : Lanes}

/-- A layer being taken off: its Hadamards, its controlled nots and the gates that are left make up a course, and the controlled nots
    are on claimed wires. -/
structure Layer.Means (n : ℕ) (γ : Course) (s : Layer) (l : List Gate) : Prop where
  holds : Holds n s.lanes l
  course : courseOf s.hadamards.reverse * courseOf s.nots.reverse * courseOf l = γ
  hadamards : ∀ g ∈ s.hadamards, g.isHad
  nots : ∀ g ∈ s.nots, g.isHad = false ∧ g.IsLaid n ∧ ∀ w, g.role w ≠ .absent → w ∈ s.claimed

namespace Layer.Means

variable (h : Means n γ s l)
include h

lemma claim (w : Int) : Means n γ { s with claimed := w :: s.claimed } l :=
  ⟨h.holds, h.course, h.hadamards, fun g hg =>
    ⟨(h.nots g hg).1, (h.nots g hg).2.1, fun v hv => mem_cons_of_mem _ ((h.nots g hg).2.2 v hv)⟩⟩

lemma absent_of_not_claimed (hw : w ∉ s.claimed) : ∀ g ∈ s.nots, g.role w = .absent := by
  intro g hg
  by_contra hr
  exact hw ((h.nots g hg).2.2 w hr)

lemma takeHead (e : deal l w = g :: rest) (hg : g.isHad) (free : ∀ x ∈ s.nots, x.role w = .absent) :
    ∃ s' l', s.takeHead w = .ok s' ∧ Means n γ s' l' ∧ s'.claimed = s.claimed ∧ s'.nots = s.nots ∧
      deal l' = update (deal l) w rest ∧ l'.length < l.length := by
  have hm : g ∈ deal l w := by simp [e]
  have hw := h.holds.onWire_of_mem_deal hm
  have hd := h.holds.dealt_of_mem_deal hm
  have op := (isHad_iff_of_role hd.1 hd.2).1 hg
  obtain ⟨l', hl⟩ := leaves_had h.holds.dealt e hg
  refine ⟨{ s with lanes := PerWire.set s.lanes w rest, hadamards := g :: s.hadamards }, l', ?_,
    ⟨h.holds.leaves hl (h.holds.shows.set hw rest), ?_, ?_, h.nots⟩, rfl, rfl, hl.lanes, hl.shorter⟩
  · simp only [Layer.takeHead, h.holds.look hw, e, bind, Except.bind]
    rfl
  · -- the Hadamard passes the controlled nots, which are on other wires
    have hc : Commute (courseOf s.nots.reverse) (Course.h w) := by
      refine commute_courseOf (g := .had w) hw (fun x hx => (h.nots x (by simpa using hx)).2.1) fun x hx v => ?_
      refine not_clash_of_absent ?_
      by_cases ev : v = w
      · exact .inl (ev ▸ free x (by simpa using hx))
      · exact .inr (by simp [Gate.had, ev])
    have hh : Course.of g.op.motion = Course.h w := by
      rw [op]
      rfl
    rw [← h.course, hl.course]
    simp only [reverse_cons, courseOf_append, courseOf_cons, courseOf_nil, mul_one, hh, mul_assoc]
    rw [← mul_assoc (courseOf s.nots.reverse) (Course.h w), hc.eq, mul_assoc]
  · exact forall_mem_cons.2 ⟨hg, h.hadamards⟩

end Layer.Means

/-! ## A sign between Hadamards -/

lemma positionOf_append {u v : List Gate} {i j : Int} (hg : g.Joins i j) (hu : ∀ x ∈ u, ¬ x.Joins i j) :
    positionOf (.cz i j) (u ++ g :: v) = .ok u.length := by
  have h1 : ∀ x ∈ u, x.same (.cz i j) = false := by
    intro x hx
    rw [← Bool.not_eq_true, same_cz_iff]
    exact hu x hx
  have : (u ++ g :: v).findIdx? (·.same (.cz i j)) = some u.length := by
    rw [List.findIdx?_append, List.findIdx?_eq_none_iff.2 h1, Option.none_or, List.findIdx?_cons, if_pos (same_cz_iff.2 hg)]
    simp
  rw [positionOf, this]

lemma leaves_not (hd : ∀ x ∈ l, x.IsDealt n) (hf : OnWire n far) (hfw : far ≠ w) (e : deal l w = a :: b :: c :: rest)
    (ha : a.isHad) (hb : b.Joins w far) (hc : c.isHad) :
    ∃ u v, deal l far = u ++ b :: v ∧ (∀ x ∈ u, ¬ x.Joins far w) ∧ ((∀ x ∈ u, x.isHad = false) →
      ∃ l', Leaves l (Course.cnot far w) (update (update (deal l) w rest) far (u ++ v)) l') := by
  have first : ∀ x ∈ [a], ¬ x.Joins w far := by
    intro x hx hj
    rw [mem_singleton.1 hx] at hj
    rw [hj.not_had] at ha
    cases ha
  obtain ⟨p, q, rfl, hp, hq, ep, hn⟩ := exists_sign e hb first
  refine ⟨deal p far, deal q far, ep, fun x hx hj => hn x hx hj.symm, fun clear => ?_⟩
  have h1 := leaves_through hd hf hfw hb (by rw [hp]) ha (by simp) clear
  have e1 : deal (p ++ q) w = a :: c :: rest := by rw [deal_append, hp, hq]; rfl
  obtain ⟨l', h2⟩ := leaves_cancel (fun x hx => hd x (h1.mem x hx)) e1 ha hc
  refine ⟨l', ?_⟩
  have := h1.trans h2
  rwa [mul_one, h1.lanes, update_comm hfw, update_idem] at this

/-- Takes a Hadamard off the head of the other lane of a sign and claims that lane. -/
def Layer.openFar (s : Layer) (far : Int) : Attempt Layer := do
  match ← s.lanes.on far with
  | [] => throw .outOfRange
  | h :: _ =>
    if h.isHad then do
      let s ← s.takeHead far
      pure { s with claimed := far :: s.claimed }
    else pure s

/-- Takes off a sign between two Hadamards, if no Hadamard stands before it on its other wire; else the first Hadamard. -/
def Layer.takeSign (s : Layer) (wire far : Int) : Attempt Layer := do
  let lane ← s.lanes.on far
  let i ← positionOf (.cz far wire) lane
  if (lane.take i).any isHad then s.takeHead wire
  else do
    let gs ← s.lanes.on wire
    let lanes ← Lanes.removeAt (PerWire.set s.lanes wire (gs.drop 3)) far i
    return { s with lanes := lanes, nots := .cnot far wire :: s.nots, claimed := far :: s.claimed }

lemma Layer.takeNot_eq (hs : farEnd g w ∉ s.claimed) : s.takeNot w g = s.openFar (farEnd g w) >>= fun s => s.takeSign w (farEnd g w) := by
  unfold Layer.takeNot Layer.openFar Layer.takeSign
  simp only [contains_iff_mem, hs, if_false, bind, Except.bind]
  cases s.lanes.on (farEnd g w) with
  | error e => rfl
  | ok gs =>
    cases gs with
    | nil => rfl
    | cons k ks =>
      dsimp only
      split
      · cases s.takeHead (farEnd g w) with
        | error e => rfl
        | ok s' => rfl
      · rfl

namespace Layer.Means

variable {ws : List Int}

section

variable (h : Means n γ s l)
include h

lemma openFar (hf : OnWire n far) (ne : deal l far ≠ []) (hs : far ∉ s.claimed) (hw : w ∈ s.claimed)
    (free : ∀ x ∈ s.nots, x.role w = .absent) :
    ∃ s' l', s.openFar far = .ok s' ∧ Means n γ s' l' ∧ deal l' w = deal l w ∧ w ∈ s'.claimed ∧ (∀ x ∈ s'.nots, x.role w = .absent) ∧
      l'.length ≤ l.length := by
  have hfw : w ≠ far := fun e => hs (e ▸ hw)
  unfold Layer.openFar
  simp only [h.holds.look hf, bind, Except.bind]
  cases el : deal l far with
  | nil => exact absurd el ne
  | cons k ks =>
    dsimp only
    split
    · next hk =>
      obtain ⟨s', l', e', h', hcl, hno, lanes, short⟩ := h.takeHead el hk (h.absent_of_not_claimed hs)
      refine ⟨_, l', by rw [e']; rfl, h'.claim far, ?_, ?_, ?_, short.le⟩
      · rw [lanes, update_of_ne hfw]
      · exact mem_cons_of_mem _ (hcl ▸ hw)
      · exact fun x hx => free x (hno ▸ hx)
    · exact ⟨s, l, rfl, h, rfl, hw, free, le_rfl⟩

lemma takeSign (hf : OnWire n far) (hww : OnWire n w) (hfw : far ≠ w)
    (e : deal l w = a :: b :: c :: rest) (ha : a.isHad) (hb : b.Joins w far) (hc : c.isHad) (hw : w ∈ s.claimed)
    (free : ∀ x ∈ s.nots, x.role w = .absent) : ∃ s' l', s.takeSign w far = .ok s' ∧ Means n γ s' l' ∧ l'.length < l.length := by
  obtain ⟨u, v, ef, hu, taken⟩ := leaves_not h.holds.dealt hf hfw e ha hb hc
  have hpos := positionOf_append (v := v) hb.symm hu
  unfold Layer.takeSign
  simp only [h.holds.look hf, h.holds.look hww, ef, hpos, bind, Except.bind, take_left]
  split
  · obtain ⟨s', l', e', h', -, -, -, short⟩ := h.takeHead e ha free
    exact ⟨s', l', e', h', short⟩
  next clear =>
  rw [Bool.not_eq_true, any_eq_false] at clear
  obtain ⟨l', hl⟩ := taken fun x hx => Bool.not_eq_true _ ▸ clear x hx
  have shown := h.holds.shows.set hww rest
  obtain ⟨lanes', el, hs'⟩ := shown.removeAt hf (by rw [update_of_ne hfw, ef])
  have drop : (deal l w).drop 3 = rest := by rw [e]; rfl
  refine ⟨{ s with lanes := lanes', nots := .cnot far w :: s.nots, claimed := far :: s.claimed }, l', by rw [drop, el]; rfl,
    ⟨h.holds.leaves hl hs', ?_, h.hadamards, fun x hx => ?_⟩, hl.shorter⟩
  · rw [← h.course, hl.course]
    simp only [reverse_cons, courseOf_append, courseOf_cons, courseOf_nil, mul_one, mul_assoc]
    rfl
  rcases mem_cons.1 hx with rfl | hx
  · refine ⟨rfl, ⟨.inl rfl, hf, hww, hfw⟩, fun x hr => ?_⟩
    have : x = far ∨ x = w := by
      by_contra hne
      obtain ⟨h1, h2⟩ := not_or.1 hne
      simp [cnot, h1, h2] at hr
    rcases this with rfl | rfl
    · exact mem_cons_self
    · exact mem_cons_of_mem _ hw
  · exact ⟨(h.nots x hx).1, (h.nots x hx).2.1, fun v hv => mem_cons_of_mem _ ((h.nots x hx).2.2 v hv)⟩

lemma takeNot (e : deal l w = a :: b :: c :: rest) (ha : a.isHad) (hb : isSign b)
    (hc : c.isHad) (hw : w ∈ s.claimed) (free : ∀ x ∈ s.nots, x.role w = .absent) :
    ∃ s' l', s.takeNot w b = .ok s' ∧ Means n γ s' l' ∧ l'.length < l.length := by
  have hm : b ∈ deal l w := by simp [e]
  have hbd := h.holds.dealt_of_mem_deal hm
  have hww := h.holds.onWire_of_mem_deal hm
  obtain ⟨hj, hf, hfw⟩ : b.Joins w (farEnd b w) ∧ OnWire n (farEnd b w) ∧ farEnd b w ≠ w := by
    rcases hbd.1.kinds hbd.2 with h' | h' | h'
    · rw [h'.2.1] at hb
      cases hb
    · rw [h'.2.1] at hb
      cases hb
    · exact h'.2.2.2.2
  by_cases claimed : farEnd b w ∈ s.claimed
  · obtain ⟨s', l', e', h', -, -, -, short⟩ := h.takeHead e ha free
    refine ⟨s', l', ?_, h', short⟩
    simp only [Layer.takeNot, contains_iff_mem, claimed, if_true]
    simp [e']
  have ne : deal l (farEnd b w) ≠ [] := ne_nil_of_mem (mem_deal.2 ⟨(mem_deal.1 hm).1, by simp [hj.role]⟩)
  obtain ⟨s1, l1, e1, h1, lane1, hw1, free1, short1⟩ := h.openFar hf ne claimed hw free
  obtain ⟨s2, l2, e2, h2, short2⟩ := h1.takeSign hf hww hfw (lane1.trans e) ha hj hc hw1 free1
  refine ⟨s2, l2, ?_, h2, short2.trans_le short1⟩
  rw [Layer.takeNot_eq claimed, e1]
  exact e2

lemma visit (hw : OnWire n w) : ∃ s' l', s.visit w = .ok s' ∧ Means n γ s' l' ∧
    (s' = s ∧ l' = l ∧ (w ∉ s.claimed → ∀ k rest, deal l w = k :: rest → k.isHad = false) ∨ l'.length < l.length) := by
  by_cases claimed : w ∈ s.claimed
  · exact ⟨s, l, by simp [Layer.visit, claimed, pure, Except.pure], h, .inl ⟨rfl, rfl, fun hn => absurd claimed hn⟩⟩
  have free := h.absent_of_not_claimed claimed
  cases e : deal l w with
  | nil =>
    have stay : s.visit w = .ok s := by
      simp only [Layer.visit, contains_iff_mem, claimed, if_false, h.holds.look hw, e, bind, Except.bind]
      rfl
    exact ⟨s, l, stay, h, .inl ⟨rfl, rfl, fun _ k rest he => by cases he⟩⟩
  | cons k ks =>
    cases hk : k.isHad with
    | false =>
      have stay : s.visit w = .ok s := by
        simp only [Layer.visit, contains_iff_mem, claimed, if_false, h.holds.look hw, e, bind, Except.bind]
        split <;> simp_all [pure, Except.pure]
      refine ⟨s, l, stay, h, .inl ⟨rfl, rfl, fun _ k' rest' he => ?_⟩⟩
      cases he
      exact hk
    | true =>
      have hclaim := h.claim w
      by_cases hs : ∃ b c rest, ks = b :: c :: rest ∧ isSign b ∧ c.isHad
      · obtain ⟨b, c, rest, rfl, hb, hc⟩ := hs
        obtain ⟨s', l', e', h', short⟩ := hclaim.takeNot e hk hb hc mem_cons_self free
        have taken : s.visit w = .ok s' := by simp [Layer.visit, claimed, h.holds.look hw, e, bind, Except.bind, hk, hb, hc, e']
        exact ⟨s', l', taken, h', .inr short⟩
      obtain ⟨s', l', e', h', -, -, -, short⟩ := hclaim.takeHead e hk free
      have taken : s.visit w = .ok s' := by
        simp only [Layer.visit, contains_iff_mem, claimed, if_false, h.holds.look hw, e, bind, Except.bind]
        split
        · next a b c tail heq =>
          cases heq
          have : (isSign b && c.isHad) = false := by
            rw [← Bool.not_eq_true, Bool.and_eq_true]
            exact fun hbc => hs ⟨b, c, tail, rfl, hbc⟩
          simp [hk, this, e']
        · next a tail _ heq =>
          cases heq
          simp [hk, e']
        · next heq => cases heq
      exact ⟨s', l', taken, h', .inr short⟩

end

lemma foldlM_visit (hws : ∀ w ∈ ws, OnWire n w) : ∀ {s : Layer} {l : List Gate}, Means n γ s l →
    ∃ s' l', ws.foldlM Layer.visit s = .ok s' ∧ Means n γ s' l' ∧ l'.length ≤ l.length := by
  induction ws with
  | nil => exact fun {s l} h => ⟨s, l, rfl, h, le_rfl⟩
  | cons w ws ih =>
    intro s l h
    obtain ⟨s1, l1, e1, h1, hl1⟩ := h.visit (hws w (by simp))
    obtain ⟨s2, l2, e2, h2, hl2⟩ := ih (forall_mem_cons.1 hws).2 h1
    refine ⟨s2, l2, by rw [foldlM_cons, e1]; exact e2, h2, hl2.trans ?_⟩
    rcases hl1 with ⟨-, rfl, -⟩ | hl1
    · exact le_rfl
    · exact hl1.le

lemma foldlM_visit_shorter (hws : ∀ w ∈ ws, OnWire n w) (h : Means n γ s l) (hs : s.claimed = []) :
    ∃ s' l', ws.foldlM Layer.visit s = .ok s' ∧ Means n γ s' l' ∧ l'.length ≤ l.length ∧
      (l'.length < l.length ∨ s' = s ∧ l' = l ∧ ∀ w ∈ ws, ∀ k rest, deal l w = k :: rest → k.isHad = false) := by
  induction ws with
  | nil => exact ⟨s, l, rfl, h, le_rfl, .inr ⟨rfl, rfl, by simp⟩⟩
  | cons w ws ih =>
    have hws' : ∀ v ∈ ws, OnWire n v := (forall_mem_cons.1 hws).2
    obtain ⟨s1, l1, e1, h1, ⟨rfl, rfl, none⟩ | short⟩ := h.visit (hws w (by simp))
    · obtain ⟨s2, l2, e2, h2, hl2, hr⟩ := ih hws'
      refine ⟨s2, l2, by rw [foldlM_cons, e1]; exact e2, h2, hl2, hr.imp_right ?_⟩
      rintro ⟨rfl, rfl, hall⟩
      exact ⟨rfl, rfl, forall_mem_cons.2 ⟨none (by simp [hs]), hall⟩⟩
    · obtain ⟨s2, l2, e2, h2, hl2⟩ := foldlM_visit hws' h1
      have := hl2.trans_lt short
      exact ⟨s2, l2, by rw [foldlM_cons, e1]; exact e2, h2, this.le, .inl this⟩

end Layer.Means

/-- **Taking off a layer keeps the course**, and something is taken off if any lane begins with a Hadamard. -/
theorem takeLayer_spec (h : Holds n lanes l) : ∃ s l', takeLayer lanes = .ok s ∧ Holds n s.lanes l' ∧
    courseOf s.hadamards.reverse * courseOf s.nots.reverse * courseOf l' = courseOf l ∧
    (∀ g ∈ s.hadamards, g.isHad) ∧ (∀ g ∈ s.nots, g.isHad = false) ∧ l'.length ≤ l.length ∧
    (l'.length < l.length ∨ l' = l ∧ ∀ w k rest, deal l w = k :: rest → k.isHad = false) := by
  have start : Layer.Means n (courseOf l) { lanes := lanes } l := ⟨h, by simp, by simp, by simp⟩
  have hws : ∀ w ∈ lanes.wires, OnWire n w := fun w hw => h.size ▸ mem_wires.1 hw
  obtain ⟨s, l', e, hm, hl, hr⟩ := start.foldlM_visit_shorter hws rfl
  refine ⟨s, l', e, hm.holds, hm.course, hm.hadamards, fun g hg => (hm.nots g hg).1, hl, hr.imp_right ?_⟩
  rintro ⟨-, rfl, none⟩
  refine ⟨rfl, fun w k rest ek => none w (mem_wires.2 ?_) k rest ek⟩
  rw [h.size]
  exact h.onWire_of_mem_deal (g := k) (by simp [ek])

end ZXCircuits.PhaseBlock
