/-
  Bringing lanes back into one list.

  A gate may leave when it leads each of its lanes: no gate before it clashes with it there.  While lanes are emptied,
  the gates that have left and those still there make up the motion of the lanes (`Drain`), and
  every gate noted as reached leads the lane where it was reached.  In each round the first gate of the list leaves at
  the latest, so the rounds come to an end.
-/
import ZXCircuits.Proofs.Lanes.Sheet

namespace ZXCircuits

open List Function PerWire

variable {isZ : Bool}

/-- No gate before the given one clashes with it on the wire. -/
def Leads (w : Int) (lane : List Gate) (g : Gate) : Prop := ∀ a, Precedes lane a g → ¬ Gate.Clash w a g

lemma Leads.erase {w : Int} {lane : List Gate} {g : Gate} (h : Leads w lane g) (hl : lane.Nodup) (k : Gate) : Leads w (lane.erase k) g :=
  fun a ha => h a ((precedes_erase hl).1 ha).2.2

/-! ## Gates and their wires -/

namespace Gate

variable {n : ℕ} {g : Gate} {w v : Int}

lemma IsLaid.eq_of_not_linked (hg : g.IsLaid n) (hl : g.isLinked = false) (hw : g.role w ≠ .absent)
    (hv : g.role v ≠ .absent) : v = w := by
  rcases hg.shape hw with ⟨i, rfl⟩ | ⟨k, p, i, rfl, hk⟩ | ⟨t, i, rfl, -⟩ | ⟨c, i, rfl, -⟩ | ⟨c, t, i, rfl, -⟩
  · simpa using hv
  · simpa [hk] using hv
  all_goals cases hl

section

variable (hg : g.IsLaid n) (hl : g.isLinked) (hw : g.role w ≠ .absent)
include hg hl hw

lemma IsLaid.otherWire : g.otherWire w ≠ w ∧ g.role (g.otherWire w) ≠ .absent ∧ ∀ v, g.role v ≠ .absent → v = w ∨ v = g.otherWire w := by
  -- the wires of a link are its ends
  have ends : ∀ {k : PairGate} {c t : Int} {i : Nat}, k = .cnot ∨ k = .cz → ∀ v, role ⟨.pair k c t, i⟩ v ≠ .absent ↔ v = c ∨ v = t := by
    rintro k c t i (rfl | rfl) v <;> by_cases hc : v = c <;> by_cases ht : v = t <;> simp_all
  obtain ⟨op, i⟩ := g
  cases op with
  | had t | rotation k t p => simp [isLinked, isCz, isCnot] at hl
  | pair k c t =>
    obtain ⟨hk, -, -, hct⟩ := hg
    simp only [ends hk] at hw ⊢
    rcases hw with rfl | rfl
    · have ho : Gate.otherWire ⟨.pair k w t, i⟩ w = t := by simp [Gate.otherWire, target, target?, hct.symm]
      rw [ho]
      exact ⟨hct.symm, .inr rfl, fun v h => h⟩
    · have ho : Gate.otherWire ⟨.pair k c w, i⟩ w = c := by simp [Gate.otherWire, target, target?, control, control?]
      rw [ho]
      exact ⟨hct, .inl rfl, fun v h => h.symm⟩
  | _ => exact hg.elim

lemma IsLaid.role_linked : g.role w = if g.isCz || g.control == w then .z else .x := by
  rcases hg.shape hw with ⟨i, rfl⟩ | ⟨k, p, i, rfl, -⟩ | ⟨t, i, rfl, -⟩ | ⟨c, i, rfl, hcw⟩ | ⟨c, t, i, rfl, hct⟩
  iterate 2 simp [isLinked, isCz, isCnot] at hl
  · simp [control, control?]
  · simp [isCz, control, control?, hcw, hcw.symm]
  · simp [isCz, hct]

end

def passRole (isZ : Bool) : Role := if isZ then .z else .x

lemma IsLaid.passes_rotation (hg : g.IsLaid n) (hw : g.role w ≠ .absent) (isZ : Bool) :
    (if isZ then g.isZRotation else g.isXRotation) ↔ g.isLinked = false ∧ g.role w = passRole isZ := by
  rcases hg.shape hw with ⟨i, rfl⟩ | ⟨k, p, i, rfl, hk⟩ | ⟨t, i, rfl, -⟩ | ⟨c, i, rfl, -⟩ | ⟨c, t, i, rfl, -⟩
  · cases isZ <;> simp [isZRotation, isXRotation, passRole]
  · cases isZ <;> simp [isZRotation, isXRotation, isLinked, isCz, isCnot, passRole]
  all_goals cases isZ <;> simp [isZRotation, isXRotation, isLinked, isCz, isCnot]

lemma IsLaid.passes_linked (hg : g.IsLaid n) (hl : g.isLinked) (hw : g.role w ≠ .absent) :
    (if isZ then g.isCz || g.control == w else g.isCnot && g.target == w) ↔ g.role w = passRole isZ := by
  have hr := hg.role_linked hl hw
  cases isZ with
  | true => rw [hr]; cases h : (g.isCz || g.control == w) <;> simp [passRole]
  | false =>
    rcases hg.shape hw with ⟨i, rfl⟩ | ⟨k, p, i, rfl, -⟩ | ⟨t, i, rfl, hwt⟩ | ⟨c, i, rfl, hcw⟩ | ⟨c, t, i, rfl, hct⟩
    iterate 2 simp [isLinked, isCz, isCnot] at hl
    · simp [target, target?, passRole, hwt.symm]
    · simp [isCnot, target, target?, passRole, hcw.symm]
    · simp [isCnot, passRole, hct]

end Gate

namespace Lanes

open Gate (passRole)

variable {n count : ℕ} {γ : Motion} {lane : Int → List Gate} {k out l : List Gate} {g : Gate} {w : Int} {rest : List Gate}

/-- Lanes being emptied: the gates in `out`, the last one first, and those of the lanes make up a motion and a list. -/
structure Drain (n count : ℕ) (k : List Gate) (γ : Motion) (lane : Int → List Gate) (out l : List Gate) : Prop where
  sheet : Sheet n count lane l
  motion : motionOf (out.reverse ++ l) = γ
  perm : (out ++ l).Perm k

lemma Drain.leave (h : Drain n count k γ lane out l) (hg : g ∈ l) (first : ∀ w, g.role w ≠ .absent → Leads w (lane w) g) :
    Drain n count k γ (fun w => (lane w).erase g) (g :: out) (l.erase g) where
  sheet := h.sheet.remove g
  motion := by
    have e := h.sheet.motionOf_eq (h.sheet.toFirst hg fun w a hc hp => first w hc.2.1 a hp hc)
    rw [← h.motion, reverse_cons, append_assoc, singleton_append, motionOf_append, motionOf_append, e]
  perm := (perm_middle.symm.trans ((perm_cons_erase hg).symm.append_left out)).trans h.perm

/-- Gates noted as reached lead one of their lanes before the given wire. -/
def Reached (w : Int) (lane : Int → List Gate) (reached : List Nat) (l : List Gate) : Prop :=
  ∀ g ∈ l, g.index ∈ reached → ∃ v, v < w ∧ g.role v ≠ .absent ∧ Leads v (lane v) g

lemma Reached.mono {u : Int} {reached : List Nat} (h : Reached u lane reached l) (hu : u ≤ w) : Reached w lane reached l := by
  intro g hg hi
  obtain ⟨v, hv, hl⟩ := h g hg hi
  exact ⟨v, by omega, hl⟩

lemma mem_reach {s : Outflow} {i : Nat} : i ∈ (s.reach g).reached ↔ i = g.index ∨ i ∈ s.reached := by
  unfold Outflow.reach
  split
  · next h =>
    have := contains_iff_mem.1 h
    constructor
    · exact .inr
    rintro (rfl | h)
    · exact this
    · exact h
  · simp

@[simp] lemma reach_lanes (s : Outflow) (g : Gate) : (s.reach g).lanes = s.lanes := by unfold Outflow.reach; split <;> rfl

@[simp] lemma reach_out (s : Outflow) (g : Gate) : (s.reach g).out = s.out := by unfold Outflow.reach; split <;> rfl

lemma erase_eq_update (h : Sheet n count lane l) (hw : ∀ v, g.role v ≠ .absent → v = w)
    (e : (lane w).erase g = rest) : (fun v => (lane v).erase g) = update lane w rest := by
  rw [← e, update_erase fun v hm => hw v ((h.mem_lane v g).1 hm).2]

lemma erase_eq_update₂ {u : Int} (h : Sheet n count lane l) (hw : ∀ v, g.role v ≠ .absent → v = w ∨ v = u)
    (e : (lane w).erase g = rest) : (fun v => (lane v).erase g) = update (update lane u ((lane u).erase g)) w rest := by
  rw [← e, update_erase₂ fun v hm => (hw v ((h.mem_lane v g).1 hm).2).symm]

/-! ## Passing a waiting gate -/

lemma dropAt_length {α : Type} (done : List α) (h : α) (tail : List α) : dropAt (done ++ h :: tail) done.length = .ok (done ++ tail) := by
  simp [dropAt, eraseIdx_append_of_length_le]

variable {lanes : Lanes} {head : Gate}

lemma removeAt_foldlM {gone : List Nat} {ys xs : List Gate}
    (hw : OnWire lanes.size w) (hl : val lanes w = head :: ys) (hx : gone.foldlM dropAt ys = .ok xs) :
    ∃ lanes', gone.foldlM (fun l i => removeAt l w (i + 1)) lanes = .ok lanes' ∧ lanes'.size = lanes.size ∧
      val lanes' = update (val lanes) w (head :: xs) := by
  induction gone generalizing lanes ys with
  | nil =>
    have e : ys = xs := by simpa [pure, Except.pure] using hx
    refine ⟨lanes, rfl, rfl, ?_⟩
    rw [← e, ← hl, update_eq_self]
  | cons i gone ih =>
    simp only [foldlM_cons, bind, Except.bind] at hx ⊢
    cases hd : dropAt ys i with
    | error e => simp [hd] at hx
    | ok zs =>
      rw [hd] at hx
      have hr : removeAt lanes w (i + 1) = .ok (PerWire.set lanes w (head :: zs)) := by
        have hi : i < ys.length := by
          by_contra h
          simp [dropAt, h] at hd
        have hz : ys.eraseIdx i = zs := by simpa [dropAt, hi] using hd
        simp [removeAt, on_eq hw, hl, bind, Except.bind, dropAt, hi, hz, pure, Except.pure]
      rw [hr]
      have hw' : OnWire (Array.size (PerWire.set lanes w (head :: zs))) w := by simpa using hw
      obtain ⟨lanes', h1, h2, h3⟩ := ih hw' (by simp [val_set hw]) hx
      refine ⟨lanes', h1, by simpa using h2, ?_⟩
      rw [h3, val_set hw, update_idem]

/-- What a round over the gates behind a waiting one leaves when none has left: nothing has changed, and all gates of its role that
    lead the lane were reached for the first time. -/
def Stuck (isZ : Bool) (w : Int) (list : List Gate) (s s' : Outflow) : Prop :=
  s'.lanes = s.lanes ∧ s'.out = s.out ∧ (∀ i ∈ s.reached, i ∈ s'.reached) ∧
    ∀ pre g post, list = pre ++ g :: post → (∀ a ∈ pre, a.role w = passRole isZ) → g.role w = passRole isZ →
      g.isLinked ∧ g.index ∉ s.reached ∧ g.index ∈ s'.reached

lemma Stuck.stop {list : List Gate} {s : Outflow} (hl : ∀ a ∈ list.head?, a.role w ≠ passRole isZ) : Stuck isZ w list s s := by
  refine ⟨rfl, rfl, fun _ h => h, fun pre g post e hpre hg => ?_⟩
  cases pre with
  | nil => exact (hl g (by rw [e]; rfl) hg).elim
  | cons a pre => exact (hl a (by rw [e]; rfl) (hpre a mem_cons_self)).elim

lemma Stuck.cons {list : List Gate} {s s' : Outflow} (h : Stuck isZ w list (s.reach g) s') (hlk : g.isLinked)
    (hre : g.index ∉ s.reached) : Stuck isZ w (g :: list) s s' := by
  obtain ⟨lanes, out, keeps, leads⟩ := h
  refine ⟨by simpa using lanes, by simpa using out, fun i hi => keeps i (mem_reach.2 (.inr hi)), fun pre a post e hpre ha => ?_⟩
  cases pre with
  | nil =>
    obtain ⟨rfl, -⟩ := cons.inj e
    exact ⟨hlk, hre, keeps _ (mem_reach.2 (.inl rfl))⟩
  | cons b pre =>
    obtain ⟨h1, h2, h3⟩ := leads pre a post (cons.inj e).2 (forall_mem_cons.1 hpre).2 ha
    exact ⟨h1, fun hi => h2 (mem_reach.2 (.inr hi)), h3⟩

lemma leads_of_role {pre post : List Gate} (hn : (pre ++ g :: post).Nodup)
    (hp : ∀ a ∈ pre, a.role w = passRole isZ) (hg : g.role w = passRole isZ) :
    Leads w (pre ++ g :: post) g := by
  intro a ha hc
  have hap := ha.mem_of_nodup hn
  obtain ⟨-, -, h | h⟩ := hc
  · exact h ((hp a hap).trans hg.symm)
  · rw [hp a hap] at h
    cases isZ <;> simp [passRole] at h

lemma passRole_ne_absent (isZ : Bool) : passRole isZ ≠ .absent := by
  cases isZ <;> simp [passRole]

/-- A round over the gates behind the waiting head of a lane.  Those in `done` have been seen, and `kept` are left of them. -/
structure Passing (n count : ℕ) (k : List Gate) (γ : Motion) (isZ : Bool) (w : Int) (head : Gate) (list done kept : List Gate)
    (gone : List Nat) (s : Outflow) (l : List Gate) : Prop where
  size : s.lanes.size = n
  lane : val s.lanes w = head :: (done ++ list)
  drain : Drain n count k γ (update (val s.lanes) w (head :: kept ++ list)) s.out l
  alike : ∀ a ∈ head :: kept, a.role w = passRole isZ
  reached : ∀ g ∈ l, g.index ∈ s.reached → g ∈ head :: kept ∨ ∃ v, v < w ∧ g.role v ≠ .absent ∧ Leads v (val s.lanes v) g
  dropped : ∀ tail, gone.foldlM dropAt (done ++ tail) = .ok (kept ++ tail)

namespace Passing

variable {list done kept : List Gate} {gone : List Nat} {s : Outflow}

lemma nodup (h : Passing n count k γ isZ w head list done kept gone s l) : (head :: kept ++ list).Nodup := by
  have := h.drain.sheet.nodup w
  rwa [update_self] at this

lemma reached_succ (h : Passing n count k γ isZ w head list done kept gone s l) :
    Reached (w + 1) (update (val s.lanes) w (head :: kept ++ list)) s.reached l := by
  intro g hgl hgi
  rcases h.reached g hgl hgi with hg | ⟨v, hv, hrv, hlead⟩
  · refine ⟨w, Int.lt_add_one_of_le le_rfl, h.alike g hg ▸ passRole_ne_absent isZ, ?_⟩
    obtain ⟨pre, post, e⟩ := append_of_mem hg
    have e' : head :: kept ++ list = pre ++ g :: (post ++ list) := by rw [e, append_assoc, cons_append]
    rw [update_self, e']
    exact leads_of_role (e' ▸ h.nodup) (fun a ha => h.alike a (by rw [e]; simp [ha])) (h.alike g hg)
  · refine ⟨v, by omega, hrv, ?_⟩
    rwa [update_of_ne (by omega)]

section

variable (h : Passing n count k γ isZ w head (g :: list) done kept gone s l)
include h

lemma mem : g ∈ l ∧ g.role w ≠ .absent := (h.drain.sheet.mem_lane w g).1 (by simp)

lemma laid : g.IsLaid n := h.drain.sheet.laid g h.mem.1

lemma not_mem : g ∉ head :: kept := (not_mem_of_nodup h.nodup).1

lemma erase : (update (val s.lanes) w (head :: kept ++ g :: list) w).erase g = head :: kept ++ list := by
  rw [update_self, erase_middle h.nodup]

lemma drop (tail : List Gate) : (done.length :: gone).foldlM dropAt (done ++ [g] ++ tail) = .ok (kept ++ tail) := by
  rw [append_assoc, singleton_append, foldlM_cons, dropAt_length]
  exact h.dropped tail

lemma leads (hp : g.role w = passRole isZ) : Leads w (update (val s.lanes) w (head :: kept ++ g :: list) w) g := by
  rw [update_self]
  exact leads_of_role h.nodup h.alike hp

/-- A rotation leaves past the waiting gate. -/
lemma rotation (hp : g.role w = passRole isZ) (hlk : g.isLinked = false) :
    Passing n count k γ isZ w head list (done ++ [g]) kept (done.length :: gone) { s with out := g :: s.out } (l.erase g) := by
  have only : ∀ v, g.role v ≠ .absent → v = w := fun v hv => h.laid.eq_of_not_linked hlk h.mem.2 hv
  have left := h.drain.leave h.mem.1 fun v hv => only v hv ▸ h.leads hp
  rw [erase_eq_update h.drain.sheet only h.erase, update_idem] at left
  exact ⟨h.size, by simpa using h.lane, left, h.alike, fun a ha hi => h.reached a (mem_of_mem_erase ha) hi, h.drop⟩

/-- A gate that has been reached on its other wire leaves. -/
lemma link (hp : g.role w = passRole isZ) (hlk : g.isLinked) (hre : g.index ∈ s.reached) :
    ∃ lanes, s.lanes.remove (g.otherWire w) g = .ok lanes ∧ Passing n count k γ isZ w head list (done ++ [g]) kept
      (done.length :: gone) ⟨lanes, s.reached.erase g.index, g :: s.out⟩ (l.erase g) := by
  obtain ⟨hne, hother, hwires⟩ := h.laid.otherWire hlk h.mem.2
  obtain ⟨v, hv, hrv, hlead⟩ := (h.reached g h.mem.1 hre).resolve_left h.not_mem
  obtain rfl : v = g.otherWire w := (hwires v hrv).resolve_left (by omega)
  have hon : OnWire s.lanes.size (g.otherWire w) := h.size ▸ h.laid.onWire hother
  have same := h.drain.sheet.same_iff_of_lane (w := g.otherWire w) h.mem.1
  have there := (h.drain.sheet.mem_lane (g.otherWire w) g).2 ⟨h.mem.1, hother⟩
  have nodup := h.drain.sheet.nodup (g.otherWire w)
  have left := h.drain.leave h.mem.1 fun u hu => by
    rcases hwires u hu with rfl | rfl
    · exact h.leads hp
    · rwa [update_of_ne hne]
  rw [update_of_ne hne] at same there nodup
  rw [erase_eq_update₂ h.drain.sheet hwires h.erase, update_of_ne hne, update_comm hne, update_idem, update_comm hne.symm,
    ← val_set hon] at left
  refine ⟨_, remove_eq hon same there, (PerWire.size_set ..).trans h.size, ?_, left, h.alike, fun a ha hi => ?_, h.drop⟩
  · simpa [val_set hon, update_of_ne hne.symm] using h.lane
  refine (h.reached a (mem_of_mem_erase ha) (mem_of_mem_erase hi)).imp_right ?_
  rintro ⟨u, hu, hru, hlu⟩
  refine ⟨u, hu, hru, ?_⟩
  rw [val_set hon]
  by_cases e : u = g.otherWire w
  · subst e
    rw [update_self]
    exact hlu.erase nodup g
  · rwa [update_of_ne e]

/-- A gate reached for the first time is noted, and waits as well. -/
lemma wait (hp : g.role w = passRole isZ) : Passing n count k γ isZ w head list (done ++ [g]) (kept ++ [g]) gone (s.reach g) l := by
  refine ⟨by simpa using h.size, by simpa using h.lane, by simpa using h.drain, fun a ha => ?_, fun a ha hi => ?_, fun tail => ?_⟩
  · rcases mem_append.1 (cons_append ▸ ha : a ∈ head :: kept ++ [g]) with ha | ha
    · exact h.alike a ha
    · rw [mem_singleton.1 ha, hp]
  · rcases mem_reach.1 hi with e | e
    · exact .inl (by simp [h.drain.sheet.eq_of_index ha h.mem.1 e])
    · refine (h.reached a ha e).imp (fun ha => ?_) (by simpa using ·)
      exact mem_append_left [g] ha
  · simpa using h.dropped (g :: tail)

end

end Passing

/-- **A round behind a waiting gate** lets gates leave, or is stuck. -/
theorem passWaiting_spec (isZ : Bool) (head : Gate) (list : List Gate) : ∀ {done kept : List Gate} {gone : List Nat} {s : Outflow}
    {l : List Gate}, Passing n count k γ isZ w head list done kept gone s l →
      ∃ s' gone' rest done' kept' l', passWaiting w isZ list done.length gone s = .ok (s', gone') ∧
        Passing n count k γ isZ w head rest done' kept' gone' s' l' ∧
        (s.out.length < s'.out.length ∨ gone' = gone ∧ Stuck isZ w list s s') := by
  induction list with
  | nil => exact fun {done kept gone s l} h => ⟨s, gone, _, _, _, _, rfl, h, .inr ⟨rfl, .stop (by simp)⟩⟩
  | cons g list ih =>
    intro done kept gone s l h
    have hrot := h.laid.passes_rotation h.mem.2 isZ
    have hlen : (done ++ [g]).length = done.length + 1 := length_append
    -- once the gate has left, more gates have left than before whatever follows
    have left : ∀ {s1 s' : Outflow} {gone' : List Nat} {p : Prop}, s1.out = g :: s.out →
        s1.out.length < s'.out.length ∨ gone' = done.length :: gone ∧ Stuck isZ w list s1 s' → s.out.length < s'.out.length ∨ p := by
      rintro s1 s' gone' p e (h | ⟨-, -, h, -⟩)
      · rw [e, length_cons] at h
        exact .inl (by omega)
      · rw [h, e]
        exact .inl (Nat.lt_succ_self _)
    rw [passWaiting]
    by_cases hp : g.role w = passRole isZ
    · cases hlk : g.isLinked with
      | false =>
        rw [if_pos (hrot.2 ⟨hlk, hp⟩), ← hlen]
        obtain ⟨s', gone', rest, done', kept', l', e, h', hend⟩ := ih (h.rotation hp hlk)
        exact ⟨s', gone', rest, done', kept', l', e, h', left rfl hend⟩
      | true =>
        rw [if_neg fun e => by simpa [hlk] using (hrot.1 e).1, if_neg (by simp), if_pos ((h.laid.passes_linked hlk h.mem.2).2 hp), ← hlen]
        by_cases hre : g.index ∈ s.reached
        · obtain ⟨lanes, er, h1⟩ := h.link hp hlk hre
          obtain ⟨s', gone', rest, done', kept', l', e, h', hend⟩ := ih h1
          rw [if_pos (by simpa using hre), er]
          exact ⟨s', gone', rest, done', kept', l', e, h', left rfl hend⟩
        obtain ⟨s', gone', rest, done', kept', l', e, h', hend⟩ := ih (h.wait hp)
        rw [if_neg (by simpa using hre)]
        refine ⟨s', gone', rest, done', kept', l', e, h', ?_⟩
        exact hend.imp (by simpa using ·) (And.imp_right fun hs => hs.cons hlk hre)
    · refine ⟨s, gone, _, _, _, _, ?_, h, .inr ⟨rfl, .stop fun a ha => Option.some.inj ha ▸ hp⟩⟩
      rw [if_neg fun e => hp (hrot.1 e).2]
      cases hlk : g.isLinked with
      | false => rfl
      | true =>
        rw [if_neg fun e => hp ((h.laid.passes_linked hlk h.mem.2).1 e)]
        rfl

/-! ## Emptying lanes -/

/-- Nothing has left, and all gates that lead the lane were reached for the first time. -/
def Stalled (w : Int) (s s' : Outflow) : Prop :=
  val s'.lanes = val s.lanes ∧ s'.out = s.out ∧ (∀ i ∈ s.reached, i ∈ s'.reached) ∧
    ∀ g ∈ val s.lanes w, Leads w (val s.lanes w) g → g.isLinked ∧ g.index ∉ s.reached ∧ g.index ∈ s'.reached

lemma Reached.erase {r s : List Nat} (hs : Sheet n count lane l) (h : Reached w lane r l)
    (hr : ∀ i ∈ s, i ∈ r) (g : Gate) : Reached w (fun v => (lane v).erase g) s (l.erase g) := by
  intro k hk hki
  obtain ⟨v, hv, hrv, hlead⟩ := h k (mem_of_mem_erase hk) (hr _ hki)
  exact ⟨v, hv, hrv, hlead.erase (hs.nodup v) g⟩

lemma Stalled.of_stuck {rest : List Gate} {s s' : Outflow} (hs : Sheet n count (val s.lanes) l) (hl : val s.lanes w = g :: rest)
    (hg : g.role w = passRole isZ) (h : Stuck isZ w (g :: rest) s s') : Stalled w s s' := by
  obtain ⟨lanes, out, keeps, leads⟩ := h
  refine ⟨by rw [lanes], out, keeps, fun a ha hlead => ?_⟩
  rw [hl] at ha hlead
  obtain ⟨pre, post, e⟩ := append_of_mem ha
  -- the gates before it, the waiting one among them, are of its role
  have alike : ∀ b, Precedes (g :: rest) b a → b.role w = a.role w := by
    intro b hb
    by_contra hne
    exact hlead b hb ⟨((hs.mem_lane w b).1 (hl ▸ hb.mem_left)).2, ((hs.mem_lane w a).1 (hl ▸ hb.mem_right)).2, .inl hne⟩
  have before : ∀ b ∈ pre, b.role w = a.role w := fun b hb => alike b (by rw [e]; simp [hb])
  have hga : a.role w = passRole isZ := by
    cases pre with
    | nil => exact (cons.inj e).1 ▸ hg
    | cons b pre => exact (before b mem_cons_self).symm.trans ((cons.inj e).1 ▸ hg)
  exact leads pre a post e (fun b hb => (before b hb).trans hga) hga

/-- **A gate waits at the head of its lane**, and others pass it. -/
theorem wait_spec {s : Outflow} (hs : s.lanes.size = n) (hw : OnWire n w) (hd : Drain n count k γ (val s.lanes) s.out l)
    (hr : Reached w (val s.lanes) s.reached l) (hl : val s.lanes w = g :: rest) (hlk : g.isLinked) (hre : g.index ∉ s.reached) :
    ∃ s' gone lanes l', passWaiting w (g.isCz || g.control == w) rest 0 [] (s.reach g) = .ok (s', gone) ∧
      gone.foldlM (fun l i => removeAt l w (i + 1)) s'.lanes = .ok lanes ∧ lanes.size = n ∧
      Drain n count k γ (val lanes) s'.out l' ∧ Reached (w + 1) (val lanes) s'.reached l' ∧
      (s.out.length < s'.out.length ∨ Stalled w s { s' with lanes := lanes }) := by
  obtain ⟨hmem, hrole⟩ := (hd.sheet.mem_lane w g).1 (hl ▸ mem_cons_self)
  set isZ := g.isCz || g.control == w with hisZ
  have hrole : g.role w = passRole isZ := by rw [(hd.sheet.laid g hmem).role_linked hlk hrole, passRole]
  have start : Passing n count k γ isZ w g rest [] [] [] (s.reach g) l := by
    refine ⟨by simpa using hs, by simpa using hl, ?_, fun a ha => by rw [mem_singleton.1 ha, hrole], fun a ha hi => ?_, fun tail => rfl⟩
    · rw [reach_lanes, reach_out, singleton_append, ← hl, update_eq_self]
      exact hd
    rcases mem_reach.1 hi with e | e
    · exact .inl (by simp [hd.sheet.eq_of_index ha hmem e])
    · exact .inr (by simpa using hr a ha e)
  obtain ⟨s', gone, rest', done, kept, l', e, h, hend⟩ := passWaiting_spec isZ g rest start
  obtain ⟨lanes, er, size, hval⟩ := removeAt_foldlM (h.size ▸ hw) h.lane (h.dropped rest')
  refine ⟨s', gone, lanes, l', e, er, size.trans h.size, hval ▸ h.drain, hval ▸ h.reached_succ, ?_⟩
  rcases hend with hend | ⟨rfl, hend⟩
  · exact .inl (by simpa using hend)
  · obtain rfl : s'.lanes = lanes := Except.ok.inj er
    exact .inr (.of_stuck hd.sheet hl hrole (hend.cons hlk hre))

lemma emptyLane_spec (hw : OnWire n w) :
    ∀ (fuel : ℕ) (s : Outflow) (l : List Gate), s.lanes.size = n → Drain n count k γ (val s.lanes) s.out l →
      Reached w (val s.lanes) s.reached l →
      ∃ s' l', emptyLane w fuel s = .ok s' ∧ s'.lanes.size = n ∧ Drain n count k γ (val s'.lanes) s'.out l' ∧
        Reached (w + 1) (val s'.lanes) s'.reached l' ∧ s.out.length ≤ s'.out.length ∧
        (fuel ≠ 0 → s.out.length < s'.out.length ∨ Stalled w s s') := by
  intro fuel
  induction fuel with
  | zero =>
    intro s l hs hd hr
    exact ⟨s, l, rfl, hs, hd, hr.mono (by omega), le_rfl, by simp⟩
  | succ fuel ih =>
    intro s l hs hd hr
    have hw' : OnWire s.lanes.size w := hs ▸ hw
    rw [emptyLane, on_eq hw']
    simp only [bind, Except.bind]
    cases hlane : val s.lanes w with
    | nil =>
      exact ⟨s, l, rfl, hs, hd, hr.mono (by omega), le_rfl, fun _ => .inr ⟨rfl, rfl, fun _ h => h, by simp [hlane]⟩⟩
    | cons g rest =>
      have hmem : g ∈ l ∧ g.role w ≠ .absent := (hd.sheet.mem_lane w g).1 (by rw [hlane]; simp)
      have hlaid := hd.sheet.laid g hmem.1
      have herase : (val s.lanes w).erase g = rest := by rw [hlane, erase_cons_head]
      have hn : (g :: rest).Nodup := hlane ▸ hd.sheet.nodup w
      have hhead : Leads w (val s.lanes w) g := fun a ha => by
        rw [hlane, ← nil_append (g :: rest)] at ha
        cases ha.mem_of_nodup hn
      dsimp only
      cases hlk : g.isLinked with
      | false =>
        have honly : ∀ v, g.role v ≠ .absent → v = w := fun v hv => hlaid.eq_of_not_linked hlk hmem.2 hv
        have hd' := hd.leave hmem.1 fun v hv => honly v hv ▸ hhead
        have hr' := hr.erase hd.sheet (fun _ h => h) g
        rw [erase_eq_update hd.sheet honly herase, ← val_set hw'] at hd' hr'
        obtain ⟨s', l', h1, h2, h3, h4, h5, -⟩ := ih
          { s with lanes := PerWire.set s.lanes w rest, out := g :: s.out } (l.erase g) (by simpa using hs) hd' hr'
        simp only [length_cons] at h5
        exact ⟨s', l', h1, h2, h3, h4, by omega, fun _ => .inl (by omega)⟩
      | true =>
        obtain ⟨hne, hother, hwires⟩ := hlaid.otherWire hlk hmem.2
        rw [if_neg (by simp)]
        by_cases hre : g.index ∈ s.reached
        · rw [if_pos (by simpa using hre)]
          obtain ⟨v, hv, hrv, hlead⟩ := hr g hmem.1 hre
          obtain rfl : v = g.otherWire w := (hwires v hrv).resolve_left (by omega)
          have hon : OnWire s.lanes.size (g.otherWire w) := hs ▸ hlaid.onWire hother
          rw [remove_eq hon (hd.sheet.same_iff_of_lane hmem.1) ((hd.sheet.mem_lane _ g).2 ⟨hmem.1, hother⟩)]
          set lanes := PerWire.set s.lanes (g.otherWire w) ((val s.lanes (g.otherWire w)).erase g) with hlanes
          have hval : val lanes = update (val s.lanes) (g.otherWire w) ((val s.lanes (g.otherWire w)).erase g) := val_set hon _
          have hw'' : OnWire (Array.size lanes) w := by simpa [hlanes] using hw'
          have hlw : val lanes w = g :: rest := by rw [hval, update_of_ne hne.symm, hlane]
          simp only [on_eq hw'', hlw]
          have hd' := hd.leave hmem.1 fun u hu => by
            rcases hwires u hu with rfl | rfl
            · exact hhead
            · exact hlead
          have hr' := hr.erase hd.sheet (fun _ h => mem_of_mem_erase h) (s := s.reached.erase g.index) g
          rw [erase_eq_update₂ hd.sheet hwires herase, ← hval, ← val_set hw''] at hd' hr'
          obtain ⟨s', l', h1, h2, h3, h4, h5, -⟩ := ih
            ⟨PerWire.set lanes w rest, s.reached.erase g.index, g :: s.out⟩ (l.erase g) (by simpa [hlanes] using hs) hd' hr'
          simp only [length_cons] at h5
          exact ⟨s', l', h1, h2, h3, h4, by omega, fun _ => .inl (by omega)⟩
        · rw [if_neg (by simpa using hre)]
          obtain ⟨s', gone, lanes, l', e, er, size, hd', hr', hend⟩ := wait_spec hs hw hd hr hlane hlk hre
          refine ⟨{ s' with lanes := lanes }, l', ?_, size, hd', hr', ?_, fun _ => hend⟩
          · simp only [e, er]
            rfl
          · exact hend.elim le_of_lt fun h => h.2.1 ▸ le_rfl

lemma emptyOnce_fold (ws : List Int) : ∀ (s : Outflow) (l : List Gate) (u : Int),
    ws.Pairwise (· < ·) → (∀ w ∈ ws, OnWire n w ∧ u ≤ w) → s.lanes.size = n →
    Drain n count k γ (val s.lanes) s.out l → Reached u (val s.lanes) s.reached l →
    ∃ s' l', ws.foldlM (fun s w => emptyLane w (load s.lanes + 1) s) s = .ok s' ∧ s'.lanes.size = n ∧
      Drain n count k γ (val s'.lanes) s'.out l' ∧ s.out.length ≤ s'.out.length ∧
      (s.out.length < s'.out.length ∨ ∀ w ∈ ws, ∀ g ∈ val s.lanes w, Leads w (val s.lanes w) g →
        g.isLinked ∧ g.index ∉ s.reached ∧ ∀ v ∈ ws, g ∈ val s.lanes v → Leads v (val s.lanes v) g → v = w) := by
  induction ws with
  | nil =>
    intro s l u _ _ hs hd hr
    exact ⟨s, l, rfl, hs, hd, le_rfl, .inr (by simp)⟩
  | cons w ws ih =>
    intro s l u hp hws hs hd hr
    obtain ⟨hw, hu⟩ := hws w (by simp)
    obtain ⟨s1, l1, h1, h2, h3, h4, h5, h6⟩ := emptyLane_spec hw (load s.lanes + 1) s l hs hd (hr.mono hu)
    obtain ⟨hlt, hp'⟩ := pairwise_cons.1 hp
    obtain ⟨s', l', k1, k2, k3, k4, k5⟩ := ih s1 l1 (w + 1) hp'
      (fun v hv => ⟨(hws v (by simp [hv])).1, by have := hlt v hv; omega⟩) h2 h3 h4
    refine ⟨s', l', by simp [h1, bind, Except.bind, k1], k2, k3, by omega, ?_⟩
    rcases h6 (by simp) with h6 | ⟨e1, e2, e3, e4⟩
    · exact .inl (by omega)
    rcases k5 with k5 | k5
    · exact .inl (by rw [e2] at k5; exact k5)
    rw [e1] at k5
    refine .inr fun v hv g hg hlead => ?_
    rcases mem_cons.1 hv with rfl | hv
    · obtain ⟨g1, g2, g3⟩ := e4 g hg hlead
      refine ⟨g1, g2, fun v' hv' hg' hlead' => ?_⟩
      rcases mem_cons.1 hv' with rfl | hv'
      · rfl
      · exact ((k5 v' hv' g hg' hlead').2.1 g3).elim
    obtain ⟨g1, g2, g3⟩ := k5 v hv g hg hlead
    refine ⟨g1, fun hi => g2 (e3 _ hi), fun v' hv' hg' hlead' => ?_⟩
    rcases mem_cons.1 hv' with rfl | hv'
    · exact (g2 (e4 g hg' hlead').2.2).elim
    · exact g3 v' hv' hg' hlead'

lemma emptyOnce_spec (hs : lanes.size = n) (hd : Drain n count k γ (val lanes) out l) (hl : l ≠ []) :
    ∃ s' l', emptyOnce lanes out = .ok s' ∧ s'.lanes.size = n ∧ Drain n count k γ (val s'.lanes) s'.out l' ∧
      out.length < s'.out.length := by
  have hp : lanes.wires.Pairwise (· < ·) := by
    rw [wires, pairwise_map]
    exact pairwise_lt_range.imp Int.ofNat_lt.2
  obtain ⟨s', l', h1, h2, h3, h4, h5⟩ := emptyOnce_fold lanes.wires ⟨lanes, [], out⟩ l 0 hp
    (fun w hw => ⟨hs ▸ mem_wires.1 hw, (mem_wires.1 hw).1⟩) hs hd (fun g _ hi => by simp at hi)
  refine ⟨s', l', h1, h2, h3, h5.resolve_right fun stuck => ?_⟩
  -- the first gate of the list leads all its lanes
  obtain ⟨g, l0, rfl⟩ := exists_cons_of_ne_nil hl
  have hlaid := hd.sheet.laid g (by simp)
  have hlead : ∀ w, Leads w (val lanes w) g := by
    intro w a ha hc
    have := (hd.sheet.order w a g hc).1 ha
    have hn := (nodup_cons.1 hd.sheet.nodup_list).1
    rcases precedes_cons.1 this with ⟨-, h⟩ | h
    · exact hn h
    · exact hn h.mem_right
  have hon : ∀ w, g.role w ≠ .absent → w ∈ lanes.wires ∧ g ∈ val lanes w := fun w hw =>
    ⟨mem_wires.2 (hs ▸ hlaid.onWire hw), (hd.sheet.mem_lane w g).2 ⟨by simp, hw⟩⟩
  obtain ⟨w, hw⟩ := hlaid.exists_role
  obtain ⟨hlk, -, huniq⟩ := stuck w (hon w hw).1 g (hon w hw).2 (hlead w)
  obtain ⟨hne, hother, -⟩ := hlaid.otherWire hlk hw
  exact hne (huniq _ (hon _ hother).1 (hon _ hother).2 (hlead _))

lemma val_mem_toList (hw : OnWire lanes.size w) : val lanes w ∈ lanes.toList := by
  obtain ⟨h0, hn⟩ := hw
  have hs : w.toNat < lanes.size := by omega
  simp [val, not_lt.2 h0, hs]

lemma eq_val_of_mem_toList {x : List Gate} (hx : x ∈ lanes.toList) : ∃ w, OnWire lanes.size w ∧ x = val lanes w := by
  obtain ⟨i, hi, rfl⟩ := Array.getElem_of_mem (Array.mem_toList_iff.1 hx)
  exact ⟨i, ⟨Int.natCast_nonneg i, Int.ofNat_lt.2 hi⟩, by simp [val, hi]⟩

section

variable (hs : lanes.size = n) (h : Sheet n count (val lanes) l)
include hs h

lemma isEmpty_iff : lanes.isEmpty ↔ l = [] := by
  simp only [isEmpty, all_eq_true, List.isEmpty_iff]
  constructor
  · intro hall
    refine eq_nil_iff_forall_not_mem.2 fun g hg => ?_
    obtain ⟨w, hw⟩ := (h.laid g hg).exists_role
    have hm := (h.mem_lane w g).2 ⟨hg, hw⟩
    rw [hall _ (val_mem_toList (hs ▸ (h.laid g hg).onWire hw))] at hm
    simp at hm
  rintro rfl x hx
  obtain ⟨w, -, rfl⟩ := eq_val_of_mem_toList hx
  refine eq_nil_iff_forall_not_mem.2 fun g hg => ?_
  simpa using h.mem_of_lane hg

lemma subperm_lanes : l.Subperm lanes.toList.flatten := by
  refine subperm_of_subset h.nodup_list fun g hg => ?_
  obtain ⟨w, hw⟩ := (h.laid g hg).exists_role
  exact mem_flatten.2 ⟨_, val_mem_toList (hs ▸ (h.laid g hg).onWire hw), (h.mem_lane w g).2 ⟨hg, hw⟩⟩

end

lemma emptyAll_spec (fuel : ℕ) : ∀ (lanes : Lanes) (out l : List Gate), lanes.size = n →
    Drain n count k γ (val lanes) out l → l.length < fuel →
    ∃ gs, emptyAll fuel lanes out = .ok gs ∧ motionOf gs = γ ∧ gs.Perm k := by
  induction fuel with
  | zero => intro _ _ _ _ _ h; simp at h
  | succ fuel ih =>
    intro lanes out l hs hd hf
    rw [emptyAll]
    by_cases hl : l = []
    · rw [if_pos ((isEmpty_iff hs hd.sheet).2 hl)]
      subst hl
      exact ⟨out.reverse, rfl, by simpa using hd.motion, (reverse_perm out).trans (by simpa using hd.perm)⟩
    rw [if_neg fun e => hl ((isEmpty_iff hs hd.sheet).1 e)]
    obtain ⟨s', l', h1, h2, h3, h4⟩ := emptyOnce_spec hs hd hl
    have ht := hd.perm.length_eq.trans h3.perm.length_eq.symm
    simp only [length_append] at ht
    obtain ⟨gs, h5⟩ := ih s'.lanes s'.out l' h2 h3 (by omega)
    exact ⟨gs, by simpa [h1, bind, Except.bind] using h5⟩

/-- **Flattened lanes have the motion and the gates of the lanes.** -/
theorem flatten_spec (hs : lanes.size = n) (h : Sheet n count (val lanes) l) :
    ∃ gs, lanes.flatten = .ok gs ∧ motionOf gs = motionOf l ∧ gs.Perm l :=
  emptyAll_spec (lanes.load + 1) lanes [] l hs ⟨h, by simp, .refl _⟩ (Nat.lt_succ_of_le (subperm_lanes hs h).length_le)

end Lanes

/-! ## Lanes in another order -/

/-- Gates that act alike on a wire, both about the Z axis or both about the X axis. -/
def Gate.Alike (w : Int) (a b : Gate) : Prop := a.role w = b.role w ∧ (a.role w = .z ∨ a.role w = .x)

/-- A lane from another one by exchanging neighbours that act alike on its wire. -/
inductive Exchanged (w : Int) (l : List Gate) : List Gate → Prop where
  | refl : Exchanged w l l
  | swap {p q : List Gate} {a b : Gate} : Exchanged w l (p ++ a :: b :: q) → Gate.Alike w a b → Exchanged w l (p ++ b :: a :: q)

namespace Exchanged

variable {w : Int} {l k : List Gate}

lemma perm (h : Exchanged w l k) : l.Perm k := by
  induction h with
  | refl => exact .refl _
  | swap _ _ ih => exact ih.trans ((Perm.swap _ _ _).append_left _)

lemma precedes_iff {a b : Gate} (h : Exchanged w l k) (hc : Gate.Clash w a b) : Precedes l a b ↔ Precedes k a b := by
  induction h with
  | refl => rfl
  | @swap p q x y _ hs ih =>
    obtain ⟨he, hr⟩ := hs
    obtain ⟨-, -, hne⟩ := hc
    -- the two that change places act alike, so they are not the clashing ones
    rw [ih]
    simp only [precedes_append, precedes_cons]
    grind

end Exchanged

namespace Lanes

variable {n : ℕ} {lanes : Lanes} {l : List Gate}

lemma sheet_of_exchanged (hs : lanes.size = n) (distinct : (l.map Gate.index).Nodup) (laid : ∀ g ∈ l, g.IsLaid n)
    (lane : ∀ w, OnWire n w → Exchanged w (l.filter fun g => decide (g.role w ≠ .absent)) (val lanes w)) :
    ∃ count, Sheet n count (val lanes) l := by
  have lane : ∀ w, Exchanged w (l.filter fun g => decide (g.role w ≠ .absent)) (val lanes w) := fun w => by
    by_cases hw : OnWire n w
    · exact lane w hw
    · rw [val_of_not_onWire (hs ▸ hw), filter_eq_nil_iff.2 fun g hg h => hw ((laid g hg).onWire (of_decide_eq_true h))]
      exact .refl
  refine ⟨(l.map Gate.index).sum + 1, fun g hg => Nat.lt_succ_of_le (single_le_sum (by simp) _ (mem_map_of_mem hg)), distinct, laid,
    fun w => (lane w).perm.nodup_iff.1 (distinct.of_map _ |>.filter _), fun w g => ?_, fun w a b hc => ?_⟩
  · rw [← (lane w).perm.mem_iff, mem_filter, decide_eq_true_eq]
  rw [← (lane w).precedes_iff hc]
  refine ⟨fun h => h.trans filter_sublist, fun h => ?_⟩
  have := List.Sublist.filter (fun g => decide (g.role w ≠ .absent)) h
  rwa [filter_cons_of_pos (by simpa using hc.1), filter_cons_of_pos (by simpa using hc.2.1)] at this

/-- **Lanes in which neighbours that act alike have changed places** are brought back into a list with the matrix of the gates. -/
theorem flatten_exchanged (hs : lanes.size = n) (distinct : (l.map Gate.index).Nodup) (laid : ∀ g ∈ l, g.IsLaid n)
    (lane : ∀ w, OnWire n w → Exchanged w (l.filter fun g => decide (g.role w ≠ .absent)) (val lanes w)) :
    ∃ gs, lanes.flatten = .ok gs ∧ gs.Perm l ∧ matrixOn n gs = matrixOn n l := by
  obtain ⟨count, h⟩ := sheet_of_exchanged hs distinct laid lane
  obtain ⟨gs, e, hm, hp⟩ := flatten_spec hs h
  exact ⟨gs, e, hp, by unfold matrixOn; rw [hm]⟩

/-- Two signs that the lanes of their wires hold in opposite orders, and a turn. -/
def crossedSigns : List Gate := [{ Gate.cz 0 1 with index := 0 }, { Gate.cz 0 1 with index := 1 }, { Gate.t 0 false with index := 2 }]

theorem flatten_exchanged_crossedSigns : (∀ g ∈ crossedSigns, g.IsLaid 2) ∧
    ∃ gs, flatten #[crossedSigns.reverse, crossedSigns.take 2] = .ok gs ∧ gs.Perm crossedSigns ∧ matrixOn 2 gs = matrixOn 2 crossedSigns := by
  have laid : ∀ g ∈ crossedSigns, g.IsLaid 2 := by simp [crossedSigns, Gate.IsLaid, Gate.cz, Gate.t, Rotation.isZ]
  refine ⟨laid, flatten_exchanged rfl (by decide) laid fun w hw => ?_⟩
  obtain rfl | rfl : w = 0 ∨ w = 1 := by
    have := hw.1
    have := hw.2
    omega
  · exact .swap (p := []) (.swap (p := [_]) (.swap (p := []) .refl ⟨rfl, .inl rfl⟩) ⟨rfl, .inl rfl⟩) ⟨rfl, .inl rfl⟩
  · exact .refl

end Lanes

end ZXCircuits
