/-
  Lanes as one list of gates.

  Lanes are a sheet of a list if every lane holds the gates of the list that are on its wire, clashing ones in the
  order of the list (`Sheet`).  All such lists have one motion (`Sheet.motionOf_eq`).  A gate that no later gate clashes with
  may be taken for the last one (`Sheet.toLast`), and one that no earlier gate clashes with for the first one.
-/
import ZXCircuits.Proofs.Motion.Commute

namespace ZXCircuits

open List Function

variable {a b : Gate}

/-! ## Values of wires -/

def OnWire (n : ℕ) (w : Int) : Prop := 0 ≤ w ∧ w < n

instance (n : ℕ) (w : Int) : Decidable (OnWire n w) := inferInstanceAs (Decidable (_ ∧ _))

lemma mem_wires {n : ℕ} {w : Int} : w ∈ (range n).map Int.ofNat ↔ OnWire n w := by
  simp only [mem_map, mem_range]
  exact ⟨fun ⟨i, hi, e⟩ => e ▸ ⟨Int.natCast_nonneg i, Int.ofNat_lt.2 hi⟩, fun ⟨h0, hn⟩ => ⟨w.toNat, by omega, Int.toNat_of_nonneg h0⟩⟩

lemma nodup_wires {n : ℕ} : ((range n).map Int.ofNat).Nodup := nodup_range.map fun _ _ => Int.ofNat.inj

namespace PerWire

variable {α : Type} [Inhabited α] {a : PerWire α} {w : Int}

/-- The value of a wire, and a default for a wire that is not there. -/
def val (a : PerWire α) (w : Int) : α := if w < 0 then default else a[w.toNat]?.getD default

lemma get_eq (hw : OnWire a.size w) : a.get w = .ok (a.val w) := by
  obtain ⟨h0, hn⟩ := hw
  have hs : w.toNat < a.size := by omega
  simp [get, val, not_lt.2 h0, orAbsent, hs]

omit [Inhabited α] in
@[simp] lemma size_set (a : PerWire α) (w : Int) (x : α) : Array.size (a.set w x) = Array.size a := by simp [set]

lemma val_set (hw : OnWire a.size w) (x : α) : (a.set w x).val = update a.val w x := by
  obtain ⟨h0, hn⟩ := hw
  have hs : w.toNat < a.size := by omega
  funext v
  by_cases hv : v = w
  · subst hv
    simp [val, set, not_lt.2 h0, hs]
  by_cases hn : v < 0
  · simp [val, hn, hv]
  · have hne : w.toNat ≠ v.toNat := by omega
    simp [val, set, hn, hv, Array.getElem?_setIfInBounds_ne hne]

lemma val_of_not_onWire (hw : ¬ OnWire a.size w) : a.val w = default := by
  by_cases h0 : w < 0
  · simp [val, h0]
  have hs : a.size ≤ w.toNat := by
    simp only [OnWire] at hw
    omega
  simp [val, h0, hs]

end PerWire

namespace Gate

variable {n : ℕ} {g : Gate} {w : Int} {l : List Gate}

lemma IsLaid.onWire (hg : g.IsLaid n) (hw : g.role w ≠ .absent) : OnWire n w := by
  rcases hg.shape hw with ⟨i, rfl⟩ | ⟨k, p, i, rfl, -⟩ | ⟨t, i, rfl, -⟩ | ⟨c, i, rfl, -⟩ | ⟨c, t, i, rfl, rfl | rfl⟩
  · exact hg
  · exact hg.2
  · exact hg.2.1
  · exact hg.2.2.1
  · exact hg.2.1
  · exact hg.2.2.1

lemma IsLaid.exists_role (hg : g.IsLaid n) : ∃ w, g.role w ≠ .absent := by
  obtain ⟨op, i⟩ := g
  cases op with
  | had t => exact ⟨t, by simp⟩
  | rotation k t p => exact ⟨t, by simp [hg.1]⟩
  | pair k c t => exact ⟨c, by rcases hg.1 with rfl | rfl <;> simp⟩
  | _ => exact hg.elim

lemma IsLaid.same_self (hg : g.IsLaid n) : g.same g := by
  obtain ⟨op, i⟩ := g
  cases op with
  | had t | rotation k t p | pair k c t => simp [same]
  | _ => exact hg.elim

lemma index_eq_of_same (h : a.same b) : a.index = b.index := by
  unfold same at h
  simp only [Bool.and_eq_true, beq_iff_eq] at h
  exact h.1

variable (hl : ∀ h ∈ l, h.same g ↔ h = g)
include hl

lemma removeFrom_eq (hg : g ∈ l) : g.removeFrom l = .ok (l.erase g) := by
  induction l with
  | nil => simp at hg
  | cons h l ih =>
    by_cases e : h = g
    · have hs := (hl h (by simp)).2 e
      simp [removeFrom, e, e ▸ hs]
    have hs : h.same g = false := by
      rw [← Bool.not_eq_true]
      exact fun hs => e ((hl h (by simp)).1 hs)
    have hg' : g ∈ l := by
      rcases mem_cons.1 hg with h' | h'
      · exact (e h'.symm).elim
      · exact h'
    simp [removeFrom, hs, ih (forall_mem_cons.1 hl).2 hg', e]

lemma isIn_iff : g.isIn l ↔ g ∈ l := by
  simp only [isIn, any_eq_true]
  constructor
  · rintro ⟨h, hh, hs⟩
    exact (hl h hh).1 hs ▸ hh
  · intro hg
    exact ⟨g, hg, (hl g hg).2 rfl⟩

end Gate

/-! ## Gates on one or two wires -/

section

variable {f : Int → List Gate} {g : Gate} {w u v : Int}

/-- The lanes with a gate at the end of those of its wires. -/
def laidOnto (f : Int → List Gate) (g : Gate) (w : Int) : List Gate := if g.role w = .absent then f w else f w ++ [g]

lemma update_laidOnto (single : ∀ v, g.role v ≠ .absent ↔ v = w) : update f w (f w ++ [g]) = laidOnto f g := by
  refine update_eq_iff.2 ⟨(if_neg ((single w).2 rfl)).symm, fun v hv => (if_pos ?_).symm⟩
  exact by_contra fun hr => hv ((single v).1 hr)

lemma update_laidOnto₂ (pair : ∀ w, g.role w ≠ .absent ↔ w = u ∨ w = v) :
    update (update f u (f u ++ [g])) v (f v ++ [g]) = laidOnto f g := by
  refine update_eq_iff.2 ⟨(if_neg ((pair v).2 (.inr rfl))).symm, fun w hv => ?_⟩
  by_cases hu : w = u
  · subst hu
    rw [update_self, laidOnto, if_neg ((pair w).2 (.inl rfl))]
  · rw [update_of_ne hu, laidOnto, if_pos (by_contra fun hr => ((pair w).1 hr).elim hu hv)]

lemma update_erase (hg : ∀ v, g ∈ f v → v = w) : update f w ((f w).erase g) = fun v => (f v).erase g :=
  update_eq_iff.2 ⟨rfl, fun v hv => (erase_of_not_mem fun hm => hv (hg v hm)).symm⟩

lemma update_erase₂ (hg : ∀ w, g ∈ f w → w = u ∨ w = v) :
    update (update f u ((f u).erase g)) v ((f v).erase g) = fun w => (f w).erase g := by
  refine update_eq_iff.2 ⟨rfl, fun w hv => ?_⟩
  by_cases hu : w = u
  · subst hu
    rw [update_self]
  · rw [update_of_ne hu, erase_of_not_mem fun hm => (hg w hm).elim hu hv]

end

/-! ## Sheets -/

/-- Lanes that hold the gates of a list, clashing ones in the order of the list.  The gates have different
    serial numbers below `count`. -/
structure Sheet (n count : ℕ) (lane : Int → List Gate) (l : List Gate) : Prop where
  index_lt : ∀ g ∈ l, g.index < count
  distinct : (l.map Gate.index).Nodup
  laid : ∀ g ∈ l, g.IsLaid n
  nodup : ∀ w, (lane w).Nodup
  mem_lane : ∀ w g, g ∈ lane w ↔ g ∈ l ∧ g.role w ≠ .absent
  order : ∀ w a b, Gate.Clash w a b → (Precedes (lane w) a b ↔ Precedes l a b)

namespace Sheet

variable {n count : ℕ} {lane : Int → List Gate} {l m : List Gate} {g : Gate} {w : Int} {d : ℕ} {t : Int}

section

variable (h : Sheet n count lane l)
include h

lemma nodup_list : l.Nodup := h.distinct.of_map _

lemma eq_of_index (ha : a ∈ l) (hb : b ∈ l) (e : a.index = b.index) : a = b := inj_on_of_nodup_map h.distinct ha hb e

lemma same_iff (ha : a ∈ l) (hb : b ∈ l) : a.same b ↔ a = b :=
  ⟨fun e => h.eq_of_index ha hb (Gate.index_eq_of_same e), fun e => e ▸ (h.laid a ha).same_self⟩

lemma mem_of_lane (hg : g ∈ lane w) : g ∈ l := ((h.mem_lane w g).1 hg).1

lemma same_iff_of_lane (hg : g ∈ l) : ∀ k ∈ lane w, k.same g ↔ k = g := fun _ hk => h.same_iff (h.mem_of_lane hk) hg

lemma reorder (p : l.Perm m) (order : ∀ w a b, Gate.Clash w a b → (Precedes l a b ↔ Precedes m a b)) : Sheet n count lane m where
  index_lt g hg := h.index_lt g (p.mem_iff.2 hg)
  distinct := (p.map _).nodup_iff.1 h.distinct
  laid g hg := h.laid g (p.mem_iff.2 hg)
  nodup := h.nodup
  mem_lane w g := by rw [h.mem_lane, p.mem_iff]
  order w a b hw := (h.order w a b hw).trans (order w a b hw)

lemma motionOf_eq (h' : Sheet n count lane m) : motionOf l = motionOf m := by
  have sub : ∀ {l m : List Gate}, Sheet n count lane l → Sheet n count lane m → ∀ g ∈ l, g ∈ m := by
    intro l m h h' g hg
    obtain ⟨w, hw⟩ := (h.laid g hg).exists_role
    exact h'.mem_of_lane ((h.mem_lane w g).2 ⟨hg, hw⟩)
  refine motionOf_eq_of_order h.nodup_list h'.nodup_list (fun g => ⟨sub h h' g, sub h' h g⟩) h.laid ?_
  intro w a b hw hab
  exact (h'.order w a b hw).1 ((h.order w a b hw).2 hab)

lemma courseOf_eq (h' : Sheet n count lane m) : courseOf l = courseOf m := courseOf_eq_of_motionOf (h.motionOf_eq h')

end

/-- A new gate stands on each of its wires between gates that are before it in the list and gates that are after it. -/
lemma insert {f : Int → List Gate} (h : Sheet n count lane (l ++ m)) (hg : g.IsLaid n) (new : ∀ k ∈ l ++ m, k.index ≠ g.index)
    (hi : g.index < d) (hc : count ≤ d) (away : ∀ w, g.role w = .absent → f w = lane w)
    (there : ∀ w, g.role w ≠ .absent → ∃ r s, lane w = r ++ s ∧ f w = r ++ g :: s ∧ (∀ a ∈ r, a ∈ l) ∧ ∀ a ∈ s, a ∈ m) :
    Sheet n d f (l ++ g :: m) := by
  have hgl : g ∉ l ++ m := fun hm => new g hm rfl
  have hnd := h.nodup_list
  have hperm : (l ++ g :: m).Perm (g :: (l ++ m)) := perm_middle
  refine ⟨fun k hk => ?_, ?_, fun k hk => ?_, fun w => ?_, fun w k => ?_, fun w a b hw => ?_⟩
  · rcases mem_cons.1 (hperm.mem_iff.1 hk) with rfl | hk
    · exact hi
    · exact (h.index_lt k hk).trans_le hc
  · rw [(hperm.map _).nodup_iff, map_cons, nodup_cons]
    refine ⟨fun hm => ?_, h.distinct⟩
    obtain ⟨k, hk, ek⟩ := mem_map.1 hm
    exact new k hk ek
  · rcases mem_cons.1 (hperm.mem_iff.1 hk) with rfl | hk
    · exact hg
    · exact h.laid k hk
  · by_cases hr : g.role w = .absent
    · rw [away w hr]
      exact h.nodup w
    obtain ⟨r, s, e, ef, -⟩ := there w hr
    rw [ef, nodup_middle, nodup_cons, ← e]
    exact ⟨fun hm => hgl (h.mem_of_lane hm), h.nodup w⟩
  · have hm := h.mem_lane w k
    rw [hperm.mem_iff]
    by_cases hr : g.role w = .absent
    · grind
    · obtain ⟨r, s, e, ef, -⟩ := there w hr
      grind
  · have ho := h.order w a b hw
    by_cases hr : g.role w = .absent
    · have hga : a ≠ g := fun e => hw.1 (e ▸ hr)
      have hgb : b ≠ g := fun e => hw.2.1 (e ▸ hr)
      rw [away w hr, ho]
      simp only [precedes_append, precedes_cons, mem_cons]
      grind
    obtain ⟨r, s, e, ef, hr, hs⟩ := there w hr
    have hma := h.mem_lane w a
    have hmb := h.mem_lane w b
    have hra := hw.1
    have hrb := hw.2.1
    rw [e] at ho hma hmb
    rw [ef]
    clear there
    simp only [precedes_append, precedes_cons, mem_append, mem_cons] at *
    grind

/-- A gate passes the ones after it that it does not clash with. -/
lemma slide {u v s : List Gate} (free : ∀ k ∈ v, ∀ w, ¬ Gate.Clash w g k) :
    Sheet n count lane (u ++ g :: (v ++ s)) ↔ Sheet n count lane (u ++ (v ++ g :: s)) := by
  have p : (u ++ g :: (v ++ s)).Perm (u ++ (v ++ g :: s)) := perm_middle.symm.append_left u
  have order : ∀ w a b, Gate.Clash w a b → (Precedes (u ++ g :: (v ++ s)) a b ↔ Precedes (u ++ (v ++ g :: s)) a b) :=
    fun w _ _ => precedes_move fun k hk => ⟨free k hk w, fun c => free k hk w c.symm⟩
  exact ⟨fun h => h.reorder p order, fun h => h.reorder p.symm fun w a b hw => (order w a b hw).symm⟩

variable (h : Sheet n count lane l)
include h

lemma push (hg : g.IsLaid n) (new : ∀ k ∈ l, k.index ≠ g.index) (hi : g.index < d) (hc : count ≤ d) :
    Sheet n d (laidOnto lane g) (l ++ [g]) := by
  have h' : Sheet n count lane (l ++ []) := by rwa [append_nil]
  refine h'.insert hg (by rwa [append_nil]) hi hc (fun w hw => if_pos hw) fun w hw => ?_
  exact ⟨lane w, [], by simp, if_neg hw, fun a => h.mem_of_lane, by simp⟩

lemma slideLane {u v s : List Gate} (e : lane t = u ++ g :: (v ++ s)) (free : ∀ k ∈ v, ¬ Gate.Clash t g k) :
    Sheet n count (update lane t (u ++ (v ++ g :: s))) l := by
  have p : (lane t).Perm (u ++ (v ++ g :: s)) := e ▸ perm_middle.symm.append_left u
  have order : ∀ a b, Gate.Clash t a b → (Precedes (lane t) a b ↔ Precedes (u ++ (v ++ g :: s)) a b) :=
    fun a b => e ▸ precedes_move fun k hk => ⟨free k hk, fun c => free k hk c.symm⟩
  refine { h with nodup := fun w => ?_, mem_lane := fun w g => ?_, order := fun w a b hw => ?_ } <;> by_cases hwt : w = t
  · subst hwt
    rw [update_self]
    exact p.nodup_iff.1 (h.nodup w)
  · rw [update_of_ne hwt]
    exact h.nodup w
  · subst hwt
    rw [update_self, ← p.mem_iff, h.mem_lane]
  · rw [update_of_ne hwt, h.mem_lane]
  · subst hwt
    rw [update_self, ← order a b hw, h.order w a b hw]
  · rw [update_of_ne hwt, h.order w a b hw]

lemma remove (g : Gate) : Sheet n count (fun w => (lane w).erase g) (l.erase g) where
  index_lt k hk := h.index_lt k (mem_of_mem_erase hk)
  distinct := h.distinct.sublist (erase_sublist.map _)
  laid k hk := h.laid k (mem_of_mem_erase hk)
  nodup w := (h.nodup w).erase g
  mem_lane w k := by
    rw [(h.nodup w).mem_erase_iff, h.nodup_list.mem_erase_iff, h.mem_lane, and_assoc]
  order w a b hw := by
    rw [precedes_erase (h.nodup w), precedes_erase h.nodup_list, h.order w a b hw]

lemma toLast (hg : g ∈ l) (last : ∀ w b, Gate.Clash w g b → ¬ Precedes (lane w) g b) : Sheet n count lane (l.erase g ++ [g]) := by
  obtain ⟨as, bs, rfl⟩ := append_of_mem hg
  rw [erase_middle h.nodup_list, append_assoc]
  refine (slide (s := []) fun k hk w hc => last w k hc ((h.order w g k hc).2 ?_)).1 (by rwa [append_nil])
  simp [hk]

lemma toFirst (hg : g ∈ l) (first : ∀ w a, Gate.Clash w a g → ¬ Precedes (lane w) a g) : Sheet n count lane (g :: l.erase g) := by
  obtain ⟨as, bs, rfl⟩ := append_of_mem hg
  rw [erase_middle h.nodup_list]
  refine (slide (u := []) fun k hk w hc => first w k hc.symm ((h.order w k g hc.symm).2 ?_)).2 h
  simp [hk]

end Sheet

/-! ## Reading and changing lanes -/

namespace Lanes

variable {l : Lanes} {w : Int} {g : Gate}

lemma on_eq (hw : OnWire l.size w) : l.on w = .ok (PerWire.val l w) := PerWire.get_eq hw

lemma remove_eq (hw : OnWire l.size w) (hl : ∀ h ∈ PerWire.val l w, h.same g ↔ h = g)
    (hg : g ∈ PerWire.val l w) : l.remove w g = .ok (PerWire.set l w ((PerWire.val l w).erase g)) := by
  rw [remove, on_eq hw]
  simp only [Except.bind, bind, Gate.removeFrom_eq hl hg]
  rfl

end Lanes

/-- Values of the wires from zero up to `n` that are given by a function. -/
structure Shows {α : Type} [Inhabited α] (n : ℕ) (a : PerWire α) (f : Int → α) : Prop where
  size : Array.size a = n
  val : PerWire.val a = f

namespace Shows

variable {α : Type} [Inhabited α] {n : ℕ} {a : PerWire α} {f : Int → α} {w : Int}

lemma get (h : Shows n a f) (hw : OnWire n w) : a.get w = .ok (f w) := by
  rw [PerWire.get_eq (h.size ▸ hw), h.val]

lemma set (h : Shows n a f) (hw : OnWire n w) (x : α) : Shows n (a.set w x) (update f w x) :=
  ⟨by rw [PerWire.size_set, h.size], by rw [PerWire.val_set (h.size ▸ hw), h.val]⟩

lemma empty (n : Int) : Shows n.toNat (Lanes.empty n) fun _ => [] := by
  refine ⟨by simp [Lanes.empty], funext fun w => ?_⟩
  simp only [PerWire.val, Lanes.empty, Array.getElem?_replicate]
  split
  · rfl
  · split <;> rfl

lemma toList_eq (h : Shows n a f) : Array.toList a = (range n).map fun i : ℕ => f i := by
  refine ext_getElem (by simp [h.size]) fun i hi _ => ?_
  have hs : i < Array.size a := hi
  simp only [getElem_map, getElem_range]
  rw [← h.val]
  simp [PerWire.val, hs]

variable {l : Lanes} {f : Int → List Gate} {g : Gate}

variable (h : Shows n l f) (hw : OnWire n w)
include h hw

lemma look : l.on w = .ok (f w) := h.get hw

lemma push (g : Gate) : ∃ l', l.push w g = .ok l' ∧ Shows n l' (update f w (f w ++ [g])) := by
  rw [Lanes.push, h.look hw]
  exact ⟨_, rfl, h.set hw _⟩

lemma remove (hl : ∀ k ∈ f w, k.same g ↔ k = g) (hg : g ∈ f w) :
    ∃ l', l.remove w g = .ok l' ∧ Shows n l' (update f w ((f w).erase g)) := by
  obtain ⟨rfl, rfl⟩ := h
  exact ⟨_, Lanes.remove_eq hw hl hg, Shows.set ⟨rfl, rfl⟩ hw _⟩

lemma pushOne (single : ∀ v, g.role v ≠ .absent ↔ v = w) : ∃ l', l.push w g = .ok l' ∧ Shows n l' (laidOnto f g) := by
  rw [← update_laidOnto single]
  exact h.push hw g

lemma pushTwo {u : Int} (hu : OnWire n u) (hwu : w ≠ u) (pair : ∀ v, g.role v ≠ .absent ↔ v = w ∨ v = u) :
    ∃ l₁ l₂, l.push w g = .ok l₁ ∧ l₁.push u g = .ok l₂ ∧ Shows n l₂ (laidOnto f g) := by
  obtain ⟨l₁, e₁, h₁⟩ := h.push hw g
  obtain ⟨l₂, e₂, h₂⟩ := h₁.push hu g
  rw [update_of_ne hwu.symm, update_laidOnto₂ pair] at h₂
  exact ⟨l₁, l₂, e₁, e₂, h₂⟩

lemma removeOne (hl : ∀ k ∈ f w, k.same g ↔ k = g) (hg : ∀ v, g ∈ f v ↔ v = w) :
    ∃ l', l.remove w g = .ok l' ∧ Shows n l' fun v => (f v).erase g := by
  rw [← update_erase fun v => (hg v).1]
  exact h.remove hw hl ((hg w).2 rfl)

lemma removeTwo {u : Int} (hu : OnWire n u) (hwu : w ≠ u) (hl : ∀ v, ∀ k ∈ f v, k.same g ↔ k = g) (hg : ∀ v, g ∈ f v ↔ v = w ∨ v = u) :
    ∃ l₁ l₂, l.remove w g = .ok l₁ ∧ l₁.remove u g = .ok l₂ ∧ Shows n l₂ fun v => (f v).erase g := by
  obtain ⟨l₁, e₁, h₁⟩ := h.remove hw (hl w) ((hg w).2 (.inl rfl))
  have eu : update f w ((f w).erase g) u = f u := update_of_ne hwu.symm ..
  obtain ⟨l₂, e₂, h₂⟩ := h₁.remove hu (eu ▸ hl u) (eu ▸ (hg u).2 (.inr rfl))
  rw [eu, update_erase₂ fun v => (hg v).1] at h₂
  exact ⟨l₁, l₂, e₁, e₂, h₂⟩

end Shows

end ZXCircuits
