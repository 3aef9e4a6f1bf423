/-
  Which gates pass one another.

  On each of its wires a gate plays a role: that of a gate about the Z axis, of one about the X axis, or neither.  Two
  gates clash on a wire if their roles there differ or are neither; gates that clash nowhere commute
  (`commute_of_forall_not_clash`).
-/
import ZXCircuits.Proofs.Motion.Course
import ZXCircuits.Optimise.Consume

namespace ZXCircuits

open List Function LinearEquiv Course

variable {s t : Int} {f : Register → Bool}

/-! ## Roles -/

/-- How a gate acts on a wire. -/
inductive Role where
  | absent
  | z
  | x
  | mixed
  deriving DecidableEq

/-- Whether gates of the two roles on one wire need not commute. -/
def Role.Clashes (r s : Role) : Prop := r ≠ absent ∧ s ≠ absent ∧ (r ≠ s ∨ r = mixed)

lemma Role.Clashes.symm {r s : Role} (h : r.Clashes s) : s.Clashes r := by
  obtain ⟨hr, hs, h⟩ := h
  refine ⟨hs, hr, ?_⟩
  rcases h with h | h
  · exact .inl h.symm
  subst h
  by_cases e : s = mixed
  · exact .inr e
  · exact .inl e

def Operation.role : Operation → Int → Role
  | .had t, w => if w = t then .mixed else .absent
  | .rotation k t _, w => if w = t then (if k.isZ then .z else .x) else .absent
  | .pair .cnot c t, w => if w = c then .z else if w = t then .x else .absent
  | .pair .cz c t, w => if w = c ∨ w = t then .z else .absent
  | .pair _ c t, w => if w = c ∨ w = t then .mixed else .absent
  | _, _ => .absent

namespace Gate

def role (g : Gate) (w : Int) : Role := g.op.role w

/-- Whether two gates need not commute because of a wire. -/
def Clash (w : Int) (a b : Gate) : Prop := (a.role w).Clashes (b.role w)

/-- A gate of the sorts that are laid down in lanes, on different wires from zero up to `n`. -/
def IsLaid (n : ℕ) (g : Gate) : Prop :=
  match g.op with
  | .had t => 0 ≤ t ∧ t < n
  | .rotation k t _ => k.isZ ∧ 0 ≤ t ∧ t < n
  | .pair k c t => (k = .cnot ∨ k = .cz) ∧ (0 ≤ c ∧ c < n) ∧ (0 ≤ t ∧ t < n) ∧ c ≠ t
  | _ => False

variable {n : ℕ} {g : Gate} {c t w : Int} {i : Nat}

@[simp] lemma role_had : role ⟨.had t, i⟩ w = if w = t then .mixed else .absent := rfl

@[simp] lemma role_rotation (k : Rotation) (p : Rat) :
    role ⟨.rotation k t p, i⟩ w = if w = t then (if k.isZ then .z else .x) else .absent := rfl

@[simp] lemma role_cnot : role ⟨.pair .cnot c t, i⟩ w = if w = c then .z else if w = t then .x else .absent := rfl

@[simp] lemma role_cz : role ⟨.pair .cz c t, i⟩ w = if w = c ∨ w = t then .z else .absent := rfl

lemma IsLaid.shape (hg : g.IsLaid n) (hw : g.role w ≠ .absent) : (∃ i, g = ⟨.had w, i⟩) ∨
    (∃ k p i, g = ⟨.rotation k w p, i⟩ ∧ k.isZ) ∨ (∃ t i, g = ⟨.pair .cnot w t, i⟩ ∧ w ≠ t) ∨
    (∃ c i, g = ⟨.pair .cnot c w, i⟩ ∧ c ≠ w) ∨ ∃ c t i, g = ⟨.pair .cz c t, i⟩ ∧ (w = c ∨ w = t) := by
  obtain ⟨op, i⟩ := g
  cases op with
  | had t =>
    obtain rfl : w = t := by simpa using hw
    exact .inl ⟨i, rfl⟩
  | rotation k t p =>
    have hk := hg.1
    obtain rfl : w = t := by simpa [hk] using hw
    exact .inr (.inl ⟨k, p, i, rfl, hk⟩)
  | pair k c t =>
    obtain ⟨rfl | rfl, -, -, hct⟩ := hg
    · by_cases hc : w = c
      · subst hc
        exact .inr (.inr (.inl ⟨t, i, rfl, hct⟩))
      · obtain rfl : w = t := by simpa [hc] using hw
        exact .inr (.inr (.inr (.inl ⟨c, i, rfl, hct⟩)))
    · exact .inr (.inr (.inr (.inr ⟨c, t, i, rfl, by_contra fun h => hw (if_neg h)⟩)))
  | _ => exact hg.elim

end Gate

/-! ## Commuting motions -/

lemma Course.commute_of {a b : Motion} (e : Commute a b) : Commute (of a) (of b) := by
  rw [Commute, SemiconjBy, ← of_mul, ← of_mul, e.eq]

def Free {α : Type} (t : Int) (f : Register → α) : Prop := ∀ y b, f (update y t b) = f y

lemma commute_diag_diag (f g : Register → ℂˣ) : Commute (diag f) (diag g) := by
  refine ext fun ψ => funext fun y => ?_
  simp only [mul_apply, diag_apply]
  ring

lemma commute_had_had (h : s ≠ t) : Commute (had s) (had t) := by
  refine ext fun ψ => funext fun y => ?_
  simp only [mul_apply, had_apply, mix, update_of_ne h, update_of_ne h.symm, update_comm h]
  ring

lemma commute_had_diag {t : Int} {f : Register → ℂˣ} (hf : Free t f) : Commute (had t) (diag f) := by
  refine ext fun ψ => funext fun y => ?_
  simp only [mul_apply, had_apply, mix, diag_apply, hf y]
  ring

lemma commute_had_flip (h : s ≠ t) (hf : Free s f) : Commute (had s) (relabel (flipWhen t f)) := by
  refine ext fun ψ => funext fun y => ?_
  simp [mul_apply, had_apply, mix, relabel_apply, flipWhen_apply, update_of_ne h, update_of_ne h.symm, update_comm h, hf (update y t false)]

lemma commute_flip_diag {t : Int} {g : Register → ℂˣ} (hg : Free t g) : Commute (relabel (flipWhen t f)) (diag g) := by
  refine ext fun ψ => funext fun y => ?_
  simp [mul_apply, relabel_apply, flipWhen_apply, diag_apply, hg y]

lemma commute_flip_flip_self (t : Int) (f g : Register → Bool) : Commute (relabel (flipWhen t f)) (relabel (flipWhen t g)) := by
  refine ext fun ψ => funext fun y => ?_
  simp only [mul_apply, relabel_apply, flipWhen_apply, update_self, update_idem, Bool.xor_right_comm]

lemma commute_flip_flip {f g : Register → Bool} (h : s ≠ t) (hf : Free t f) (hg : Free s g) :
    Commute (relabel (flipWhen s f)) (relabel (flipWhen t g)) := by
  refine ext fun ψ => funext fun y => ?_
  have hf' : ∀ b, f (update (update y t b) s false) = f (update y s false) := by
    intro b
    rw [update_comm h.symm]
    exact hf _ _
  simp [mul_apply, relabel_apply, flipWhen_apply, update_of_ne h, update_of_ne h.symm, update_comm h, hf', hg (update y t false)]

namespace Gate

variable {n : ℕ} {a b : Gate}

lemma IsLaid.forms {g : Gate} (hg : g.IsLaid n) : (∃ t, g.op.motion = ZXCircuits.had t ∧ g.role t = .mixed) ∨
    (∃ f, g.op.motion = diag f ∧ ∀ w, g.role w = .z ∨ Free w f) ∨
    (∃ t f, g.op.motion = relabel (flipWhen t f) ∧ g.role t = .x ∧ ∀ w, w = t ∨ g.role w = .z ∨ Free w f) := by
  obtain ⟨op, i⟩ := g
  cases op with
  | had t => exact .inl ⟨t, rfl, by simp [role, Operation.role]⟩
  | rotation k t p =>
    obtain ⟨hk, -⟩ := hg
    refine .inr (.inl ⟨fun y => factor p (y t), by simp [Operation.motion, hk, zTurn], fun w => ?_⟩)
    by_cases hw : w = t
    · simp [role, Operation.role, hw, hk]
    · exact .inr fun y b => by simp [update_of_ne (Ne.symm hw)]
  | pair k c t =>
    obtain ⟨hk, -, -, hct⟩ := hg
    rcases hk with rfl | rfl
    · refine .inr (.inr ⟨t, fun y => y c, rfl, by simp [role, Operation.role, hct.symm], fun w => ?_⟩)
      by_cases hw : w = c
      · simp [role, Operation.role, hw]
      · exact .inr (.inr fun y b => by simp [update_of_ne (Ne.symm hw)])
    refine .inr (.inl ⟨fun y => factor 1 (y c && y t), rfl, fun w => ?_⟩)
    by_cases hw : w = c ∨ w = t
    · simp [role, Operation.role, hw]
    · obtain ⟨hc, ht⟩ := not_or.1 hw
      exact .inr fun y b => by simp [update_of_ne (Ne.symm hc), update_of_ne (Ne.symm ht)]
  | _ => exact hg.elim

lemma Clash.symm {w : Int} (h : Clash w a b) : Clash w b a := Role.Clashes.symm h

lemma commute_motion (ha : a.IsLaid n) (hb : b.IsLaid n) (h : ∀ w, ¬ Clash w a b) : Commute a.op.motion b.op.motion := by
  have free : ∀ {a b : Gate}, (∀ w, ¬ Clash w a b) → ∀ {t : Int} {α : Type} {f : Register → α}, a.role t = .mixed →
      b.role t = .z ∨ Free t f → Free t f := by
    intro a b h t α f hr hf
    refine hf.resolve_left fun e => h t ?_
    simp [Clash, Role.Clashes, hr, e]
  have ne : ∀ {a b : Gate}, (∀ w, ¬ Clash w a b) → ∀ {s t : Int}, a.role s = .mixed → b.role t ≠ .absent → s ≠ t := by
    intro a b h s t hs ht e
    subst e
    exact h s ⟨by simp [hs], ht, .inr hs⟩
  have h' : ∀ w, ¬ Clash w b a := fun w c => h w c.symm
  rcases ha.forms with ⟨s, ea, hs⟩ | ⟨f, ea, hf⟩ | ⟨s, f, ea, hs, hf⟩ <;>
    rcases hb.forms with ⟨t, eb, ht⟩ | ⟨g, eb, hg⟩ | ⟨t, g, eb, ht, hg⟩ <;> rw [ea, eb]
  · exact commute_had_had (ne h hs (by simp [ht]))
  · exact commute_had_diag (free h hs (hg s))
  · have hst := ne h hs (t := t) (by simp [ht])
    exact commute_had_flip hst (free h hs ((hg s).resolve_left hst))
  · exact (commute_had_diag (free h' ht (hf t))).symm
  · exact commute_diag_diag f g
  · refine (commute_flip_diag ((hf t).resolve_left fun e => h t ?_)).symm
    simp [Clash, Role.Clashes, e, ht]
  · have hts := ne h' ht (t := s) (by simp [hs])
    exact (commute_had_flip hts (free h' ht ((hf t).resolve_left hts))).symm
  · refine commute_flip_diag ((hg s).resolve_left fun e => h s ?_)
    simp [Clash, Role.Clashes, e, hs]
  · by_cases hst : s = t
    · subst hst
      exact commute_flip_flip_self s f g
    refine commute_flip_flip hst (((hf t).resolve_left (Ne.symm hst)).resolve_left fun e => h t ?_)
      (((hg s).resolve_left hst).resolve_left fun e => h s ?_)
    · simp [Clash, Role.Clashes, e, ht]
    · simp [Clash, Role.Clashes, e, hs]

lemma commute_of_forall_not_clash (ha : a.IsLaid n) (hb : b.IsLaid n) (h : ∀ w, ¬ Clash w a b) :
    Commute (of a.op.motion) (of b.op.motion) := commute_of (commute_motion ha hb h)

end Gate

/-! ## Orders of lists -/

section Order

variable {α : Type} {l m : List α} {a b c : α}

def Precedes (l : List α) (a b : α) : Prop := [a, b].Sublist l

@[simp] lemma not_precedes_nil : ¬ Precedes [] a b := by simp [Precedes]

@[simp] lemma precedes_cons : Precedes (c :: l) a b ↔ a = c ∧ b ∈ l ∨ Precedes l a b := by
  rw [Precedes, List.cons_sublist_cons']
  simp [Precedes, or_comm]

@[simp] lemma precedes_append : Precedes (l ++ m) a b ↔ Precedes l a b ∨ a ∈ l ∧ b ∈ m ∨ Precedes m a b := by
  induction l with
  | nil => simp
  | cons c l ih =>
    simp only [List.cons_append, precedes_cons, ih, mem_append, mem_cons]
    grind

lemma Precedes.mem_left (h : Precedes l a b) : a ∈ l := h.subset (by simp)

lemma Precedes.mem_right (h : Precedes l a b) : b ∈ l := h.subset (by simp)

lemma not_mem_of_nodup (h : (l ++ b :: m).Nodup) : b ∉ l ∧ b ∉ m := by simpa using (nodup_cons.1 (nodup_middle.1 h)).1

lemma Precedes.mem_of_nodup (hn : (l ++ b :: m).Nodup) (h : Precedes (l ++ b :: m) a b) : a ∈ l := by
  obtain ⟨hl, hm⟩ := not_mem_of_nodup hn
  simp only [precedes_append, precedes_cons, mem_cons] at h
  rcases h with h | ⟨h, -⟩ | ⟨-, h⟩ | h
  · exact (hl h.mem_right).elim
  · exact h
  · exact (hm h).elim
  · exact (hm h.mem_right).elim

lemma Precedes.asymm (hl : l.Nodup) (h : Precedes l a b) : ¬ Precedes l b a := by
  induction l with
  | nil => simp at h
  | cons c l ih =>
    intro h'
    have hc := (nodup_cons.1 hl).1
    rcases precedes_cons.1 h with ⟨rfl, hb⟩ | h1 <;> rcases precedes_cons.1 h' with ⟨rfl, ha⟩ | h2
    · exact hc hb
    · exact hc h2.mem_right
    · exact hc h1.mem_right
    · exact ih (nodup_cons.1 hl).2 h1 h2

lemma precedes_or_precedes (ha : a ∈ l) (hb : b ∈ l) (hab : a ≠ b) : Precedes l a b ∨ Precedes l b a := by
  induction l with
  | nil => simp at ha
  | cons c l ih =>
    simp only [precedes_cons]
    grind

lemma precedes_erase [DecidableEq α] (hl : l.Nodup) : Precedes (l.erase c) a b ↔ a ≠ c ∧ b ≠ c ∧ Precedes l a b := by
  constructor
  · intro h
    have ha := (hl.mem_erase_iff.1 h.mem_left).1
    have hb := (hl.mem_erase_iff.1 h.mem_right).1
    exact ⟨ha, hb, List.Sublist.trans h erase_sublist⟩
  · rintro ⟨ha, hb, h⟩
    have := h.erase c
    rwa [erase_cons_tail (by simpa using ha), erase_cons_tail (by simpa using hb), erase_nil] at this

lemma precedes_move {r : α → α → Prop} {as bs cs : List α} {g : α} (free : ∀ k ∈ bs, ¬ r g k ∧ ¬ r k g) (hab : r a b) :
    Precedes (as ++ g :: (bs ++ cs)) a b ↔ Precedes (as ++ (bs ++ g :: cs)) a b := by
  have h1 : ∀ k ∈ bs, a = g → b ≠ k := by
    rintro k hk rfl rfl
    exact (free b hk).1 hab
  have h2 : ∀ k ∈ bs, b = g → a ≠ k := by
    rintro k hk rfl rfl
    exact (free a hk).2 hab
  simp only [precedes_append, precedes_cons, mem_append, mem_cons]
  grind

lemma erase_middle [DecidableEq α] (h : (l ++ b :: m).Nodup) : (l ++ b :: m).erase b = l ++ m := by
  rw [erase_append_right _ (not_mem_of_nodup h).1, erase_cons_head]

end Order

/-! ## Lists of gates in other orders -/

variable {n : ℕ}

section

variable {g : Gate} {l : List Gate} (hg : g.IsLaid n) (hl : ∀ a ∈ l, a.IsLaid n) (h : ∀ a ∈ l, ∀ w, ¬ Gate.Clash w a g)
include hg hl h

lemma commute_motionOf : Commute (motionOf l) g.op.motion := by
  refine Commute.list_prod_left _ _ fun c hc => ?_
  obtain ⟨a, ha, rfl⟩ := mem_map.1 (mem_reverse.1 hc)
  exact Gate.commute_motion (hl a ha) hg (h a ha)

lemma commute_courseOf : Commute (courseOf l) (of g.op.motion) := by
  rw [← of_motionOf]
  exact commute_of (commute_motionOf hg hl h)

end

/-- **Gates that clash nowhere may change places.** -/
theorem motionOf_eq_of_order {l m : List Gate} (hl : l.Nodup) (hm : m.Nodup) (mem : ∀ g, g ∈ l ↔ g ∈ m)
    (laid : ∀ g ∈ l, g.IsLaid n) (order : ∀ w a b, Gate.Clash w a b → Precedes l a b → Precedes m a b) :
    motionOf l = motionOf m := by
  induction m generalizing l with
  | nil =>
    have : l = [] := eq_nil_iff_forall_not_mem.2 fun g hg => by simpa using (mem g).1 hg
    rw [this]
  | cons g m ih =>
    obtain ⟨hgm, hm⟩ := nodup_cons.1 hm
    obtain ⟨pre, post, rfl⟩ := append_of_mem ((mem g).2 (by simp))
    -- no gate before `g` clashes with it, as it would have to come before `g` in `g :: m`
    have first : ∀ a ∈ pre, ∀ w, ¬ Gate.Clash w a g := by
      intro a ha w hw
      have := order w a g hw (by simp [ha])
      rcases precedes_cons.1 this with ⟨-, h⟩ | h
      · exact hgm h
      · exact hgm h.mem_right
    have hc := commute_motionOf (laid g (by simp)) (fun a ha => laid a (by simp [ha])) first
    have hnd : (pre ++ post).Nodup ∧ g ∉ pre ++ post := by simpa [nodup_middle, and_comm] using hl
    have e := ih hnd.1 hm (fun a => by have := mem a; grind) (fun a ha => laid a (by grind)) (fun w a b hw h => by
        have := order w a b hw (by simp only [precedes_append, precedes_cons, mem_cons] at h ⊢; grind)
        rcases precedes_cons.1 this with ⟨rfl, -⟩ | h'
        · exact (hnd.2 h.mem_left).elim
        · exact h')
    rw [motionOf_append, motionOf_cons, mul_assoc, ← hc.eq, ← mul_assoc, ← motionOf_append, e, motionOf_cons]

end ZXCircuits
