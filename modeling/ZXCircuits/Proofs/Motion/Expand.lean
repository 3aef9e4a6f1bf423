/-
  Gates as sequences of basic gates.

  Controlled nots carry the factors of a diagonal gate from one parity of bits to another.  A parity phase is a rotation carried
  along a chain of controlled nots, and the doubly controlled sign is a product of seven rotations, each carried to a parity of its own.
-/
import ZXCircuits.Proofs.Lanes.Sheet
import ZXCircuits.Proofs.Pass.Marks

namespace ZXCircuits

open List Function

namespace Gate

/-- A gate that needs no expansion, on different wires from zero up to `n`. -/
def IsBasic (n : ℕ) (g : Gate) : Prop :=
  match g.op with
  | .had t => OnWire n t
  | .rotation _ t _ => OnWire n t
  | .pair k c t => k ≠ .swap ∧ OnWire n c ∧ OnWire n t ∧ c ≠ t
  | _ => False

/-- A gate on different wires from zero up to `n`. -/
def Fits (n : ℕ) (g : Gate) : Prop :=
  match g.op with
  | .had t => OnWire n t
  | .rotation _ t _ => OnWire n t
  | .pair _ c t => OnWire n c ∧ OnWire n t ∧ c ≠ t
  | .triple _ a b t => (OnWire n a ∧ OnWire n b ∧ OnWire n t) ∧ a ≠ b ∧ a ≠ t ∧ b ≠ t
  | .parity _ ts => ts ≠ [] ∧ ts.Nodup ∧ ∀ t ∈ ts, OnWire n t
  | .initAncilla _ | .postSelect _ => False

end Gate

namespace Course

variable {a b c t : Int} {p : ℚ} {f k : Register → ℂˣ}

noncomputable def phases (f : Register → ℂˣ) : Course := of (diag f)

lemma phases_mul_phases : phases f * phases k = phases fun y => f y * k y := by
  refine of_eq_of_apply fun ψ y => ?_
  simp only [LinearEquiv.mul_apply, diag_apply, Units.val_mul]
  ring

lemma cnot_mul_phases : cnot c t * phases f = phases (fun y => f (flipWhen t (fun x => x c) y)) * cnot c t := by
  refine of_eq_of_apply fun ψ y => ?_
  simp [cFlip]

lemma cnot_mul_z (hct : c ≠ t) : cnot c t * z t p = phases (fun y => factor p (xor (y t) (y c))) * cnot c t := by
  refine (cnot_mul_phases (f := fun y => factor p (y t))).trans (congrArg (phases · * cnot c t) (funext fun y => ?_))
  rw [flipWhen_apply, update_self, update_of_ne hct]

lemma commute_cnot_cnot (a b t : Int) : Commute (cnot a t) (cnot b t) := commute_of (commute_flip_flip_self _ _ _)

/-! ## The doubly controlled sign -/

lemma cnots_target (hac : a ≠ c) (hbc : b ≠ c) : cnot b c * z c (-1 / 4) * cnot a c * z c (1 / 4) * cnot b c * z c (-1 / 4) * cnot a c =
      phases (fun y => factor (-1 / 4) (xor (y c) (y b))) * phases (fun y => factor (1 / 4) (xor (xor (y c) (y a)) (y b))) *
        phases fun y => factor (-1 / 4) (xor (y c) (y a)) := by
  set P := phases fun y => factor (-1 / 4) (xor (y c) (y b))
  set Q := phases fun y => factor (1 / 4) (xor (xor (y c) (y a)) (y b))
  have one : cnot b c * z c (-1 / 4) = P * cnot b c := cnot_mul_z hbc
  have both : cnot b c * phases (fun y => factor (1 / 4) (xor (y c) (y a))) = Q * cnot b c := by
    rw [cnot_mul_phases]
    refine congrArg (phases · * cnot b c) (funext fun y => ?_)
    rw [flipWhen_apply, update_self, update_of_ne hac, update_of_ne hbc, Bool.xor_right_comm]
  have cancel : cnot b c * cnot a c * cnot b c = cnot a c := by
    rw [(commute_cnot_cnot b a c).eq, mul_assoc, cnot_mul_cnot, mul_one]
  calc _ = P * (cnot b c * (cnot a c * z c (1 / 4))) * cnot b c * z c (-1 / 4) * cnot a c := by rw [one]; simp only [mul_assoc]
    _ = P * Q * (cnot b c * cnot a c * cnot b c) * z c (-1 / 4) * cnot a c := by
        rw [cnot_mul_z hac, ← mul_assoc (cnot b c), both]
        simp [mul_assoc]
    _ = P * Q * (cnot a c * z c (-1 / 4)) * cnot a c := by rw [cancel]; simp only [mul_assoc]
    _ = _ := by rw [cnot_mul_z hac, mul_assoc, mul_assoc (phases _) (cnot a c), cnot_mul_cnot, mul_one]

lemma cnots_control (hab : a ≠ b) :
    cnot a b * z a (1 / 4) * z b (-1 / 4) * cnot a b = z a (1 / 4) * phases fun y => factor (-1 / 4) (xor (y b) (y a)) := by
  rw [← (commute_z_cnot hab).eq, mul_assoc (z a _), cnot_mul_z hab, mul_assoc, mul_assoc, cnot_mul_cnot, mul_one]

noncomputable def ccz (a b c : Int) : Course := phases fun y => factor 1 (y a && y b && y c)

lemma ccz_eq (hab : a ≠ b) (hac : a ≠ c) (hbc : b ≠ c) :
    cnot b c * z c (-1 / 4) * cnot a c * z c (1 / 4) * cnot b c * z c (-1 / 4) * cnot a c * z b (1 / 4) * z c (1 / 4) *
      (cnot a b * z a (1 / 4) * z b (-1 / 4) * cnot a b) = ccz a b c := by
  have hz : ∀ t p, z t p = phases fun y => factor p (y t) := fun _ _ => rfl
  have h1 : turn (1 / 4) * turn (-1 / 4) = 1 := by
    rw [← turn_add]
    norm_num
  have h4 : turn (1 / 4) * turn (1 / 4) * turn (1 / 4) * turn (1 / 4) = -1 := by
    rw [← turn_add, ← turn_add, ← turn_add]
    norm_num
  rw [cnots_target hac hbc, cnots_control hab, hz, hz, hz]
  simp only [phases_mul_phases]
  refine congrArg phases (funext fun y => Units.ext ?_)
  simp only [Units.val_mul]
  cases y a <;> cases y b <;> cases y c <;>
    simp only [factor_true, factor_false, Units.val_one, Bool.xor_true, Bool.xor_false, Bool.not_true, Bool.not_false,
      Bool.and_true, Bool.and_false, turn_one] <;>
    grind

lemma commute_h_cnots (hac : a ≠ c) (hbc : b ≠ c) : Commute (h c) (cnot a b * z a (1 / 4) * z b (-1 / 4) * cnot a b) :=
  (((commute_h_cnot hac.symm hbc.symm).mul_right (commute_h_z hac.symm)).mul_right (commute_h_z hbc.symm)).mul_right
    (commute_h_cnot hac.symm hbc.symm)

lemma courseOf_cczExpansion (hab : a ≠ b) (hac : a ≠ c) (hbc : b ≠ c) : courseOf (Gate.cczExpansion a b c) = ccz a b c := by
  have regroup : courseOf (Gate.cczExpansion a b c) =
      cnot b c * z c (-1 / 4) * cnot a c * z c (1 / 4) * cnot b c * z c (-1 / 4) * cnot a c * z b (1 / 4) * z c (1 / 4) *
        (h c * (cnot a b * z a (1 / 4) * z b (-1 / 4) * cnot a b) * h c) := by
    rfl
  rw [regroup, (commute_h_cnots hac hbc).eq, mul_assoc _ (h c), h_mul_h, mul_one, ccz_eq hab hac hbc]

lemma courseOf_tofExpansion (hab : a ≠ b) (hac : a ≠ c) (hbc : b ≠ c) :
    courseOf (Gate.tofExpansion a b c) = of (relabel (flipWhen c fun y => y a && y b)) := by
  have free : Free c fun y : Register => y a && y b := by
    intro y v
    simp [update_of_ne hac, update_of_ne hbc]
  have regroup : courseOf (Gate.tofExpansion a b c) =
      h c * (cnot b c * z c (-1 / 4) * cnot a c * z c (1 / 4) * cnot b c * z c (-1 / 4) * cnot a c * z b (1 / 4) * z c (1 / 4)) *
        (h c * (cnot a b * z a (1 / 4) * z b (-1 / 4) * cnot a b)) := by
    rfl
  rw [regroup, (commute_h_cnots hac hbc).eq, ← mul_assoc, mul_assoc (h c), ccz_eq hab hac hbc]
  exact h_mul_diag_mul_h free

/-! ## Parities -/

def parityOf (ts : List Int) (y : Register) : Bool := ts.foldl (fun b t => xor b (y t)) false

lemma parityOf_cons (t : Int) (ts : List Int) (y : Register) : parityOf (t :: ts) y = xor (y t) (parityOf ts y) := by
  have hf : ∀ (ts : List Int) (b : Bool), ts.foldl (fun b t => xor b (y t)) b = xor b (parityOf ts y) := by
    intro ts
    induction ts with
    | nil => exact fun b => (Bool.xor_false b).symm
    | cons u us ih =>
      intro b
      rw [parityOf, foldl_cons, foldl_cons, ih, ih, Bool.false_xor, Bool.xor_assoc]
  rw [parityOf, foldl_cons, hf, Bool.false_xor]

lemma parityOf_update {ts : List Int} (ht : t ∉ ts) (y : Register) (b : Bool) : parityOf ts (update y t b) = parityOf ts y := by
  induction ts with
  | nil => rfl
  | cons u us ih =>
    rw [mem_cons, not_or] at ht
    rw [parityOf_cons, parityOf_cons, ih ht.2, update_of_ne (Ne.symm ht.1)]

def chain (ts : List Int) : List Gate := (ts.zip ts.tail).map fun q => Gate.cnot q.1 q.2

/-- **A rotation at the end of a chain** is one about the parity of the chain. -/
theorem courseOf_chain (p : ℚ) (ts : List Int) : ∀ t, (t :: ts).Nodup →
    courseOf (chain (t :: ts) ++ [Gate.zPhase (ts.getLast?.getD t) p] ++ (chain (t :: ts)).reverse) =
      phases fun y => factor p (parityOf (t :: ts) y) := by
  induction ts with
  | nil =>
    intro t _
    exact congrArg phases (funext fun y => by rw [parityOf_cons]; exact congrArg _ (Bool.xor_false _).symm)
  | cons u us ih =>
    intro t hn
    obtain ⟨htu, hn⟩ := nodup_cons.1 hn
    have hne : t ≠ u := fun e => htu (e ▸ mem_cons_self)
    have hc : chain (t :: u :: us) = Gate.cnot t u :: chain (u :: us) := rfl
    have hl : (u :: us).getLast?.getD t = us.getLast?.getD u := by rw [List.getLast?_cons]; rfl
    have last : courseOf [Gate.cnot t u] = cnot t u := mul_one _
    rw [hc, hl, reverse_cons, List.cons_append, List.cons_append, ← append_assoc, ← singleton_append,
      courseOf_append, courseOf_append, ih u hn, last, ← mul_assoc, cnot_mul_phases, mul_assoc, cnot_mul_cnot, mul_one]
    refine congrArg phases (funext fun y => ?_)
    rw [flipWhen_apply, parityOf_cons, parityOf_cons, parityOf_cons, parityOf_update (nodup_cons.1 hn).1, update_self,
      update_of_ne hne, ← Bool.xor_assoc, Bool.xor_comm (y u)]

end Course

/-! ## Expansion -/

namespace Gate

open Course

variable {n : ℕ} {g : Gate}

lemma isBasic_cnot {a b : Int} (ha : OnWire n a) (hb : OnWire n b) (hab : a ≠ b) : (cnot a b).IsBasic n := ⟨by decide, ha, hb, hab⟩

lemma isBasic_had {t : Int} (ht : OnWire n t) : (had t).IsBasic n := ht

lemma isBasic_t {t : Int} (ht : OnWire n t) (adjoint : Bool) : (Gate.t t adjoint).IsBasic n := ht

lemma isBasic_chain {ts : List Int} (hn : ts.Nodup) (ht : ∀ t ∈ ts, OnWire n t) : ∀ k ∈ chain ts, k.IsBasic n := by
  induction ts with
  | nil => simp [chain]
  | cons t ts ih =>
    cases ts with
    | nil => simp [chain]
    | cons u us =>
      intro k hk
      obtain ⟨htu, hn⟩ := nodup_cons.1 hn
      rcases mem_cons.1 (show k ∈ cnot t u :: chain (u :: us) from hk) with rfl | hk
      · exact isBasic_cnot (ht t (by simp)) (ht u (by simp)) fun e => htu (e ▸ mem_cons_self)
      · exact ih hn (fun v hv => ht v (mem_cons_of_mem _ hv)) k hk

/-- **Every gate that fits is expanded into basic gates with the same course.** -/
theorem expand_spec (hg : g.Fits n) : ∃ gs, g.expand = .ok gs ∧ (∀ k ∈ gs, k.IsBasic n) ∧ courseOf gs = Course.of g.op.motion := by
  obtain ⟨op, i⟩ := g
  cases op with
  | had t => exact ⟨_, rfl, forall_mem_singleton.2 hg, mul_one _⟩
  | rotation k t p => exact ⟨_, rfl, forall_mem_singleton.2 hg, mul_one _⟩
  | pair k c t =>
    obtain ⟨hc, ht, hct⟩ := hg
    cases k with
    | cnot | cz | cx => exact ⟨_, rfl, forall_mem_singleton.2 ⟨by decide, hc, ht, hct⟩, mul_one _⟩
    | swap =>
      refine ⟨_, rfl, ?_, ?_⟩
      · simp [isBasic_cnot, hc, ht, hct, hct.symm]
      rw [show Course.of (Operation.pair .swap c t).motion = perm (Equiv.swap c t) from rfl, ← cnot_mul_cnot_mul_cnot hct,
        courseOf_cons, courseOf_cons, courseOf_cons, courseOf_nil, mul_one]
      rfl
  | triple k a b t =>
    obtain ⟨⟨ha, hb, ht⟩, hab, hat, hbt⟩ := hg
    cases k with
    | tof =>
      refine ⟨_, rfl, ?_, courseOf_tofExpansion hab hat hbt⟩
      simp [tofExpansion, isBasic_cnot, isBasic_had, isBasic_t, ha, hb, ht, hab, hat, hbt]
    | ccz =>
      refine ⟨_, rfl, ?_, courseOf_cczExpansion hab hat hbt⟩
      simp [cczExpansion, isBasic_cnot, isBasic_had, isBasic_t, ha, hb, ht, hab, hat, hbt]
  | parity p ts =>
    obtain ⟨hne, hn, ht⟩ := hg
    cases ts with
    | nil => exact absurd rfl hne
    | cons t ts =>
      refine ⟨chain (t :: ts) ++ [zPhase (ts.getLast?.getD t) p] ++ (chain (t :: ts)).reverse, ?_, ?_, courseOf_chain p ts t hn⟩
      · have hl : (t :: ts).getLast? = some (ts.getLast?.getD t) := List.getLast?_cons
        simp only [expand, hl]
        rfl
      have last : ts.getLast?.getD t ∈ t :: ts := by
        cases hl : ts.getLast? with
        | none => exact mem_cons_self
        | some u => exact mem_cons_of_mem _ (mem_of_getLast? hl)
      have steps := isBasic_chain hn ht
      intro k hk
      rw [mem_append, mem_append, mem_singleton, mem_reverse] at hk
      rcases hk with (hk | rfl) | hk
      · exact steps k hk
      · exact ht _ last
      · exact steps k hk
  | initAncilla | postSelect => exact hg.elim

end Gate

end ZXCircuits
