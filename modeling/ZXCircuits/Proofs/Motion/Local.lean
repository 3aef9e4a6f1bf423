/-
  Gates on different wires.

  A course is local to some wires if it is made of Hadamards on them and of factors that depend on their bits only.  Gates are
  local to their own wires, and what is local to different wires commutes.
-/
import ZXCircuits.Proofs.Motion.Expand

namespace ZXCircuits

open List Subgroup

namespace Course

variable {a b c t : Int} {p : ℚ} {f : Register → ℂˣ} {q : Register → Bool} {m m' : Course} {ws vs : Set Int}

/-- The courses made of Hadamards on some wires and of factors that depend on the bits of these wires only. -/
def on (ws : Set Int) : Subgroup Course := Subgroup.closure {m | (∃ t ∈ ws, m = h t) ∨ ∃ f, (∀ t ∉ ws, Free t f) ∧ m = phases f}

lemma h_mem_on (ht : t ∈ ws) : h t ∈ on ws := subset_closure (.inl ⟨t, ht, rfl⟩)

lemma phases_mem_on (hf : ∀ t ∉ ws, Free t f) : phases f ∈ on ws := subset_closure (.inr ⟨f, hf, rfl⟩)

lemma factor_mem_on (hq : ∀ t ∉ ws, Free t q) : phases (fun y => factor p (q y)) ∈ on ws :=
  phases_mem_on fun t ht y b => congrArg (factor p) (hq t ht y b)

lemma free_bit_of_mem (ht : t ∈ ws) : ∀ w ∉ ws, Free w fun y : Register => y t := fun _ hw => free_bit fun e => hw (e ▸ ht)

lemma free_and {r : Register → Bool} (hq : ∀ t ∉ ws, Free t q) (hr : ∀ t ∉ ws, Free t r) : ∀ t ∉ ws, Free t fun y => q y && r y := by
  intro t ht y b
  simp [hq t ht y b, hr t ht y b]

lemma z_mem_on (ht : t ∈ ws) : z t p ∈ on ws := factor_mem_on (free_bit_of_mem ht)

lemma cz_mem_on (ha : a ∈ ws) (hb : b ∈ ws) : cz a b ∈ on ws := factor_mem_on (free_and (free_bit_of_mem ha) (free_bit_of_mem hb))

lemma cnot_mem_on (hc : c ∈ ws) (ht : t ∈ ws) (hct : c ≠ t) : cnot c t ∈ on ws := by
  rw [cnot_eq hct]
  exact mul_mem (mul_mem (h_mem_on ht) (cz_mem_on hc ht)) (h_mem_on ht)

lemma commute_of_mem_on (hd : ∀ t ∈ ws, t ∉ vs) (hm : m ∈ on ws) (hm' : m' ∈ on vs) : Commute m m' := by
  induction hm using closure_induction with
  | one => exact Commute.one_left m'
  | mul _ _ _ _ h1 h2 => exact h1.mul_left h2
  | inv _ _ h => exact h.inv_left
  | mem a ha =>
    induction hm' using closure_induction with
    | one => exact Commute.one_right a
    | mul _ _ _ _ h1 h2 => exact h1.mul_right h2
    | inv _ _ h => exact h.inv_right
    | mem b hb =>
      rcases ha with ⟨s, hs, rfl⟩ | ⟨f, hf, rfl⟩ <;> rcases hb with ⟨t, ht, rfl⟩ | ⟨k, hk, rfl⟩
      · exact commute_h_h s t
      · exact commute_of (commute_had_diag (hk s (hd s hs)))
      · exact (commute_of (commute_had_diag (hf t fun hc => hd t hc ht))).symm
      · exact commute_of (commute_diag_diag f k)

end Course

/-! ## Gates -/

namespace Gate

open Course

variable {n : ℕ} {g : Gate}

/-- The wires that a gate acts on. -/
def wires (g : Gate) : Set Int :=
  match g.op with
  | .had t => {t}
  | .rotation _ t _ => {t}
  | .pair _ c t => {c, t}
  | .triple _ a b t => {a, b, t}
  | .parity _ ts => {t | t ∈ ts}
  | .initAncilla _ | .postSelect _ => ∅

lemma Fits.mem_on (hg : g.Fits n) : Course.of g.op.motion ∈ on g.wires := by
  obtain ⟨op, i⟩ := g
  cases op with
  | had t => exact h_mem_on rfl
  | rotation k t p =>
    have ht : t ∈ ({t} : Set Int) := rfl
    show Course.of (if k.isZ then zTurn t p else xTurn t p) ∈ on {t}
    split
    · exact z_mem_on ht
    · rw [xTurn, of_mul, of_mul]
      exact mul_mem (h_mem_on ht) (mul_mem (z_mem_on ht) (h_mem_on ht))
  | pair k c t =>
    obtain ⟨-, -, hct⟩ := hg
    have hc : c ∈ ({c, t} : Set Int) := by simp
    have ht : t ∈ ({c, t} : Set Int) := by simp
    cases k with
    | cnot => exact cnot_mem_on hc ht hct
    | cz => exact cz_mem_on hc ht
    | cx =>
      have hh : Course.of (ZXCircuits.had c * ZXCircuits.had t) ∈ on {c, t} := mul_mem (h_mem_on ht) (h_mem_on hc)
      show Course.of (ZXCircuits.had c * ZXCircuits.had t * cSign c t * (ZXCircuits.had c * ZXCircuits.had t)) ∈ on {c, t}
      rw [of_mul, of_mul]
      exact mul_mem hh (mul_mem (cz_mem_on hc ht) hh)
    | swap =>
      show perm (Equiv.swap c t) ∈ on {c, t}
      rw [← cnot_mul_cnot_mul_cnot hct]
      exact mul_mem (cnot_mem_on hc ht hct) (mul_mem (cnot_mem_on ht hc hct.symm) (cnot_mem_on hc ht hct))
  | triple k a b t =>
    obtain ⟨-, -, hat, hbt⟩ := hg
    have ha : a ∈ ({a, b, t} : Set Int) := by simp
    have hb : b ∈ ({a, b, t} : Set Int) := by simp
    have ht : t ∈ ({a, b, t} : Set Int) := by simp
    have signs := factor_mem_on (p := 1) (free_and (free_and (free_bit_of_mem ha) (free_bit_of_mem hb)) (free_bit_of_mem ht))
    cases k with
    | tof =>
      have free : Free t fun y : Register => y a && y b := by
        intro y v
        simp [Function.update_of_ne hat, Function.update_of_ne hbt]
      show Course.of (relabel (flipWhen t fun y => y a && y b)) ∈ on {a, b, t}
      rw [← h_mul_diag_mul_h (q := fun y => y a && y b) free]
      exact mul_mem (mul_mem (h_mem_on ht) signs) (h_mem_on ht)
    | ccz => exact signs
  | parity p ts =>
    refine factor_mem_on (q := parityOf ts) fun t ht y b => ?_
    exact parityOf_update ht y b
  | initAncilla | postSelect => exact hg.elim

lemma courseOf_mem_on {gs : List Gate} {ws : Set Int} (hg : ∀ g ∈ gs, g.Fits n ∧ g.wires ⊆ ws) : courseOf gs ∈ on ws := by
  refine list_prod_mem fun m hm => ?_
  obtain ⟨g, hgm, rfl⟩ := mem_map.1 hm
  refine closure_mono ?_ (hg g hgm).1.mem_on
  rintro m (⟨t, ht, rfl⟩ | ⟨f, hf, rfl⟩)
  · exact .inl ⟨t, (hg g hgm).2 ht, rfl⟩
  · exact .inr ⟨f, fun t ht => hf t fun hc => ht ((hg g hgm).2 hc), rfl⟩

end Gate

/-! ## Rows -/

section Rows

variable {α M : Type} [Monoid M] {row : α → ℤ} {f : α → M} {l : List α} {r : ℤ}

lemma prod_first_row (hl : l.Pairwise fun a b => row b < row a → Commute (f a) (f b)) (hr : ∀ a ∈ l, r ≤ row a) :
    ((l.filter (row · = r)).map f).prod * ((l.filter (row · ≠ r)).map f).prod = (l.map f).prod := by
  induction l with
  | nil => simp
  | cons a l ih =>
    obtain ⟨ha, hl⟩ := pairwise_cons.1 hl
    have ih := ih hl fun b hb => hr b (mem_cons_of_mem _ hb)
    by_cases hra : row a = r
    · simp only [filter_cons, hra, ne_eq, not_true_eq_false, decide_true, decide_false, if_true, Bool.false_eq_true, if_false,
        map_cons, prod_cons, mul_assoc]
      rw [← ih]
    -- what stands before an element of the first row and is of a later row commutes with it
    have pass : Commute ((l.filter (row · = r)).map f).prod (f a) := by
      refine Commute.list_prod_left _ _ fun x hx => ?_
      obtain ⟨b, hb, rfl⟩ := mem_map.1 hx
      rw [mem_filter, decide_eq_true_eq] at hb
      have : r ≤ row a := hr a mem_cons_self
      exact (ha b hb.1 (by omega)).symm
    simp only [filter_cons, hra, ne_eq, not_false_eq_true, decide_true, decide_false, if_true, Bool.false_eq_true, if_false,
      map_cons, prod_cons]
    rw [← mul_assoc, pass.eq, mul_assoc, ← ih]

/-- **A product may be taken row by row**, in the order of the rows, where elements that change places commute. -/
theorem prod_rows {rows : List ℤ} (hs : rows.Pairwise (· < ·)) (hl : l.Pairwise fun a b => row b < row a → Commute (f a) (f b))
    (hm : ∀ a ∈ l, row a ∈ rows) : (rows.map fun r => ((l.filter (row · = r)).map f).prod).prod = (l.map f).prod := by
  induction rows generalizing l with
  | nil =>
    have : l = [] := eq_nil_iff_forall_not_mem.2 fun a ha => by simpa using hm a ha
    simp [this]
  | cons r rows ih =>
    obtain ⟨hr, hs⟩ := pairwise_cons.1 hs
    have least : ∀ a ∈ l, r ≤ row a := by
      intro a ha
      rcases mem_cons.1 (hm a ha) with e | e
      · exact e.ge
      · exact (hr _ e).le
    have rest : ∀ s ∈ rows, (l.filter (row · ≠ r)).filter (row · = s) = l.filter (row · = s) := by
      intro s hs'
      have hrs := hr s hs'
      rw [filter_filter]
      refine filter_congr fun a _ => ?_
      by_cases e : row a = s
      · simp [e, hrs.ne']
      · simp [e]
    have ih := ih hs (hl.filter fun a => decide (row a ≠ r)) fun a ha => by
      rw [mem_filter, decide_eq_true_eq] at ha
      exact (mem_cons.1 (hm a ha.1)).resolve_left ha.2
    rw [map_cons, prod_cons, ← prod_first_row hl least, ← ih]
    refine congrArg _ (congrArg _ (map_congr_left fun s hs' => ?_))
    rw [rest s hs']

end Rows

end ZXCircuits
