/-
  Parallel edges.

  Between two spiders one sort of edges fuses and the other cancels in pairs, so that any number of edges is worth one edge or none, and
  half a turn (`bond_merge`).
-/
import ZXCircuits.Proofs.Soundness.Sums
import ZXCircuits.Proofs.Diagram.Effect

namespace ZXCircuits

open List VertexKind Table

lemma mixing_mul_mixing : mixing * mixing = 1 := by
  ext a b
  have h := inv_sqrt_two_mul_self
  rw [Matrix.mul_apply, Fintype.sum_bool, Matrix.one_apply]
  cases a <;> cases b <;> simp only [mixing, sign, Bool.and_true, Bool.and_false, Bool.and_self, reduceIte, reduceCtorEq,
    Bool.false_eq_true]
  · linear_combination (2 : ℂ) * h
  · ring
  · ring
  · linear_combination (2 : ℂ) * h

lemma inv_sqrt_two_ne_zero : (Real.sqrt 2 : ℂ)⁻¹ ≠ 0 := by
  refine inv_ne_zero ?_
  simp

lemma sign_mul_self (b : Bool) : sign b * sign b = 1 := by cases b <;> simp [sign]

lemma sign_pow_even (b : Bool) (n : ℕ) : sign b ^ (2 * n) = 1 := by rw [pow_mul, pow_two, sign_mul_self, one_pow]

lemma sign_pow_odd (b : Bool) (n : ℕ) : sign b ^ (2 * n + 1) = sign b := by rw [pow_succ, sign_pow_even, one_mul]

lemma turn_modTwo_toRat (p : Exact) : turn p.modTwo.toRat = turn p.toRat := by
  cases p with
  | int m =>
    have h : ((m : ℤ) : ℚ) = ((m % 2 : ℤ) : ℚ) + 2 * ((m / 2 : ℤ) : ℚ) := by exact_mod_cast (Int.emod_add_mul_ediv m 2).symm
    simp only [Exact.modTwo, Exact.toRat]
    rw [h, turn_add, turn_two_mul_int, mul_one]
  | ratio q => exact turn_modTwo q

namespace Diagram

variable {g h : Diagram} {k l : VertexKind} {es : List Edge} {a b : Vertex} {es fs : List Edge} {t : EdgeTable} {K : List Vertex}

lemma turn_addToPhase (g : Diagram) (v u : Vertex) (p : Exact) :
    turn ((g.addToPhase v p).phase u).toRat = turn (g.phase u).toRat * if u = v then turn p.toRat else 1 := by
  rw [phase_addToPhase]
  split
  · rename_i hu
    rw [turn_modTwo_toRat, Exact.toRat_add, turn_add, hu]
  · rw [mul_one]

noncomputable def bond? (k : VertexKind) (e : EdgeKind) (l : VertexKind) (x y : Bool) : ℂ := if e = .absent then 1 else bond k e l x y

lemma ne_boundary (hk : k.isSpider) : k ≠ .boundary := by
  rintro rfl
  cases hk

lemma bond_same (hk : k.isSpider) : bond k .regular k = 1 ∧ bond k .hadamard k = mixing := by
  cases k with
  | boundary | other => cases hk
  | z => simp [bond, leg, EdgeKind.wire]
  | x => simp [bond, leg, EdgeKind.wire, mixing_mul_mixing]

lemma bond_diff (hk : k.isSpider) (hl : l.isSpider) (hkl : k ≠ l) : bond k .regular l = mixing ∧ bond k .hadamard l = 1 := by
  cases k with
  | boundary | other => cases hk
  | z =>
    cases l with
    | boundary | other => cases hl
    | z => exact absurd rfl hkl
    | x => simp [bond, leg, EdgeKind.wire, mixing_mul_mixing]
  | x =>
    cases l with
    | boundary | other => cases hl
    | x => exact absurd rfl hkl
    | z => simp [bond, leg, EdgeKind.wire, mixing_mul_mixing]

lemma one_pow_mul_mixing_pow (m n : ℕ) (x y : Bool) : (1 : Matrix Bool Bool ℂ) x y ^ m * mixing x y ^ n =
    (Real.sqrt 2 : ℂ)⁻¹ ^ n * ((if m = 0 then 1 else (1 : Matrix Bool Bool ℂ) x y) * sign (x && y) ^ n) := by
  have hm : (1 : Matrix Bool Bool ℂ) x y ^ m = if m = 0 then 1 else (1 : Matrix Bool Bool ℂ) x y := by
    rcases Nat.eq_zero_or_pos m with rfl | hm
    · simp
    rw [if_neg hm.ne', Matrix.one_apply]
    split
    · exact one_pow m
    · exact zero_pow hm.ne'
  rw [hm, mixing, mul_pow]
  ring

variable (n : ℕ)

lemma mul_sign_pow (x y : Bool) : (1 : Matrix Bool Bool ℂ) x y * sign (x && y) ^ n =
    (1 : Matrix Bool Bool ℂ) x y * if n % 2 = 0 then 1 else if x then -1 else 1 := by
  rcases Nat.even_or_odd' n with ⟨m, rfl | rfl⟩
  · rw [sign_pow_even, if_pos (by omega)]
  · rw [sign_pow_odd, if_neg (by omega)]
    cases x <;> cases y <;> simp [sign]

lemma exists_merge (m n : ℕ) : ∃ c : ℂ, c ≠ 0 ∧ ∀ x y, (1 : Matrix Bool Bool ℂ) x y ^ m * mixing x y ^ n =
    c * if m = 0 then (if n % 2 = 0 then 1 else mixing x y)
      else (if n % 2 = 0 then 1 else if x then -1 else 1) * (1 : Matrix Bool Bool ℂ) x y := by
  by_cases hm : m = 0
  · rcases Nat.even_or_odd' n with ⟨l, rfl | rfl⟩
    · refine ⟨(Real.sqrt 2 : ℂ)⁻¹ ^ (2 * l), pow_ne_zero _ inv_sqrt_two_ne_zero, fun x y => ?_⟩
      rw [one_pow_mul_mixing_pow, if_pos hm, if_pos hm, if_pos (by omega), sign_pow_even, one_mul]
    refine ⟨(Real.sqrt 2 : ℂ)⁻¹ ^ (2 * l), pow_ne_zero _ inv_sqrt_two_ne_zero, fun x y => ?_⟩
    rw [one_pow_mul_mixing_pow, if_pos hm, if_pos hm, if_neg (by omega), sign_pow_odd, pow_succ, mixing]
    ring
  · refine ⟨(Real.sqrt 2 : ℂ)⁻¹ ^ n, pow_ne_zero _ inv_sqrt_two_ne_zero, fun x y => ?_⟩
    rw [one_pow_mul_mixing_pow, if_neg hm, if_neg hm, mul_sign_pow]
    ring

lemma natCast_bne_zero : ((n : ℤ) != 0) = !decide (n = 0) := by by_cases h : n = 0 <;> simp [h]

lemma natCast_emod_two_bne_zero : ((n : ℤ) % 2 != 0) = !decide (n % 2 = 0) := by
  rcases Nat.even_or_odd' n with ⟨l, rfl | rfl⟩ <;> simp

lemma mergedEdge_same (m n : ℕ) : mergedEdge true m n = if m = 0 then (if n % 2 = 0 then (.absent, false) else (.hadamard, false))
    else if n % 2 = 0 then (.regular, false) else (.regular, true) := by
  unfold mergedEdge
  simp only [reduceIte, natCast_bne_zero, natCast_emod_two_bne_zero]
  by_cases h1 : m = 0 <;> by_cases h2 : n % 2 = 0 <;> simp [h1, h2]

lemma mergedEdge_diff (m n : ℕ) : mergedEdge false m n = if n = 0 then (if m % 2 = 0 then (.absent, false) else (.regular, false))
    else if m % 2 = 0 then (.hadamard, false) else (.hadamard, true) := by
  unfold mergedEdge
  simp only [Bool.false_eq_true, reduceIte, natCast_bne_zero, natCast_emod_two_bne_zero]
  by_cases h1 : n = 0 <;> by_cases h2 : m % 2 = 0 <;> simp [h1, h2]

/-- **Any number of edges between two spiders** is worth what they are merged to. -/
theorem bond_merge (hk : k.isSpider) (hl : l.isSpider) (m n : ℕ) : ∃ c : ℂ, c ≠ 0 ∧ ∀ x y,
    bond k .regular l x y ^ m * bond k .hadamard l x y ^ n =
      c * ((if (mergedEdge (k == l) m n).2 ∧ x then -1 else 1) * bond? k (mergedEdge (k == l) m n).1 l x y) := by
  by_cases hkl : k = l
  · subst hkl
    obtain ⟨c, hc, h⟩ := exists_merge m n
    refine ⟨c, hc, fun x y => ?_⟩
    rw [(bond_same hk).1, (bond_same hk).2, h, beq_self_eq_true, mergedEdge_same]
    by_cases h1 : m = 0 <;> by_cases h2 : n % 2 = 0 <;> simp [h1, h2, bond?, (bond_same hk).1, (bond_same hk).2]
  obtain ⟨c, hc, h⟩ := exists_merge n m
  refine ⟨c, hc, fun x y => ?_⟩
  rw [(bond_diff hk hl hkl).1, (bond_diff hk hl hkl).2, mul_comm, h, beq_false_of_ne hkl, mergedEdge_diff]
  by_cases h1 : n = 0 <;> by_cases h2 : m % 2 = 0 <;> simp [h1, h2, bond?, (bond_diff hk hl hkl).1, (bond_diff hk hl hkl).2]

/-! ## Working off a table -/

def toLink (e : EdgeKind) : Option EdgeKind := if e = .absent then none else some e

noncomputable def halves (g : Diagram) (t : EdgeTable) (v : Vertex) : ℂ :=
  (t.map fun entry => if entry.1.1 = v ∧ (g.mergedAt entry).2 then (-1 : ℂ) else 1).prod

/-- Two entries for different pairs of vertices. -/
def Entry.Apart (p q : Edge × (Int × Int)) : Prop := ∀ a b, Between p.1 a b → ¬ Between q.1 a b

/-- What a table makes of a diagram. -/
structure Tabled (g : Diagram) (t : EdgeTable) (h : Diagram) : Prop where
  merged : Merged g (Table.keys t) h
  made : ∀ entry ∈ t, ∀ a b, Between entry.1 a b → h.link a b = toLink (g.mergedAt entry).1
  turned : ∀ v, turn (h.phase v).toRat = turn (g.phase v).toRat * g.halves t v
  ends : h.inputs = g.inputs ∧ h.outputs = g.outputs

instance (es : List Edge) (a b : Vertex) : Decidable (Spanned es a b) := inferInstanceAs (Decidable (∃ e ∈ es, Between e a b))

def EdgeChanges.result (c : EdgeChanges) (a b : Vertex) : Option EdgeKind :=
  if Spanned c.hadamard a b then some .hadamard else if Spanned c.regular a b then some .regular
  else if Spanned c.remove a b then none else c.diagram.link a b

lemma Merged.mono (hs : ∀ e ∈ es, e ∈ fs) (hm : Merged g es h) : Merged g fs h :=
  ⟨hm.kept, hm.coherent, fun a b hn => hm.link a b fun c => hn (c.mono hs), hm.plain⟩

namespace EdgeChanges

variable {c : EdgeChanges} {t : EdgeTable} {entry : Edge × (Int × Int)}

lemma Within.mono (hs : ∀ e ∈ es, e ∈ fs) (hc : c.Within g es) : c.Within g fs :=
  ⟨hc.merged.mono hs, fun e he a b hb => (hc.regular e he a b hb).mono hs, fun e he a b hb => (hc.hadamard e he a b hb).mono hs,
    fun e he a b hb => (hc.remove e he a b hb).mono hs⟩

/-- What has been worked off. -/
structure Worked (g : Diagram) (t : EdgeTable) (c : EdgeChanges) : Prop where
  within : c.Within g (Table.keys t)
  made : ∀ entry ∈ t, ∀ a b, Between entry.1 a b → c.result a b = toLink (g.mergedAt entry).1
  other : ∀ a b, ¬ Spanned (Table.keys t) a b → c.result a b = g.link a b
  turned : ∀ v, turn (c.diagram.phase v).toRat = turn (g.phase v).toRat * g.halves t v
  ends : c.diagram.inputs = g.inputs ∧ c.diagram.outputs = g.outputs

lemma Within.result_eq (hc : c.Within g es) (hn : ¬ Spanned es a b) : c.result a b = c.diagram.link a b := by
  rw [result, if_neg, if_neg, if_neg]
  · rintro ⟨e, he, hb⟩; exact hn (hc.remove e he a b hb)
  · rintro ⟨e, he, hb⟩; exact hn (hc.regular e he a b hb)
  · rintro ⟨e, he, hb⟩; exact hn (hc.hadamard e he a b hb)

lemma Worked.step {c' : EdgeChanges} (hc : c.Worked g t) (within : c'.Within g (keys (t ++ [entry])))
    (here : ∀ a b, Between entry.1 a b → c'.result a b = toLink (g.mergedAt entry).1)
    (away : ∀ a b, ¬ Between entry.1 a b → c'.result a b = c.result a b) (apart : ∀ q ∈ t, Entry.Apart q entry)
    (turned : ∀ v, turn (c'.diagram.phase v).toRat =
      turn (c.diagram.phase v).toRat * if entry.1.1 = v ∧ (g.mergedAt entry).2 then -1 else 1)
    (ends : c'.diagram.inputs = c.diagram.inputs ∧ c'.diagram.outputs = c.diagram.outputs) : c'.Worked g (t ++ [entry]) where
  within := within
  made q hq a b hb := by
    rcases mem_append.1 hq with hq | hq
    · rw [away a b (apart q hq a b hb)]
      exact hc.made q hq a b hb
    · rw [mem_singleton.1 hq] at hb ⊢
      exact here a b hb
  other a b hn := by
    have hb : ¬ Between entry.1 a b := fun hb => hn ⟨entry.1, by simp [Table.keys], hb⟩
    rw [away a b hb]
    exact hc.other a b fun hs => hn (hs.mono fun e he => by simp only [Table.keys, map_append, mem_append] at he ⊢; exact .inl he)
  turned v := by
    rw [turned, hc.turned, halves, halves, map_append, prod_append, map_singleton, prod_singleton, mul_assoc]
  ends := ⟨ends.1.trans hc.ends.1, ends.2.trans hc.ends.2⟩

lemma not_spanned (apart : ∀ q ∈ t, Entry.Apart q entry) (hb : Between entry.1 a b) : ¬ Spanned (keys t) a b := by
  rintro ⟨e, he, hb'⟩
  obtain ⟨q, hq, rfl⟩ := mem_map.1 he
  exact apart q hq a b hb' hb

lemma Worked.unchanged (hc : c.Worked g t) (apart : ∀ q ∈ t, Entry.Apart q entry) :
    c.diagram.edgeKind entry.1 = g.edgeKind entry.1 ∧ c.diagram.mergedAt entry = g.mergedAt entry := by
  have merged := hc.within.merged
  have old : c.diagram.edgeKind entry.1 = g.edgeKind entry.1 := by
    rw [edgeKind_eq, edgeKind_eq, merged.link _ _ (not_spanned apart (.inl ⟨rfl, rfl⟩))]
  exact ⟨old, by rw [mergedAt, mergedAt, merged.kept.kindD, merged.kept.kindD, old]⟩

end EdgeChanges

lemma link_of_edgeKind (hp : g.Plain) (e : Edge) : g.link e.1 e.2 = toLink (g.edgeKind e) := by
  rw [edgeKind_eq, toLink]
  cases hl : g.link e.1 e.2 with
  | none => rfl
  | some k =>
    have hk : k ≠ .absent := by
      rintro rfl
      rcases hp _ _ _ hl with c | c <;> cases c
    rw [Option.getD_some, if_neg hk]

lemma turn_halved (g : Diagram) (entry : Edge × (Int × Int)) (v : Vertex) : turn ((g.halved entry).phase v).toRat =
    turn (g.phase v).toRat * if entry.1.1 = v ∧ (g.mergedAt entry).2 then -1 else 1 := by
  unfold halved
  by_cases hm : (g.mergedAt entry).2
  · rw [if_pos hm, turn_addToPhase]
    simp [hm, and_true, eq_comm, Exact.toRat, Int.cast_one, turn_one]
  · rw [if_neg hm, if_neg fun h => hm h.2, mul_one]

open EdgeChanges (result)

lemma mergeEntry_worked (hg : g.Coherent) (hp : g.Plain) {c : EdgeChanges} {entry : Edge × (Int × Int)}
    (hc : c.Worked g t) (apart : ∀ q ∈ t, Entry.Apart q entry) : Gives (mergeEntry c entry) (EdgeChanges.Worked g (t ++ [entry])) := by
  have coherent := hc.within.merged.coherent
  have wider : c.Within g (keys (t ++ [entry])) := hc.within.mono fun e he => by
    simp only [Table.keys, map_append, mem_append] at he ⊢
    exact .inl he
  have last : entry.1 ∈ keys (t ++ [entry]) := by simp [Table.keys]
  have fresh : ∀ a b, Between entry.1 a b → ¬ Spanned (keys t) a b := fun a b hb => EdgeChanges.not_spanned apart hb
  have link : ∀ a b, Between entry.1 a b → c.diagram.link a b = g.link a b := fun a b hb => hc.within.merged.link a b (fresh a b hb)
  obtain ⟨old, merged⟩ := hc.unchanged apart
  have here : ∀ a b, Between entry.1 a b → c.result a b = toLink (g.edgeKind entry.1) := by
    intro a b hb
    rw [hc.within.result_eq (fresh a b hb), link a b hb]
    rcases hb with ⟨rfl, rfl⟩ | ⟨rfl, rfl⟩
    · exact link_of_edgeKind hp entry.1
    · rw [hg.symm]
      exact link_of_edgeKind hp entry.1
  have free : ∀ a b, Between entry.1 a b → ¬ Spanned c.hadamard a b ∧ ¬ Spanned c.regular a b ∧ ¬ Spanned c.remove a b := by
    intro a b hb
    refine ⟨?_, ?_, ?_⟩ <;> rintro ⟨f, hf, hbf⟩
    · exact fresh a b hb (hc.within.hadamard f hf a b hbf)
    · exact fresh a b hb (hc.within.regular f hf a b hbf)
    · exact fresh a b hb (hc.within.remove f hf a b hbf)
  have not_edge : ∀ a b, ¬ Between entry.1 a b → ¬ Between (edge entry.1.1 entry.1.2) a b := fun a b hn hb => hn (between_edge.1 hb)
  have r := c.diagram.halved_rephased entry
  have turned := fun v => merged ▸ c.diagram.turn_halved entry v
  have ends : (c.diagram.halved entry).inputs = c.diagram.inputs ∧ (c.diagram.halved entry).outputs = c.diagram.outputs := by
    rw [r]
    exact ⟨rfl, rfl⟩
  refine (EdgeChanges.mergeEntry_records coherent entry).mono fun c' hr => ?_
  have within := hr.within wider last
  cases hr with
  | keep same =>
    rw [merged, old] at same
    refine hc.step within (fun a b hb => ?_) (fun a b _ => ?_) apart turned ends
    · rw [same, ← here a b hb]
      simp [result, r.link]
    · simp [result, r.link]
  | remove _ new =>
    refine hc.step within (fun a b hb => ?_) (fun a b hb => ?_) apart turned ends
    · obtain ⟨h1, h2, -⟩ := free a b hb
      have h3 : Spanned (edge entry.1.1 entry.1.2 :: c.remove) a b := ⟨_, mem_cons_self, between_edge.2 hb⟩
      simp [result, if_neg h1, if_neg h2, if_pos h3, ← merged, new, toLink, reduceIte]
    · simp [result, r.link, Spanned.cons (not_edge a b hb)]
  | regular _ new =>
    refine hc.step within (fun a b hb => ?_) (fun a b hb => ?_) apart turned ends
    · obtain ⟨h1, -, -⟩ := free a b hb
      have h2 : Spanned (entry.1 :: c.regular) a b := ⟨_, mem_cons_self, hb⟩
      simp [result, if_neg h1, if_pos h2, ← merged, new, toLink, reduceCtorEq, reduceIte]
    · simp [result, r.link, Spanned.cons hb]
  | hadamard _ new =>
    refine hc.step within (fun a b hb => ?_) (fun a b hb => ?_) apart turned ends
    · have h2 : Spanned (entry.1 :: c.hadamard) a b := ⟨_, mem_cons_self, hb⟩
      simp [result, if_pos h2, ← merged, new, toLink, reduceCtorEq, reduceIte]
    · simp [result, r.link, Spanned.cons hb]
  | change _ new made =>
    obtain ⟨s, l, -⟩ := setEdgeKind_spec _ _ _ _ made
    refine hc.step within (fun a b hb => ?_) (fun a b hb => ?_) apart (fun v => ?_) ?_
    · obtain ⟨h1, h2, h3⟩ := free a b hb
      simp [result, if_neg h1, if_neg h2, if_neg h3, l, if_pos (between_edge.2 hb), toLink, ← merged, if_neg new]
    · simp [result, l, if_neg (not_edge a b hb), r.link]
    · rw [s.phase, turned]
    · rw [s.beside]
      exact ends

/-- **What entries for different pairs keep** one by one, by what has been worked off, a whole table keeps. -/
theorem foldlM_entries {I : EdgeTable → EdgeChanges → Prop} (t : EdgeTable) (step : ∀ {done c}, ∀ entry ∈ t, (∀ q ∈ done, Entry.Apart q entry) →
    I done c → Gives (mergeEntry c entry) (I (done ++ [entry]))) (ht : t.Pairwise Entry.Apart) : ∀ (done : EdgeTable) {c : EdgeChanges},
      I done c → (∀ q ∈ done, ∀ r ∈ t, Entry.Apart q r) → Gives (t.foldlM mergeEntry c) (I (done ++ t)) := by
  induction t with
  | nil => exact fun done c hc _ => .pure (by rwa [append_nil])
  | cons entry t ih =>
    intro done c hc apart
    obtain ⟨ha, ht⟩ := pairwise_cons.1 ht
    refine .bind (step entry (by simp) (fun q hq => apart q hq entry (by simp)) hc) fun c' hc' => ?_
    rw [append_cons]
    refine ih (forall_mem_cons.1 step).2 ht (done ++ [entry]) hc' fun q hq r hr => ?_
    rcases mem_append.1 hq with hq | hq
    · exact apart q hq r (by simp [hr])
    · rw [mem_singleton.1 hq]
      exact ha r hr

lemma worked_nil (hg : g.Coherent) : EdgeChanges.Worked g [] { diagram := g } :=
  ⟨⟨.refl hg _, by simp, by simp, by simp⟩, by simp, fun a b _ => by simp [result, Spanned], fun v => by simp [halves], rfl, rfl⟩

/-- **An edge table** merges each of its entries with the edge that is there. -/
theorem addEdgeTable_tabled (hg : g.Coherent) (hp : g.Plain) (ht : t.Pairwise Entry.Apart) : Gives (g.addEdgeTable t) (Tabled g t) := by
  suffices Gives (g.addEdgeTable t) fun h => (∀ entry ∈ t, ∀ a b, Between entry.1 a b → h.link a b = toLink (g.mergedAt entry).1) ∧
      (∀ v, turn (h.phase v).toRat = turn (g.phase v).toRat * g.halves t v) ∧ h.inputs = g.inputs ∧ h.outputs = g.outputs from
    ((addEdgeTable_spec hg t).and this).mono fun h made => ⟨made.1, made.2.1, made.2.2.1, made.2.2.2⟩
  refine .bind (foldlM_entries t (fun entry _ apart hc => mergeEntry_worked hg hp hc apart) ht [] (worked_nil hg) (by simp)) fun c hc => ?_
  refine .bind (removeEdges_spec hc.within.merged.coherent _) fun d1 found => ?_
  obtain ⟨r1, _, l1⟩ := found
  refine .bind (addEdges_link _ _ d1) fun d2 linked => (addEdges_link _ _ d2).mono fun d3 found => ?_
  obtain ⟨r2, l2⟩ := linked
  obtain ⟨r3, l3⟩ := found
  have reverse : ∀ (es : List Edge) a b, Spanned es.reverse a b ↔ Spanned es a b := fun es a b => by simp [Spanned]
  have result : ∀ a b, d3.link a b = c.result a b := by
    intro a b
    rw [result]
    split
    · exact (l3 a b).1 ((reverse _ a b).2 ‹_›)
    rw [(l3 a b).2 fun hs => absurd ((reverse _ a b).1 hs) ‹_›]
    split
    · exact (l2 a b).1 ((reverse _ a b).2 ‹_›)
    · rw [(l2 a b).2 fun hs => absurd ((reverse _ a b).1 hs) ‹_›, l1]
      exact if_congr (reverse _ a b) rfl rfl
  have r := (r1.trans r2).trans r3
  refine ⟨fun entry hm a b hb => (result a b).trans (hc.made entry hm a b hb), fun v => ?_, ?_⟩
  · rw [r.phase]
    exact hc.turned v
  · rw [r.beside]
    exact hc.ends

/-! ## What a table is worth -/

lemma body_of_entries {T : Ties} (hT : T.Even) (hK : K.Nodup) {s : Edge × (Int × Int) → ℂ}
    {f : Edge × (Int × Int) → Bool → Bool → ℂ} {ω : Vertex → ℂ} (t : EdgeTable) : ∀ {U : Ties} {ω' : Vertex → ℂ}, U.Even →
    t.Pairwise Entry.Apart → (∀ q ∈ t, q.1.1 ∈ K ∧ q.1.2 ∈ K ∧ q.1.1 ≠ q.1.2) →
    (∀ q ∈ t, ∀ x y, (if x then s q else 1) * U q.1.1 q.1.2 x y = f q x y * T q.1.1 q.1.2 x y) →
    (∀ a b, (∀ q ∈ t, ¬ Between q.1 a b) → U a b = T a b) →
    (∀ v, ω' v = ω v * (t.map fun q => if q.1.1 = v then s q else 1).prod) →
    ∀ β, body U ω' K β = (t.map fun q => f q (β q.1.1) (β q.1.2)).prod * body T ω K β := by
  induction t with
  | nil =>
    intro U ω' _ _ _ _ hUT hω β
    have same : body U ω' K = body T ω K := body_congr (fun v _ => (hω v).trans (by simp)) (fun a _ b _ _ => hUT a b (by simp)) hK
    rw [same]
    simp
  | cons q t ih =>
    intro U ω' hU ht hm hf hUT hω β
    obtain ⟨hq, ht⟩ := pairwise_cons.1 ht
    obtain ⟨h1, h2, hne⟩ := hm q (by simp)
    -- all changes but the one of the first entry
    set V : Ties := fun a b => if Between q.1 a b then T a b else U a b with hV
    set ω1 : Vertex → ℂ := fun v => ω v * (t.map fun q => if q.1.1 = v then s q else 1).prod with hω1
    have even : V.Even := by
      intro a b x y
      simp only [hV, between_comm]
      split
      · exact hT a b x y
      · exact hU a b x y
    have first : V q.1.1 q.1.2 = T q.1.1 q.1.2 := if_pos (.inl ⟨rfl, rfl⟩)
    have rest : ∀ r ∈ t, V r.1.1 r.1.2 = U r.1.1 r.1.2 := fun r hr => if_neg fun c => hq r hr _ _ c (.inl ⟨rfl, rfl⟩)
    have others : body V ω1 K β = _ := ih even ht (forall_mem_cons.1 hm).2 (fun r hr x y => by
      rw [rest r hr]
      exact hf r (by simp [hr]) x y) (fun a b hn => by
      by_cases hb : Between q.1 a b
      · exact if_pos hb
      · exact (if_neg hb).trans (hUT a b (forall_mem_cons.2 ⟨hb, hn⟩))) (fun v => rfl) β
    have step : body U ω' K β = f q (β q.1.1) (β q.1.2) * body V ω1 K β := by
      refine body_change even hU hK h1 h2 hne (fun v hv => ?_) (fun a b hb => (if_neg hb).symm) (fun x y => ?_) β
      · rw [hω, map_cons, prod_cons, if_neg hv.symm, one_mul]
      have := hf q (by simp) x y
      rw [first, hω, map_cons, prod_cons, if_pos rfl]
      cases x with
      | false => simpa using this
      | true =>
        simp only [reduceIte] at this ⊢
        linear_combination (ω q.1.1 * (t.map fun r => if r.1.1 = q.1.1 then s r else 1).prod) * this
    rw [step, others, map_cons, prod_cons]
    ring

noncomputable def edgesOf (g : Diagram) (t : EdgeTable) : Valuation := fun β => (t.map fun q =>
  bond (g.kindD q.1.1) .regular (g.kindD q.1.2) (β q.1.1) (β q.1.2) ^ q.2.1.toNat *
    bond (g.kindD q.1.1) .hadamard (g.kindD q.1.2) (β q.1.1) (β q.1.2) ^ q.2.2.toNat).prod

/-- An entry is worth what it is merged to. -/
structure Worth (g : Diagram) (q : Edge × (Int × Int)) : Prop where
  ne : q.1.1 ≠ q.1.2
  half : (g.mergedAt q).2 → (g.kindD q.1.1).isSpider
  bond : ∃ c : ℂ, c ≠ 0 ∧ ∀ x y, (if x then if (g.mergedAt q).2 then -1 else 1 else 1) *
    bond? (g.kindD q.1.1) (g.mergedAt q).1 (g.kindD q.1.2) x y = c * (bond (g.kindD q.1.1) .regular (g.kindD q.1.2) x y ^ q.2.1.toNat *
      bond (g.kindD q.1.1) .hadamard (g.kindD q.1.2) x y ^ q.2.2.toNat) * bond? (g.kindD q.1.1) (g.edgeKind q.1) (g.kindD q.1.2) x y

lemma tie_eq_bond? (hp : g.Plain) (a b : Vertex) (x y : Bool) : g.tie a b x y = bond? (g.kindD a) (g.edgeKind (a, b)) (g.kindD b) x y := by
  rw [tie, link_of_edgeKind hp (a, b), toLink, bond?]
  split
  · rename_i h
    split at h
    · cases h
    · rename_i hk
      rw [if_neg hk, Option.some.inj h]
  rename_i h
  split at h
  · rename_i hk
    rw [if_pos hk]
  · cases h

lemma worth_of_spiders (hp : g.Plain) {q : Edge × (Int × Int)} (hne : q.1.1 ≠ q.1.2) (h1 : (g.kindD q.1.1).isSpider)
    (h2 : (g.kindD q.1.2).isSpider) (hn : 0 ≤ q.2.1 ∧ 0 ≤ q.2.2) : g.Worth q := by
  refine ⟨hne, fun _ => h1, ?_⟩
  obtain ⟨⟨a, b⟩, n1, n2⟩ := q
  obtain ⟨m, rfl⟩ := Int.eq_ofNat_of_zero_le hn.1
  obtain ⟨n, rfl⟩ := Int.eq_ofNat_of_zero_le hn.2
  -- the edge that is there counts as one more
  have old : g.edgeKind (a, b) = .absent ∨ g.edgeKind (a, b) = .regular ∨ g.edgeKind (a, b) = .hadamard := by
    rw [edgeKind_eq]
    cases hl : g.link a b with
    | none => exact .inl rfl
    | some k => exact .inr (hp _ _ _ hl)
  have flip : ∀ (p : Bool) (x : Bool), (if x then if p then (-1 : ℂ) else 1 else 1) = if p ∧ x then -1 else 1 := by
    intro p x
    cases p <;> cases x <;> simp
  suffices ∃ m' n' : ℕ, g.mergedAt ((a, b), (m : ℤ), (n : ℤ)) = mergedEdge (g.kindD a == g.kindD b) m' n' ∧ ∀ x y,
      bond (g.kindD a) .regular (g.kindD b) x y ^ m' * bond (g.kindD a) .hadamard (g.kindD b) x y ^ n' =
        bond (g.kindD a) .regular (g.kindD b) x y ^ m * bond (g.kindD a) .hadamard (g.kindD b) x y ^ n *
          bond? (g.kindD a) (g.edgeKind (a, b)) (g.kindD b) x y by
    obtain ⟨m', n', e, all⟩ := this
    obtain ⟨c, hc, hb⟩ := bond_merge h1 h2 m' n'
    refine ⟨c⁻¹, inv_ne_zero hc, fun x y => ?_⟩
    have := hb x y
    simp only [all] at this
    simp only [e, flip, Int.toNat_natCast]
    rw [mul_assoc, this, inv_mul_cancel_left₀ hc]
  rcases old with ho | ho | ho
  · exact ⟨m, n, by simp [mergedAt, ho], fun x y => by simp [ho, bond?]⟩
  · refine ⟨m + 1, n, by simp [mergedAt, ho], fun x y => ?_⟩
    rw [ho, bond?, if_neg (by decide), pow_succ]
    ring
  · refine ⟨m, n + 1, by simp [mergedAt, ho], fun x y => ?_⟩
    rw [ho, bond?, if_neg (by decide), pow_succ]
    ring

lemma halves_eq_one {v : Vertex} (hv : (g.kindD v).isSpider ≠ true)
    (hw : ∀ q ∈ t, (g.mergedAt q).2 → (g.kindD q.1.1).isSpider) : g.halves t v = 1 := by
  refine prod_eq_one fun x hx => ?_
  obtain ⟨q, hq, rfl⟩ := mem_map.1 hx
  refine if_neg ?_
  rintro ⟨rfl, c⟩
  exact hv (hw q hq c)

/-- **What an edge table makes of a diagram** is worth the edges of the table, up to a scalar. -/
theorem Tabled.body_eq (hg : g.Coherent) (hp : g.Plain) (ht : Tabled g t h) (apart : t.Pairwise Entry.Apart)
    (hK : K.Nodup) (hm : ∀ q ∈ t, q.1.1 ∈ K ∧ q.1.2 ∈ K) (hw : ∀ q ∈ t, g.Worth q) (δ : Vertex → ℂ) :
    ∃ c : ℂ, c ≠ 0 ∧ body h.tie (fun v => h.turns v * δ v) K = c • (g.edgesOf t * body g.tie (fun v => g.turns v * δ v) K) := by
  choose! c hc hb using fun q hq => (hw q hq).bond
  have kept := ht.merged.kept
  have factors : ∀ v, h.turns v * δ v = g.turns v * δ v * (t.map fun q => if q.1.1 = v then if (g.mergedAt q).2 then (-1 : ℂ) else 1 else 1).prod := by
    intro v
    have halves : g.halves t v = (t.map fun q => if q.1.1 = v then if (g.mergedAt q).2 then (-1 : ℂ) else 1 else 1).prod := by
      refine congrArg _ (map_congr_left fun q _ => ?_)
      by_cases h1 : q.1.1 = v <;> by_cases h2 : (g.mergedAt q).2 <;> simp [h1, h2]
    rw [← halves, turns, turns, kept.kindD]
    by_cases hv : (g.kindD v).isSpider
    · rw [if_pos hv, if_pos hv, ht.turned]
      ring
    · rw [if_neg hv, if_neg hv, halves_eq_one hv fun q hq => (hw q hq).half, mul_one]
  refine ⟨(t.map c).prod, prod_ne_zero fun h0 => ?_, funext fun β => ?_⟩
  · obtain ⟨q, hq, e⟩ := mem_map.1 h0
    exact hc q hq e
  rw [body_of_entries (tie_even hg) hK (s := fun q => if (g.mergedAt q).2 then (-1 : ℂ) else 1)
    (f := fun q x y => c q * (bond (g.kindD q.1.1) .regular (g.kindD q.1.2) x y ^ q.2.1.toNat *
      bond (g.kindD q.1.1) .hadamard (g.kindD q.1.2) x y ^ q.2.2.toNat)) t
    (tie_even ht.merged.coherent) apart (fun q hq => ⟨(hm q hq).1, (hm q hq).2, (hw q hq).ne⟩) (fun q hq x y => ?_)
    (fun a b hn => ?_) factors β, prod_map_mul, Pi.smul_apply, Pi.mul_apply, edgesOf, smul_eq_mul, mul_assoc]
  · have made : h.edgeKind q.1 = (g.mergedAt q).1 := by
      rw [edgeKind_eq, ht.made q hq _ _ (.inl ⟨rfl, rfl⟩), toLink]
      split
      · rename_i he
        exact he.symm
      · rfl
    rw [tie_eq_bond? (ht.merged.plain hp), tie_eq_bond? hp, kept.kindD, kept.kindD]
    exact made ▸ hb q hq x y
  refine tie_eq_of_link kept.kindD (ht.merged.link a b ?_)
  rintro ⟨e, he, hab⟩
  obtain ⟨q, hq, rfl⟩ := mem_map.1 he
  exact hn q hq hab

end Diagram

end ZXCircuits
