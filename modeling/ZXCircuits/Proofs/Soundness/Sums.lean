/-
  Sums over the bits of vertices.

  The vertices of a diagram that are not on its boundary are summed over, one after another in any order (`totalOver`).  What is summed is a
  product with a factor for every vertex and for every two of them (`Diagram.body`).  Two diagrams whose sums differ by a scalar have
  the same linear map up to it (`Diagram.linearMap_of_value`).
-/
import ZXCircuits.Proofs.Meaning.Diagram

namespace ZXCircuits

open List Function

abbrev Valuation := (Vertex → Bool) → ℂ

variable {F G : Valuation} {v w : Vertex} {L M : List Vertex} {β γ : Vertex → Bool}

/-! ## Summing out vertices -/

def sumOut (v : Vertex) (F : Valuation) : Valuation := fun β => F (update β v false) + F (update β v true)

def totalOver (L : List Vertex) (F : Valuation) : Valuation := L.foldr sumOut F

@[simp] lemma total_nil : totalOver [] F = F := rfl

@[simp] lemma total_cons : totalOver (v :: L) F = sumOut v (totalOver L F) := rfl

lemma total_append : totalOver (L ++ M) F = totalOver L (totalOver M F) := foldr_append

lemma sumOut_comm (v w : Vertex) (F : Valuation) : sumOut v (sumOut w F) = sumOut w (sumOut v F) := by
  by_cases h : v = w
  · rw [h]
  funext β
  simp only [sumOut, update_comm h]
  ring

lemma total_perm (h : L.Perm M) : totalOver L F = totalOver M F := by
  induction h with
  | nil => rfl
  | cons v _ ih => rw [total_cons, total_cons, ih]
  | swap v w L => rw [total_cons, total_cons, total_cons, total_cons, sumOut_comm]
  | trans _ _ ih1 ih2 => rw [ih1, ih2]

/-- The valuation does not depend on the bits of some vertices. -/
def FreeOf (L : List Vertex) (F : Valuation) : Prop := ∀ v ∈ L, ∀ β b, F (update β v b) = F β

lemma FreeOf.mono (hF : FreeOf L F) (h : ∀ v ∈ M, v ∈ L) : FreeOf M F := fun v hv => hF v (h v hv)

lemma sumOut_mul (hF : ∀ β b, F (update β v b) = F β) : sumOut v (F * G) = F * sumOut v G := by
  funext β
  simp only [sumOut, Pi.mul_apply, hF]
  ring

lemma total_mul (hF : FreeOf L F) : totalOver L (F * G) = F * totalOver L G := by
  induction L with
  | nil => rfl
  | cons v L ih => rw [total_cons, total_cons, ih (hF.mono fun w hw => mem_cons_of_mem v hw), sumOut_mul (hF v (by simp))]

lemma sumOut_smul (c : ℂ) : sumOut v (c • F) = c • sumOut v F := by
  funext β
  simp only [sumOut, Pi.smul_apply, smul_eq_mul]
  ring

lemma total_smul (c : ℂ) : totalOver L (c • F) = c • totalOver L F := by
  induction L with
  | nil => rfl
  | cons v L ih => rw [total_cons, total_cons, ih, sumOut_smul]

lemma sumOut_free (hF : FreeOf L F) (v : Vertex) : FreeOf L (sumOut v F) := by
  intro w hw β b
  by_cases h : w = v
  · subst h
    simp [sumOut, update_idem]
  · simp [sumOut, update_comm h, hF w hw]

lemma total_free (hF : FreeOf L F) : FreeOf L (totalOver M F) := by
  induction M with
  | nil => exact hF
  | cons v M ih => exact sumOut_free ih v

lemma total_eq_sum (hL : L.Nodup) (F : Valuation) (β : Vertex → Bool) :
    totalOver L F β = ∑ s ∈ L.toFinset.powerset, F fun v => if v ∈ L then decide (v ∈ s) else β v := by
  induction L generalizing β with
  | nil => simp
  | cons v L ih =>
    obtain ⟨hv, hL⟩ := nodup_cons.1 hL
    have hv' : v ∉ L.toFinset := fun h => hv (mem_toFinset.1 h)
    rw [total_cons, sumOut, ih hL, ih hL, toFinset_cons, Finset.sum_powerset_insert hv']
    congr 1
    · refine Finset.sum_congr rfl fun s hs => congrArg F (funext fun w => ?_)
      have hs : v ∉ s := fun h => hv' (Finset.mem_powerset.1 hs h)
      by_cases hw : w = v
      · subst hw; simp [hv, hs]
      · simp [hw]
    refine Finset.sum_congr rfl fun s hs => congrArg F (funext fun w => ?_)
    by_cases hw : w = v
    · subst hw; simp [hv]
    · simp [hw]

/-! ## Products over pairs of vertices -/

abbrev Ties := Vertex → Vertex → Bool → Bool → ℂ

noncomputable def star (T : Ties) (ω : Vertex → ℂ) (v : Vertex) (L : List Vertex) : Valuation := fun β =>
  (if β v then ω v else 1) * (L.map fun w => T v w (β v) (β w)).prod

/-- Some vertices with the ties between them. -/
noncomputable def body (T : Ties) (ω : Vertex → ℂ) : List Vertex → Valuation
  | [] => 1
  | v :: L => star T ω v L * body T ω L

def Ties.Even (T : Ties) : Prop := ∀ v w x y, T v w x y = T w v y x

section Body

variable {T U : Ties} {ω ω' : Vertex → ℂ} {a b : Vertex}

@[simp] lemma body_nil : body T ω [] = 1 := rfl

@[simp] lemma body_cons : body T ω (v :: L) = star T ω v L * body T ω L := rfl

lemma star_perm (h : L.Perm M) : star T ω v L = star T ω v M := by
  funext β
  rw [star, star, (h.map _).prod_eq]

lemma star_cons (β : Vertex → Bool) : star T ω v (w :: L) β = T v w (β v) (β w) * star T ω v L β := by
  rw [star, star, map_cons, prod_cons]
  ring

lemma body_perm (hT : T.Even) (h : L.Perm M) : body T ω L = body T ω M := by
  induction h with
  | nil => rfl
  | cons v h ih => rw [body_cons, body_cons, ih, star_perm h]
  | swap v w L =>
    funext β
    simp only [body_cons, Pi.mul_apply, star_cons, hT w v]
    ring
  | trans _ _ ih1 ih2 => rw [ih1, ih2]

lemma star_free (hv : v ∉ M) (hL : ∀ w ∈ M, w ∉ L) : FreeOf M (star T ω v L) := by
  intro w hw β b
  have hvw : v ≠ w := fun c => hv (c ▸ hw)
  simp only [star, update_of_ne hvw]
  congr 2
  refine map_congr_left fun u hu => ?_
  have huw : u ≠ w := fun c => hL w hw (c ▸ hu)
  rw [update_of_ne huw]

lemma body_free (hL : ∀ w ∈ M, w ∉ L) : FreeOf M (body T ω L) := by
  induction L with
  | nil => exact fun _ _ _ _ => rfl
  | cons v L ih =>
    intro w hw β b
    have hv : v ∉ M := fun c => hL v c (by simp)
    have hL' : ∀ w ∈ M, w ∉ L := fun w hw c => hL w hw (by simp [c])
    simp [body_cons, Pi.mul_apply, star_free hv hL' w hw, ih hL' w hw]

lemma star_congr (hω : ω' v = ω v) (hT : ∀ w ∈ L, U v w = T v w) : star U ω' v L = star T ω v L := by
  funext β
  rw [star, star, hω]
  congr 2
  exact map_congr_left fun w hw => by rw [hT w hw]

lemma body_congr (hω : ∀ v ∈ L, ω' v = ω v) (hT : ∀ v ∈ L, ∀ w ∈ L, v ≠ w → U v w = T v w) (hL : L.Nodup) : body U ω' L = body T ω L := by
  induction L with
  | nil => rfl
  | cons v L ih =>
    obtain ⟨hv, hL⟩ := nodup_cons.1 hL
    rw [body_cons, body_cons, ih (forall_mem_cons.1 hω).2 (fun a ha b hb => hT a (by simp [ha]) b (by simp [hb])) hL,
      star_congr (hω v (by simp)) fun w hw => hT v (by simp) w (by simp [hw]) fun c => hv (c ▸ hw)]

lemma body_change (hT : T.Even) (hU : U.Even) (hL : L.Nodup) (ha : a ∈ L) (hb : b ∈ L) (hab : a ≠ b)
    (hω : ∀ v, v ≠ a → ω' v = ω v) (hUT : ∀ v w, ¬ Diagram.Between (a, b) v w → U v w = T v w) {f : Bool → Bool → ℂ}
    (hf : ∀ x y, (if x then ω' a else 1) * U a b x y = f x y * ((if x then ω a else 1) * T a b x y)) (β : Vertex → Bool) :
    body U ω' L β = f (β a) (β b) * body T ω L β := by
  -- the two vertices come first
  have hb' : b ∈ L.erase a := (hL.mem_erase_iff).2 ⟨hab.symm, hb⟩
  have hp : L.Perm (a :: b :: (L.erase a).erase b) := (perm_cons_erase ha).trans ((perm_cons_erase hb').cons a)
  set M := (L.erase a).erase b
  obtain ⟨haM, hn⟩ := nodup_cons.1 (hp.nodup_iff.1 hL)
  obtain ⟨hbM, hM⟩ := nodup_cons.1 hn
  have haM : a ∉ M := fun c => haM (by simp [c])
  have away : ∀ v ∈ M, v ≠ a ∧ v ≠ b := fun v hv => ⟨fun c => haM (c ▸ hv), fun c => hbM (c ▸ hv)⟩
  have rest : body U ω' M = body T ω M := by
    refine body_congr (fun v hv => hω v (away v hv).1) (fun v hv w _ _ => hUT v w ?_) hM
    rintro (⟨rfl, -⟩ | ⟨rfl, -⟩)
    · exact (away _ hv).1 rfl
    · exact (away _ hv).2 rfl
  have second : star U ω' b M = star T ω b M := by
    refine star_congr (hω b hab.symm) fun w hw => hUT b w ?_
    rintro (⟨rfl, -⟩ | ⟨-, rfl⟩)
    · exact hab rfl
    · exact (away _ hw).1 rfl
  have first : star U ω' a M β = (if β a then ω' a else 1) * (M.map fun w => T a w (β a) (β w)).prod := by
    refine congrArg _ (congrArg _ (map_congr_left fun w hw => ?_))
    rw [hUT a w]
    rintro (⟨-, rfl⟩ | ⟨rfl, -⟩)
    · exact (away _ hw).2 rfl
    · exact hab rfl
  have old : star T ω a M β = (if β a then ω a else 1) * (M.map fun w => T a w (β a) (β w)).prod := rfl
  rw [body_perm hU hp, body_perm hT hp]
  simp only [body_cons, Pi.mul_apply, rest, second, star_cons, first, old]
  linear_combination (M.map fun w => T a w (β a) (β w)).prod * (star T ω b M β * body T ω M β) * hf (β a) (β b)

end Body

namespace Diagram

variable {g h : Diagram} {ω : Vertex → ℂ} {a b : Vertex} {ls : List (Vertex × Bool)}

/-! ## What is summed -/

/-- What an edge of a kind gives between vertices of two kinds. -/
noncomputable def bond (k : VertexKind) (e : EdgeKind) (l : VertexKind) : Matrix Bool Bool ℂ := k.leg * e.wire * l.leg

/-- What the edge between two vertices gives, if there is one. -/
noncomputable def tie (g : Diagram) (v w : Vertex) (x y : Bool) : ℂ :=
  match g.link v w with
  | some e => bond (g.kindD v) e (g.kindD w) x y
  | none => 1

noncomputable def turns (g : Diagram) (v : Vertex) : ℂ := if (g.kindD v).isSpider then turn (g.phase v).toRat else 1

def inner (g : Diagram) : List Vertex := g.vertices.filter fun v => g.kindD v ≠ .boundary

/-- The vertices on the boundary. -/
def border (g : Diagram) : List Vertex := g.vertices.filter fun v => g.kindD v = .boundary

/-- The sum over the bits of all vertices that are not on the boundary. -/
noncomputable def value (g : Diagram) (ω : Vertex → ℂ) : Valuation := totalOver g.inner (body g.tie ω g.vertices)

lemma tie_of_link {e : EdgeKind} (hl : g.link v w = some e) (x y : Bool) : g.tie v w x y = bond (g.kindD v) e (g.kindD w) x y := by
  rw [tie, hl]

lemma tie_of_not_joined (hn : ¬ g.Joined v w) (x y : Bool) : g.tie v w x y = 1 := by
  rw [Joined, Bool.not_eq_true, Option.isSome_eq_false_iff, Option.isNone_iff_eq_none] at hn
  rw [tie, hn]

lemma wire_comm (e : EdgeKind) (x y : Bool) : e.wire x y = e.wire y x := by
  cases e with
  | hadamard => exact mixing_comm x y
  | absent | regular | other => simp [EdgeKind.wire, Matrix.one_apply, eq_comm]

lemma bond_comm (k : VertexKind) (e : EdgeKind) (l : VertexKind) (x y : Bool) : bond k e l x y = bond l e k y x := by
  simp only [bond, Matrix.mul_apply, Fintype.sum_bool, wire_comm e false true, k.leg_comm x, l.leg_comm _ y]
  ring

lemma tie_even (hg : g.Coherent) : Ties.Even g.tie := by
  intro v w x y
  unfold tie
  rw [hg.symm v w]
  cases g.link w v with
  | none => rfl
  | some e => exact bond_comm _ e _ x y

lemma tie_eq_of_link (hk : ∀ v, h.kindD v = g.kindD v) (hl : h.link a b = g.link a b) : h.tie a b = g.tie a b := by
  funext x y
  rw [tie, tie, hl, hk, hk]

/-! ## Linear maps -/

lemma join_eq_tie (hj : g.Joined a b) (x y : Bool) : g.join (a, b) x y = g.tie a b x y := by
  obtain ⟨e, he⟩ := Option.isSome_iff_exists.1 hj
  rw [join, tie_of_link he, edgeKind_eq, he, bond]
  rfl

lemma body_eq_prod (hL : L.Pairwise (· < ·)) (β : Vertex → Bool) : body g.tie ω L β = (L.map fun v => if β v then ω v else 1).prod *
      ∏ e ∈ g.edges.toFinset.filter fun e => e.1 ∈ L ∧ e.2 ∈ L, g.join e (β e.1) (β e.2) := by
  induction L with
  | nil => simp
  | cons v L ih =>
    obtain ⟨hv, hL⟩ := pairwise_cons.1 hL
    have nodup : L.Nodup := hL.imp fun hab => Nat.ne_of_lt hab
    have split : g.edges.toFinset.filter (fun e => e.1 ∈ v :: L ∧ e.2 ∈ v :: L) =
        (L.toFinset.filter fun w => (g.link v w).isSome).image (fun w => (v, w)) ∪ g.edges.toFinset.filter fun e => e.1 ∈ L ∧ e.2 ∈ L := by
      ext ⟨a, b⟩
      simp only [Finset.mem_filter, mem_toFinset, mem_edges, mem_cons, Finset.mem_union, Finset.mem_image, Prod.mk.injEq]
      constructor
      · rintro ⟨⟨hab, hj⟩, rfl | ha, rfl | hb⟩
        · exact absurd hab (Nat.lt_irrefl _)
        · exact .inl ⟨b, ⟨hb, hj⟩, rfl, rfl⟩
        · exact absurd hab (Nat.lt_asymm (hv a ha))
        · exact .inr ⟨⟨hab, hj⟩, ha, hb⟩
      · rintro (⟨w, ⟨hw, hj⟩, rfl, rfl⟩ | ⟨hab, ha, hb⟩)
        · exact ⟨⟨hv w hw, hj⟩, .inl rfl, .inr hw⟩
        · exact ⟨hab, .inr ha, .inr hb⟩
    have apart : Disjoint ((L.toFinset.filter fun w => (g.link v w).isSome).image fun w => (v, w))
        (g.edges.toFinset.filter fun e => e.1 ∈ L ∧ e.2 ∈ L) := by
      rw [Finset.disjoint_left]
      intro e he he'
      obtain ⟨w, -, rfl⟩ := Finset.mem_image.1 he
      exact Nat.lt_irrefl _ (hv v (Finset.mem_filter.1 he').2.1)
    have ties : (L.map fun w => g.tie v w (β v) (β w)).prod =
        ∏ w ∈ L.toFinset.filter fun w => (g.link v w).isSome, g.join (v, w) (β v) (β w) := by
      rw [← prod_toFinset _ nodup, Finset.prod_filter]
      refine Finset.prod_congr rfl fun w _ => ?_
      split
      · exact (join_eq_tie ‹_› _ _).symm
      · exact tie_of_not_joined ‹_› _ _
    rw [body_cons, Pi.mul_apply, ih hL, star, split, Finset.prod_union apart, Finset.prod_image fun a _ b _ hab => (Prod.mk.inj hab).2,
      ties, map_cons, prod_cons]
    ring

lemma pairwise_vertices (g : Diagram) : g.vertices.Pairwise (· < ·) := Std.TreeMap.ordered_keys.imp fun hab => Std.compare_eq_lt.1 hab

lemma vertices_congr (hv : ∀ v, h.has v = g.has v) : h.vertices = g.vertices := by
  refine List.Perm.eq_of_pairwise (fun a b _ _ h1 h2 => absurd h2 (Nat.lt_asymm h1)) h.pairwise_vertices g.pairwise_vertices ?_
  exact (perm_ext_iff_of_nodup h.nodup_vertices g.nodup_vertices).2 fun v => by rw [mem_vertices, mem_vertices, hv]

lemma weight_eq_body (hg : g.Coherent) (β : Vertex → Bool) : g.weight β = body g.tie g.turns g.vertices β := by
  have all : g.edges.toFinset.filter (fun e => e.1 ∈ g.vertices ∧ e.2 ∈ g.vertices) = g.edges.toFinset := by
    refine Finset.filter_true_of_mem fun e he => ?_
    obtain ⟨h1, h2⟩ := has_of_mem_edges hg (mem_toFinset.1 he)
    exact ⟨mem_vertices.2 h1, mem_vertices.2 h2⟩
  have spins : ∀ v, (g.kindD v).spin (g.phase v).toRat (β v) = if β v then g.turns v else 1 := by
    intro v
    rw [VertexKind.spin, turns]
    cases β v <;> simp
  rw [weight, body_eq_prod g.pairwise_vertices, all, prod_toFinset _ g.nodup_vertices]
  simp [spins]

lemma perm_inner_border (g : Diagram) : g.vertices.Perm (g.border ++ g.inner) := by
  have h := (filter_append_perm (fun v => decide (g.kindD v = .boundary)) g.vertices).symm
  simpa [border, inner] using h

lemma mem_border : v ∈ g.border ↔ g.has v ∧ g.kindD v = .boundary := by
  rw [border, mem_filter, mem_vertices, decide_eq_true_eq]

lemma mem_inner : v ∈ g.inner ↔ g.has v ∧ g.kindD v ≠ .boundary := by
  rw [inner, mem_filter, mem_vertices, decide_eq_true_eq]

lemma legs_free (hl : ∀ l ∈ ls, g.kindD l.1 = .boundary) : FreeOf g.inner (g.legs ls) := by
  intro v hv β b
  rw [legs, legs]
  refine congrArg _ (map_congr_left fun l hm => ?_)
  have hne : l.1 ≠ v := fun c => (mem_inner.1 hv).2 (c ▸ hl l hm)
  rw [update_of_ne hne]

/-- **The amplitude** is a sum over the bits at the boundary. -/
theorem amplitude_eq_total (hg : g.Coherent) (hl : ∀ l ∈ ls, g.kindD l.1 = .boundary) :
    g.amplitude ls = totalOver g.border (g.legs ls * g.value g.turns) fun _ => false := by
  have sum : g.amplitude ls = totalOver g.vertices (g.legs ls * body g.tie g.turns g.vertices) fun _ => false := by
    rw [total_eq_sum g.nodup_vertices, amplitude]
    refine Finset.sum_congr rfl fun s hs => ?_
    have bits : (fun v => decide (v ∈ s)) = fun v => if v ∈ g.vertices then decide (v ∈ s) else false := by
      funext v
      split
      · rfl
      · rename_i hv
        exact decide_eq_false fun c => hv (mem_toFinset.1 (Finset.mem_powerset.1 hs c))
    rw [← bits, weight_eq_body hg, Pi.mul_apply, mul_comm]
  rw [sum, total_perm g.perm_inner_border, total_append, total_mul (legs_free hl), value]

/-- **Diagrams with the same sums up to a scalar** have the same linear map up to it. -/
theorem linearMap_of_value (hg : g.Coherent) (hh : h.Coherent) {c : ℂ} (hv : h.value h.turns = c • g.value g.turns)
    (hb : ∀ v, v ∈ h.border ↔ v ∈ g.border) (hi : h.inputs = g.inputs) (ho : h.outputs = g.outputs)
    (hio : ∀ v, v ∈ g.inputs ∨ v ∈ g.outputs → v ∈ g.border) (n m : ℕ) : h.linearMap n m = c • g.linearMap n m := by
  have border : h.border = g.border := by
    have sorted : ∀ g : Diagram, g.border.Pairwise (· < ·) := fun g => g.pairwise_vertices.filter _
    exact List.Perm.eq_of_pairwise (fun a b _ _ h1 h2 => absurd h2 (Nat.lt_asymm h1)) (sorted h) (sorted g)
      ((perm_ext_iff_of_nodup ((sorted h).imp fun hab => Nat.ne_of_lt hab) ((sorted g).imp fun hab => Nat.ne_of_lt hab)).2 hb)
  ext y x
  rw [Matrix.smul_apply, linearMap, linearMap, hi, ho]
  set ls := g.inputs.zip (List.ofFn x) ++ g.outputs.zip (List.ofFn y) with hls
  have legs : ∀ l ∈ ls, l.1 ∈ g.border := forall_mem_append.2
    ⟨fun l hl => hio _ (.inl (of_mem_zip hl).1), fun l hl => hio _ (.inr (of_mem_zip hl).1)⟩
  have hlg : ∀ l ∈ ls, g.kindD l.1 = .boundary := fun l hl => (mem_border.1 (legs l hl)).2
  have hlh : ∀ l ∈ ls, h.kindD l.1 = .boundary := fun l hl => (mem_border.1 (border ▸ legs l hl)).2
  have same : h.legs ls = g.legs ls := by
    funext β
    refine congrArg _ (map_congr_left fun l hl => ?_)
    rw [hlg l hl, hlh l hl]
  rw [amplitude_eq_total hh hlh, amplitude_eq_total hg hlg, border, same, hv, mul_smul_comm, total_smul, Pi.smul_apply]

end Diagram

end ZXCircuits
