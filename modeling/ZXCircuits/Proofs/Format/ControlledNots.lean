/-
  Controlled nots read from files of gate lines.

  A not with three to six controls becomes doubly controlled nots by way of ancilla wires: conjunctions of controls are put
  on the ancillas, used, and taken off again (`Sends.sandwich`).  Lines share the ancillas, so the reader is followed with the
  invariant that all of them are back at zero after each line (`Qc.Reads`, `Qc.parse_sends`).
-/
import ZXCircuits.Format.Qc
import ZXCircuits.Proofs.Motion.Course
import Mathlib.Data.List.Forall2

namespace ZXCircuits

open List Function

/-! ## Registers sent to registers -/

open scoped Classical in
noncomputable def basis (x : Register) : State := fun y => if y = x then 1 else 0

/-- The gates take one register to another. -/
def Sends (gs : List Gate) (x y : Register) : Prop := motionOf gs (basis x) = basis y

lemma relabel_basis (e : Equiv.Perm Register) (x : Register) : relabel e (basis x) = basis (e.symm x) := by
  funext y
  by_cases h : e y = x
  · rw [relabel_apply, basis, basis, if_pos h, if_pos (e.eq_symm_apply.2 h)]
  · rw [relabel_apply, basis, basis, if_neg h, if_neg fun h' => h (e.eq_symm_apply.1 h')]

namespace Sends

variable {gs hs : List Gate} {x y z : Register} {f : Register → Bool} {a b c k t : Int}

lemma nil (x : Register) : Sends [] x x := rfl

lemma append (h1 : Sends gs x y) (h2 : Sends hs y z) : Sends (gs ++ hs) x z := by
  rw [Sends, motionOf, map_append, reverse_append, prod_append, LinearEquiv.mul_apply]
  exact (congrArg _ h1).trans h2

lemma cons {g : Gate} (h1 : Sends [g] x y) (h2 : Sends gs y z) : Sends (g :: gs) x z := h1.append h2

lemma flip {g : Gate} (h : g.op.motion = relabel (flipWhen t f)) (x : Register) :
    Sends [g] x (update x t (xor (x t) (f (update x t false)))) := by
  rw [Sends, motionOf, map_singleton, reverse_singleton, prod_singleton, h, relabel_basis]
  rfl

lemma not (t : Int) (x : Register) : Sends [Gate.not t] x (update x t (!x t)) := by
  simpa using flip (g := Gate.not t) (Course.xTurn_one t) x

lemma cnot (hct : c ≠ t) (x : Register) : Sends [Gate.cnot c t] x (update x t (xor (x t) (x c))) := by
  simpa [hct] using flip (g := Gate.cnot c t) rfl x

lemma tof (hat : a ≠ t) (hbt : b ≠ t) (x : Register) : Sends [Gate.tof a b t] x (update x t (xor (x t) (x a && x b))) := by
  simpa [hat, hbt] using flip (g := Gate.tof a b t) rfl x

lemma sandwich {p : Bool} (hx : x k = false) (hak : a ≠ k) (hbk : b ≠ k) (hat : a ≠ t) (hbt : b ≠ t) (hkt : k ≠ t)
    (h : Sends gs (update x k (x a && x b)) (update (update x k (x a && x b)) t (xor (x t) p))) :
    Sends (Gate.tof a b k :: (gs ++ [Gate.tof a b k])) x (update x t (xor (x t) p)) := by
  have put := tof hak hbk x
  rw [hx, Bool.false_xor] at put
  have taken := tof hak hbk (update (update x k (x a && x b)) t (xor (x t) p))
  have clean : update (update (update x k (x a && x b)) t (xor (x t) p)) k false = update x t (xor (x t) p) := by
    rw [update_comm hkt, update_idem, ← update_comm hkt, ← hx, update_eq_self]
  simp only [update_of_ne hat, update_of_ne hbt, update_of_ne hak, update_of_ne hbk, update_of_ne hkt, update_self, Bool.xor_self] at taken
  exact put.cons (h.append (clean ▸ taken))

/-- The layers take conjunctions of wires that are known or of ancillas of the layers before.  A layer names the two wires and
    the ancilla for their conjunction. -/
def Usable : List Int → List (Int × Int × Int) → Prop
  | _, [] => True
  | ws, l :: ls => l.1 ∈ ws ∧ l.2.1 ∈ ws ∧ Usable (l.2.2 :: ws) ls

lemma layers {ls : List (Int × Int × Int)} {ws : List Int} (hu : Usable ws ls)
    (hd : (t :: (ls.map (·.2.2) ++ ws)).Nodup) (ha : a ∈ ls.map (·.2.2) ++ ws) (hb : b ∈ ls.map (·.2.2) ++ ws)
    (hx : ∀ k ∈ ls.map (·.2.2), x k = false) :
    ∃ y : Register, (∀ w ∈ ws, y w = x w) ∧ (∀ l ∈ ls, y l.2.2 = (y l.1 && y l.2.1)) ∧
      Sends (ls.map (fun l => Gate.tof l.1 l.2.1 l.2.2) ++ [Gate.tof a b t] ++
        (ls.map fun l => Gate.tof l.1 l.2.1 l.2.2).reverse) x (update x t (xor (x t) (y a && y b))) := by
  induction ls generalizing x ws with
  | nil =>
    have ht : ∀ w ∈ ws, w ≠ t := fun w hw e => (nodup_cons.1 hd).1 (e ▸ hw)
    exact ⟨x, fun _ _ => rfl, by simp, tof (ht a ha) (ht b hb) x⟩
  | cons l ls ih =>
    obtain ⟨hl1, hl2, hu⟩ := hu
    obtain ⟨ht, hd'⟩ := nodup_cons.1 hd
    have hk : l.2.2 ∉ ls.map (·.2.2) ++ ws := (nodup_cons.1 hd').1
    obtain ⟨hx0, hx'⟩ := forall_mem_cons.1 hx
    -- The ancilla of the first layer counts among the known wires of the others.
    have moved : (ls.map (·.2.2) ++ l.2.2 :: ws).Perm ((l :: ls).map (·.2.2) ++ ws) := perm_middle
    have later : ∀ m ∈ ls.map (·.2.2), m ≠ l.2.2 := fun m hm e => hk (mem_append_left _ (e ▸ hm))
    have known : ∀ w ∈ ws, w ≠ l.2.2 ∧ w ≠ t := fun w hw =>
      ⟨fun e => hk (mem_append_right _ (e ▸ hw)), fun e => ht (mem_append_right _ (e ▸ hw))⟩
    have hkt : l.2.2 ≠ t := fun e => ht (by simp [← e])
    obtain ⟨y, same, conj, inner⟩ := ih (x := update x l.2.2 (x l.1 && x l.2.1)) hu ((moved.cons t).nodup_iff.2 hd)
      (moved.mem_iff.2 ha) (moved.mem_iff.2 hb) fun m hm => by rw [update_of_ne (later m hm), hx' m hm]
    obtain ⟨same0, same'⟩ := forall_mem_cons.1 same
    have eq : ∀ w ∈ ws, y w = x w := fun w hw => by rw [same' w hw, update_of_ne (known w hw).1]
    rw [update_of_ne hkt.symm] at inner
    refine ⟨y, eq, forall_mem_cons.2 ⟨?_, conj⟩, ?_⟩
    · rw [same0, update_self, eq _ hl1, eq _ hl2]
    · simpa using sandwich hx0 (known _ hl1).1 (known _ hl2).1 (known _ hl1).2 (known _ hl2).2 hkt inner

end Sends

def flipIf (cs : List Int) (t : Int) (x : Register) : Register := update x t (xor (x t) (cs.all x))

lemma Sends.flipIf_of_layers {cs : List Int} {a b t : Int} {x : Register} (ls : List (Int × Int × Int))
    (hd : (t :: (ls.map (·.2.2) ++ cs)).Nodup) (hx : ∀ k ∈ ls.map (·.2.2), x k = false)
    (hu : Usable cs ls := by simp [Sends.Usable]) (ha : a ∈ ls.map (·.2.2) ++ cs := by simp)
    (hb : b ∈ ls.map (·.2.2) ++ cs := by simp)
    (hall : ∀ y : Register, (∀ c ∈ cs, y c = x c) → (∀ l ∈ ls, y l.2.2 = (y l.1 && y l.2.1)) → (y a && y b) = cs.all x := by
      intro y hy conj
      simp only [forall_mem_cons] at hy conj
      simp only [conj, hy, all_cons, all_nil, Bool.and_true]
      ac_rfl) :
    Sends (ls.map (fun l => Gate.tof l.1 l.2.1 l.2.2) ++ [Gate.tof a b t] ++
      (ls.map fun l => Gate.tof l.1 l.2.1 l.2.2).reverse) x (flipIf cs t x) := by
  obtain ⟨y, same, conj, h⟩ := Sends.layers hu hd ha hb hx
  rwa [hall y same conj] at h

namespace Qc

open Text

variable {labels : Table (List Char) Nat} {t : Int} {s : State} {gs : List (Register → Register)} {n : Nat}
  {f g : Register → Register}

lemma manyControlled_take {cs anc : List Int} (h3 : 3 ≤ cs.length) (h6 : cs.length ≤ 6) :
    manyControlled cs t (anc.take (cs.length - 2)) = manyControlled cs t anc := by
  obtain h | h | h | h : cs.length = 3 ∨ cs.length = 4 ∨ cs.length = 5 ∨ cs.length = 6 := by omega
  all_goals simp [manyControlled, h, getD_eq_getElem?_getD]

/-- **A not with many controls leaves its ancillas at zero.** -/
theorem sends_manyControlled {cs anc : List Int} (h3 : 3 ≤ cs.length) (h6 : cs.length ≤ 6)
    (ha : anc.length = cs.length - 2) (hd : (t :: (anc ++ cs)).Nodup) {x : Register} (hx : ∀ k ∈ anc, x k = false) :
    Sends (manyControlled cs t anc) x (flipIf cs t x) := by
  rcases cs with _ | ⟨c0, _ | ⟨c1, _ | ⟨c2, cs⟩⟩⟩
  iterate 3 simp at h3
  rcases anc with _ | ⟨a0, anc⟩
  · simp at ha
  rcases cs with _ | ⟨c3, cs⟩
  · obtain rfl : anc = [] := by simpa using ha
    exact Sends.flipIf_of_layers (a := c2) (b := a0) [(c0, c1, a0)] hd hx
  rcases anc with _ | ⟨a1, anc⟩
  · simp at ha
  rcases cs with _ | ⟨c4, cs⟩
  · obtain rfl : anc = [] := by simpa using ha
    exact Sends.flipIf_of_layers (a := a0) (b := a1) [(c0, c1, a0), (c2, c3, a1)] hd hx
  rcases anc with _ | ⟨a2, anc⟩
  · simp at ha
  rcases cs with _ | ⟨c5, cs⟩
  · obtain rfl : anc = [] := by simpa using ha
    exact Sends.flipIf_of_layers (a := c4) (b := a2) [(c0, c1, a0), (c2, c3, a1), (a0, a1, a2)] hd hx
  rcases anc with _ | ⟨a3, anc⟩
  · simp at ha
  rcases cs with _ | ⟨c6, cs⟩
  · obtain rfl : anc = [] := by simpa using ha
    exact Sends.flipIf_of_layers (a := a2) (b := a3) [(c0, c1, a0), (c2, c3, a1), (c4, c5, a2), (a0, a1, a3)] hd hx
  · simp only [length_cons] at h6
    omega

/-! ## Labels -/

/-- The labels have different numbers below their own number. -/
structure Numbered (labels : Table (List Char) Nat) : Prop where
  lt : ∀ w v, labels.find? w = some v → v < labels.length
  inj : ∀ w w' v, labels.find? w = some v → labels.find? w' = some v → w = w'

lemma Numbered.add (h : Numbered labels) {w : List Char} (hw : labels.has w = false) : Numbered (labels.insert w labels.length) := by
  have fresh : w ∉ labels.keys := fun hm => by
    rw [(labels.has_iff w).2 hm] at hw
    cases hw
  have size : (labels.insert w labels.length).length = labels.length + 1 := by
    rw [Table.insert_of_not_mem fresh, length_append, length_singleton]
  refine ⟨fun u v hu => ?_, fun u u' v hu hu' => ?_⟩
  · obtain ⟨-, rfl⟩ | hu := labels.find?_insert_eq_some hu
    · omega
    · have := h.lt u v hu
      omega
  obtain ⟨e1, e2⟩ | old := labels.find?_insert_eq_some hu <;> obtain ⟨e3, e4⟩ | old' := labels.find?_insert_eq_some hu'
  · exact e1.trans e3.symm
  · exact absurd (h.lt u' v old') (by omega)
  · exact absurd (h.lt u v old) (by omega)
  · exact h.inj u u' v old old'

lemma declare_gives (h : Numbered labels) (line : List Char) : Gives (declare labels line) Numbered := by
  have all : ∀ (ws : List (List Char)) (t : Table (List Char) Nat), Numbered t →
      Numbered (ws.foldl (fun t w => if t.has w then t else t.insert w t.length) t) := by
    intro ws
    induction ws with
    | nil => exact fun t ht => ht
    | cons w ws ih =>
      intro t ht
      refine ih _ ?_
      dsimp only
      split
      · exact ht
      · exact ht.add (by simpa using ‹¬ t.has w›)
  unfold declare
  split
  · exact .ok h
  · exact .ok (all _ _ h)
  · exact .error _

/-! ## Lines -/

def labelsOn (rest : List Char) : List (List Char) := ((splitChar ' ' (strip (replaceChar ',' ' ' rest))).map strip).filter (!·.isEmpty)

def notNames : Nat → List String
  | 0 => ["tof", "t1", "not", "x"]
  | 1 => ["cnot", "tof", "t2"]
  | 2 => ["t3", "tof"]
  | _ => ["t4", "t5", "t6", "t7", "tof"]

/-- What a line does: comments and empty lines do nothing, other lines name a not and its distinct labels, the
    target last. -/
inductive Line (labels : Table (List Char) Nat) : List Char → (Register → Register) → Prop
  | comment {line : List Char} (h : line.head? = some '#') : Line labels line id
  | blank {line : List Char} (h : (strip line).isEmpty) : Line labels line id
  | nots {line name rest t : List Char} {cs : List (List Char)} {vs : List Nat} {v : Nat}
      (gate : line.head? ≠ some '#') (cut : splitFirst ' ' (strip line) = some (name, rest))
      (wires : labelsOn rest = cs ++ [t]) (distinct : (cs ++ [t]).Nodup) (few : cs.length ≤ 6)
      (named : String.ofList ((strip name).map Char.toLower) ∈ notNames cs.length)
      (controls : cs.map labels.find? = vs.map some) (target : labels.find? t = some v) :
      Line labels line (flipIf (vs.map Int.ofNat) v)

/-- The register holds nothing from a wire on. -/
def ZeroFrom (n : Nat) (x : Register) : Prop := ∀ w : Int, n ≤ w → x w = false

/-- The gates read so far do `f` as long as the ancillas, which come after the labelled wires, are zero, and they are
    zero again afterwards. -/
structure Reads (n : Nat) (f : Register → Register) (s : State) : Prop where
  ancillas : ∃ m : Nat, s.ancillas = (range m).map (fun (k : Nat) => (n : Int) + k) ∧ s.qubits = n + m
  sends : ∀ x, ZeroFrom n x → ZeroFrom n (f x) ∧ Sends s.gates x (f x)

lemma reads_start (n : Nat) : Reads n id { qubits := n } := ⟨⟨0, rfl, by simp⟩, fun x hx => ⟨hx, Sends.nil x⟩⟩

lemma ZeroFrom.flipIf {cs : List Int} {x : Register} (hx : ZeroFrom n x) (ht : t < n) : ZeroFrom n (flipIf cs t x) := by
  intro w hw
  rw [ZXCircuits.flipIf, update_of_ne (by omega), hx w hw]

lemma Reads.push {s s' : State} (h : Reads n f s) {gs : List Gate}
    (ha : ∃ m : Nat, s'.ancillas = (range m).map (fun (k : Nat) => (n : Int) + k) ∧ s'.qubits = n + m)
    (hg : s'.gates = s.gates ++ gs) (hs : ∀ x, ZeroFrom n x → ZeroFrom n (g x) ∧ Sends gs x (g x)) :
    Reads n (g ∘ f) s' := by
  refine ⟨ha, fun x hx => ?_⟩
  obtain ⟨h1, h2⟩ := h.sends x hx
  obtain ⟨h3, h4⟩ := hs _ h1
  exact ⟨h3, hg ▸ h2.append h4⟩

lemma Reads.gate (h : Reads n f s) {g : Gate} {cs : List Int} (ht : t < n) (hg : ∀ x, Sends [g] x (flipIf cs t x)) :
    Reads n (flipIf cs t ∘ f) { s with gates := s.gates ++ [g] } :=
  h.push h.ancillas rfl fun x hx => ⟨hx.flipIf ht, hg x⟩

lemma addAncillas_spec {n k : Nat} (h : Reads n f s) :
    ∃ m : Nat, k ≤ m ∧ (addAncillas k s).ancillas = (range m).map (fun (k : Nat) => (n : Int) + k) ∧ (addAncillas k s).qubits = n + m := by
  obtain ⟨m, e, hq⟩ := h.ancillas
  have hm : s.ancillas.length = m := by simp [e]
  refine ⟨m + (k - m), by omega, ?_, ?_⟩
  · rw [addAncillas]
    dsimp only
    rw [hm, hq, e, range_add, map_append, map_map]
    congr 1
    refine map_congr_left fun i _ => ?_
    simp only [comp_apply, Nat.cast_add]
    ring
  · simp only [addAncillas, hm, hq]
    push_cast
    ring

lemma Numbered.targets (h : Numbered labels) {ws : List (List Char)} {vs : List Nat}
    (hd : ws.Nodup) (e : ws.map labels.find? = vs.map some) :
    (ws.mapM fun w => do return Int.ofNat (← orAbsent (labels.find? w))) = .ok (vs.map Int.ofNat) ∧
      (∀ u ∈ vs.map Int.ofNat, u < labels.length) ∧ (vs.map Int.ofNat).Nodup := by
  refine ⟨?_, fun u hu => ?_, ?_⟩
  · clear hd
    induction ws generalizing vs with
    | nil =>
      obtain rfl : vs = [] := by simpa using e.symm
      rfl
    | cons w ws ih =>
      rcases vs with _ | ⟨v, vs⟩
      · simp at e
      simp only [map_cons, List.cons.injEq] at e
      rw [mapM_cons, e.1, ih e.2]
      rfl
  · obtain ⟨v, hv, rfl⟩ := mem_map.1 hu
    obtain ⟨w, -, hw⟩ := mem_map.1 (e ▸ mem_map_of_mem hv : some v ∈ ws.map labels.find?)
    exact Int.ofNat_lt.2 (h.lt w v hw)
  · refine Nodup.map (fun _ _ => Int.ofNat.inj) (Nodup.of_map some ?_)
    rw [← e]
    refine Nodup.map_on (fun w hw w' _ ew => ?_) hd
    obtain ⟨v, -, hv⟩ := mem_map.1 (e ▸ mem_map_of_mem hw : labels.find? w ∈ vs.map some)
    exact h.inj w w' v hv.symm (ew ▸ hv.symm)

lemma Reads.manyControlled (h : Reads n f s) {cs : List Int}
    (h3 : 3 ≤ cs.length) (h6 : cs.length ≤ 6) (below : ∀ u ∈ cs ++ [t], u < n) (apart : (cs ++ [t]).Nodup) :
    Reads n (flipIf cs t ∘ f) { addAncillas (cs.length - 2) s with
      gates := s.gates ++ manyControlled cs t (addAncillas (cs.length - 2) s).ancillas } := by
  obtain ⟨m, hm, ha, hq⟩ := addAncillas_spec h
  obtain ⟨hcs, -, hne⟩ := nodup_append.1 apart
  have ht := below t (by simp)
  refine h.push ⟨m, ha, hq⟩ rfl fun x hx => ⟨hx.flipIf ht, ?_⟩
  rw [← manyControlled_take h3 h6, ha]
  have high : ∀ k ∈ ((range m).map fun (k : Nat) => (n : Int) + k).take (cs.length - 2), (n : Int) ≤ k := by
    intro k hk
    obtain ⟨i, -, rfl⟩ := mem_map.1 (mem_of_mem_take hk)
    omega
  refine sends_manyControlled h3 h6 ?_ ?_ fun k hk => hx k (high k hk)
  · rw [length_take, length_map, length_range]
    omega
  have nodup : (((range m).map fun (k : Nat) => (n : Int) + k).take (cs.length - 2)).Nodup :=
    (nodup_range.map fun i j e => by simpa using e).sublist (take_sublist _ _)
  rw [nodup_cons, mem_append, not_or, nodup_append]
  refine ⟨⟨fun hm => ?_, fun hm => hne t hm t (by simp) rfl⟩, nodup, hcs, fun k hk u hu e => ?_⟩
  · exact absurd (high _ hm) (not_le.2 ht)
  have := below u (mem_append_left _ hu)
  have := high k hk
  omega

lemma readLine_spec {file : String} {line : List Char} (hl : Numbered labels) (h : Line labels line g) (hs : Reads labels.length f s) :
    ∃ s', readLine file labels s line = .ok s' ∧ Reads labels.length (g ∘ f) s' := by
  cases h with
  | comment h => exact ⟨s, by rw [readLine, if_pos h]; rfl, hs⟩
  | blank h =>
    refine ⟨s, ?_, hs⟩
    rw [readLine]
    split
    · rfl
    · rw [if_pos h]
      rfl
  | @nots name rest t cs vs v gate cut wires distinct few named controls target =>
    obtain ⟨targets, below, apart⟩ := hl.targets distinct
      (show (cs ++ [t]).map labels.find? = (vs ++ [v]).map some by simp [controls, target])
    have hlen : cs.length = (vs.map Int.ofNat).length := by simpa using congrArg length controls
    have full : ¬ (strip line).isEmpty := by
      intro he
      rw [isEmpty_iff.1 he] at cut
      cases cut
    rw [readLine, if_neg gate]
    rw [if_neg full, cut]
    dsimp only
    rw [labelsOn] at wires
    rw [wires, targets]
    rw [hlen] at few named
    rw [map_append] at below apart ⊢
    generalize String.ofList ((strip name).map Char.toLower) = called at named ⊢
    generalize vs.map Int.ofNat = us at *
    rw [map_singleton] at below apart ⊢
    have hv := below (Int.ofNat v) (by simp)
    obtain ⟨-, -, hne⟩ := nodup_append.1 apart
    have hne' : ∀ u ∈ us, u ≠ Int.ofNat v := fun u hu => hne u hu _ (by simp)
    rcases us with _ | ⟨a, _ | ⟨b, _ | ⟨c, us⟩⟩⟩
    · simp only [length_nil, notNames, mem_cons, not_mem_nil, or_false] at named
      rcases named with rfl | rfl | rfl | rfl
      all_goals
        refine ⟨_, rfl, hs.gate hv fun x => ?_⟩
        simpa [flipIf] using Sends.not v x
    · simp only [length_cons, length_nil, notNames, mem_cons, not_mem_nil, or_false] at named
      rcases named with rfl | rfl | rfl
      all_goals
        refine ⟨_, rfl, hs.gate hv fun x => ?_⟩
        simpa [flipIf] using Sends.cnot (hne' a (by simp)) x
    · simp only [length_cons, length_nil, notNames, mem_cons, not_mem_nil, or_false] at named
      rcases named with rfl | rfl
      all_goals
        refine ⟨_, rfl, hs.gate hv fun x => ?_⟩
        simpa [flipIf] using Sends.tof (hne' a (by simp)) (hne' b (by simp)) x
    · generalize hall : a :: b :: c :: us = all at *
      have h3 : 3 ≤ all.length := by simp [← hall]
      have known : called ∈ ["t4", "t5", "t6", "t7", "tof"] := by
        rw [← hall] at named
        exact named
      obtain ⟨d, ds, hrest⟩ : ∃ d ds, us ++ [Int.ofNat v] = d :: ds := exists_cons_of_ne_nil (by simp)
      have last : (all ++ [Int.ofNat v]).getLast? = some (Int.ofNat v) := getLast?_concat
      have front : (all ++ [Int.ofNat v]).dropLast = all := dropLast_concat
      have hcons : all ++ [Int.ofNat v] = a :: b :: c :: d :: ds := by rw [← hall, ← hrest]; rfl
      rw [hcons] at last front ⊢
      refine ⟨{ addAncillas (all.length - 2) s with
        gates := s.gates ++ manyControlled all v (addAncillas (all.length - 2) s).ancillas }, ?_, ?_⟩
      · simp only [bind, Except.bind, known, not_true, if_false, last, front, if_neg (not_lt.2 few)]
        rfl
      · exact hs.manyControlled h3 few below apart

/-! ## Files -/

/-- The lines of a file before its gates. -/
def headerLines (text : List Char) : List (List Char) := Text.lines (strip (slice text 0 (position "BEGIN".toList text)))

/-- The lines of a file between the first `BEGIN` and the first `END` in it. -/
def gateLines (text : List Char) : List (List Char) :=
  Text.lines (slice text (position "BEGIN".toList text + 6) (position "END".toList text))

lemma foldlM_readLine (file : String) (hl : Numbered labels) {lines : List (List Char)} (h : Forall₂ (Line labels) lines gs) :
    ∀ {f : Register → Register} {s : State}, Reads labels.length f s → ∃ s', lines.foldlM (readLine file labels) s = .ok s' ∧
        Reads labels.length (fun x => gs.foldl (fun y g => g y) (f x)) s' := by
  induction h with
  | nil => exact fun {f s} hs => ⟨s, rfl, hs⟩
  | cons hline _ ih =>
    intro f s hs
    obtain ⟨s1, e1, h1⟩ := readLine_spec hl hline hs
    obtain ⟨s2, e2, h2⟩ := ih h1
    exact ⟨s2, by rw [foldlM_cons, e1]; exact e2, h2⟩

/-- **Files of controlled nots.**  Where the lines between `BEGIN` and `END` are nots with at most six controls, a circuit is
    read that carries them out one after another, as long as the wires after the labelled ones are zero; and these are
    zero again at its end. -/
theorem parse_sends (file : String) (text : List Char)
    (hh : (headerLines text).foldlM declare [] = .ok labels) (hg : Forall₂ (Line labels) (gateLines text) gs) :
    ∃ c, parse file text = .ok c ∧ labels.length ≤ c.qubits ∧ ∀ x, ZeroFrom labels.length x →
      Sends c.gates x (gs.foldl (fun y g => g y) x) ∧ ZeroFrom labels.length (gs.foldl (fun y g => g y) x) := by
  have hl : Numbered labels :=
    Gives.foldlM ⟨by simp, by simp⟩ (fun t line _ ht => declare_gives ht line) labels hh
  obtain ⟨s, e, h⟩ := foldlM_readLine file hl hg (reads_start labels.length)
  refine ⟨{ qubits := s.qubits, gates := s.gates }, ?_, ?_, fun x hx => (h.sends x hx).symm⟩
  · have hp : parse file text = (headerLines text).foldlM declare [] >>= fun labels =>
        (gateLines text).foldlM (readLine file labels) { qubits := labels.length } >>= fun s =>
          pure { qubits := s.qubits, gates := s.gates } := rfl
    simp only [hp, hh, bind, Except.bind, e]
    rfl
  · obtain ⟨m, -, hq⟩ := h.ancillas
    dsimp only
    omega

end Qc

end ZXCircuits
