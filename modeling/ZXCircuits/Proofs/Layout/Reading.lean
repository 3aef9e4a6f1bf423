/-
  Reading a circuit off its own diagram.

  In a diagram drawn by nodes a vertex has one neighbour on an earlier row, the one its node hangs on, and at most one earlier neighbour
  on its own row.  So what is read off the diagram is what is read off the nodes, row by row.  Nodes that change places that way have no
  wire in common.
-/
import ZXCircuits.Proofs.Layout.Weaving
import ZXCircuits.Proofs.Swaps

namespace ZXCircuits

open List

/-! ## Lists -/

section Lists

variable {α : Type}

lemma ok_bind {β : Type} (a : α) (f : α → Attempt β) : (Except.ok a >>= f) = f a := rfl

lemma filterM_ok {p : α → Attempt Bool} {q : α → Bool} (xs : List α) (h : ∀ x ∈ xs, p x = .ok (q x)) :
    xs.filterM p = .ok (xs.filter q) := by
  have aux : ∀ (xs ys : List α), (∀ x ∈ xs, p x = .ok (q x)) → xs.filterAuxM p ys = .ok ((xs.filter q).reverse ++ ys) := by
    intro xs
    induction xs with
    | nil => exact fun ys _ => rfl
    | cons x xs ih =>
      intro ys h
      rw [filterAuxM, h x (by simp)]
      show filterAuxM p xs (cond (q x) (x :: ys) ys) = _
      rw [ih _ (forall_mem_cons.1 h).2]
      cases hq : q x <;> simp [hq]
  rw [filterM, aux xs [] h, append_nil]
  show Except.ok (reverse (reverse _)) = _
  rw [reverse_reverse]

lemma filter_eq_toList {l : List α} (hn : l.Nodup) {q : α → Bool} {o : Option α} (h : ∀ x, x ∈ l ∧ q x ↔ o = some x) :
    l.filter q = o.toList := by
  cases o with
  | none => exact filter_eq_nil_iff.2 fun x hx hq => by cases (h x).1 ⟨hx, hq⟩
  | some u =>
    refine perm_singleton.1 ((perm_ext_iff_of_nodup (hn.filter q) (nodup_singleton u)).2 fun x => ?_)
    rw [mem_filter, h, mem_singleton, Option.some.injEq, eq_comm]

end Lists

/-! ## Coordinates -/

namespace Coord

lemma maximum_eq {cs : List Coord} {m : ℤ} (hm : .int m ∈ cs) (hc : ∀ c ∈ cs, ∃ k ≤ m, c = .int k) : maximum cs = some (.int m) := by
  have fold : ∀ (cs : List Coord) (b : ℤ), b ≤ m → (∀ c ∈ cs, ∃ k ≤ m, c = .int k) → (b = m ∨ .int m ∈ cs) →
      cs.foldl (fun best d => if less best d then d else best) (.int b) = .int m := by
    intro cs
    induction cs with
    | nil =>
      rintro b - - (rfl | h)
      · rfl
      · cases h
    | cons c cs ih =>
      intro b hb hc hm
      obtain ⟨k, hk, rfl⟩ := hc c (by simp)
      have best : (if less (.int b) (.int k) then Coord.int k else .int b) = .int (max b k) := by
        rw [less, max_def']
        split <;> rename_i h <;> simp at h
        · rw [if_neg (by omega)]
        · rw [if_pos (by omega)]
      rw [foldl_cons, best]
      refine ih _ (max_le hb hk) (forall_mem_cons.1 hc).2 ?_
      rcases hm with rfl | hm
      · exact .inl (max_eq_left hk)
      rcases mem_cons.1 hm with h | hm
      · obtain rfl := Coord.int.inj h
        exact .inl (max_eq_right hb)
      · exact .inr hm
  cases cs with
  | nil => cases hm
  | cons c cs =>
    obtain ⟨k, hk, rfl⟩ := hc c (by simp)
    refine congrArg some (fold cs k hk (forall_mem_cons.1 hc).2 ?_)
    rcases mem_cons.1 hm with h | hm
    · exact .inl (Coord.int.inj h).symm
    · exact .inr hm

lemma distinct_go (xs : List ℤ) (hx : xs.Pairwise (· ≤ ·)) :
    ∃ rs : List ℤ, distinct.go (xs.map .int) = rs.map .int ∧ rs.Pairwise (· < ·) ∧ ∀ r, r ∈ rs ↔ r ∈ xs := by
  match xs, hx with
  | [], _ => exact ⟨[], by simp [distinct.go], .nil, fun _ => Iff.rfl⟩
  | [c], _ => exact ⟨[c], by simp [distinct.go], pairwise_singleton _ _, fun _ => Iff.rfl⟩
  | c :: d :: rest, hx =>
    obtain ⟨hc, htail⟩ := pairwise_cons.1 hx
    obtain ⟨hd, hrest⟩ := pairwise_cons.1 htail
    rw [map_cons, map_cons, distinct.go]
    by_cases h : c = d
    · subst h
      obtain ⟨rs, e, hs, hm⟩ := distinct_go (c :: rest) htail
      refine ⟨rs, ?_, hs, fun r => ?_⟩
      · rw [if_pos (by simp [same]), ← e, map_cons]
      · rw [hm, mem_cons, mem_cons, mem_cons, or_self_left]
    obtain ⟨rs, e, hs, hm⟩ := distinct_go (d :: rest) htail
    refine ⟨c :: rs, ?_, pairwise_cons.2 ⟨fun r hr => ?_, hs⟩, fun r => ?_⟩
    · rw [if_neg (by simpa [same] using h), map_cons, ← e, map_cons]
    · have hcd := hc d mem_cons_self
      rcases mem_cons.1 ((hm r).1 hr) with rfl | hr
      · omega
      · have := hd r hr
        omega
    · rw [mem_cons, hm, mem_cons (l := d :: rest)]
  termination_by xs.length

lemma distinct_map_int (xs : List ℤ) :
    ∃ rs : List ℤ, distinct (xs.map .int) = rs.map .int ∧ rs.Pairwise (· < ·) ∧ ∀ r, r ∈ rs ↔ r ∈ xs := by
  have sorted : sort (xs.map .int) = (xs.mergeSort fun a b => decide (a ≤ b)).map .int := by
    refine (map_mergeSort fun a _ b _ => ?_).symm
    simp only [atMost, less, ← not_lt, decide_not]
  obtain ⟨rs, e, hs, hm⟩ := distinct_go (xs.mergeSort fun a b => decide (a ≤ b)) <| by
    refine (pairwise_mergeSort (fun a b c => ?_) (fun a b => ?_) xs).imp fun h => of_decide_eq_true h
    · simp only [decide_eq_true_eq]
      exact le_trans
    · simp only [Bool.or_eq_true, decide_eq_true_eq]
      exact le_total a b
  refine ⟨rs, ?_, hs, fun r => (hm r).trans mem_mergeSort⟩
  rw [distinct, sorted, e]

end Coord

/-! ## What nodes are joined to -/

namespace Node

variable {ns : List Node} {x y : Node} {i u v w : ℕ} {e : EdgeKind}

lemma Placed.ne (hp : Placed ns i x) {e' : EdgeKind} (hb : x.back = some (u, e)) (hs : x.side = some (v, e')) : u ≠ v := by
  rintro rfl
  obtain ⟨-, y, hy, -, hr⟩ := hp.back u e hb
  obtain ⟨-, z, hz, hr'⟩ := hp.side u e' hs
  obtain rfl := Option.some.inj (hy.symm.trans hz)
  omega

def Joins (x : Node) (u : ℕ) (e : EdgeKind) : Prop := x.back = some (u, e) ∨ x.side = some (u, e)

lemma Placed.lt_of_joins (hp : Placed ns i x) (h : x.Joins u e) : u < i := by
  rcases h with h | h
  · exact (hp.back u e h).1
  · exact (hp.side u e h).1

lemma Placed.find?_edges (hp : Placed ns i x) : Table.find? x.edges u = some e ↔ x.Joins u e := by
  rw [Joins]
  rw [edges]
  cases hb : x.back with
  | none =>
    cases hs : x.side with
    | none => simp
    | some q => simp [Table.find?, Prod.ext_iff]
  | some q =>
    cases hs : x.side with
    | none => simp [Table.find?, Prod.ext_iff]
    | some r =>
      have hne : q.1 ≠ r.1 := hp.ne hb hs
      simp only [Option.toList_some, singleton_append, Table.find?, Option.some.injEq, Prod.ext_iff]
      grind

/-- **What a vertex is joined to**: earlier nodes, by an edge of its own node, and later ones, by an edge of theirs. -/
theorem linkOf_eq_some (hp : ∀ i x, ns[i]? = some x → Placed ns i x) (hx : ns[v]? = some x) :
    linkOf ns v w = some e ↔ x.Joins w e ∨ ∃ y, ns[w]? = some y ∧ y.Joins v e := by
  have link : ∀ {a b : ℕ} {z : Node}, b < a → ns[a]? = some z → (linkOf ns a b = some e ↔ z.Joins b e) := by
    intro a b z hlt hz
    rw [linkOf_of_lt hlt, hz, Option.bind_some, (hp a z hz).find?_edges]
  constructor
  · intro h
    rcases lt_trichotomy w v with hlt | rfl | hlt
    · exact .inl ((link hlt hx).1 h)
    · rw [linkOf, max_self, min_self, hx, Option.bind_some, (hp w x hx).find?_edges] at h
      exact .inl h
    · rw [linkOf_comm] at h
      cases hy : ns[w]? with
      | none =>
        rw [linkOf_of_lt hlt, hy] at h
        cases h
      | some y => exact .inr ⟨y, rfl, (link hlt hy).1 h⟩
  · rintro (h | ⟨y, hy, h⟩)
    · exact (link ((hp v x hx).lt_of_joins h) hx).2 h
    · rw [linkOf_comm]
      exact (link ((hp w y hy).lt_of_joins h) hy).2 h

def rowOf (ns : List Node) (v : ℕ) : ℤ := (ns[v]?.map Node.row).getD 0

lemma rowOf_eq (hx : ns[v]? = some x) : rowOf ns v = x.row := by rw [rowOf, hx]; rfl

variable (hp : ∀ i x, ns[i]? = some x → Placed ns i x) (hx : ns[v]? = some x)
include hp hx

/-- **One neighbour is on an earlier row**, the node before on the wire. -/
theorem joined_earlier_iff : (∃ e, linkOf ns v w = some e) ∧ rowOf ns w < x.row ↔ x.back.map Prod.fst = some w := by
  simp only [linkOf_eq_some hp hx, Option.map_eq_some_iff, Prod.exists, exists_and_right, exists_eq_right]
  constructor
  · rintro ⟨⟨e, (h | h) | ⟨y, hy, h | h⟩⟩, hlt⟩
    · exact ⟨e, h⟩
    · obtain ⟨-, z, hz, hr⟩ := (hp v x hx).side w e h
      rw [rowOf_eq hz] at hlt
      omega
    · obtain ⟨-, z, hz, -, hr⟩ := (hp w y hy).back v e h
      obtain rfl := Option.some.inj (hx.symm.trans hz)
      rw [rowOf_eq hy] at hlt
      omega
    · obtain ⟨-, z, hz, hr⟩ := (hp w y hy).side v e h
      obtain rfl := Option.some.inj (hx.symm.trans hz)
      rw [rowOf_eq hy] at hlt
      omega
  · rintro ⟨e, h⟩
    obtain ⟨-, y, hy, -, hr⟩ := (hp v x hx).back w e h
    exact ⟨⟨e, .inl (.inl h)⟩, by rwa [rowOf_eq hy]⟩

/-- **At most one earlier neighbour is on the same row**, the node beside. -/
theorem joined_beside_iff : (∃ e, linkOf ns v w = some e) ∧ rowOf ns w = x.row ∧ w < v ↔ x.side.map Prod.fst = some w := by
  simp only [linkOf_eq_some hp hx, Option.map_eq_some_iff, Prod.exists, exists_and_right, exists_eq_right]
  constructor
  · rintro ⟨⟨e, (h | h) | ⟨y, hy, h⟩⟩, hr, hlt⟩
    · obtain ⟨-, z, hz, -, hr'⟩ := (hp v x hx).back w e h
      rw [rowOf_eq hz] at hr
      omega
    · exact ⟨e, h⟩
    · exact absurd ((hp w y hy).lt_of_joins h) (Nat.not_lt.2 hlt.le)
  · rintro ⟨e, h⟩
    obtain ⟨hlt, y, hy, hr⟩ := (hp v x hx).side w e h
    exact ⟨⟨e, .inl (.inr h)⟩, by rwa [rowOf_eq hy], hlt⟩

end Node

/-! ## What is read off a vertex -/

namespace Diagram

open Node

variable {g : Diagram} {ns : List Node} {x y : Node} {v w : ℕ}

variable (hs : Shows g ns)
include hs

section

variable (hx : ns[v]? = some x)
include hx

lemma Shows.qubitAt : g.qubitAt v = .ok (.int x.wire) := by
  rw [Diagram.qubitAt, hs.qubit, hx]
  rfl

lemma Shows.rowAt : g.rowAt v = .ok (.int x.row) := by
  rw [Diagram.rowAt, hs.row, hx]
  rfl

lemma Shows.kind_ok : g.kind v = .ok x.kind := by
  rw [Diagram.kind, hs.kind, hx]
  rfl

lemma Shows.phaseAt : ∃ p, g.phaseAt v = .ok p ∧ p.toRat = x.phase := by
  have hp := hs.phase v
  rw [hx, Option.map_some] at hp
  obtain ⟨p, hp, h⟩ := Option.map_eq_some_iff.1 hp
  refine ⟨p, ?_, h⟩
  rw [Diagram.phaseAt, hp]
  rfl

lemma Shows.neighbours : g.neighbours v = .ok (g.nearby v) := by
  obtain ⟨t, ht⟩ := has_iff.1 ((hs.vertex v).2 (List.getElem?_eq_some_iff.1 hx).1)
  rw [Diagram.neighbours, Diagram.adjacent, nearby, ht]
  rfl

end

lemma Shows.mem_nearby : w ∈ g.nearby v ↔ ∃ e, linkOf ns v w = some e := by
  rw [Diagram.mem_nearby, Joined, hs.link, Option.isSome_iff_exists]

lemma Shows.edgeKind : g.edgeKind (edge v w) = (linkOf ns v w).getD .absent := by
  rw [edgeKind_eq, edge, hs.link]
  split
  · rfl
  · rw [linkOf_comm]

lemma Shows.node_of_neighbour (hw : w ∈ g.nearby v) : ∃ y, ns[w]? = some y := by
  have hw := (hs.vertex w).1 ((hs.coherent.back (Diagram.mem_nearby.1 hw)).has)
  exact ⟨_, getElem?_eq_getElem hw⟩

variable (hp : ∀ i x, ns[i]? = some x → Placed ns i x) (hx : ns[v]? = some x)
include hp hx

lemma Shows.earlier :
    ((g.nearby v).filterM fun w => do return (← g.rowAt w).less (.int x.row)) = .ok (x.back.map Prod.fst).toList := by
  rw [filterM_ok (q := fun w => decide (rowOf ns w < x.row)) _ fun w hw => ?_]
  · refine congrArg Except.ok (filter_eq_toList (hs.coherent.nodup v) fun w => ?_)
    rw [hs.mem_nearby, decide_eq_true_eq, joined_earlier_iff hp hx]
  obtain ⟨y, hy⟩ := hs.node_of_neighbour hw
  rw [hs.rowAt hy, rowOf_eq hy]
  rfl

lemma Shows.beside : ((g.nearby v).filterM fun w => do return (← g.rowAt w).same (.int x.row) && decide (w < v)) =
      .ok (x.side.map Prod.fst).toList := by
  rw [filterM_ok (q := fun w => decide (rowOf ns w = x.row) && decide (w < v)) _ fun w hw => ?_]
  · refine congrArg Except.ok (filter_eq_toList (hs.coherent.nodup v) fun w => ?_)
    rw [hs.mem_nearby, Bool.and_eq_true, decide_eq_true_eq, decide_eq_true_eq, joined_beside_iff hp hx]
  obtain ⟨y, hy⟩ := hs.node_of_neighbour hw
  rw [hs.rowAt hy, rowOf_eq hy]
  rfl

end Diagram

namespace Circuit

open Node

variable {g : Diagram} {ns : List Node} {x : Node} {u v : ℕ} {e : EdgeKind}

lemma wireOf_int (w : ℤ) : wireOf (.int w) = .ok w := by simp [wireOf, Coord.toInt?, Coord.toRat]

section

variable (hs : g.Shows ns) (hp : ∀ i x, ns[i]? = some x → Placed ns i x) (hx : ns[v]? = some x)
include hs hp hx

lemma mapM_verticalGate : ((x.side.map Prod.fst).toList.mapM fun w => do
      let k ← g.kind w
      let q ← wireOf (← g.qubitAt w)
      verticalGate x.kind k (g.edgeKind (Diagram.edge v w)) x.wire q) = x.side.toList.mapM (sideGate ns x) := by
  cases hside : x.side with
  | none => rfl
  | some q =>
    obtain ⟨-, y, hy, -⟩ := (hp v x hx).side q.1 q.2 hside
    have kind : g.edgeKind (Diagram.edge v q.1) = q.2 := by
      rw [hs.edgeKind, (linkOf_eq_some hp hx).2 (.inl (.inr hside))]
      rfl
    simp [Option.map_some, Option.toList_some, mapM_cons, mapM_nil, hs.kind_ok hy, hs.qubitAt hy, wireOf_int, ok_bind, kind, sideGate, hy]

/-- **What is read off a vertex is what is read off its node.** -/
theorem vertexGates_eq (hb : x.back = some (u, e)) (split : Bool) : vertexGates g split (.int x.row) v = x.reading split ns := by
  obtain ⟨p, hphase, hpr⟩ := hs.phaseAt hx
  obtain ⟨-, y, hy, hyw, -⟩ := (hp v x hx).back u e hb
  have back : g.edgeKind (Diagram.edge u v) = e := by
    rw [hs.edgeKind, linkOf_comm, (linkOf_eq_some hp hx).2 (.inl (.inl hb))]
    rfl
  have earlier := hs.earlier hp hx
  rw [hb] at earlier
  simp only [vertexGates, hs.qubitAt hx, hphase, hs.kind_ok hx, hs.neighbours hx, earlier, hs.beside hp hx, ok_bind,
    Option.map_some, Option.toList_some, hs.qubitAt hy]
  rw [if_neg (by simp [Coord.same, hyw]), wireOf_int, ok_bind, mapM_verticalGate hs hp hx, back, hpr, reading, hb]
  rfl

end

/-! ## Rows of vertices -/

variable {n : ℕ} {split : Bool}

def gatesOf (ns : List Node) (v : ℕ) : List Gate := (ns[v]?.map Node.gates).getD []

lemma vertices_eq (hs : g.Shows ns) : g.vertices = range ns.length := by
  have ascending : g.vertices.Pairwise fun a b : ℕ => a < b := by
    refine (Std.TreeMap.ordered_keys).imp fun h => ?_
    exact Nat.compare_eq_lt.1 h
  refine ascending.eq_of_mem_iff pairwise_lt_range fun v => ?_
  rw [Diagram.mem_vertices, hs.vertex, mem_range]

lemma mem_values {β : Type} {m : Std.TreeMap ℕ β} {b : β} : b ∈ m.values ↔ ∃ v, m.get? v = some b := by
  have values : m.values = m.toList.map Prod.snd := by
    have fold : m.values = m.foldr (fun _ b l => b :: l) [] := rfl
    rw [fold, Std.TreeMap.foldr_eq_foldr_toList]
    induction m.toList with
    | nil => rfl
    | cons a l ih => rw [foldr_cons, ih]; rfl
  rw [values, mem_map]
  constructor
  · rintro ⟨q, hq, rfl⟩
    exact ⟨q.1, Std.TreeMap.mem_toList_iff_getElem?_eq_some.1 hq⟩
  · rintro ⟨v, hv⟩
    exact ⟨(v, b), Std.TreeMap.mem_toList_iff_getElem?_eq_some.2 hv, rfl⟩

lemma qubitCount_eq (hs : g.Shows ns) (hd : Drawn n split ns) (hn : 0 < n) : g.qubitCount = .int n := by
  have top : Coord.maximum g.qubits.values = some (.int (n - 1)) := by
    refine Coord.maximum_eq (mem_values.2 ⟨n - 1, ?_⟩) fun c hc => ?_
    · obtain ⟨x, hx, hw, -⟩ := hd.inputs (n - 1) (by omega)
      rw [hs.qubit, hx, Option.map_some, hw, Nat.cast_sub hn]
      rfl
    obtain ⟨v, hv⟩ := mem_values.1 hc
    rw [hs.qubit] at hv
    obtain ⟨x, hx, rfl⟩ := Option.map_eq_some_iff.1 hv
    have hw := hd.onWire x (mem_of_getElem? hx)
    exact ⟨x.wire, by have := hw.2; omega, rfl⟩
  rw [Diagram.qubitCount, top]
  show Coord.int (n - 1 + 1) = _
  rw [sub_add_cancel]

lemma courseOf_flatten (gss : List (List Gate)) : courseOf gss.flatten = (gss.map courseOf).prod := by
  induction gss with
  | nil => rfl
  | cons gs gss ih => rw [flatten_cons, courseOf_append, ih, map_cons, prod_cons]

lemma gatesOf_eq (hx : ns[v]? = some x) : gatesOf ns v = x.gates := by rw [gatesOf, hx]; rfl

lemma courseOf_flatMap_gates (ns : List Node) :
    courseOf (ns.flatMap Node.gates) = ((range ns.length).map fun v => courseOf (gatesOf ns v)).prod := by
  have gates : ns.map Node.gates = (range ns.length).map (gatesOf ns) := by
    refine ext_getElem (by simp) fun i h1 h2 => ?_
    rw [getElem_map, getElem_map, getElem_range, gatesOf_eq (getElem?_eq_getElem (by simpa using h1))]
  rw [flatMap_def, gates, courseOf_flatten, map_map]
  rfl

/-- **Nodes that change places when they are read row by row have no wire in common.** -/
theorem commute_of_drawn (hd : Drawn n split ns) : (range ns.length).Pairwise fun a b =>
    rowOf ns b < rowOf ns a → Commute (courseOf (gatesOf ns a)) (courseOf (gatesOf ns b)) := by
  refine pairwise_lt_range.imp_of_mem fun {a b} ha hb hab hlt => ?_
  rw [mem_range] at ha hb
  have hx := getElem?_eq_getElem ha
  have hy := getElem?_eq_getElem hb
  rw [rowOf_eq hx, rowOf_eq hy] at hlt
  rw [gatesOf_eq hx, gatesOf_eq hy]
  have onWires : ∀ {x : Node}, x ∈ ns → courseOf x.gates ∈ Course.on x.wires := fun hx =>
    Gate.courseOf_mem_on fun g hg => ⟨hd.fits _ hx g hg, fun l hl => ⟨g, hg, hl⟩⟩
  exact Course.commute_of_mem_on (pairwise_iff_getElem.1 hd.apart a b ha hb hab hlt) (onWires (getElem_mem ha)) (onWires (getElem_mem hb))

def inner (n : ℕ) (ns : List Node) : List ℕ := (range ns.length).filter fun v => !(range n).contains v

lemma mem_inner : v ∈ inner n ns ↔ n ≤ v ∧ v < ns.length := by
  rw [inner, mem_filter, Bool.not_eq_true', ← Bool.not_eq_true, contains_iff_mem, mem_range, mem_range, not_lt, and_comm]

lemma prod_inner (hd : Drawn n split ns) :
    ((inner n ns).map fun v => courseOf (gatesOf ns v)).prod = courseOf (ns.flatMap Node.gates) := by
  have skip : ∀ l : List ℕ, ((l.filter fun v => !(range n).contains v).map fun v => courseOf (gatesOf ns v)).prod =
      (l.map fun v => courseOf (gatesOf ns v)).prod := by
    intro l
    induction l with
    | nil => rfl
    | cons v l ih =>
      rw [filter_cons, map_cons, prod_cons]
      split
      · rw [map_cons, prod_cons, ih]
      rename_i hv
      rw [Bool.not_eq_true', Bool.not_eq_false, contains_iff_mem, mem_range] at hv
      obtain ⟨x, hx, -, hg⟩ := hd.inputs v hv
      rw [gatesOf_eq hx, hg, courseOf_nil, one_mul, ih]
  rw [courseOf_flatMap_gates, inner, skip]

section

variable (hs : g.Shows ns)
include hs

lemma row_eq (hv : v < ns.length) : g.row v = .int (rowOf ns v) := by
  have hx := getElem?_eq_getElem hv
  rw [Diagram.row, hs.row, hx, rowOf_eq hx]
  rfl

variable (hd : Drawn n split ns)
include hd

lemma vertexGates_ok (hv : v ∈ inner n ns) : vertexGates g split (.int (rowOf ns v)) v = .ok (gatesOf ns v) := by
  rw [mem_inner] at hv
  have hx := getElem?_eq_getElem hv.2
  have hr := hd.reads v _ hv.1 hx
  cases hb : ns[v].back with
  | none =>
    rw [reading, hb] at hr
    cases hr
  | some q => rw [rowOf_eq hx, gatesOf_eq hx, vertexGates_eq hs hd.placed hx hb, hr]

lemma ofDiagram_eq (hn : 0 < n) (hin : g.inputs = range n) :
    ∃ rows : List ℤ, rows.Pairwise (· < ·) ∧ (∀ v ∈ inner n ns, rowOf ns v ∈ rows) ∧ ofDiagram g split =
      .ok { qubits := n, gates := (rows.map fun r => (((inner n ns).filter (rowOf ns · = r)).map (gatesOf ns)).flatten).flatten } := by
  have vertices : (g.vertices.filter fun v => !g.inputs.contains v) = inner n ns := by rw [vertices_eq hs, hin, inner]
  have coords : (inner n ns).map g.row = ((inner n ns).map (rowOf ns)).map .int := by
    rw [map_map]
    exact map_congr_left fun v hv => row_eq hs (mem_inner.1 hv).2
  obtain ⟨rows, e, hrows, hmem⟩ := Coord.distinct_map_int ((inner n ns).map (rowOf ns))
  refine ⟨rows, hrows, fun v hv => (hmem _).2 (mem_map_of_mem hv), ?_⟩
  have row : ∀ r, (do return (← ((inner n ns).filter fun v => (g.row v).same (.int r)).mapM (vertexGates g split (.int r))).flatten) =
      Except.ok (((inner n ns).filter (rowOf ns · = r)).map (gatesOf ns)).flatten := by
    intro r
    have same : ((inner n ns).filter fun v => (g.row v).same (.int r)) = (inner n ns).filter (rowOf ns · = r) := by
      refine filter_congr fun v hv => ?_
      rw [row_eq hs (mem_inner.1 hv).2]
      rfl
    rw [same, Permutation.mapM_ok _ fun v hv => ?_]
    · rfl
    rw [mem_filter, decide_eq_true_eq] at hv
    rw [← hv.2]
    exact vertexGates_ok hs hd hv.1
  simp only [ofDiagram, qubitCount_eq hs hd hn, wireOf_int, ok_bind, vertices, coords, e, mapM_map, Function.comp_def]
  rw [Permutation.mapM_ok _ fun r _ => row r]
  rfl

/-- **What is read off a diagram drawn by nodes does what the gates of the nodes do.** -/
theorem ofDiagram_course (hn : 0 < n) (hin : g.inputs = range n) :
    ∃ c, ofDiagram g split = .ok c ∧ c.qubits = n ∧ courseOf c.gates = courseOf (ns.flatMap Node.gates) := by
  obtain ⟨rows, hrows, hmem, e⟩ := ofDiagram_eq hs hd hn hin
  refine ⟨_, e, rfl, ?_⟩
  have byRows := prod_rows (l := inner n ns) hrows ((commute_of_drawn hd).filter fun v => !(range n).contains v) hmem
  rw [prod_inner hd] at byRows
  rw [← byRows, courseOf_flatten, map_map]
  refine congrArg prod (map_congr_left fun r _ => ?_)
  rw [Function.comp_apply, courseOf_flatten, map_map]
  rfl

end

/-- **A circuit read off its own diagram is the circuit**, up to a scalar: its gates may come in another order, and turns are named
    anew. -/
theorem ofDiagram_toDiagram {c : Circuit} (hq : 0 < c.qubits) (hg : ∀ g ∈ c.gates, g.Fits c.qubits.toNat) (compress split : Bool) :
    ∃ g d, c.toDiagram compress = .ok g ∧ ofDiagram g split = .ok d ∧ d.qubits = c.qubits ∧
      ∃ s : ℂ, s ≠ 0 ∧ matrixOn c.qubits.toNat d.gates = s • c.unitary := by
  obtain ⟨g, ns, -, eg, hs, hd, hin, hm, -⟩ := toDiagram_drawn hq hg compress split
  obtain ⟨d, ed, hdq, hdm⟩ := ofDiagram_course hs hd (by omega) hin
  refine ⟨g, d, eg, ed, hdq.trans (Int.toNat_of_nonneg hq.le), ?_⟩
  exact matrixOn_eq_smul (hm.symm.trans hdm.symm) c.qubits.toNat

/-- All sorts of gates, with turns that have names of their own. -/
def namedTurns : Circuit where
  qubits := 3
  gates := [.had 1, .zPhase 0 (5 / 4), .cx 2 0, .xPhase 1 (3 / 2), .zPhase 2 (-1 / 2), .cz 0 1, .tof 2 0 1, .swap 1 2]

theorem ofDiagram_toDiagram_namedTurns : (∀ g ∈ namedTurns.gates, g.Fits 3) ∧ ∃ g d, namedTurns.toDiagram true = .ok g ∧
    ofDiagram g true = .ok d ∧ d.qubits = 3 ∧ ∃ s : ℂ, s ≠ 0 ∧ matrixOn 3 d.gates = s • namedTurns.unitary := by
  have hg : ∀ g ∈ namedTurns.gates, g.Fits 3 := by
    simp [namedTurns, Gate.Fits, OnWire, Gate.had, Gate.zPhase, Gate.cx, Gate.xPhase, Gate.cz, Gate.tof, Gate.swap]
  exact ⟨hg, ofDiagram_toDiagram (by decide) hg true true⟩

end Circuit

end ZXCircuits
