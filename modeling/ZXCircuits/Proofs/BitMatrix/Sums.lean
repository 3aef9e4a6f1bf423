/-
  Rows that add up to a single bit.

  The search goes through the ascending lists of rows by their lengths (`Level`), so that the first one found is a shortest.  The
  rows that take part in the greedy reduction always have the same sum, whichever addition is chosen, and so the last one is it.
-/
import ZXCircuits.Proofs.BitMatrix.Rows
import Mathlib.InformationTheory.Hamming

namespace ZXCircuits.BitMatrix

open List

variable {m : BitMatrix} {r c i k : Nat} {l : List Nat}

/-! ## Smallest sums -/

/-- A vector, as a row of zeros and ones. -/
def written (v : Fin c → ZMod 2) : List Int := ofFn fun j => if v j = 0 then 0 else 1

lemma differ_written (v w : Fin c → ZMod 2) : differ (written v) (written w) = written (v + w) := by
  have bit : ∀ x y : ZMod 2, (if (if x = 0 then 0 else 1) = if y = 0 then (0 : Int) else 1 then (0 : Int) else 1) =
      if x + y = 0 then 0 else 1 := by decide
  exact ext_getElem (by simp [differ, written]) fun j _ _ => by simp [differ, written, bit]

lemma total_written (v : Fin c → ZMod 2) : total (written v) = hammingNorm v := by
  rw [total, ← sum_eq_foldl, written, sum_ofFn, hammingNorm, Finset.card_filter]
  simp

lemma Bits.toRows_eq (hm : m.Bits r c) : m.toRows = (List.range r).map fun i => written (m.line c i) := by
  rw [BitMatrix.toRows_eq, hm.shaped.rows]
  refine map_congr_left fun i hi => ext_getElem (by simp [written, hm.shaped.cols i (mem_range.1 hi)]) fun j h _ => ?_
  have hj : j < (m.row i).size := by simpa using h
  have he : m.entry i j = (m.row i)[j] := by simp [entry, hj]
  rcases hm.binary i j with h | h <;> simp [written, line, bit, ← he, h]

def sumOf (m : BitMatrix) (c : Nat) (l : List Nat) : Fin c → ZMod 2 := (l.map (m.line c)).sum

lemma sumOf_concat (l : List Nat) (k : Nat) : m.sumOf c (l ++ [k]) = m.sumOf c l + m.line c k := by simp [sumOf]

lemma sumOf_eq (h : l.Nodup) : m.sumOf c l = ∑ i ∈ l.toFinset, m.line c i := (sum_toFinset _ h).symm

/-- Places of rows, in ascending order. -/
def Ascending (r : Nat) (l : List Nat) : Prop := l ≠ [] ∧ l.Pairwise (· < ·) ∧ ∀ i ∈ l, i < r

lemma ascending_concat (hl : l ≠ []) : Ascending r (l ++ [k]) ↔ Ascending r l ∧ l.getLastD 0 < k ∧ k < r := by
  obtain h | ⟨l, z, rfl⟩ := eq_nil_or_concat l
  · exact (hl h).elim
  · simp only [concat_eq_append, Ascending, pairwise_append, getLastD_concat, forall_mem_append, mem_singleton, forall_eq]
    grind

variable {rows : Array (List Int)} {sets acc : List (List Nat × List Int)} {n : Nat}

/-- The extensions of a list of rows and its sum by one later row. -/
def extensions (rows : Array (List Int)) (x : List Nat × List Int) : List (List Nat × List Int) :=
  ((List.range (rows.size - (x.1.getLastD 0 + 1))).map (· + (x.1.getLastD 0 + 1))).map fun k => (x.1 ++ [k], differ x.2 (rows.getD k []))

/-- What trying `xs` may end with, if `all` is what there is then. -/
def Extension.Ends (xs all : List (List Nat × List Int)) : Extension → Prop
  | .found l => ∃ x ∈ xs, x.1 = l ∧ total x.2 = 1
  | .gaveUp => True
  | .extended sets _ => sets = all ∧ ∀ x ∈ xs, total x.2 ≠ 1

lemma Extension.Ends.append {u v all : List (List Nat × List Int)} {e : Extension} (hu : ∀ x ∈ u, total x.2 ≠ 1)
    (h : e.Ends v all) : e.Ends (u ++ v) all := by
  cases e with
  | found l => exact h.imp fun x hx => ⟨mem_append_right _ hx.1, hx.2⟩
  | gaveUp => exact h
  | extended sets _ => exact ⟨h.1, forall_mem_append.2 ⟨hu, h.2⟩⟩

lemma extendSet_ends (index : List Nat) (sum : List Int) (ks : List Nat) :
    (extendSet rows index sum ks acc n).Ends (ks.map fun k => (index ++ [k], differ sum (rows.getD k [])))
      ((ks.map fun k => (index ++ [k], differ sum (rows.getD k []))).reverse ++ acc) := by
  induction ks generalizing acc n with
  | nil =>
    rw [extendSet]
    split
    · trivial
    · exact ⟨rfl, by simp⟩
  | cons k ks ih =>
    rw [extendSet]
    split
    · exact ⟨_, mem_cons_self, rfl, ‹_›⟩
    · rw [map_cons, reverse_cons, append_assoc]
      exact ih.append (u := [_]) (forall_mem_singleton.2 ‹_›)

lemma extendAll_ends : (extendAll rows sets acc n).Ends (sets.flatMap (extensions rows)) (acc.reverse ++ sets.flatMap (extensions rows)) := by
  induction sets generalizing acc n with
  | nil => exact ⟨by simp, by simp⟩
  | cons x sets ih =>
    rw [extendAll, flatMap_cons]
    have one : (extendSet rows x.1 x.2 _ acc n).Ends (extensions rows x) ((extensions rows x).reverse ++ acc) := extendSet_ends ..
    revert one
    cases extendSet rows x.1 x.2 _ _ _ with
    | found l => exact fun h => h.imp fun y hy => ⟨mem_append_left _ hy.1, hy.2⟩
    | gaveUp => exact id
    | extended acc' t =>
      rintro ⟨rfl, h⟩
      have rest : (extendAll rows sets ((extensions rows x).reverse ++ acc) t).Ends _ _ := ih
      simpa using rest.append h

/-- All ascending lists of `k` rows, with their sums. -/
def Level (m : BitMatrix) (r c k : Nat) (sets : List (List Nat × List Int)) : Prop :=
  ∀ x, x ∈ sets ↔ Ascending r x.1 ∧ x.1.length = k ∧ x.2 = written (m.sumOf c x.1)

lemma Level.next (hk : 1 ≤ k) (hr : rows.size = r) (hrow : ∀ i < r, rows.getD i [] = written (m.line c i)) (h : Level m r c k sets) :
    Level m r c (k + 1) (sets.flatMap (extensions rows)) := by
  intro x
  simp only [mem_flatMap, extensions, mem_map, mem_range, hr]
  constructor
  · rintro ⟨y, hy, _, ⟨d, hd, rfl⟩, rfl⟩
    obtain ⟨asc, hlen, e⟩ := (h y).1 hy
    have hd' : d + (y.1.getLastD 0 + 1) < r := by omega
    refine ⟨(ascending_concat asc.1).2 ⟨asc, by omega, hd'⟩, by simp [hlen], ?_⟩
    rw [e, hrow _ hd', differ_written, sumOf_concat]
  rintro ⟨asc, hlen, e⟩
  obtain h0 | ⟨l, z, hl⟩ := eq_nil_or_concat x.1
  · exact (asc.1 h0).elim
  rw [concat_eq_append] at hl
  rw [hl] at asc hlen e
  have hne : l ≠ [] := by
    rintro rfl
    simp at hlen
    omega
  obtain ⟨asc, hlt, hz⟩ := (ascending_concat hne).1 asc
  refine ⟨(l, written (m.sumOf c l)), (h _).2 ⟨asc, by simpa using hlen, rfl⟩, z,
    ⟨z - (l.getLastD 0 + 1), by dsimp only; omega, by dsimp only; omega⟩, Prod.ext hl.symm ?_⟩
  rw [e, hrow z hz, differ_written, sumOf_concat]

/-- What the search may end with: a row with one set bit, or a shortest list of rows whose sum has one. -/
def SumSearch.Fair (m : BitMatrix) (r c : Nat) : SumSearch → Prop
  | .alreadyThere => ∃ i < r, hammingNorm (m.line c i) = 1
  | .found l => Ascending r l ∧ hammingNorm (m.sumOf c l) = 1 ∧ ∀ l', Ascending r l' → l'.length < l.length → hammingNorm (m.sumOf c l') ≠ 1
  | .notFound => True

lemma searchSums_fair (hr : rows.size = r) (hrow : ∀ i < r, rows.getD i [] = written (m.line c i)) {f : Nat} (hk : 1 ≤ k)
    (level : Level m r c k sets) (none : ∀ l, Ascending r l → l.length ≤ k → hammingNorm (m.sumOf c l) ≠ 1) :
    (searchSums rows f sets n).Fair m r c := by
  induction f generalizing k sets n with
  | zero => trivial
  | succ f ih =>
    rw [searchSums]
    have next := level.next hk hr hrow
    have ends : (extendAll rows sets [] n).Ends _ _ := extendAll_ends
    revert ends
    cases extendAll rows sets [] n with
    | found l =>
      rintro ⟨x, hx, rfl, ht⟩
      obtain ⟨asc, hlen, e⟩ := (next x).1 hx
      refine ⟨asc, ?_, fun l' h' hl => none l' h' (by omega)⟩
      rwa [e, total_written, Nat.cast_eq_one] at ht
    | gaveUp => exact id
    | extended sets' t =>
      rintro ⟨e, hnone⟩
      rcases sets' with _ | ⟨y, ys⟩
      · trivial
      rw [reverse_nil, nil_append] at e
      rw [← e] at next hnone
      refine ih (by omega) next fun l hl hlen => ?_
      obtain hle | hgt := Nat.le_or_eq_of_le_succ hlen
      · exact none l hl hle
      · have := hnone _ ((next (l, written (m.sumOf c l))).2 ⟨hl, hgt, rfl⟩)
        rwa [total_written, Ne, Nat.cast_eq_one] at this

lemma Bits.minimalSum_fair (hm : m.Bits r c) : m.minimalSum.Fair m r c := by
  have one : ∀ {l : List Nat}, Ascending r l → l.length = 1 → ∃ i < r, l = [i] := fun asc hlen => by
    obtain ⟨i, rfl⟩ := length_eq_one_iff.1 hlen
    exact ⟨i, asc.2.2 i (by simp), rfl⟩
  rw [minimalSum, hm.toRows_eq]
  split
  · rename_i hany
    exact (by simpa [total_written] using hany : ∃ i < r, hammingNorm (m.line c i) = 1)
  rename_i hany
  refine searchSums_fair (by simp) (fun i hi => by simp [hi]) le_rfl (fun x => ?_) fun l asc hlen => ?_
  · have zip := zip_map' (f := fun i => written (m.line c i)) (g := id) (l := List.range r)
    rw [map_id] at zip
    rw [length_map, length_range, zip, map_map, mem_map]
    constructor
    · rintro ⟨i, hi, rfl⟩
      exact ⟨⟨by simp, by simp, by simpa using hi⟩, rfl, by simp [sumOf]⟩
    rintro ⟨asc, hlen, e⟩
    obtain ⟨i, hi, hl⟩ := one asc hlen
    exact ⟨i, mem_range.2 hi, Prod.ext hl.symm (by simp [e, hl, sumOf])⟩
  · obtain ⟨i, hi, rfl⟩ := one asc (by have := length_pos_iff.2 asc.1; omega)
    have := fun h => hany (any_eq_true.2 ⟨_, mem_map_of_mem (mem_range.2 hi), h⟩)
    simpa [total_written, sumOf] using this

/-! ## Greedy reduction -/

variable {ps : List Participant} {s t : Nat}

/-- The best addition is one of different rows. -/
def Choice.Among (l : List Nat) (c : Choice) : Prop := ∀ s t, c.best = some (s, t) → s ≠ t ∧ s ∈ l ∧ t ∈ l

lemma Choice.Among.ite {p : Prop} [Decidable p] {c d : Choice} (hc : c.Among l) (hd : d.Among l) : (if p then c else d).Among l := by
  split <;> assumption

lemma bestAddition_among (ps : List Participant) : (bestAddition ps).Among (ps.map (·.index)) := by
  have pair : ∀ {g a b}, a ∈ ps → b ∈ ps → a.index ≠ b.index → Choice.Among (ps.map (·.index)) ⟨g, some (a.index, b.index)⟩ := by
    rintro g a b ha hb hne _ _ ⟨⟩
    exact ⟨hne, mem_map_of_mem ha, mem_map_of_mem hb⟩
  refine List.foldlRecOn ps _ (by simp [Choice.Among]) fun c hc a ha => List.foldlRecOn ps _ hc fun c hc b hb => ?_
  split
  · exact hc
  · exact .ite (pair ha hb (by omega)) (.ite (pair hb ha (by omega)) hc)

/-- The rows that take part, and a matrix in which their sum has one set bit. -/
structure Partaking (m : BitMatrix) (r c : Nat) (l : List Nat) : Prop where
  bits : m.Bits r c
  lt : ∀ i ∈ l, i < r
  sum : hammingNorm (∑ i ∈ l.toFinset, m.line c i) = 1

/-- A row that is added to another one leaves. -/
lemma Partaking.leave (h : Partaking m r c l) (hne : s ≠ t) (hs : s ∈ l) (ht : t ∈ l) :
    Partaking (m.addRow s t) r c (l.filter (· != s)) := by
  have hsr := h.lt s hs
  have htr := h.lt t ht
  refine ⟨⟨h.bits.shaped.addRow htr, h.bits.binary.addRow h.bits.shaped htr⟩, fun i hi => h.lt i (mem_filter.1 hi).1, ?_⟩
  have split : ∀ i, (m.addRow s t).line c i = m.line c i + if i = t then m.line c s else 0 := fun i => by
    rw [h.bits.shaped.line_addRow hsr htr]
    split <;> simp [*]
  have set : (l.filter (· != s)).toFinset = l.toFinset.erase s := by
    ext
    simp [and_comm]
  rw [← h.sum, set, Finset.sum_congr rfl fun i _ => split i, Finset.sum_add_distrib, Finset.sum_ite_eq',
    if_pos (Finset.mem_erase.2 ⟨hne.symm, mem_toFinset.2 ht⟩), Finset.sum_erase_add _ _ (mem_toFinset.2 hs)]

lemma index_leave (ps : List Participant) {f : Participant → Participant} (hf : ∀ p, (f p).index = p.index) (s : Nat) :
    ((ps.map f).filter fun p => p.index != s).map (·.index) = (ps.map (·.index)).filter (· != s) := by
  simp [filter_map, Function.comp_def, hf]

lemma reduceGreedily_gives {f : Nat} (h : Partaking m r c (ps.map (·.index))) (hf : ps.length ≤ f) :
    Gives (reduceGreedily f ps) fun steps => Makes (applyRows steps m) fun m' => ∃ i < r, hammingNorm (m'.line c i) = 1 := by
  induction f generalizing m ps with
  | zero =>
    rw [length_eq_zero_iff.1 (Nat.le_zero.1 hf)] at h
    simpa using h.sum
  | succ f ih =>
    rw [reduceGreedily]
    split
    · have hne : ps ≠ [] := by
        rintro rfl
        simpa using h.sum
      obtain ⟨p, rfl⟩ := length_eq_one_iff.1 (Nat.le_antisymm ‹_› (length_pos_iff.2 hne))
      exact .ok (.ok ⟨p.index, h.lt _ (by simp), by simpa using h.sum⟩)
    dsimp only
    split
    · exact .error _
    rename_i s t hbest
    obtain ⟨hst, hs, ht⟩ := bestAddition_among ps s t hbest
    have index := index_leave ps (f := fun p => if p.index = t then
      { p with row := differ (((ps.find? fun p => p.index == s).map (·.row)).getD []) p.row, weight := p.weight - (bestAddition ps).gain }
      else p) (fun p => by split <;> rfl) s
    have next := h.leave hst hs ht
    rw [← index] at next
    have step := ih next (by
      have := congrArg length index
      have less := length_filter_lt_length_iff_exists (p := (· != s)).2 ⟨s, hs, by simp⟩
      simp only [length_map] at this less
      omega)
    split
    · rename_i rest e
      obtain ⟨m', e', hi⟩ := step rest e
      refine .ok ⟨m', ?_, hi⟩
      rw [applyRows, foldlM_cons, h.bits.shaped.rowAdd (h.lt s hs) (h.lt t ht)]
      exact e'
    · exact .error _

/-- **Rows that add up to a single bit.**  A set of rows that is found is a smallest one, and the additions chosen for it lead to
    such a row. -/
theorem minimalSum_minimal (hm : m.Bits r c) :
    (∀ l, m.minimalSum = .found l → l.Nodup ∧ (∀ i ∈ l, i < r) ∧ hammingNorm (∑ i ∈ l.toFinset, m.line c i) = 1 ∧
      ∀ S ⊆ Finset.range r, S.Nonempty → S.card < l.length → hammingNorm (∑ i ∈ S, m.line c i) ≠ 1) ∧
    ∀ steps, m.greedyReduction = .ok (some steps) → ∃ m', applyRows steps m = .ok m' ∧ ∃ i < r, hammingNorm (m'.line c i) = 1 := by
  have fair := hm.minimalSum_fair
  refine ⟨fun l h => ?_, fun steps h => ?_⟩
  · rw [h] at fair
    obtain ⟨⟨-, asc, hr⟩, hsum, least⟩ := fair
    have nodup : l.Nodup := asc.imp Nat.ne_of_lt
    refine ⟨nodup, hr, sumOf_eq nodup ▸ hsum, fun S hS hne hcard => ?_⟩
    have := least S.sort ⟨fun e => hne.ne_empty ?_, S.sortedLT_sort.pairwise, fun i hi => by simpa using hS ((S.mem_sort _).1 hi)⟩
      (by simpa using hcard)
    · rwa [sumOf_eq (S.sort_nodup _), Finset.sort_toFinset] at this
    · rw [← S.sort_toFinset (· ≤ ·), e, toFinset_nil]
  rw [greedyReduction] at h
  revert fair h
  cases m.minimalSum with
  | notFound =>
    intro _ h
    cases h
  | alreadyThere =>
    intro fair h
    cases h
    exact ⟨m, rfl, fair⟩
  | found l =>
    rintro ⟨⟨-, asc, hr⟩, hsum, -⟩ h
    have partaking : Partaking m r c ((l.map fun i => (⟨i, (m.row i).toList, total (m.row i).toList⟩ : Participant)).map (·.index)) := by
      simp only [map_map, Function.comp_def, map_id']
      exact ⟨hm, hr, by rwa [← sumOf_eq (asc.imp Nat.ne_of_lt)]⟩
    have step := reduceGreedily_gives partaking le_rfl
    dsimp only at h
    revert h step
    cases reduceGreedily _ _ with
    | error e =>
      intro h
      cases h
    | ok steps' =>
      intro h step
      cases h
      exact step _ rfl

/-- The second of two rows is left with a single bit once the first has been added to it. -/
theorem minimalSum_minimal_pair :
    let m := ofRows [[1, 1, 0], [1, 1, 1]]
    m.minimalSum = .found [0, 1] ∧ hammingNorm (∑ i ∈ [0, 1].toFinset, m.line 3 i) = 1 ∧
      m.greedyReduction = .ok (some [(0, 1)]) ∧ applyRows [(0, 1)] m = .ok (ofRows [[1, 1, 0], [0, 0, 1]]) ∧
      ∃ i < 2, hammingNorm ((ofRows [[1, 1, 0], [0, 0, 1]]).line 3 i) = 1 := by
  intro m
  have hm : m.Bits 2 3 := by
    refine ⟨⟨rfl, by decide⟩, ?_⟩
    rintro (_ | _ | i) (_ | _ | _ | j) <;> simp [m, entry, row, ofRows]
  have found : m.minimalSum = .found [0, 1] := by decide +kernel
  have steps : m.greedyReduction = .ok (some [(0, 1)]) := by cbv
  have left : applyRows [(0, 1)] m = .ok (ofRows [[1, 1, 0], [0, 0, 1]]) := by cbv
  obtain ⟨minimal, reduced⟩ := minimalSum_minimal hm
  obtain ⟨m', e, single⟩ := reduced _ steps
  obtain rfl := Except.ok.inj (left.symm.trans e)
  exact ⟨found, (minimal _ found).2.2.1, steps, left, single⟩

end ZXCircuits.BitMatrix
