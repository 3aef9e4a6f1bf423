/-
  A column for each row.

  A matching of an invertible matrix gives each row a column in which it has a set bit.  Pairs that are forced are part of every
  matching that goes on from those before (`Due`), so that the search does not give up before it has chosen a pair, and what it
  has assigned by then can be filled up to a permutation.
-/
import ZXCircuits.BitMatrix.Minimal
import ZXCircuits.Proofs.BitMatrix.Network
import ZXCircuits.Proofs.BitMatrix.Reduced
import Mathlib.LinearAlgebra.Matrix.Determinant.Basic

namespace ZXCircuits.BitMatrix

open List

variable {m : BitMatrix} {l : Links} {t : Assigned} {n i j : Nat} {σ : Equiv.Perm Nat} {b b' : Narrowest} {is : List Nat}

/-! ## Assignments -/

lemma lookup_isSome_iff : (t.lookup i).isSome ↔ i ∈ t.map Prod.fst := by
  rw [Option.isSome_iff_ne_none, Ne, lookup_eq_none_iff]
  simp

lemma lookup_isNone_iff : (t.lookup i).isNone ↔ i ∉ t.map Prod.fst := by
  rw [← lookup_isSome_iff, Option.isNone_iff_eq_none, Option.not_isSome_iff_eq_none]

/-- The rows and the columns list the same bits. -/
structure Links.Wired (l : Links) : Prop where
  mem_rows : ∀ {i j}, i ∈ l.rows j ↔ j ∈ l.cols i
  lt : ∀ {i j}, j ∈ l.cols i → i < l.size ∧ j < l.size
  length_le : ∀ i, (l.cols i).length ≤ l.size

/-- No row and no column is assigned twice. -/
structure Placed (n : Nat) (t : Assigned) : Prop where
  rows : (t.map Prod.fst).Nodup
  cols : (t.map Prod.snd).Nodup
  lt : ∀ x ∈ t, x.1 < n ∧ x.2 < n

/-- A row and a column, neither of them assigned, that share a bit. -/
structure Free (l : Links) (t : Assigned) (i j : Nat) : Prop where
  row : i ∉ t.map Prod.fst
  col : j ∉ t.map Prod.snd
  bit : j ∈ l.cols i

lemma Placed.snoc (hw : l.Wired) (h : Placed l.size t) (hf : Free l t i j) : Placed l.size (t ++ [(i, j)]) := by
  refine ⟨?_, ?_, forall_mem_append.2 ⟨h.lt, by simpa using hw.lt hf.bit⟩⟩ <;> rw [map_append, map_singleton, ← concat_eq_append]
  · exact h.rows.concat hf.row
  · exact h.cols.concat hf.col

lemma Placed.length_le (h : Placed n t) : t.length ≤ n := by
  have sub : (t.map Prod.fst).Subperm (List.range n) := h.rows.subperm fun i hi => by
    obtain ⟨x, hx, rfl⟩ := mem_map.1 hi
    exact mem_range.2 (h.lt x hx).1
  simpa using sub.length_le

/-- The assignment follows a matching, and each pair in it has used up the columns of its row or the rows of its column. -/
structure Steady (l : Links) (σ : Equiv.Perm Nat) (t : Assigned) : Prop where
  within : ∀ i, σ i < l.size ↔ i < l.size
  fits : ∀ i < l.size, σ i ∈ l.cols i
  along : ∀ x ∈ t, σ x.1 = x.2
  closed : ∀ x ∈ t, (∀ j ∈ l.cols x.1, j ∈ t.map Prod.snd) ∨ ∀ i ∈ l.rows x.2, i ∈ t.map Prod.fst

namespace Steady

variable (h : Steady l σ t)
include h

lemma mem_iff (i : Nat) : σ i ∈ t.map Prod.snd ↔ i ∈ t.map Prod.fst := by
  simp only [mem_map]
  exact exists_congr fun x => and_congr_right fun hx => by rw [← h.along x hx, σ.apply_eq_iff_eq]

lemma snoc (hij : σ i = j) (used : (∀ k ∈ l.cols i, k ∉ t.map Prod.snd → k = j) ∨ ∀ k ∈ l.rows j, k ∉ t.map Prod.fst → k = i) :
    Steady l σ (t ++ [(i, j)]) := by
  refine ⟨h.within, h.fits, forall_mem_append.2 ⟨h.along, by simpa using hij⟩, ?_⟩
  simp only [map_append, mem_append, map_singleton, mem_singleton]
  rintro x (hx | rfl)
  · exact (h.closed x hx).imp (fun h k hk => .inl (h k hk)) fun h k hk => .inl (h k hk)
  · exact used.imp (fun h k hk => or_iff_not_imp_left.2 (h k hk)) fun h k hk => or_iff_not_imp_left.2 (h k hk)

lemma disputed (hw : l.Wired) (hi : i ∉ t.map Prod.fst) (hj : j ∉ t.map Prod.snd) : disputed l t j i = false := by
  rw [BitMatrix.disputed, any_eq_false]
  intro k hk hd
  cases hx : t.lookup k with
  | none => simp [hx] at hd
  | some x =>
    obtain ⟨l₁, l₂, e, -⟩ := lookup_eq_some_iff.1 hx
    rcases h.closed (k, x) (by simp [e]) with hc | hr
    · exact hj (hc j (hw.mem_rows.1 hk))
    · exact hi (hr i (by simpa [hx] using (Bool.and_eq_true_iff.1 hd).2))

end Steady

/-- No matching goes on from here. -/
def Stuck (l : Links) (t : Assigned) : Prop := ∀ σ, ¬ Steady l σ t

/-- Every matching goes on with this pair. -/
def Due (l : Links) (t : Assigned) (i j : Nat) : Prop := Free l t i j ∧ ∀ σ, Steady l σ t → Steady l σ (t ++ [(i, j)])

def Look.Fair (l : Links) (t : Assigned) (i : Nat) : Look → Prop
  | .impossible => Stuck l t
  | .forced r c => Due l t r c
  | .open_ options => options.length ≤ l.size ∧ ∀ j ∈ options, Free l t i j

lemma lookAtCols_fair (hw : l.Wired) (i : Nat) (js : List Nat) (hjs : ∀ j ∈ js, j < l.size ∧ j ∉ t.map Prod.snd) :
    ∀ x ∈ lookAtCols l t js, x.Fair l t i := by
  induction js with
  | nil => simp [lookAtCols]
  | cons j js ih =>
    obtain ⟨⟨hj, hfree⟩, hjs⟩ := forall_mem_cons.1 hjs
    rw [lookAtCols]
    generalize hf : filter _ (filter _ _) = is
    have free : ∀ k ∈ is, Free l t k j := by
      intro k hk
      obtain ⟨hk, hn⟩ := mem_filter.1 (mem_filter.1 (hf ▸ hk)).1
      exact ⟨lookup_isNone_iff.1 hn, hfree, hw.mem_rows.1 hk⟩
    have mem : ∀ {σ k}, Steady l σ t → k ∈ l.rows j → k ∉ t.map Prod.fst → k ∈ is := fun h hk hn =>
      hf ▸ mem_filter.2 ⟨mem_filter.2 ⟨hk, lookup_isNone_iff.2 hn⟩, by rw [h.disputed hw hn hfree]; rfl⟩
    have own : ∀ {σ}, Steady l σ t → σ.symm j ∈ is := fun {σ} h => by
      have fits := h.fits (σ.symm j)
      rw [← h.within, σ.apply_symm_apply] at fits
      exact mem h (hw.mem_rows.2 (fits hj)) (by rwa [← h.mem_iff, σ.apply_symm_apply])
    rcases is with _ | ⟨k, _ | ⟨k', is⟩⟩
    · rintro _ ⟨⟩ σ h
      exact not_mem_nil (own h)
    · rintro _ ⟨⟩
      refine ⟨free k (by simp), fun σ h => h.snoc ?_ (.inr fun k hk hn => mem_singleton.1 (mem h hk hn))⟩
      rw [← mem_singleton.1 (own h), σ.apply_symm_apply]
    · exact ih hjs

lemma lookAtRow_fair (hw : l.Wired) (hi : i < l.size) (hn : i ∉ t.map Prod.fst) : (lookAtRow l t i).Fair l t i := by
  rw [lookAtRow]
  generalize hf : filter _ (l.cols i) = js
  have mem : ∀ j, j ∈ js ↔ j ∈ l.cols i ∧ j ∉ t.map Prod.snd := fun j => by
    simp [← hf]
    grind
  have len : js.length ≤ l.size := hf ▸ (length_filter_le ..).trans (hw.length_le i)
  have own : ∀ {σ}, Steady l σ t → σ i ∈ js := fun h => (mem _).2 ⟨h.fits i hi, (h.mem_iff i).not.2 hn⟩
  have free : ∀ j ∈ js, Free l t i j := fun j hj => ⟨hn, ((mem j).1 hj).2, ((mem j).1 hj).1⟩
  rcases js with _ | ⟨j, _ | ⟨j', js⟩⟩
  · exact fun σ h => not_mem_nil (own h)
  · exact ⟨free j (by simp), fun σ h => h.snoc (mem_singleton.1 (own h)) (.inl fun k hk hn => mem_singleton.1 ((mem k).2 ⟨hk, hn⟩))⟩
  · have cols := lookAtCols_fair hw i (j :: j' :: js) fun j hj => ⟨(hw.lt (free j hj).bit).2, (free j hj).col⟩
    dsimp only
    cases h : lookAtCols l t (j :: j' :: js) with
    | none => exact ⟨len, free⟩
    | some x => exact cols x h

/-- What a look at the rows `is` may tell, if `b` was the narrowest one before. -/
def Survey.Fair (l : Links) (t : Assigned) (b : Narrowest) (is : List Nat) : Survey → Prop
  | .impossible => Stuck l t
  | .forced r c => Due l t r c
  | .settled b' => (∀ i ∈ b'.row, ∀ j ∈ b'.options, Free l t i j) ∧ (b'.row = none → b.row = none ∧ ∀ i ∈ is, i ∈ t.map Prod.fst)

lemma Survey.Fair.cons {x : Survey} (h : x.Fair l t b' is) (hi : b'.row = none → b.row = none ∧ i ∈ t.map Prod.fst) :
    x.Fair l t b (i :: is) := by
  cases x with
  | impossible => exact h
  | forced => exact h
  | settled => exact ⟨h.1, fun e => ⟨(hi (h.2 e).1).1, forall_mem_cons.2 ⟨(hi (h.2 e).1).2, (h.2 e).2⟩⟩⟩

lemma survey_fair (hw : l.Wired) (hn : l.size < 1000) (his : ∀ i ∈ is, i < l.size)
    (hb : ∀ i ∈ b.row, ∀ j ∈ b.options, Free l t i j) (hcount : b.row = none → b.count = 1000) : (survey l t is b).Fair l t b is := by
  induction is generalizing b with
  | nil => exact ⟨hb, fun h => ⟨h, by simp⟩⟩
  | cons i is ih =>
    obtain ⟨hi, his⟩ := forall_mem_cons.1 his
    rw [survey]
    split
    · exact (ih his hb hcount).cons fun e => ⟨e, lookup_isSome_iff.1 ‹_›⟩
    have look := lookAtRow_fair hw hi fun h => ‹¬ _› (lookup_isSome_iff.2 h)
    revert look
    cases lookAtRow l t i with
    | impossible => exact id
    | forced => exact id
    | open_ options =>
      rintro ⟨hlen, free⟩
      dsimp only
      split
      · exact (ih (b := ⟨some i, options, options.length⟩) his (by rintro _ ⟨⟩; exact free) (by simp)).cons (by simp)
      · exact (ih his hb hcount).cons fun e => by have := hcount e; omega

lemma findSomeM?_makes {α β : Type} {f : α → Attempt (Option β)} {P : β → Prop} (as : List α)
    (h : ∀ a ∈ as, Makes (f a) fun o => ∀ b ∈ o, P b) : Makes (as.findSomeM? f) fun o => ∀ b ∈ o, P b := by
  induction as with
  | nil => exact .pure (by simp)
  | cons a as ih =>
    obtain ⟨h, has⟩ := forall_mem_cons.1 h
    rw [findSomeM?]
    refine h.bind fun o ho => ?_
    cases o with
    | none => exact ih has
    | some b => exact .pure ho

/-- Each call assigns a row, so the calls suffice; while all that is assigned was due, the search does not give up. -/
lemma complete_makes (hw : l.Wired) (hn : l.size < 1000) {f : Nat} (hp : Placed l.size t) (hf : l.size < f + t.length) :
    Makes (complete l f t) fun o => (∀ t ∈ o, Placed l.size t) ∧ ((∃ σ, Steady l σ t) → o ≠ none) := by
  induction f generalizing t with
  | zero => exact absurd hp.length_le (by omega)
  | succ f ih =>
    have next : ∀ {i j}, Free l t i j → _ := fun {i j} h => ih (hp.snoc hw h) (by simp; omega)
    have fair := survey_fair (t := t) (b := ⟨none, [], 1000⟩) hw hn (fun i => mem_range.1) (by simp) fun _ => rfl
    rw [complete]
    revert fair
    cases survey l t (List.range l.size) ⟨none, [], 1000⟩ with
    | impossible => exact fun stuck => .ok ⟨by simp, fun h => (not_exists.2 stuck h).elim⟩
    | forced r c =>
      rintro ⟨free, due⟩
      exact (next free).mono fun o h => ⟨h.1, fun hσ => h.2 (hσ.imp due)⟩
    | settled b =>
      rintro ⟨free, all⟩
      dsimp only
      split
      · exact .ok ⟨by rintro _ ⟨⟩; exact hp, by simp⟩
      split
      · rename_i hsome _ h
        exact absurd (all_eq_true.2 fun i hi => lookup_isSome_iff.2 ((all h).2 i hi)) hsome
      rename_i i hi
      refine (findSomeM?_makes (P := Placed l.size) b.options fun j hj => (next (free i hi j hj)).bind fun o ho => ?_).bind fun o ho => ?_
      · cases o with
        | none => exact .pure (by simp)
        | some t => exact .pure ho.1
      refine .pure ⟨?_, by simp⟩
      rintro _ ⟨⟩
      cases o with
      | none => exact hp
      | some t => exact ho t rfl

/-! ## Matrices that have an inverse -/

lemma mem_cols_links (hm : m.Shaped n n) : j ∈ m.links.cols i ↔ i < n ∧ j < n ∧ m.bit i j := by
  by_cases hi : i < n <;> simp [links, Links.cols, hm.rows, hm.numCols, hi]

lemma wired_links (hm : m.Shaped n n) : m.links.size = n ∧ m.links.Wired := by
  have size : m.links.size = n := by simp [links, hm.rows, hm.numCols]
  refine ⟨size, fun {i j} => ?_, fun h => ?_, fun i => ?_⟩
  · rw [mem_cols_links hm]
    by_cases hj : j < n <;> simp [links, Links.rows, hm.rows, hm.numCols, hj]
  · obtain ⟨hi, hj, -⟩ := (mem_cols_links hm).1 h
    omega
  · rw [size]
    by_cases hi : i < n <;> simp [links, Links.cols, hm.rows, hm.numCols, hi]
    exact (length_filter_le ..).trans (length_range ..).le

/-- An invertible matrix has a set bit for each row, in a column of its own. -/
lemma exists_steady (hm : m.Shaped n n) (hu : IsUnit (m.toMatrix n)) : ∃ σ, Steady m.links σ [] := by
  have hdet := ((Matrix.isUnit_iff_isUnit_det _).1 hu).ne_zero
  rw [Matrix.det_apply'] at hdet
  obtain ⟨τ, -, hτ⟩ := Finset.exists_ne_zero_of_sum_ne_zero hdet
  have hbit : ∀ i, m.bit (τ i) i := fun i =>
    grid_ne_zero.1 (Finset.prod_ne_zero_iff.1 (right_ne_zero_of_mul hτ) i (Finset.mem_univ i))
  have size := (wired_links hm).1
  have value : ∀ i (h : i < n), Equiv.Perm.extendDomain τ.symm Fin.equivSubtype i = τ.symm ⟨i, h⟩ := fun i h =>
    Equiv.Perm.extendDomain_apply_subtype (p := (· < n)) _ _ h
  refine ⟨Equiv.Perm.extendDomain τ.symm Fin.equivSubtype, fun i => ?_, fun i hi => ?_, by simp, by simp⟩
  · by_cases h : i < n
    · simp [value i h, size, h]
    · rw [Equiv.Perm.extendDomain_apply_not_subtype (p := (· < n)) _ _ h]
  · have h : i < n := size ▸ hi
    rw [value i h, mem_cols_links hm]
    exact ⟨h, (τ.symm ⟨i, h⟩).2, by simpa using hbit (τ.symm ⟨i, h⟩)⟩

lemma perm_append_filter {K : List Nat} (hK : K.Nodup) (hlt : ∀ k ∈ K, k < n) : (K ++ (List.range n).filter (· ∉ K)).Perm (List.range n) := by
  refine (perm_ext_iff_of_nodup (nodup_append.2 ⟨hK, nodup_range.filter _, ?_⟩) nodup_range).2 fun k => ?_
  · rintro a ha _ hb rfl
    simp [ha] at hb
  have := hlt k
  simp
  grind

/-- **A column for each row** is found in every invertible matrix: the pairs are a permutation. -/
theorem assignColumns_bijective (hm : m.Bits n n) (hn : n < 1000) (hu : IsUnit (m.toMatrix n)) :
    ∃ ps, m.assignColumns = .ok ps ∧ (ps.map Prod.fst).Perm (List.range n) ∧ (ps.map Prod.snd).Perm (List.range n) := by
  obtain ⟨size, hw⟩ := wired_links hm.shaped
  obtain ⟨o, e, placed, found⟩ := complete_makes (t := []) (f := m.links.size + 1) hw (size ▸ hn) ⟨.nil, .nil, by simp⟩ (by simp)
  obtain ⟨t, rfl⟩ := Option.ne_none_iff_exists'.1 (found (exists_steady hm.shaped hu))
  have placed := size ▸ placed t rfl
  have lefts := perm_append_filter placed.cols (by simpa using fun j i h => (placed.lt (i, j) h).2)
  have rights := perm_append_filter placed.rows (by simpa using fun i j h => (placed.lt (i, j) h).1)
  have lengths : ((List.range n).filter (· ∉ t.map Prod.snd)).length = ((List.range n).filter (· ∉ t.map Prod.fst)).length := by
    have h1 := lefts.length_eq
    have h2 := rights.length_eq
    simp only [length_append, length_map] at h1 h2
    omega
  refine ⟨_, by rw [assignColumns, e]; rfl, ?_⟩
  rw [size, filter_congr (q := (· ∉ t.map Prod.snd)) fun j _ => Bool.eq_iff_iff.2 (lookup_isNone_iff.trans (by simp)),
    filter_congr (q := (· ∉ t.map Prod.fst)) (p := fun i => !_) fun i _ => by simp; grind]
  refine ⟨((mergeSort_perm ..).map _).trans ?_, ((mergeSort_perm ..).map _).trans ?_⟩
  · rw [map_append, map_fst_zip lengths.le, map_map]
    exact lefts
  · rw [map_append, map_snd_zip lengths.ge, map_map]
    exact rights

/-- Two set bits or more in every row and every column, so that a pair has to be chosen. -/
theorem assignColumns_bijective_choice : ∃ ps, (ofRows [[1, 1, 0], [0, 1, 1], [1, 1, 1]]).assignColumns = .ok ps ∧
    (ps.map Prod.fst).Perm (List.range 3) ∧ (ps.map Prod.snd).Perm (List.range 3) := by
  refine assignColumns_bijective ⟨⟨rfl, by decide⟩, ?_⟩ (by decide) (.of_mul_eq_one !![0, 1, 1; 1, 1, 1; 1, 0, 1] (by decide +kernel))
  rintro (_ | _ | _ | i) (_ | _ | _ | j) <;> simp [entry, row, ofRows]

end ZXCircuits.BitMatrix
