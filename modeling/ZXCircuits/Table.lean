/-
  Tables that keep the order of insertion.

  A table is a list of keys with their values.  Setting a key that is there keeps its place; a key that
  was erased and is set again comes last.
-/
import ZXCircuits.Failure

namespace ZXCircuits

abbrev Table (κ α : Type) := List (κ × α)

namespace Table

variable {κ α : Type} [DecidableEq κ]

def find? (t : Table κ α) (k : κ) : Option α :=
  match t with
  | [] => none
  | (k', a) :: rest => if k' = k then some a else find? rest k

variable (t : Table κ α)

def has (k : κ) : Bool := (find? t k).isSome

def insert (t : Table κ α) (k : κ) (a : α) : Table κ α :=
  match t with
  | [] => [(k, a)]
  | (k', a') :: rest => if k' = k then (k, a) :: rest else (k', a') :: insert rest k a

def erase (t : Table κ α) (k : κ) : Table κ α :=
  match t with
  | [] => []
  | (k', a) :: rest => if k' = k then rest else (k', a) :: erase rest k

omit [DecidableEq κ] in
def keys : List κ := t.map (·.1)

omit [DecidableEq κ] in
def values : List α := t.map (·.2)

theorem find?_insert_self (t : Table κ α) (k : κ) (a : α) : find? (insert t k a) k = some a := by
  induction t with
  | nil => simp [insert, find?]
  | cons p rest ih =>
    obtain ⟨k', a'⟩ := p
    by_cases h : k' = k
    · simp [insert, find?, h]
    · simp [insert, find?, h, ih]

theorem find?_insert_of_ne (t : Table κ α) {k l : κ} (h : l ≠ k) (a : α) : find? (insert t k a) l = find? t l := by
  induction t with
  | nil => simp [insert, find?, Ne.symm h]
  | cons p rest ih =>
    obtain ⟨k', a'⟩ := p
    by_cases hk : k' = k
    · subst hk; simp [insert, find?, Ne.symm h]
    · by_cases hl : k' = l
      · subst hl; simp [insert, find?, hk]
      · simp [insert, find?, hk, hl, ih]

theorem find?_insert_eq_some (t : Table κ α) {k l : κ} {a b : α} (h : find? (insert t k a) l = some b) :
    l = k ∧ b = a ∨ find? t l = some b := by
  by_cases e : l = k
  · subst e
    rw [find?_insert_self] at h
    exact .inl ⟨rfl, (Option.some.inj h).symm⟩
  · rw [find?_insert_of_ne t e] at h
    exact .inr h

theorem find?_erase_of_ne (t : Table κ α) {k l : κ} (h : l ≠ k) : find? (erase t k) l = find? t l := by
  induction t with
  | nil => simp [erase]
  | cons p rest ih =>
    obtain ⟨k', a'⟩ := p
    by_cases hk : k' = k
    · subst hk; simp [erase, find?, Ne.symm h]
    · by_cases hl : k' = l
      · subst hl; simp [erase, find?, hk]
      · simp [erase, find?, hk, hl, ih]

@[simp] theorem find?_nil (k : κ) : find? ([] : Table κ α) k = none := rfl

theorem find?_isSome_iff (t : Table κ α) (k : κ) : (find? t k).isSome ↔ k ∈ keys t := by
  induction t with
  | nil => simp [keys]
  | cons p rest ih =>
    obtain ⟨k', a⟩ := p
    by_cases h : k' = k
    · simp [find?, keys, h]
    · have h' : ¬ k = k' := fun e => h e.symm
      rw [find?, if_neg h, ih]
      simp [keys, h']

theorem find?_eq_none_iff (t : Table κ α) (k : κ) : find? t k = none ↔ k ∉ keys t := by
  rw [← find?_isSome_iff, Bool.not_eq_true, Option.isSome_eq_false_iff, Option.isNone_iff_eq_none]

theorem has_iff (t : Table κ α) (k : κ) : t.has k ↔ k ∈ keys t := find?_isSome_iff t k

theorem mem_keys_insert (t : Table κ α) (k l : κ) (a : α) : l ∈ keys (insert t k a) ↔ l = k ∨ l ∈ keys t := by
  by_cases h : l = k
  · subst h
    simp [← find?_isSome_iff, find?_insert_self]
  · simp [← find?_isSome_iff, find?_insert_of_ne t h, h]

theorem keys_insert (t : Table κ α) (k : κ) (a : α) : keys (insert t k a) = if k ∈ keys t then keys t else keys t ++ [k] := by
  induction t with
  | nil => simp [insert, keys]
  | cons p rest ih =>
    obtain ⟨k', a'⟩ := p
    by_cases h : k' = k
    · simp [insert, keys, h]
    · have h' : ¬ k = k' := fun e => h e.symm
      simp only [insert, if_neg h, keys, List.map_cons, List.mem_cons, h', false_or] at ih ⊢
      rw [ih]
      split <;> simp [*]

theorem insert_of_not_mem {t : Table κ α} {k : κ} (h : k ∉ keys t) (a : α) : insert t k a = t ++ [(k, a)] := by
  induction t with
  | nil => rfl
  | cons p rest ih =>
    obtain ⟨k', a'⟩ := p
    simp only [keys, List.map_cons, List.mem_cons, not_or] at h
    rw [insert, if_neg (Ne.symm h.1), ih h.2]
    rfl

theorem nodup_insert {t : Table κ α} (h : (keys t).Nodup) (k : κ) (a : α) : (keys (insert t k a)).Nodup := by
  rw [keys_insert]
  split
  · exact h
  · refine List.nodup_append.2 ⟨h, by simp, fun l hl m hm => ?_⟩
    rw [List.mem_singleton.1 hm]
    exact fun e => ‹k ∉ keys t› (e ▸ hl)

theorem keys_erase (t : Table κ α) (k : κ) : keys (erase t k) = (keys t).erase k := by
  induction t with
  | nil => rfl
  | cons p rest ih =>
    obtain ⟨k', a⟩ := p
    by_cases h : k' = k
    · simp [erase, keys, h]
    · rw [erase, if_neg h]
      simp only [keys, List.map_cons] at ih ⊢
      rw [List.erase_cons_tail (by simpa using h), ih]

theorem nodup_erase {t : Table κ α} (h : (keys t).Nodup) (k : κ) : (keys (erase t k)).Nodup := by
  rw [keys_erase]
  exact h.erase k

theorem find?_erase_self {t : Table κ α} (h : (keys t).Nodup) (k : κ) : find? (erase t k) k = none := by
  rw [find?_eq_none_iff, keys_erase]
  exact h.not_mem_erase

theorem mem_values_insert {t : Table κ α} {k : κ} {a b : α} (h : b ∈ values (insert t k a)) : b = a ∨ b ∈ values t := by
  induction t with
  | nil => simpa [insert, values] using h
  | cons x rest ih =>
    obtain ⟨k', a'⟩ := x
    by_cases hk : k' = k
    · simp only [insert, hk, if_true, values, List.map_cons, List.mem_cons] at h ⊢
      exact h.imp id Or.inr
    · simp only [insert, hk, if_false, values, List.map_cons, List.mem_cons] at h ih ⊢
      rcases h with h | h
      · exact Or.inr (Or.inl h)
      · exact (ih h).imp id Or.inr

theorem mem_of_find? {t : Table κ α} {k : κ} {a : α} (h : find? t k = some a) : (k, a) ∈ t := by
  induction t with
  | nil => cases h
  | cons x rest ih =>
    obtain ⟨k', a'⟩ := x
    rw [find?] at h
    split at h
    · rename_i hk
      rw [hk, Option.some.inj h]
      exact List.mem_cons_self
    · exact List.mem_cons_of_mem _ (ih h)

theorem find?_of_mem {t : Table κ α} (hn : (keys t).Nodup) {q : κ × α} (hq : q ∈ t) : find? t q.1 = some q.2 := by
  induction t with
  | nil => cases hq
  | cons r t ih =>
    rw [keys, List.map_cons, List.nodup_cons] at hn
    rw [find?]
    rcases List.mem_cons.1 hq with rfl | hq
    · rw [if_pos rfl]
    · rw [if_neg fun e : r.1 = q.1 => hn.1 (e ▸ List.mem_map_of_mem hq)]
      exact ih hn.2 hq

theorem mem_values_of_find? {t : Table κ α} {k : κ} {a : α} (h : find? t k = some a) : a ∈ values t := List.mem_map_of_mem (mem_of_find? h)

end Table

def lexLe {α : Type} [DecidableEq α] (le : α → α → Bool) : List α → List α → Bool
  | [], _ => true
  | _ :: _, [] => false
  | a :: as, b :: bs => if a = b then lexLe le as bs else le a b

def ascending (xs : List Nat) : List Nat := (xs.mergeSort (· ≤ ·)).eraseDups

theorem mem_ascending {xs : List Nat} {x : Nat} : x ∈ ascending xs ↔ x ∈ xs := by
  rw [ascending, List.mem_eraseDups, List.mem_mergeSort]

end ZXCircuits
