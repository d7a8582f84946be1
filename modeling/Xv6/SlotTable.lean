import Mathlib.Tactic
import Mathlib.Data.List.Basic

/-! A table of slots, each free or holding a key with a value. Insertion takes the first free slot or
appends one. While no key is in two slots the table is a finite map. -/
namespace Xv6.SlotTable

open Function
variable {K V : Type}

abbrev Table (K V : Type) := List (Option (K × V))

def Binds (t : Table K V) (k : K) (v : V) (i : ℕ) : Prop := t[i]? = some (some (k, v))

def Distinct (t : Table K V) : Prop := ∀ k v w i j, Binds t k v i → Binds t k w j → i = j

def free (t : Table K V) : ℕ := t.findIdx Option.isNone

def write (t : Table K V) (i : ℕ) (s : Option (K × V)) : Table K V := t.take i ++ s :: t.drop (i+1)

variable {t : Table K V} {k k' : K} {v v' : V} {i j : ℕ}

theorem binds_write {s : Option (K × V)} (hi : i ≤ t.length) :
    Binds (write t i s) k' v' j ↔ if j = i then s = some (k', v') else Binds t k' v' j := by
  have hlen : (t.take i).length = i := by rw [List.length_take, Nat.min_eq_left hi]
  unfold Binds write
  rcases Nat.lt_trichotomy j i with hlt | rfl | hgt
  · rw [if_neg hlt.ne, List.getElem?_append_left (by omega), List.getElem?_take_of_lt hlt]
  · rw [if_pos rfl, List.getElem?_append_right hlen.le, hlen, Nat.sub_self, List.getElem?_cons_zero, Option.some.injEq]
  · obtain ⟨d, rfl⟩ : ∃ d, j = i+1+d := ⟨j-(i+1), by omega⟩
    rw [if_neg hgt.ne', List.getElem?_append_right (by omega), hlen,
      show i+1+d-i = d+1 by omega, List.getElem?_cons_succ, List.getElem?_drop]

theorem free_le : free t ≤ t.length := List.findIdx_le_length

theorem free_le_of_none (h : t[i]? = some none) : free t ≤ i := by
  obtain ⟨hlt, hget⟩ := List.getElem?_eq_some_iff.mp h
  by_contra hgt
  have hnone := List.not_of_lt_findIdx (not_le.mp hgt)
  rw [hget] at hnone
  cases hnone

theorem not_binds_free : ¬Binds t k v (free t) := by
  intro h
  obtain ⟨hlt, hget⟩ := List.getElem?_eq_some_iff.mp h
  have hnone : t[free t].isNone = true := List.findIdx_getElem (w := hlt)
  rw [hget] at hnone
  cases hnone

theorem binds_insert : Binds (write t (free t) (some (k, v))) k' v' j ↔
    Binds t k' v' j ∨ (k' = k ∧ v' = v ∧ j = free t) := by
  rw [binds_write free_le]
  by_cases hj : j = free t
  · subst hj
    rw [if_pos rfl]
    constructor
    · intro h
      cases h
      exact Or.inr ⟨rfl, rfl, rfl⟩
    · rintro (h | ⟨rfl, rfl, -⟩)
      · exact absurd h not_binds_free
      · rfl
  · rw [if_neg hj]
    exact ⟨Or.inl, fun h => h.resolve_right (fun h' => hj h'.2.2)⟩

theorem Distinct.insert (h : Distinct t) (hk : ∀ v i, ¬Binds t k v i) : Distinct (write t (free t) (some (k, v))) := by
  intro k' v' w i j hi hj
  rw [binds_insert] at hi hj
  rcases hi with hi | ⟨rfl, -, rfl⟩
  · rcases hj with hj | ⟨rfl, -, -⟩
    · exact h k' v' w i j hi hj
    · exact absurd hi (hk _ _)
  · rcases hj with hj | ⟨-, -, rfl⟩
    · exact absurd hj (hk _ _)
    · rfl

theorem Distinct.binds_remove (h : Distinct t) (hi : Binds t k v i) :
    Binds (write t i none) k' v' j ↔ Binds t k' v' j ∧ k' ≠ k := by
  have hlt := (List.getElem?_eq_some_iff.mp hi).1
  rw [binds_write hlt.le]
  constructor
  · intro hj
    split_ifs at hj with heq
    refine ⟨hj, ?_⟩
    rintro rfl
    exact heq (h _ _ _ _ _ hj hi)
  rintro ⟨hj, hne⟩
  rw [if_neg]
  · exact hj
  · rintro rfl
    exact hne (Prod.mk.inj (Option.some.inj (Option.some.inj (hj.symm.trans hi)))).1

theorem Distinct.remove (h : Distinct t) (hi : Binds t k v i) : Distinct (write t i none) := by
  intro k' v' w i' j' hi' hj'
  rw [h.binds_remove hi] at hi' hj'
  exact h k' v' w i' j' hi'.1 hj'.1

def Represents (t : Table K V) (m : K → Option V) : Prop := ∀ k v, m k = some v ↔ ∃ i, Binds t k v i

section Lookup
variable [DecidableEq K]

theorem Represents.insert {m : K → Option V} (h : Represents t m) (hk : m k = none) (v : V) :
    Represents (write t (free t) (some (k, v))) (update m k (some v)) := by
  intro k' v'
  simp only [binds_insert, exists_or, ← h k' v']
  by_cases heq : k' = k
  · subst heq
    rw [update_self, hk]
    simp [eq_comm]
  · rw [update_of_ne heq]
    simp [heq]

theorem Represents.remove {m : K → Option V} (h : Represents t m) (hd : Distinct t) (hi : Binds t k v i) :
    Represents (write t i none) (update m k none) := by
  intro k' v'
  simp only [hd.binds_remove hi, exists_and_right, ← h k' v']
  by_cases heq : k' = k
  · subst heq
    simp [update_self]
  · simp [heq]

end Lookup

end Xv6.SlotTable
