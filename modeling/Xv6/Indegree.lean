import Mathlib.Tactic
import Mathlib.Data.Multiset.Count
import Mathlib.Algebra.BigOperators.Group.Finset.Basic

/-! Finite multigraphs on the numbers below `n`: the edges leaving a node are a multiset, and
`indegree` counts those that enter one. -/
namespace Xv6.Multigraph

open Function
variable {α : Type*} (n : ℕ) (out : ℕ → Multiset α) (target : α → ℕ)

def indegree (i : ℕ) : ℕ := ∑ v ∈ Finset.range n, (out v).countP (fun e => target e = i)

variable {n out target}

theorem indegree_pos_iff {i : ℕ} : 0 < indegree n out target i ↔ ∃ v < n, ∃ e ∈ out v, target e = i := by
  simp only [indegree, Nat.pos_iff_ne_zero, ne_eq, Finset.sum_eq_zero_iff, Finset.mem_range,
    not_forall, Multiset.countP_eq_zero, not_not, exists_prop]

theorem indegree_eq_zero_iff {i : ℕ} : indegree n out target i = 0 ↔ ∀ v < n, ∀ e ∈ out v, target e ≠ i := by
  simp only [indegree, Finset.sum_eq_zero_iff, Finset.mem_range, Multiset.countP_eq_zero, ne_eq]

theorem indegree_update (out : ℕ → Multiset α) (target : α → ℕ) {v : ℕ} (hv : v < n) (m : Multiset α) (i : ℕ) :
    indegree n (update out v m) target i+(out v).countP (fun e => target e = i) =
      indegree n out target i+m.countP (fun e => target e = i) := by
  have hmem := Finset.mem_range.mpr hv
  have hrest : ∑ w ∈ (Finset.range n).erase v, (update out v m w).countP (fun e => target e = i) =
      ∑ w ∈ (Finset.range n).erase v, (out w).countP (fun e => target e = i) := by
    apply Finset.sum_congr rfl
    intro w hw
    rw [update_of_ne (Finset.ne_of_mem_erase hw)]
  have hnew := Finset.add_sum_erase (Finset.range n) (fun w => (update out v m w).countP (fun e => target e = i)) hmem
  have hold := Finset.add_sum_erase (Finset.range n) (fun w => (out w).countP (fun e => target e = i)) hmem
  simp only [update_self] at hnew
  unfold indegree
  omega

theorem indegree_cons (out : ℕ → Multiset α) (target : α → ℕ) {v : ℕ} (hv : v < n) (e : α) (i : ℕ) :
    indegree n (update out v (e ::ₘ out v)) target i = indegree n out target i+if target e = i then 1 else 0 := by
  have h := indegree_update out target hv (e ::ₘ out v) i
  rw [Multiset.countP_cons] at h
  omega

theorem countP_eq_sum_targets (target : α → ℕ) {m : Multiset α} (P : ℕ → Prop) [DecidablePred P]
    (hm : ∀ e ∈ m, target e < n) :
    m.countP (fun e => P (target e)) = ∑ v ∈ Finset.range n, if P v then m.countP (fun e => target e = v) else 0 := by
  induction m using Multiset.induction_on with
  | empty => simp
  | cons e m ih =>
    have hlt := hm e (Multiset.mem_cons_self e m)
    have hterm (v : ℕ) : (if P v then (e ::ₘ m).countP (fun e => target e = v) else 0) =
        (if P v then m.countP (fun e => target e = v) else 0)+
          if v = target e then (if P (target e) then 1 else 0) else 0 := by
      rw [Multiset.countP_cons]
      by_cases hv : v = target e
      · subst hv
        by_cases hP : P (target e) <;> simp [hP]
      · simp [hv, Ne.symm hv]
    rw [Multiset.countP_cons, ih (fun e he => hm e (Multiset.mem_cons_of_mem he)),
      Finset.sum_congr rfl (fun v _ => hterm v), Finset.sum_add_distrib, Finset.sum_ite_eq']
    rw [if_pos (Finset.mem_range.mpr hlt)]

end Xv6.Multigraph
