import Mathlib.Tactic
import Mathlib.Data.List.Nodup

/-! Copying a memory onto itself, one cell after the other. -/
namespace Xv6.Copying

open Function List
variable {A V : Type*} [DecidableEq A] {m : A → V} {ps : List (A × A)}

def copyCells (m : A → V) : List (A × A) → A → V
  | [] => m
  | (d, s) :: ps => copyCells (update m d (m s)) ps

theorem copyCells_of_notMem {a : A} (h : a ∉ ps.map Prod.fst) : copyCells m ps a = m a := by
  induction ps generalizing m with
  | nil => rfl
  | cons x ps ih =>
    rw [map_cons, mem_cons, not_or] at h
    rw [copyCells, ih h.2, update_of_ne h.1]

/-- If no cell is read once it has been overwritten, every destination holds what its source held. -/
theorem copyCells_of_mem (hd : (ps.map Prod.fst).Nodup) (hr : ps.Pairwise (fun x y => x.1 ≠ y.2)) {d s : A}
    (h : (d, s) ∈ ps) : copyCells m ps d = m s := by
  induction ps generalizing m with
  | nil => cases h
  | cons x ps ih =>
    rw [map_cons, nodup_cons] at hd
    rw [pairwise_cons] at hr
    rw [copyCells]
    rcases mem_cons.mp h with rfl | hmem
    · rw [copyCells_of_notMem hd.1, update_self]
    · rw [ih hd.2 hr.2 hmem]
      exact update_of_ne (hr.1 _ hmem).symm ..

end Xv6.Copying
