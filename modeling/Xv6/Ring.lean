import Mathlib.Tactic
import Mathlib.Data.BitVec

/-! A ring of `cap` cells addressed by two counters of `w` bits that only grow and wrap. The
queue it holds starts at the first counter; as `cap` divides `2^w`, a counter and the cell it
stands for wrap together. -/
namespace Xv6.Ring

open Function List BitVec
variable {α : Type*} {w cap : ℕ} [NeZero cap]

def cell (cap : ℕ) [NeZero cap] (x : BitVec w) : Fin cap :=
  ⟨x.toNat % cap, Nat.mod_lt _ (Nat.pos_of_ne_zero (NeZero.ne cap))⟩

def window (data : Fin cap → α) (r : BitVec w) (k : ℕ) : List α :=
  (List.range k).map (fun i => data (cell cap (r + BitVec.ofNat w i)))

@[simp] theorem window_zero (data : Fin cap → α) (r : BitVec w) : window data r 0 = [] := rfl

theorem length_window (data : Fin cap → α) (r : BitVec w) (k : ℕ) : (window data r k).length = k := by simp [window]

theorem cell_add_val (hcap : cap ∣ 2^w) (r : BitVec w) (i : ℕ) :
    (cell cap (r + BitVec.ofNat w i)).val = (r.toNat + i) % cap := by
  simp only [cell, toNat_add, toNat_ofNat, Nat.add_mod_mod]
  exact Nat.mod_mod_of_dvd _ hcap

theorem cell_add_ne (hcap : cap ∣ 2^w) (r : BitVec w) {i j : ℕ} (hij : i < j) (hj : j < cap) :
    cell cap (r + BitVec.ofNat w i) ≠ cell cap (r + BitVec.ofNat w j) := by
  intro he
  have hmod : r.toNat + i ≡ r.toNat + j [MOD cap] := by
    have hv := congrArg Fin.val he
    rwa [cell_add_val hcap, cell_add_val hcap] at hv
  have hlt : i ≡ j [MOD cap] := Nat.ModEq.add_left_cancel' r.toNat hmod
  exact hij.ne (Nat.ModEq.eq_of_lt_of_lt hlt (hij.trans hj) hj)

theorem window_update (hcap : cap ∣ 2^w) (data : Fin cap → α) (r : BitVec w) {k : ℕ} (hk : k < cap)
    (x : α) : window (update data (cell cap (r + BitVec.ofNat w k)) x) r k = window data r k := by
  apply map_congr_left
  intro i hi
  exact update_of_ne (cell_add_ne hcap r (mem_range.mp hi) hk) _ _

theorem window_succ (data : Fin cap → α) (r : BitVec w) (k : ℕ) :
    window data r (k+1) = window data r k ++ [data (cell cap (r + BitVec.ofNat w k))] := by
  simp only [window, range_succ, map_append, map_cons, map_nil]

theorem window_push (hcap : cap ∣ 2^w) (data : Fin cap → α) (r : BitVec w) {k : ℕ} (hk : k < cap)
    (x : α) : window (update data (cell cap (r + BitVec.ofNat w k)) x) r (k+1) = window data r k ++ [x] := by
  rw [window_succ, window_update hcap data r hk, update_self]

theorem window_pop (data : Fin cap → α) (r : BitVec w) (k : ℕ) :
    window data r (k+1) = data (cell cap r) :: window data (r+1) k := by
  have hnext (i : ℕ) : r + BitVec.ofNat w (i+1) = r+1 + BitVec.ofNat w i := by
    rw [Nat.add_comm i 1, ofNat_add, ← add_assoc]
    rfl
  simp only [window, range_succ_eq_map, map_cons, map_map, comp_def, Nat.succ_eq_add_one, hnext]
  rw [show r + BitVec.ofNat w 0 = r from add_zero r]

theorem add_count (r x : BitVec w) : r + BitVec.ofNat w (x-r).toNat = x := by
  rw [ofNat_toNat, setWidth_eq]
  ring

theorem toNat_one (h : 1 < 2^w) : (1 : BitVec w).toNat = 1 := by rw [ofNat_eq_ofNat, toNat_ofNat, Nat.mod_eq_of_lt h]

theorem count_push (r x : BitVec w) (h : (x-r).toNat + 1 < 2^w) : (x+1-r).toNat = (x-r).toNat + 1 := by
  have hshift : x+1-r = (x-r)+1 := by ring
  rw [hshift, toNat_add, toNat_one (by omega), Nat.mod_eq_of_lt h]

theorem count_pop (r x : BitVec w) (h : r ≠ x) : (x-r).toNat = (x-(r+1)).toNat + 1 := by
  have hpos : (x-r).toNat ≠ 0 := by
    intro h0
    exact h (sub_eq_zero.mp (eq_of_toNat_eq (by simpa using h0))).symm
  have hlt := (x-r).isLt
  have hshift : x-r = (x-(r+1))+1 := by ring
  by_cases hw : (x-(r+1)).toNat + 1 < 2^w
  · calc (x-r).toNat = ((x-(r+1))+1).toNat := by rw [hshift]
      _ = (x-(r+1)).toNat + 1 := by rw [toNat_add, toNat_one (by omega), Nat.mod_eq_of_lt hw]
  -- only 2^w-1 plus one wraps, and then nothing is left
  have hlast : (x-(r+1)).toNat + 1 = 2^w := by
    have := (x-(r+1)).isLt
    omega
  refine absurd ?_ hpos
  rw [hshift, toNat_add, toNat_one (by omega), hlast, Nat.mod_self]

theorem count_back (r x : BitVec w) (h : x ≠ r) : (x-r).toNat = (x-1-r).toNat + 1 := by
  have hpop := count_pop r x (Ne.symm h)
  rwa [show x-(r+1) = x-1-r by ring] at hpop

end Xv6.Ring
