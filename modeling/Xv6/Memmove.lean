import Xv6.Copying

/-! The two memmoves: that of kernel/string.c and that of user/ulib.c. A pointer is a word of 64 bits,
and pointers are compared as unsigned numbers. -/
namespace Xv6.Memmove
open Copying List

abbrev Ptr := BitVec 64
abbrev Mem := Ptr → UInt8

/-- while(n-- > 0) *d++ = *s++; -/
def copyUp : ℕ → Ptr → Ptr → Mem → Mem
  | 0, _, _, m => m
  | n+1, d, s, m => copyUp n (d+1) (s+1) (Function.update m d (m s))

/-- while(n-- > 0) *--d = *--s; -/
def copyDown : ℕ → Ptr → Ptr → Mem → Mem
  | 0, _, _, m => m
  | n+1, d, s, m => copyDown n (d-1) (s-1) (Function.update m (d-1) (m (s-1)))

/-- kernel/string.c -/
def memmove (dst src : Ptr) (n : UInt32) (m : Mem) : Ptr × Mem :=
  if src < dst ∧ src+BitVec.ofNat 64 n.toNat > dst then
    (dst, copyDown n.toNat (dst+BitVec.ofNat 64 n.toNat) (src+BitVec.ofNat 64 n.toNat) m)
  else (dst, copyUp n.toNat dst src m)

/-- user/ulib.c -/
def ulibMemmove (vdst vsrc : Ptr) (n : Int32) (m : Mem) : Ptr × Mem :=
  if vsrc > vdst then (vdst, copyUp n.toInt.toNat vdst vsrc m)
  else (vdst, copyDown n.toInt.toNat (vdst+BitVec.ofInt 64 n.toInt) (vsrc+BitVec.ofInt 64 n.toInt) m)

def cell (dst src : Ptr) (k : ℕ) : Ptr × Ptr := (dst+BitVec.ofNat 64 k, src+BitVec.ofNat 64 k)

variable {m m' : Mem} {dst src : Ptr} {n : ℕ}

theorem add_succ (p : Ptr) (k : ℕ) : p+BitVec.ofNat 64 (k+1) = p+1+BitVec.ofNat 64 k := by
  rw [BitVec.ofNat_add, BitVec.add_comm (BitVec.ofNat 64 k), ← BitVec.add_assoc]
  rfl

theorem toNat_add {p : Ptr} {k : ℕ} (h : p.toNat+k < 2^64) : (p+BitVec.ofNat 64 k).toNat = p.toNat+k := by
  rw [BitVec.toNat_add, BitVec.toNat_ofNat, Nat.mod_eq_of_lt (show k < 2^64 by omega), Nat.mod_eq_of_lt h]

theorem copyUp_eq (n : ℕ) (dst src : Ptr) (m : Mem) :
    copyUp n dst src m = copyCells m ((List.range n).map (cell dst src)) := by
  induction n generalizing dst src m with
  | zero => rfl
  | succ n ih =>
    have hcell : cell dst src ∘ Nat.succ = cell (dst+1) (src+1) := by
      funext k
      exact Prod.ext (add_succ dst k) (add_succ src k)
    have hzero : cell dst src 0 = (dst, src) := Prod.ext (BitVec.add_zero dst) (BitVec.add_zero src)
    rw [copyUp, ih, range_succ_eq_map, map_cons, map_map, hcell, hzero, copyCells]

theorem copyDown_eq (n : ℕ) (dst src : Ptr) (m : Mem) : copyDown n (dst+BitVec.ofNat 64 n) (src+BitVec.ofNat 64 n) m =
      copyCells m ((List.range n).reverse.map (cell dst src)) := by
  induction n generalizing m with
  | zero => rfl
  | succ n ih =>
    have hpred (p : Ptr) : p+BitVec.ofNat 64 (n+1)-1 = p+BitVec.ofNat 64 n := by
      rw [BitVec.ofNat_add, ← BitVec.add_assoc]
      exact BitVec.add_sub_cancel _ _
    rw [copyDown, hpred, hpred, ih, range_succ, reverse_append, reverse_singleton,
      singleton_append, map_cons, cell, copyCells]

structure Moved (m m' : Mem) (dst src : Ptr) (n : ℕ) : Prop where
  copied : ∀ k < n, m' (dst+BitVec.ofNat 64 k) = m (src+BitVec.ofNat 64 k)
  other : ∀ a, (∀ k < n, a ≠ dst+BitVec.ofNat 64 k) → m' a = m a

theorem Moved.eq {m'' : Mem} (h : Moved m m' dst src n) (h' : Moved m m'' dst src n) : m' = m'' := by
  funext a
  by_cases ha : ∃ k < n, a = dst+BitVec.ofNat 64 k
  · obtain ⟨k, hk, rfl⟩ := ha
    rw [h.copied k hk, h'.copied k hk]
  · push Not at ha
    rw [h.other a ha, h'.other a ha]

/-- The order `ks` in which the bytes are copied does not matter as long as no byte is overwritten before
it is read. -/
theorem moved_of_order {ks : List ℕ} (hks : ks.Perm (List.range n)) (hdst : dst.toNat+n ≤ 2^64)
    (hsafe : ks.Pairwise (fun i j => dst+BitVec.ofNat 64 i ≠ src+BitVec.ofNat 64 j)) :
    Moved m (copyCells m (ks.map (cell dst src))) dst src n := by
  have hlt {k : ℕ} (hk : k ∈ ks) : k < n := mem_range.mp (hks.mem_iff.mp hk)
  have hfst : (ks.map (cell dst src)).map Prod.fst = ks.map (fun k => dst+BitVec.ofNat 64 k) := map_map
  have hnodup : ((ks.map (cell dst src)).map Prod.fst).Nodup := by
    rw [hfst]
    apply List.Nodup.map_on ?_ (hks.nodup_iff.mpr nodup_range)
    intro i hi j hj hij
    have hnat := congrArg BitVec.toNat hij
    have hi := hlt hi
    have hj := hlt hj
    rw [toNat_add (by omega), toNat_add (by omega)] at hnat
    omega
  refine ⟨fun k hk => ?_, fun a ha => ?_⟩
  · apply copyCells_of_mem hnodup (pairwise_map.mpr hsafe)
    exact mem_map_of_mem (f := cell dst src) (hks.mem_iff.mpr (mem_range.mpr hk))
  apply copyCells_of_notMem
  rw [hfst, mem_map]
  rintro ⟨k, hk, rfl⟩
  exact ha k (hlt hk) rfl

theorem copyUp_moved (hdst : dst.toNat+n ≤ 2^64) (hsrc : src.toNat+n ≤ 2^64)
    (h : dst.toNat ≤ src.toNat ∨ src.toNat+n ≤ dst.toNat) : Moved m (copyUp n dst src m) dst src n := by
  rw [copyUp_eq]
  apply moved_of_order (List.Perm.refl _) hdst
  -- byte j is read after byte i has been written
  apply pairwise_lt_range.imp_of_mem
  intro i j hi hj hij heq
  have hnat := congrArg BitVec.toNat heq
  have hi := mem_range.mp hi
  have hj := mem_range.mp hj
  rw [toNat_add (by omega), toNat_add (by omega)] at hnat
  omega

theorem copyDown_moved (hdst : dst.toNat+n ≤ 2^64) (h : src.toNat ≤ dst.toNat) :
    Moved m (copyDown n (dst+BitVec.ofNat 64 n) (src+BitVec.ofNat 64 n) m) dst src n := by
  rw [copyDown_eq]
  apply moved_of_order (reverse_perm _) hdst
  rw [pairwise_reverse]
  apply pairwise_lt_range.imp_of_mem
  intro i j hi hj hij heq
  have hnat := congrArg BitVec.toNat heq
  have hi := mem_range.mp hi
  have hj := mem_range.mp hj
  rw [toNat_add (by omega), toNat_add (by omega)] at hnat
  omega

theorem memmove_moved {n : UInt32} (hdst : dst.toNat+n.toNat ≤ 2^64) (hsrc : src.toNat+n.toNat ≤ 2^64) :
    Moved m (memmove dst src n m).2 dst src n.toNat := by
  unfold memmove
  by_cases hover : src < dst ∧ src+BitVec.ofNat 64 n.toNat > dst
  · rw [if_pos hover]
    exact copyDown_moved hdst (le_of_lt hover.1)
  rw [if_neg hover]
  apply copyUp_moved hdst hsrc
  by_cases hlt : src < dst
  · -- the end of the source is below that of the destination, so it does not wrap
    have hnat : src.toNat < dst.toNat := hlt
    have hend : ¬ dst.toNat < (src+BitVec.ofNat 64 n.toNat).toNat := fun hgt => hover ⟨hlt, hgt⟩
    rw [toNat_add (by omega)] at hend
    exact Or.inr (Nat.not_lt.mp hend)
  · exact Or.inl (BitVec.not_lt.mp hlt)

theorem ulibMemmove_moved {n : Int32} (hn : 0 ≤ n.toInt) (hdst : dst.toNat+n.toInt.toNat ≤ 2^64)
    (hsrc : src.toNat+n.toInt.toNat ≤ 2^64) : Moved m (ulibMemmove dst src n m).2 dst src n.toInt.toNat := by
  have hofInt : BitVec.ofInt 64 n.toInt = BitVec.ofNat 64 n.toInt.toNat := by
    rw [← BitVec.ofInt_natCast, Int.toNat_of_nonneg hn]
  unfold ulibMemmove
  by_cases hgt : src > dst
  · rw [if_pos hgt]
    exact copyUp_moved hdst hsrc (Or.inl (le_of_lt hgt))
  · rw [if_neg hgt, hofInt]
    exact copyDown_moved hdst (BitVec.not_lt.mp hgt)

/-- Wherever the two ranges lie, as long as none of them wraps, both memmoves move the bytes and
return `dst`. -/
theorem memmoves_move_bytes (m : Mem) (dst src : Ptr) :
    (∀ n : UInt32, dst.toNat+n.toNat ≤ 2^64 → src.toNat+n.toNat ≤ 2^64 →
      (memmove dst src n m).1 = dst ∧ Moved m (memmove dst src n m).2 dst src n.toNat) ∧
    (∀ n : Int32, 0 ≤ n.toInt → dst.toNat+n.toInt.toNat ≤ 2^64 → src.toNat+n.toInt.toNat ≤ 2^64 →
      (ulibMemmove dst src n m).1 = dst ∧ Moved m (ulibMemmove dst src n m).2 dst src n.toInt.toNat) ∧
    ∀ (n : UInt32) (k : Int32), k.toInt = n.toNat → dst.toNat+n.toNat ≤ 2^64 → src.toNat+n.toNat ≤ 2^64 →
      memmove dst src n m = ulibMemmove dst src k m := by
  have hret (n : UInt32) : (memmove dst src n m).1 = dst := by
    unfold memmove
    split_ifs <;> rfl
  have huret (n : Int32) : (ulibMemmove dst src n m).1 = dst := by
    unfold ulibMemmove
    split_ifs <;> rfl
  refine ⟨fun n hdst hsrc => ⟨hret n, memmove_moved hdst hsrc⟩,
    fun n hn hdst hsrc => ⟨huret n, ulibMemmove_moved hn hdst hsrc⟩, fun n k hk hdst hsrc => ?_⟩
  have hnat : k.toInt.toNat = n.toNat := by rw [hk, Int.toNat_natCast]
  have hu : Moved m (ulibMemmove dst src k m).2 dst src k.toInt.toNat :=
    ulibMemmove_moved (by omega) (by rwa [hnat]) (by rwa [hnat])
  rw [hnat] at hu
  exact Prod.ext ((hret n).trans (huret k).symm) ((memmove_moved hdst hsrc).eq hu)

theorem memmoves_move_three : (memmove 2 0 3 (fun a => UInt8.ofNat a.toNat)).2 4 = 2 ∧
    (ulibMemmove 0 2 3 (fun a => UInt8.ofNat a.toNat)).2 2 = 4 ∧
    memmove 2 0 3 (fun a => UInt8.ofNat a.toNat) = ulibMemmove 2 0 3 (fun a => UInt8.ofNat a.toNat) := by
  obtain ⟨hk, -, heq⟩ := memmoves_move_bytes (fun a => UInt8.ofNat a.toNat) 2 0
  obtain ⟨-, hu, -⟩ := memmoves_move_bytes (fun a => UInt8.ofNat a.toNat) 0 2
  exact ⟨(hk 3 (by decide) (by decide)).2.copied 2 (by decide),
    (hu 3 (by decide) (by decide) (by decide)).2.copied 2 (by decide), heq 3 3 (by decide) (by decide) (by decide)⟩

end Xv6.Memmove
