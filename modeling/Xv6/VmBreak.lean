import Xv6.VmProc
import Xv6.VmGrow
import Xv6.VmLife

/-! sbrk: growproc moves the end of a process's memory. -/
namespace Xv6.Vm
open Hoare Radix

/-- What growproc is to do. It fails and leaves the process and its mappings as they were; or the size
changes by `n`, the memory below the old and the new end keeps its contents, and new pages are
zero. -/
def Resized (m : Machine) (R : Multiset ℕ) (s t : Ram) (p p' : Proc) (n r : ℤ) : Prop :=
  (r = -1 ∧ p' = p ∧ ∀ k < 2^39, pteOf t p.pagetable k = pteOf s p.pagetable k) ∨
  (r = 0 ∧ (p'.sz : ℤ) = p.sz+n ∧ p' = { p with sz := p'.sz } ∧
    Space m (procMap m p.trapframe) R t p.pagetable (pageNum p'.sz) ∧
    (∀ k < pgsize*min (pageNum p.sz) (pageNum p'.sz), memAt t p.pagetable k = memAt s p.pagetable k) ∧
    ∀ k, pgsize*pageNum p.sz ≤ k → k < pgsize*pageNum p'.sz → memAt t p.pagetable k = some (userFlags, 0))

variable {m : Machine} {top : ℕ → Option ℕ} {R : Multiset ℕ} {s t : Ram} {pt n : ℕ}

theorem Space.pteOf_eq (hs : Space m top R s pt n) (ht : Space m top R t pt n) (h : Kept R s t pt n) {k : ℕ}
    (hk : k < 2^39) : pteOf t pt k = pteOf s pt k := by
  by_cases hkn : k < pgsize*n
  · exact h.map k hkn
  · rw [ht.above k hk (not_lt.mp hkn), hs.above k hk (not_lt.mp hkn)]

theorem Space.lt (h : Space m top R s pt n) {k : ℕ} (hk : k < pgsize*n) : k < 2^39 :=
  hk.trans_le (h.bound.trans (by decide))

theorem uintAdd_eq {sz : ℕ} {n : ℤ} (h0 : 0 ≤ (sz : ℤ)+n) (h : (sz : ℤ)+n < 2^32) : (uintAdd sz n : ℤ) = sz+n := by
  rw [uintAdd, Int.emod_eq_of_lt h0 h, Int.toNat_of_nonneg h0]

theorem uintAdd_neg {sz : ℕ} {n : ℤ} (h0 : (sz : ℤ)+n < 0) (h : -2^31 ≤ n) : 2^31 ≤ uintAdd sz n := by
  rw [uintAdd]
  omega

/-- growproc does what it is to do if and only if the new size is not negative. -/
theorem growproc_resizes_iff (m : Machine) (R : Multiset ℕ) (s : Ram) (p : Proc) (n : ℤ)
    (hs : Space m (procMap m p.trapframe) R s p.pagetable (pageNum p.sz)) (hsz : p.sz < 2^31)
    (hn : -2^31 ≤ n) (hn' : n < 2^31) :
    ∃ r p' t, growproc m p n s = .ok ((r, p'), t) ∧ (Resized m R s t p p' n r ↔ 0 ≤ (p.sz : ℤ)+n) := by
  have hmod : p.sz%2^32 = p.sz := Nat.mod_eq_of_lt (by omega)
  rw [growproc, hmod]
  rcases lt_trichotomy n 0 with hneg | rfl | hpos
  · rw [if_neg (by omega), if_pos hneg]
    obtain ⟨t, hrun, hk, -, ht⟩ := uvmdealloc_spec hs (uintAdd p.sz n)
    rw [run_bind hrun]
    refine ⟨0, _, t, rfl, ?_⟩
    by_cases h0 : 0 ≤ (p.sz : ℤ)+n
    · have hnew := uintAdd_eq h0 (by omega)
      have hmin : min (uintAdd p.sz n) p.sz = uintAdd p.sz n := Nat.min_eq_left (by omega)
      rw [hmin] at hk ht ⊢
      rw [Nat.mod_eq_of_lt (by omega : uintAdd p.sz n < 2^32)]
      have hmono : pageNum (uintAdd p.sz n) ≤ pageNum p.sz := pageNum_mono (by omega)
      refine iff_of_true (Or.inr ⟨rfl, hnew, rfl, ht, fun k hk' => ?_, fun k hlo hhi => ?_⟩) h0
      · dsimp only at hk'
        rw [Nat.min_eq_right hmono] at hk'
        exact hk.memAt (ht.lt hk') hk'
      · have := Nat.mul_le_mul_left pgsize hmono
        dsimp only at hhi
        omega
    · have hbig := uintAdd_neg (Int.lt_of_not_ge h0) hn
      have hmin : min (uintAdd p.sz n) p.sz = p.sz := Nat.min_eq_right (by omega)
      rw [hmin, hmod]
      refine iff_of_false ?_ h0
      rintro (⟨h, -⟩ | ⟨-, h, -⟩)
      · exact absurd h (by decide)
      · dsimp only at h
        omega
  · rw [if_neg (by omega), if_neg (by omega)]
    refine ⟨0, p, s, rfl, iff_of_true (Or.inr ⟨rfl, (add_zero _).symm, rfl, hs, fun k _ => rfl, ?_⟩) (by omega)⟩
    intro k hlo hhi
    omega
  · rw [if_pos hpos]
    have hnew := uintAdd_eq (by omega : 0 ≤ (p.sz : ℤ)+n) (by omega)
    have htf : (2 : ℕ)^32 ≤ trapframe := by decide
    obtain ⟨r, t, hrun, hk, hr⟩ := @uvmalloc_spec m _ s R p.pagetable p.sz (uintAdd p.sz n) hs
      (procMap_ne_none m p.trapframe) (by omega) (Or.inl (by omega))
    rw [run_bind hrun]
    rcases hr with ⟨rfl, ht, hblank⟩ | ⟨rfl, ht, -⟩
    · rw [Nat.mod_eq_of_lt (by omega : uintAdd p.sz n < 2^32), if_neg (by omega)]
      have hmono : pageNum p.sz ≤ pageNum (uintAdd p.sz n) := pageNum_mono (by omega)
      refine ⟨0, _, t, rfl, iff_of_true (Or.inr ⟨rfl, hnew, rfl, ht, fun k hk' => ?_, fun k hlo hhi => ?_⟩) (by omega)⟩
      · dsimp only at hk'
        rw [Nat.min_eq_left hmono] at hk'
        exact hk.memAt (hs.lt hk') hk'
      · exact (hblank k (ht.lt hhi) hlo hhi).memAt
    · exact ⟨-1, p, t, rfl, iff_of_true (Or.inl ⟨rfl, rfl, fun k hk39 => hs.pteOf_eq ht hk hk39⟩) (by omega)⟩

/-- With enough pages and no failure of kalloc there are processes of every size. -/
theorem space_exists (m : Machine) {n : ℕ} (hn : pgsize*n ≤ trapframe) (hm : size 512 2+(n+1) < m.pageCount) :
    ∃ s pt tf, tf ≠ 0 ∧ Space m (procMap m tf) {tf} s pt n ∧ s.refuse = [] := by
  obtain ⟨s0, -, h0, hr0⟩ := @kinit_spec m ⟨fun _ _ => 0, 0, []⟩ rfl
  obtain ⟨tf, s1, -, -, hr1, htf⟩ := kalloc_cases h0
  have hnil0 : s0.refuse = [] := hr0 rfl
  have hnil1 : s1.refuse = [] := by rw [hr1, hnil0, List.tail_nil]
  rcases htf with ⟨-, -, hno⟩ | ⟨htf0, h1, -⟩
  · exact absurd ((grants_one rfl).mp (grants_of_nil hnil0 (by rw [Multiset.card_zero]; omega))) hno
  rw [Multiset.cons_zero] at h1
  obtain ⟨pt, s2, -, hk2, hpt⟩ := procPagetable_spec h1 tf
  rcases hpt with ⟨-, -, hno⟩ | ⟨-, h2, -⟩
  · refine absurd (grants_of_nil hnil1 ?_) hno
    have h3 : 3 ≤ size 512 2 := by decide
    rw [Multiset.card_singleton]
    omega
  have hnil2 := hk2.refuse hnil1
  obtain ⟨r, s3, -, hk3, hr⟩ := @uvmalloc_spec m _ s2 {tf} pt 0 (pgsize*n) h2 (procMap_ne_none m tf)
    (Nat.zero_le _) (Or.inl hn)
  rw [pageNum_mul] at hr
  rcases hr with ⟨-, h3, -⟩ | ⟨-, -, hfull⟩
  · exact ⟨s3, pt, tf, htf0, h3, hk3.keeps.refuse hnil2⟩
  · have hall := hfull hnil2
    rw [Multiset.card_singleton] at hall
    omega

def roomy : Machine := ⟨4096, 4096*(2^22+1), 0, pgsize_pos, by decide, by decide, Nat.zero_mod _, pgsize_pos⟩

theorem roomy_pageCount : roomy.pageCount = 2^22 := by decide

def procWith (pt tf sz : ℕ) : Proc where
  state := .running
  chan := 0
  killed := 0
  xstate := 0
  pid := 1
  parent := 0
  sz := sz
  pagetable := pt
  trapframe := tf
  ofile := fun _ => 0
  cwd := 0
  name := []
  pendingSignals := 0
  signalMask := 0
  signalHandlers := fun _ => sigDfl
  backupTrapframe := 0
  frozen := 0
  backupSigMask := 0
  sigHandlerFlag := 0
  sigMaskArray := fun _ => 0

theorem one_page_exists :
    ∃ s pt tf, tf ≠ 0 ∧ Space roomy (procMap roomy tf) {tf} s pt (pageNum 4096) ∧ s.refuse = [] := by
  have hsize : size 512 2 = 262657 := by decide
  have hnum : pageNum 4096 = 1 := by decide
  rw [hnum]
  exact space_exists roomy (by decide) (by rw [hsize, roomy_pageCount]; norm_num)

theorem one_page_grows : ∃ (s : Ram) (R : Multiset ℕ) (p : Proc), p.sz = 4096 ∧
    Space roomy (procMap roomy p.trapframe) R s p.pagetable (pageNum p.sz) ∧
    ∃ r p' t, growproc roomy p 5000 s = .ok ((r, p'), t) ∧ (Resized roomy R s t p p' 5000 r ↔ 0 ≤ (p.sz : ℤ)+5000) := by
  obtain ⟨s, pt, tf, -, hs, -⟩ := one_page_exists
  exact ⟨s, {tf}, procWith pt tf 4096, rfl, hs,
    growproc_resizes_iff roomy {tf} s (procWith pt tf 4096) 5000 hs (show 4096 < 2^31 by decide) (by decide)
      (by decide)⟩

/-- Shrinking a process of one page by two pages: growproc returns 0 and changes nothing. -/
theorem shrink_below_zero : ∃ (s : Ram) (R : Multiset ℕ) (p : Proc), p.sz = 4096 ∧
    Space roomy (procMap roomy p.trapframe) R s p.pagetable (pageNum p.sz) ∧
    growproc roomy p (-8192) s = .ok ((0, p), s) ∧ ¬Resized roomy R s s p p (-8192) 0 := by
  obtain ⟨s, pt, tf, -, hs, -⟩ := one_page_exists
  refine ⟨s, {tf}, procWith pt tf 4096, rfl, hs, ?_, ?_⟩
  · have hbig : uintAdd (4096%2^32) (-8192) = 4294963200 := by decide
    have hrun : uvmdealloc roomy pt (4096%2^32) (uintAdd (4096%2^32) (-8192)) s = .ok (4096, s) := by
      rw [hbig, uvmdealloc, if_pos (by decide)]
      rfl
    rw [growproc, if_neg (by decide), if_pos (by decide)]
    exact run_bind hrun _
  · rintro (⟨h, -⟩ | ⟨-, h, -⟩)
    · exact absurd h (by decide)
    · have hsum : (4096 : ℤ) = 4096+-8192 := h
      exact absurd hsum (by decide)

end Xv6.Vm
