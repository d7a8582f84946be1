import Xv6.VmMap

/-! A page table stands for a finite map from pages of virtual addresses to physical pages and
flags. -/
namespace Xv6.Vm
open Hoare Radix

/-- The map that a page table stands for, read off the entries that walk finds. -/
def abs (s : Ram) (pt va : ℕ) : Option (ℕ × ℕ) := (pteOf s pt va).map (fun w => (pte2pa w, pteFlags w))

/-- The pages of the table form a tree without sharing. They are in use for nothing else: they
are not among the pages in `R`, which are in use for other things, nor on the free list. -/
def WellFormed (m : Machine) (s : Ram) (pt : ℕ) (R : Multiset ℕ) : Prop := Heap m s (tables s pt+R)

variable {m : Machine} {s t : Ram} {R : Multiset ℕ} {pt : ℕ}

theorem abs_none {va : ℕ} (h : abs s pt va = none) : pteOf s pt va = none := Option.map_eq_none_iff.mp h

theorem abs_some {va pa fl : ℕ} (h : abs s pt va = some (pa, fl)) :
    ∃ w, pteOf s pt va = some w ∧ pte2pa w = pa ∧ pteFlags w = fl := by
  obtain ⟨w, hw, hpair⟩ := Option.map_eq_some_iff.mp h
  exact ⟨w, hw, congrArg Prod.fst hpair, congrArg Prod.snd hpair⟩

theorem abs_mapped {a pa perm j k : ℕ} (hperm : perm < 2^10) (h : pteOf t pt k = mapped (pteOf s pt) a pa perm j k) :
    abs t pt k = if a ≤ k ∧ k < a+pgsize*j
      then some (pgrounddown ((pa+(k-a)/pgsize*pgsize)%2^64), perm ||| pteV) else abs s pt k := by
  rw [abs, h, mapped]
  by_cases hin : a ≤ k ∧ k < a+pgsize*j
  · rw [if_pos hin, if_pos hin, Option.map_some, pte2pa_pte (Nat.mod_lt _ (by decide)) hperm, pteFlags_pte hperm]
  · rw [if_neg hin, if_neg hin, abs]

theorem userPage_abs (s : Ram) (pt va : ℕ) : userPage (pteOf s pt va) =
    match abs s pt va with
    | none => 0
    | some (pa, fl) => if fl &&& pteV ≠ 0 ∧ fl &&& pteU ≠ 0 then pa else 0 := by
  rw [abs]
  cases hw : pteOf s pt va with
  | none => rfl
  | some w =>
    obtain ⟨-, -, -, hv⟩ := look_some hw
    have hfv : pteFlags w &&& pteV ≠ 0 := by
      rw [← and_flags (by decide)]
      exact valid_iff_and.mp hv
    have hfu : pteFlags w &&& pteU = w &&& pteU := (and_flags (by decide)).symm
    change (if w &&& pteU = 0 then 0 else pte2pa w) =
      if pteFlags w &&& pteV ≠ 0 ∧ pteFlags w &&& pteU ≠ 0 then pte2pa w else 0
    rw [hfu]
    by_cases hu : w &&& pteU = 0
    · rw [if_pos hu, if_neg (fun h => h.2 hu)]
    · rw [if_neg hu, if_pos ⟨hfv, hu⟩]

theorem abs_walk (s : Ram) (pt va : ℕ) (h : va < maxva) : ∃ r, walk pt va false s = .ok (r, s) ∧
      abs s pt va = ((r.map (fun e => s.word e.1 e.2)).filter (fun w => decide (w &&& pteV ≠ 0))).map
        (fun w => (pte2pa w, pteFlags w)) := by
  refine ⟨_, (walk_run h).trans (walkFrom_false s), ?_⟩
  rw [Option.map_map]
  rfl

/-- The operations of a page table on the map that it stands for. With `doFree` the pages that were
mapped must be pages from kalloc that have no other use. -/
theorem page_table_is_map (m : Machine) (s : Ram) (pt : ℕ) (R : Multiset ℕ) (hwf : WellFormed m s pt R) :
    (∀ va < maxva, ∃ r, walk pt va false s = .ok (r, s) ∧
      abs s pt va = ((r.map (fun e => s.word e.1 e.2)).filter (fun w => decide (w &&& pteV ≠ 0))).map
        (fun w => (pte2pa w, pteFlags w))) ∧
    (∀ va < maxva, ∃ r t, walk pt va true s = .ok (r, t) ∧ WellFormed m t pt R ∧ ∀ k < maxva, abs t pt k = abs s pt k) ∧
    (∀ va size pa perm, 1 ≤ size → va+size ≤ maxva → pa < 2^64 → perm < 2^10 →
      (∀ k, k%pgsize = 0 → pgrounddown va ≤ k → k ≤ pgrounddown (va+size-1) → abs s pt k = none) →
      ∃ r t n, mappages pt va size pa perm s = .ok (r, t) ∧ WellFormed m t pt R ∧
        (∀ k < maxva, k%pgsize = 0 → abs t pt k =
          if pgrounddown va ≤ k ∧ k < pgrounddown va+pgsize*n
          then some (pgrounddown ((pa+(k-pgrounddown va))%2^64), perm ||| pteV) else abs s pt k) ∧
        ((r = 0 ∧ pgrounddown va+pgsize*n = pgrounddown (va+size-1)+pgsize) ∨
          (r = -1 ∧ pgrounddown va+pgsize*n ≤ pgrounddown (va+size-1)))) ∧
    (∀ va n doFree R', va%pgsize = 0 → va+pgsize*n ≤ maxva →
      (∀ j < n, ∃ pa fl, abs s pt (va+pgsize*j) = some (pa, fl) ∧ fl ≠ pteV) →
      R = (if doFree then frames s pt va n else 0)+R' →
      ∃ t, uvmunmap m pt va n doFree s = .ok ((), t) ∧ WellFormed m t pt R' ∧ ∀ k < maxva, k%pgsize = 0 →
          abs t pt k = if va ≤ k ∧ k < va+pgsize*n then none else abs s pt k) ∧
    (∀ va, walkaddr pt va s = .ok (match if va < maxva then abs s pt va else none with
      | none => 0
      | some (pa, fl) => if fl &&& pteV ≠ 0 ∧ fl &&& pteU ≠ 0 then pa else 0, s)) := by
  refine ⟨abs_walk s pt, fun va hva => ?_, fun va size pa perm hsize hva hpa hperm hnone => ?_,
    fun va n doFree R' hal hva hleaf hfree => ?_, fun va => ?_⟩
  · obtain ⟨r, t, hrun, hgrown, -⟩ := @walkFrom_true m s R 2 pt va hwf
    exact ⟨r, t, (walk_run hva).trans hrun, hgrown.heap, fun k _ => by rw [abs, abs, pteOf, hgrown.look]⟩
  · have hspan (j : ℕ) (hj : j < pageSpan va size) :
        pgrounddown va+pgsize*j ≤ pgrounddown (va+size-1) ∧ (pgrounddown va+pgsize*j)%pgsize = 0 := by
      rw [pageSpan, pgrounddown, pgrounddown, pgsize] at *
      omega
    obtain ⟨r, t, n, hrun, hch, hmap, hr⟩ := @mappages_spec m s R pt pa perm va size hwf hsize hva hpa
      (fun j hj => abs_none (hnone _ (hspan j hj).2 (Nat.le_add_right _ _) (hspan j hj).1))
    refine ⟨r, t, n, hrun, hch.heap, fun k hk hal => ?_, hr.imp (fun h => ⟨h.1, ?_⟩) (fun h => ⟨h.1, ?_⟩)⟩
    · have hk' : k < 2^39 := hk.trans (by decide)
      rw [abs_mapped hperm (hmap k hk')]
      by_cases hin : pgrounddown va ≤ k ∧ k < pgrounddown va+pgsize*n
      · have hdiff : (k-pgrounddown va)/pgsize*pgsize = k-pgrounddown va := by
          rw [pgrounddown, pgsize] at *
          omega
        rw [if_pos hin, if_pos hin, hdiff]
      · rw [if_neg hin, if_neg hin]
    · rw [h.2, pageSpan, pgrounddown, pgrounddown, pgsize]
      omega
    · exact (hspan n h.2).1
  · have hheap : Heap m s (tables s pt+((if doFree then frames s pt va n else 0)+R')) := hfree ▸ hwf
    obtain ⟨t, hrun, hch, -, hlook⟩ := uvmunmap_spec hheap hal hva (fun j hj => by
      obtain ⟨pa, fl, habs, hfl⟩ := hleaf j hj
      obtain ⟨w, hw, -, rfl⟩ := abs_some habs
      exact ⟨w, hw, hfl⟩)
    refine ⟨t, hrun, hch.heap, fun k hk _ => ?_⟩
    rw [abs, hlook k (hk.trans (by decide))]
    by_cases hin : va ≤ k ∧ k < va+pgsize*n
    · rw [if_pos hin, if_pos hin, Option.map_none]
    · rw [if_neg hin, if_neg hin, abs]
  · by_cases hva : va < maxva
    · rw [if_pos hva, walkaddr_run hva, userPage_abs]
    · rw [if_neg hva, walkaddr, if_pos (by omega)]
      rfl

def tiny : Machine := ⟨4096, 16384, 0, pgsize_pos, by decide, by decide, Nat.zero_mod _, pgsize_pos⟩

def chain : Ram where
  word := fun p i =>
    if p = 4096 ∧ i = 255 then pa2pte 8192 ||| pteV
    else if p = 8192 ∧ i = 511 then pa2pte 12288 ||| pteV
    else if p = 12288 ∧ i = 511 then pa2pte 0 ||| (pteR ||| pteX) ||| pteV
    else 0
  freelist := 0
  refuse := []

theorem chain_wellFormed : WellFormed tiny chain 4096 0 := by
  have hroot : tables chain 4096 = 4096 ::ₘ nodes sv39 chain.word 1 8192 := by
    have hv : sv39.valid (chain.word 4096 255) = true := by decide
    refine nodes_single hv (fun j hj => ?_)
    simp [chain, hj, valid_iff]
  have hmid : nodes sv39 chain.word 1 8192 = 8192 ::ₘ nodes sv39 chain.word 0 12288 := by
    have hv : sv39.valid (chain.word 8192 511) = true := by decide
    refine nodes_single hv (fun j hj => ?_)
    simp [chain, hj, valid_iff]
  refine ⟨[], rfl, ?_⟩
  rw [hroot, hmid, nodes_zero]
  decide

theorem page_table_is_map_chain : ∃ r t, walk 4096 0 true chain = .ok (r, t) ∧ WellFormed tiny t 4096 0 ∧
      ∀ k < maxva, abs t 4096 k = abs chain 4096 k :=
  (page_table_is_map tiny chain 4096 0 chain_wellFormed).2.1 0 (by decide)

/-- Freeing a page that kalloc did not hand out: the leaf is mapped, and uvmunmap panics. -/
theorem unmap_free_kernel_page :
    WellFormed tiny chain 4096 0 ∧ abs chain 4096 trampoline = some (0, pteR ||| pteX ||| pteV) ∧
    uvmunmap tiny 4096 trampoline 1 true chain = .error .kfree :=
  ⟨chain_wellFormed, by decide, rfl⟩

end Xv6.Vm
