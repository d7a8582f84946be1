import Xv6.VmFree

/-! The address space of a process: user pages from address 0 on, each with a page of its own, and the
mappings of the kernel above them. -/
namespace Xv6.Vm
open Hoare Radix Multiset

def pageNum (sz : ℕ) : ℕ := (sz+(pgsize-1))/pgsize

/-- A page table with `n` user pages and the mappings `top` above them. The pages in `R` are in use
for other things. -/
structure Space (m : Machine) (top : ℕ → Option ℕ) (R : Multiset ℕ) (s : Ram) (pt n : ℕ) : Prop where
  heap : Heap m s (tables s pt+(frames s pt 0 n+R))
  inner : Inner sv39 s.word Plain 2 pt
  leaf : ∀ j < n, ∃ w, pteOf s pt (pgsize*j) = some w ∧ pteFlags w ≠ pteV
  above : ∀ k < 2^39, pgsize*n ≤ k → pteOf s pt k = top k
  bound : pgsize*n ≤ trapframe
  free : ∀ k < trapframe, top k = none

/-- The first `n` user pages and the pages in `R` are left as they were. -/
structure Kept (R : Multiset ℕ) (s t : Ram) (pt n : ℕ) : Prop where
  map : ∀ k < pgsize*n, pteOf t pt k = pteOf s pt k
  keeps : Keeps (frames s pt 0 n+R) s t

variable {m : Machine} {top : ℕ → Option ℕ} {s t u : Ram} {R R' : Multiset ℕ} {pt n n' a : ℕ}

theorem pgroundup_pageNum {sz : ℕ} (h : sz ≤ maxva) : pgroundup sz = pgsize*pageNum sz := by
  rw [maxva] at h
  rw [pgroundup_eq (by omega), pageNum, pgsize, Nat.mul_comm]

theorem pageNum_mul (n : ℕ) : pageNum (pgsize*n) = n := by
  rw [pageNum, pgsize]
  omega

theorem le_pageNum (sz : ℕ) : sz ≤ pgsize*pageNum sz := by
  rw [pageNum, pgsize]
  omega

theorem pageNum_mono {sz sz' : ℕ} (h : sz ≤ sz') : pageNum sz ≤ pageNum sz' :=
  Nat.div_le_div_right (Nat.add_le_add_right h _)

theorem frames_add (s : Ram) (pt a n k : ℕ) : frames s pt a (n+k) = frames s pt a n+frames s pt (a+pgsize*n) k := by
  induction k with
  | zero => rw [Nat.add_zero, frames, add_zero]
  | succ k ih => rw [← Nat.add_assoc, frames_succ, ih, frames_succ, add_cons, Nat.mul_add, ← Nat.add_assoc]

theorem frames_le (h : n ≤ n') : frames s pt a n ≤ frames s pt a n' := by
  obtain ⟨k, rfl⟩ := Nat.exists_eq_add_of_le h
  rw [frames_add]
  exact le_add_right _ _

theorem card_frames (s : Ram) (pt a n : ℕ) : (frames s pt a n).card = n := by
  induction n generalizing a with
  | zero => rfl
  | succ n ih => rw [frames, card_cons, ih]

theorem Kept.refl (R : Multiset ℕ) (s : Ram) (pt n : ℕ) : Kept R s s pt n := ⟨fun _ _ => rfl, Keeps.refl _ s⟩

theorem Kept.frames (h : Kept R s t pt n) : frames t pt 0 n = Vm.frames s pt 0 n := by
  refine frames_congr (fun j hj => ?_)
  rw [Nat.zero_add, frame, frame, h.map _ (Nat.mul_lt_mul_of_pos_left hj (by decide))]

theorem Kept.trans (h : Kept R s t pt n) (h' : Kept R t u pt n) : Kept R s u pt n :=
  ⟨fun k hk => (h'.map k hk).trans (h.map k hk), h.keeps.trans (h.frames ▸ h'.keeps)⟩

theorem Kept.mono (h : Kept R s t pt n) (hn : n' ≤ n) (hR : R' ≤ R) : Kept R' s t pt n' :=
  ⟨fun k hk => h.map k (hk.trans_le (Nat.mul_le_mul_left _ hn)),
    h.keeps.mono (fun _ hq => mem_of_le (add_le_add (frames_le hn) hR) hq)⟩

section
variable (h : Space m top R s pt n)
include h

theorem Space.congr (hk : Keeps (tables s pt) s t)
    (hheap : Heap m t (tables s pt+(frames s pt 0 n+R'))) : Space m top R' t pt n := by
  refine ⟨?_, h.inner.congr hk.word, fun j hj => ?_, fun k hk39 hkn => ?_, h.bound, h.free⟩
  · rwa [hk.tables, hk.frames]
  · obtain ⟨w, hw, hleaf⟩ := h.leaf j hj
    exact ⟨w, (hk.pteOf _).trans hw, hleaf⟩
  · exact (hk.pteOf k).trans (h.above k hk39 hkn)

theorem Space.tables_card (htop : top trampoline ≠ none) : 2 < (tables s pt).card := by
  have hle : pgsize*n ≤ trampoline := h.bound.trans (by decide)
  rw [← h.above trampoline (by decide) hle] at htop
  obtain ⟨w, hw⟩ := Option.ne_none_iff_exists'.mp htop
  obtain ⟨q, hq, -⟩ := look_some hw
  exact lt_card_nodes hq

theorem Space.card_le : (tables s pt).card+(n+R.card) ≤ m.pageCount := by
  have hcard := h.heap.card_le
  rwa [card_add, card_add, card_frames] at hcard

theorem Space.room (htop : top trampoline ≠ none) (hR : 0 < R.card)
    (hm : m.pageCount < 2^26) : pgsize*(n+1) ≤ trapframe := by
  have htables := h.tables_card htop
  have hcard := h.card_le
  rw [pgsize, trapframe, trampoline, maxva, pgsize]
  omega

theorem Space.kalloc : ∃ q t, kalloc s = .ok (q, t) ∧ Kept R s t pt n ∧ tables t pt = tables s pt ∧
      ((q = 0 ∧ Space m top R t pt n ∧ (s.refuse = [] → m.pageCount = (tables s pt).card+(n+R.card))) ∨
        (q ≠ 0 ∧ Space m top (q ::ₘ R) t pt n)) := by
  obtain ⟨q, t, hrun, hk, hq⟩ := kalloc_spec h.heap
  refine ⟨q, t, hrun, ⟨fun k _ => hk.left.pteOf k, hk.right⟩, hk.left.tables,
    hq.imp (fun h' => ⟨h'.1, h.congr hk.left h'.2.1, fun hr => ?_⟩) (fun h' => ⟨h'.1, h.congr hk.left ?_⟩)⟩
  · rw [← pages_card, ← h'.2.2 hr, card_add, card_add, card_frames]
  · have hcons := h'.2
    rwa [← add_cons, ← add_cons] at hcons

end

theorem Space.kfree {q : ℕ} (h : Space m top (q ::ₘ R) s pt n) :
    ∃ t, kfree m q s = .ok ((), t) ∧ Kept R s t pt n ∧ tables t pt = tables s pt ∧ Space m top R t pt n := by
  have hheap := h.heap
  rw [add_cons, add_cons] at hheap
  obtain ⟨t, hrun, hk, hheap'⟩ := kfree_spec hheap
  exact ⟨t, hrun, ⟨fun k _ => hk.left.pteOf k, hk.right⟩, hk.left.tables, h.congr hk.left hheap'⟩

theorem Space.setPage {q : ℕ} (h : Space m top (q ::ₘ R) s pt n) (page : Fin 512 → ℕ) :
    Space m top (q ::ₘ R) (s.setPage q page) pt n ∧ Kept R s (s.setPage q page) pt n ∧
    tables (s.setPage q page) pt = tables s pt := by
  have hheap := h.heap
  rw [add_cons, add_cons] at hheap
  have hout := (nodup_cons.mp hheap.nodup).1
  have hk : Keeps (tables s pt+(Vm.frames s pt 0 n+R)) s (s.setPage q page) := Keeps.setPage hout page
  refine ⟨h.congr hk.left (h.heap.setPage ?_ page), ⟨fun k _ => hk.left.pteOf k, hk.right⟩, hk.left.tables⟩
  rw [add_cons, add_cons]
  exact mem_cons_self q _

theorem same_page_iff {k : ℕ} (hk : k < 2^39) (hn : pgsize*(n+1) ≤ trapframe) :
    Same sv39 2 (pgsize*n) k ↔ pgsize*n ≤ k ∧ k < pgsize*(n+1) := by
  have hlt : pgsize*n < 2^39 := by
    rw [pgsize, trapframe, trampoline, maxva, pgsize] at *
    omega
  rw [same_iff hlt hk, pgsize]
  omega

theorem Space.mapNext {q perm : ℕ} (h : Space m top (q ::ₘ R) s pt n) (hn : pgsize*(n+1) ≤ trapframe)
    (hperm : perm < 2^10) (hleaf : perm ||| pteV ≠ pteV) :
    ∃ r t, mappages pt (pgsize*n) pgsize q perm s = .ok (r, t) ∧ Kept (q ::ₘ R) s t pt n ∧
      ((r = 0 ∧ Space m top R t pt (n+1) ∧ pteOf t pt (pgsize*n) = some (pa2pte q ||| perm ||| pteV)) ∨
        (r = -1 ∧ Space m top (q ::ₘ R) t pt n ∧ (s.refuse = [] → m.pageCount = (tables t pt).card+(n+R.card+1)))) := by
  have hstep : pgsize*(n+1) = pgsize*n+pgsize := Nat.mul_succ _ _
  have hpos := pgsize_pos
  have hlt : pgsize*n < maxva := by
    have htf : trapframe < maxva := by decide
    omega
  have hnone : pteOf s pt (pgsize*n) = none := (h.above _ (hlt.trans (by decide)) le_rfl).trans (h.free _ (by omega))
  obtain ⟨r, t, hrun, hch, hr⟩ := @mappages_page m s _ pt (pgsize*n) q perm h.heap (Nat.mul_mod_right _ _) hlt hnone
  have hkept (hother : ∀ k, ¬Same sv39 2 (pgsize*n) k → pteOf t pt k = pteOf s pt k) : Kept (q ::ₘ R) s t pt n := by
    refine ⟨fun k hk => hother k (fun hs => ?_), hch.keeps⟩
    have := (same_page_iff (by rw [maxva] at hlt; omega) hn).mp hs
    omega
  rcases hr with ⟨rfl, hself, hother⟩ | ⟨rfl, hlook, hall⟩
  · have hk := hkept hother
    obtain ⟨hal, -, hq⟩ := pages_mem (h.heap.mem_pages (mem_add.mpr (Or.inr
      (mem_add.mpr (Or.inr (mem_cons_self q R))))))
    have hstop := m.phystop_lt
    have hframe : frame t pt (pgsize*n) = q := by
      rw [frame, hself, Option.getD_some, pte2pa_pte (by omega) hperm, pgrounddown,
        Nat.div_mul_cancel (Nat.dvd_of_mod_eq_zero hal)]
    refine ⟨0, t, hrun, hk, Or.inl ⟨rfl, ⟨?_, hch.inner h.inner, fun j hj => ?_, fun k hk39 hkn => ?_, hn, h.free⟩,
      hself⟩⟩
    · rw [frames_succ, Nat.zero_add, hframe, hk.frames, cons_add, ← add_cons]
      exact hch.heap
    · rcases Nat.lt_succ_iff_lt_or_eq.mp hj with hj' | rfl
      · obtain ⟨w, hw, hwl⟩ := h.leaf j hj'
        exact ⟨w, (hk.map _ (Nat.mul_lt_mul_of_pos_left hj' hpos)).trans hw, hwl⟩
      · exact ⟨_, hself, by rwa [pteFlags_pte hperm]⟩
    · refine (hother k (fun hs => ?_)).trans (h.above k hk39 (by omega))
      have := (same_page_iff hk39 hn).mp hs
      omega
  · have hk := hkept (fun k _ => hlook k)
    refine ⟨-1, t, hrun, hk, Or.inr ⟨rfl, ⟨?_, hch.inner h.inner, fun j hj => ?_, fun k hk39 hkn => ?_,
      h.bound, h.free⟩, fun hnil => ?_⟩⟩
    · rw [hk.frames]
      exact hch.heap
    · obtain ⟨w, hw, hwl⟩ := h.leaf j hj
      exact ⟨w, (hlook _).trans hw, hwl⟩
    · exact (hlook k).trans (h.above k hk39 hkn)
    · rw [← pages_card, ← hall hnil, card_add, card_add, card_frames, card_cons, Nat.add_assoc]

theorem Space.unmap (h : Space m top R s pt n) (hn : n' ≤ n) :
    ∃ t, uvmunmap m pt (pgsize*n') (n-n') true s = .ok ((), t) ∧ Kept R s t pt n' ∧
      tables t pt = tables s pt ∧ Space m top R t pt n' := by
  obtain ⟨d, rfl⟩ := Nat.exists_eq_add_of_le hn
  have hmul : pgsize*(n'+d) = pgsize*n'+pgsize*d := Nat.mul_add _ _ _
  have hbound := h.bound
  have htf : trapframe < maxva := by decide
  have hheap := h.heap
  rw [frames_add, Nat.zero_add, add_comm (frames s pt 0 n'), add_assoc] at hheap
  rw [Nat.add_sub_cancel_left]
  obtain ⟨t, hrun, hch, htables, hlook⟩ := @uvmunmap_spec m s (frames s pt 0 n'+R) pt (pgsize*n') d true
    hheap (Nat.mul_mod_right _ _) (by omega) (fun j hj => by
      obtain ⟨w, hw, hwl⟩ := h.leaf (n'+j) (by omega)
      rw [Nat.mul_add] at hw
      exact ⟨w, hw, hwl⟩)
  have hk : Kept R s t pt n' := by
    refine ⟨fun k hk => ?_, hch.keeps⟩
    rw [hlook k (by rw [maxva] at htf; omega), if_neg (by omega)]
  refine ⟨t, hrun, hk, htables, ⟨?_, hch.inner h.inner, fun j hj => ?_, fun k hk39 hkn => ?_, by omega, h.free⟩⟩
  · rw [hk.frames]
    exact hch.heap
  · obtain ⟨w, hw, hwl⟩ := h.leaf j (by omega)
    exact ⟨w, (hk.map _ (Nat.mul_lt_mul_of_pos_left hj (by decide))).trans hw, hwl⟩
  rw [hlook k hk39]
  by_cases hin : k < pgsize*n'+pgsize*d
  · rw [if_pos ⟨hkn, hin⟩, h.free k (by omega)]
  · rw [if_neg (fun h' => hin h'.2), h.above k hk39 (by omega)]

end Xv6.Vm
