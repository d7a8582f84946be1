import Xv6.VmWalk

/-! mappages, uvmunmap and walkaddr over the map from addresses to entries that a page table
stands for. -/
namespace Xv6.Vm
open Hoare Radix

/-- The entry that a page table has for an address, if it is valid. -/
abbrev pteOf (s : Ram) (pt va : ℕ) : Option ℕ := look sv39 s.word 2 pt va

def frame (s : Ram) (pt va : ℕ) : ℕ := pte2pa ((pteOf s pt va).getD 0)

def frames (s : Ram) (pt : ℕ) : ℕ → ℕ → Multiset ℕ
  | _, 0 => 0
  | a, n+1 => frame s pt a ::ₘ frames s pt (a+pgsize) n

abbrev tables (s : Ram) (pt : ℕ) : Multiset ℕ := nodes sv39 s.word 2 pt

variable {m : Machine} {s t u : Ram} {R : Multiset ℕ} {pt a pa perm n : ℕ}

theorem frames_congr (h : ∀ j < n, frame t pt (a+pgsize*j) = frame s pt (a+pgsize*j)) :
    frames t pt a n = frames s pt a n := by
  induction n generalizing a with
  | zero => rfl
  | succ n ih =>
    have h0 := h 0 (Nat.succ_pos n)
    rw [Nat.mul_zero, Nat.add_zero] at h0
    rw [frames, frames, h0, ih (fun j hj => ?_)]
    have hj := h (j+1) (Nat.succ_lt_succ hj)
    rwa [Nat.mul_succ, Nat.add_comm (pgsize*j), ← Nat.add_assoc] at hj

theorem frames_succ : frames s pt a (n+1) = frame s pt (a+pgsize*n) ::ₘ frames s pt a n := by
  induction n generalizing a with
  | zero => rfl
  | succ n ih => rw [frames, ih, frames, Multiset.cons_swap, Nat.mul_succ, Nat.add_assoc a, Nat.add_comm pgsize]

theorem Keeps.tables (h : Keeps (tables s pt) s t) : tables t pt = tables s pt := nodes_congr h.word

theorem Keeps.pteOf (h : Keeps (Vm.tables s pt) s t) (k : ℕ) : pteOf t pt k = pteOf s pt k := look_congr h.word k

theorem Keeps.frames (h : Keeps (Vm.tables s pt) s t) : frames t pt a n = frames s pt a n :=
  frames_congr (fun j _ => by rw [frame, frame, h.pteOf])

theorem Changed.setSlot {q : ℕ} (h : Heap m s (tables s pt+R)) (hs : slot sv39 s.word 2 pt a = some q) (w : ℕ) :
    Changed m R 2 pt s (s.setWord q (px 0 a) w) ∧
    tables (s.setWord q (px 0 a) w) pt = tables s pt ∧
    pteOf (s.setWord q (px 0 a) w) pt a = (some w).filter sv39.valid ∧
    ∀ k, ¬Same sv39 2 a k → pteOf (s.setWord q (px 0 a) w) pt k = pteOf s pt k := by
  have hq := slot_mem hs
  obtain ⟨hn, hslot, hin, hlook⟩ := write_slot (P := Plain) (Multiset.nodup_add.mp h.nodup).1 hs w
  refine ⟨⟨?_, Keeps.setWord (h.disjoint hq) _ _, le_of_eq hn.symm, hin⟩, hn, ?_, hlook⟩
  · exact (congrArg (fun T => Heap m _ (T+R)) hn.symm).mp (h.setWord (Multiset.mem_add.mpr (Or.inl hq)) _ _)
  · exact (look_eq hslot).trans (congrArg (fun w => (some w).filter sv39.valid) (write_self w))

theorem walk_run {alloc : Bool} (ha : a < maxva) : walk pt a alloc s = walkFrom a alloc 2 pt s := by
  rw [walk, if_neg (by omega)]

theorem mapPage_spec (h : Heap m s (tables s pt+R)) (ha : a < maxva) (hnone : pteOf s pt a = none) :
    ∃ b t, mapPage pt perm a pa s = .ok (b, t) ∧ Changed m R 2 pt s t ∧
      ((b = true ∧ pteOf t pt a = some (pa2pte pa ||| perm ||| pteV) ∧
          ∀ k, ¬Same sv39 2 a k → pteOf t pt k = pteOf s pt k) ∨
        (b = false ∧ (∀ k, pteOf t pt k = pteOf s pt k) ∧ (s.refuse = [] → tables t pt+R = m.pages))) := by
  obtain ⟨r, t, hwalk, hgrown, hr⟩ := @walkFrom_true m s R 2 pt a h
  rw [mapPage, run_bind ((walk_run ha).trans hwalk)]
  rcases hr with ⟨q, rfl, hslot⟩ | ⟨rfl, hall⟩
  · have hfree : ¬sv39.valid (t.word q (px 0 a)) = true := by
      intro hv
      have hlook := (look_eq hslot).symm.trans ((hgrown.look a).trans hnone)
      rw [Option.filter_eq_none_iff] at hlook
      exact hlook _ rfl hv
    obtain ⟨hch, -, hself, hother⟩ := Changed.setSlot hgrown.heap hslot (pa2pte pa ||| perm ||| pteV)
    refine ⟨true, t.setWord q (px 0 a) (pa2pte pa ||| perm ||| pteV), ?_, hgrown.toChanged.trans hch,
      Or.inl ⟨rfl, ?_, fun k hk => (hother k hk).trans (hgrown.look k)⟩⟩
    · change (if t.word q (px 0 a) &&& pteV ≠ 0 then _ else _ : M Bool) t = _
      rw [if_neg (fun hne => hfree (valid_iff_and.mpr hne))]
      rfl
    · rw [hself, Option.filter_some_pos (valid_pte _)]
  · exact ⟨false, t, rfl, hgrown.toChanged, Or.inr ⟨rfl, hgrown.look, hall⟩⟩

def mapped (f : ℕ → Option ℕ) (a pa perm j k : ℕ) : Option ℕ :=
  if a ≤ k ∧ k < a+pgsize*j then some (pa2pte ((pa+(k-a)/pgsize*pgsize)%2^64) ||| perm ||| pteV) else f k

theorem mapped_zero (f : ℕ → Option ℕ) (k : ℕ) : mapped f a pa perm 0 k = f k := by rw [mapped, if_neg (by omega)]

theorem mapped_succ (f : ℕ → Option ℕ) (j k : ℕ) :
    mapped (mapped f a pa perm 1) (a+pgsize) ((pa+pgsize)%2^64) perm j k = mapped f a pa perm (j+1) k := by
  have hmul : a+4096*(j+1) = a+4096*j+4096 := by ring
  rw [mapped, mapped, mapped, pgsize, Nat.mul_one, hmul]
  by_cases h1 : a+4096 ≤ k ∧ k < a+4096+4096*j
  · have hsum : ((pa+4096)%2^64+(k-(a+4096))/4096*4096)%2^64 = (pa+(k-a)/4096*4096)%2^64 := by omega
    rw [if_pos h1, if_pos (by omega), hsum]
  rw [if_neg h1]
  by_cases h2 : a ≤ k ∧ k < a+4096
  · rw [if_pos h2, if_pos (by omega)]
  · rw [if_neg h2, if_neg (by omega)]

theorem mapped_one (hal : a%pgsize = 0) (ha : a < maxva) (hpa : pa < 2^64)
    (hself : pteOf t pt a = some (pa2pte pa ||| perm ||| pteV))
    (hother : ∀ k, ¬Same sv39 2 a k → pteOf t pt k = pteOf s pt k) {k : ℕ} (hk : k < 2^39) :
    pteOf t pt k = mapped (pteOf s pt) a pa perm 1 k := by
  have ha' : a < 2^39 := ha.trans (by decide)
  have hsame := same_iff ha' hk
  rw [pgsize] at hsame hal
  rw [mapped, pgsize]
  by_cases hin : a ≤ k ∧ k < a+4096*1
  · have hpg : (pa+(k-a)/4096*4096)%2^64 = pa := by omega
    rw [if_pos hin, hpg, ← hself]
    exact (look_same (hsame.mpr (by omega))).symm
  · rw [if_neg hin]
    exact hother k (fun hs => hin (by have := hsame.mp hs; omega))

/-- mappages maps all the pages, or the first of them if a table cannot be allocated. -/
theorem mapLoop_spec (h : Heap m s (tables s pt+R)) (hal : a%pgsize = 0) (ha : a+pgsize*n < maxva)
    (hpa : pa < 2^64) (hnone : ∀ j ≤ n, pteOf s pt (a+pgsize*j) = none) :
    ∃ r t j, mapLoop pt perm n a pa s = .ok (r, t) ∧ Changed m R 2 pt s t ∧
      (∀ k < 2^39, pteOf t pt k = mapped (pteOf s pt) a pa perm j k) ∧
      ((r = 0 ∧ j = n+1) ∨ (r = -1 ∧ j ≤ n ∧ (s.refuse = [] → tables t pt+R = m.pages))) := by
  have hlt : a < maxva := (Nat.le_add_right _ _).trans_lt ha
  have h0 := hnone 0 (Nat.zero_le n)
  rw [Nat.mul_zero, Nat.add_zero] at h0
  obtain ⟨b, t, hrun, hch, hb⟩ := @mapPage_spec m s R pt a pa perm h hlt h0
  induction n generalizing a pa s t b with
  | zero =>
    rw [mapLoop, run_bind hrun]
    rcases hb with ⟨rfl, hself, hother⟩ | ⟨rfl, hlook, hall⟩
    · exact ⟨0, t, 1, rfl, hch, fun k hk => mapped_one hal hlt hpa hself hother hk, Or.inl ⟨rfl, rfl⟩⟩
    · exact ⟨-1, t, 0, rfl, hch, fun k _ => (hlook k).trans (mapped_zero _ k).symm, Or.inr ⟨rfl, le_rfl, hall⟩⟩
  | succ n ih =>
    rw [mapLoop, run_bind hrun]
    rcases hb with ⟨rfl, hself, hother⟩ | ⟨rfl, hlook, hall⟩
    · rw [if_pos rfl]
      have hone (k : ℕ) (hk : k < 2^39) : pteOf t pt k = mapped (pteOf s pt) a pa perm 1 k :=
        mapped_one hal hlt hpa hself hother hk
      have hnext : (a+pgsize)%2^64 = a+pgsize := by
        rw [pgsize, maxva] at *
        omega
      have hnone' (j : ℕ) (hj : j ≤ n) : pteOf t pt (a+pgsize+pgsize*j) = none := by
        have hprev := hnone (j+1) (Nat.succ_le_succ hj)
        rw [Nat.mul_succ, Nat.add_comm (pgsize*j), ← Nat.add_assoc] at hprev
        rw [hone _ ?_, mapped, if_neg ?_, hprev]
        · rw [pgsize]
          omega
        have hle : pgsize*j ≤ pgsize*n := Nat.mul_le_mul_left _ hj
        rw [Nat.mul_succ] at ha
        rw [maxva] at ha
        omega
      have hend : a+pgsize+pgsize*n < maxva := by rwa [Nat.add_assoc, Nat.add_comm pgsize, ← Nat.mul_succ]
      have hlt' : a+pgsize < maxva := (Nat.le_add_right _ _).trans_lt hend
      have h0' := hnone' 0 (Nat.zero_le n)
      rw [Nat.mul_zero, Nat.add_zero] at h0'
      obtain ⟨b, u, hrun', hch', hb'⟩ := @mapPage_spec m t R pt (a+pgsize) ((pa+pgsize)%2^64) perm hch.heap hlt' h0'
      obtain ⟨r, v, j, hloop, hchv, hmap, hr⟩ := ih hch.heap (by rw [pgsize] at hal ⊢; omega) hend
        (Nat.mod_lt _ (by decide)) hnone' hlt' h0' b u hrun' hch' hb'
      refine ⟨r, v, j+1, ?_, hch.trans hchv, fun k hk => ?_, hr.imp (fun h => ⟨h.1, by omega⟩)
        (fun h => ⟨h.1, Nat.succ_le_succ h.2.1, fun hnil => h.2.2 (hch.keeps.refuse hnil)⟩)⟩
      · rw [hnext, hloop]
      rw [hmap k hk, ← mapped_succ, mapped, mapped]
      by_cases hin : a+pgsize ≤ k ∧ k < a+pgsize+pgsize*j
      · rw [if_pos hin, if_pos hin]
      · rw [if_neg hin, if_neg hin, hone k hk]
    · exact ⟨-1, t, 0, rfl, hch, fun k _ => (hlook k).trans (mapped_zero _ k).symm, Or.inr ⟨rfl, Nat.zero_le _, hall⟩⟩

theorem mappages_one (hal : a%pgsize = 0) (ha : a < maxva) : mappages pt a pgsize pa perm s =
    (mapPage pt perm a pa >>= fun b => if b then pure 0 else pure (-1) : M ℤ) s := by
  have hdown : pgrounddown a = a := Nat.div_mul_cancel (Nat.dvd_of_mod_eq_zero hal)
  have hcount : (pgrounddown ((a+pgsize+(2^64-1))%2^64)+(2^64-a))%2^64/pgsize = 0 := by
    rw [pgrounddown, pgsize, maxva] at *
    omega
  rw [mappages, hdown, hcount, mapLoop]

theorem mappages_page (h : Heap m s (tables s pt+R)) (hal : a%pgsize = 0) (ha : a < maxva)
    (hnone : pteOf s pt a = none) :
    ∃ r t, mappages pt a pgsize pa perm s = .ok (r, t) ∧ Changed m R 2 pt s t ∧
      ((r = 0 ∧ pteOf t pt a = some (pa2pte pa ||| perm ||| pteV) ∧
          ∀ k, ¬Same sv39 2 a k → pteOf t pt k = pteOf s pt k) ∨
        (r = -1 ∧ (∀ k, pteOf t pt k = pteOf s pt k) ∧ (s.refuse = [] → tables t pt+R = m.pages))) := by
  obtain ⟨b, t, hrun, hch, hb⟩ := @mapPage_spec m s R pt a pa perm h ha hnone
  rw [mappages_one hal ha, run_bind hrun]
  rcases hb with ⟨rfl, hself, hother⟩ | ⟨rfl, hlook, hall⟩
  · exact ⟨0, t, rfl, hch, Or.inl ⟨rfl, hself, hother⟩⟩
  · exact ⟨-1, t, rfl, hch, Or.inr ⟨rfl, hlook, hall⟩⟩

variable {doFree : Bool}

theorem unmapPage_spec {w : ℕ} (h : Heap m s (tables s pt+((if doFree then {pte2pa w} else 0)+R))) (ha : a < maxva)
    (hw : pteOf s pt a = some w) (hleaf : pteFlags w ≠ pteV) :
    ∃ t, unmapPage m pt doFree a s = .ok ((), t) ∧ Changed m R 2 pt s t ∧ tables t pt = tables s pt ∧
      pteOf t pt a = none ∧ ∀ k, ¬Same sv39 2 a k → pteOf t pt k = pteOf s pt k := by
  obtain ⟨q, hslot, hq, hv⟩ := look_some hw
  have hwalk : walk pt a false s = .ok (some (q, px 0 a), s) := by
    rw [walk_run ha, walkFrom_false, hslot]
    rfl
  obtain ⟨u, hu, hkeeps, hheap⟩ : ∃ u, (if doFree then kfree m (pte2pa w) else pure () : M Unit) s =
      .ok ((), u) ∧ Keeps (tables s pt+R) s u ∧ Heap m u (tables s pt+R) := by
    cases doFree with
    | false => exact ⟨s, rfl, Keeps.refl _ s, by simpa using h⟩
    | true =>
      rw [if_pos rfl, add_left_comm, Multiset.singleton_add] at h
      exact kfree_spec h
  have htables := hkeeps.left.tables
  have hslot' := ((congr hkeeps.left.word).2 a).trans hslot
  rw [← htables] at hheap
  obtain ⟨hch, hn, hself, hother⟩ := Changed.setSlot hheap hslot' 0
  refine ⟨u.setWord q (px 0 a) 0, ?_, ⟨hch.heap, hkeeps.right.trans hch.keeps,
    le_of_eq (hn.trans htables).symm, fun hin => hch.inner (hin.congr hkeeps.left.word)⟩, hn.trans htables,
    hself, fun k hk => (hother k hk).trans (hkeeps.left.pteOf k)⟩
  rw [unmapPage, run_bind hwalk]
  change (if s.word q (px 0 a) &&& pteV = 0 then _ else _ : M Unit) s = _
  have hq' : s.word q (px 0 a) = w := hq
  rw [hq', if_neg (valid_iff_and.mp hv), if_neg hleaf]
  cases doFree with
  | false =>
    cases hu
    rfl
  | true => exact run_bind hu _

theorem unmapLoop_spec (h : Heap m s (tables s pt+((if doFree then frames s pt a n else 0)+R))) (hal : a%pgsize = 0)
    (ha : a+pgsize*n ≤ maxva)
    (hw : ∀ j < n, ∃ w, pteOf s pt (a+pgsize*j) = some w ∧ pteFlags w ≠ pteV) :
    ∃ t, unmapLoop m pt doFree n a s = .ok ((), t) ∧ Changed m R 2 pt s t ∧ tables t pt = tables s pt ∧
      ∀ k < 2^39, pteOf t pt k = if a ≤ k ∧ k < a+pgsize*n then none else pteOf s pt k := by
  induction n generalizing a s with
  | zero =>
    have hheap : Heap m s (tables s pt+R) := by simpa [frames] using h
    refine ⟨s, rfl, ⟨hheap, Keeps.refl R s, le_rfl, id⟩, rfl, fun k _ => ?_⟩
    rw [if_neg (by omega)]
  | succ n ih =>
    obtain ⟨w, hw0, hleaf⟩ := hw 0 (Nat.succ_pos n)
    rw [Nat.mul_zero, Nat.add_zero] at hw0
    have hframe : frame s pt a = pte2pa w := by rw [frame, hw0, Option.getD_some]
    have hsplit : (if doFree then frames s pt a (n+1) else 0)+R =
        (if doFree then {pte2pa w} else 0)+((if doFree then frames s pt (a+pgsize) n else 0)+R) := by
      cases doFree with
      | false => simp
      | true => simp [frames, hframe]
    have hlt : a < maxva := by
      rw [pgsize] at ha
      omega
    rw [hsplit] at h
    obtain ⟨u, hu, hch, htables, hself, hother⟩ := unmapPage_spec h hlt hw0 hleaf
    have hnext {k : ℕ} (hk : a+pgsize ≤ k) (hk' : k < 2^39) : pteOf u pt k = pteOf s pt k := by
      refine hother k (fun hs => ?_)
      have := (same_iff (hlt.trans (by decide)) hk').mp hs
      rw [pgsize] at this hk hal
      omega
    have hend : a+pgsize+pgsize*n ≤ maxva := by rwa [Nat.add_assoc, Nat.add_comm pgsize, ← Nat.mul_succ]
    have hstep (j : ℕ) : a+pgsize*(j+1) = a+pgsize+pgsize*j := by ring
    have hin (j : ℕ) (hj : j < n) : pteOf u pt (a+pgsize+pgsize*j) = pteOf s pt (a+pgsize+pgsize*j) := by
      have hle : pgsize*j ≤ pgsize*n := Nat.mul_le_mul_left _ hj.le
      refine hnext (Nat.le_add_right _ _) ?_
      rw [maxva] at hend
      omega
    have hframes : frames u pt (a+pgsize) n = frames s pt (a+pgsize) n :=
      frames_congr (fun j hj => by rw [frame, frame, hin j hj])
    have hheap := hch.heap
    rw [← hframes] at hheap
    obtain ⟨t, ht, hcht, htt, hlook⟩ := ih hheap (by rw [pgsize] at hal ⊢; omega) hend (fun j hj => by
      obtain ⟨w', hw', hleaf'⟩ := hw (j+1) (Nat.succ_lt_succ hj)
      exact ⟨w', by rw [hin j hj, ← hstep, hw'], hleaf'⟩)
    refine ⟨t, ?_, ⟨hcht.heap, hch.keeps.right.trans hcht.keeps, ?_, fun hi => hcht.inner (hch.inner hi)⟩,
      htt.trans htables, fun k hk => ?_⟩
    · rw [unmapLoop, run_bind hu, ht]
    · exact le_of_eq (htt.trans htables).symm
    rw [hlook k hk, hstep]
    by_cases h1 : a+pgsize ≤ k ∧ k < a+pgsize+pgsize*n
    · rw [if_pos h1, if_pos (by omega)]
    rw [if_neg h1]
    by_cases h2 : a ≤ k ∧ k < a+pgsize
    · rw [if_pos (by omega), ← hself]
      refine look_same (fun j hj => ((same_iff (hlt.trans (by decide)) hk).mpr ?_ j hj).symm)
      rw [pgsize] at h2 hal ⊢
      omega
    rw [if_neg (by omega)]
    refine hother k (fun hs => h2 ?_)
    have := (same_iff (hlt.trans (by decide)) hk).mp hs
    rw [pgsize] at this hal ⊢
    omega

def pageSpan (va size : ℕ) : ℕ := (pgrounddown (va+size-1)-pgrounddown va)/pgsize+1

theorem mappages_spec {va size : ℕ} (h : Heap m s (tables s pt+R)) (hsize : 1 ≤ size)
    (hva : va+size ≤ maxva) (hpa : pa < 2^64)
    (hnone : ∀ j < pageSpan va size, pteOf s pt (pgrounddown va+pgsize*j) = none) :
    ∃ r t j, mappages pt va size pa perm s = .ok (r, t) ∧ Changed m R 2 pt s t ∧
      (∀ k < 2^39, pteOf t pt k = mapped (pteOf s pt) (pgrounddown va) pa perm j k) ∧
      ((r = 0 ∧ j = pageSpan va size) ∨ (r = -1 ∧ j < pageSpan va size)) := by
  have hcount : (pgrounddown ((va+size+(2^64-1))%2^64)+(2^64-pgrounddown va))%2^64/pgsize =
      (pgrounddown (va+size-1)-pgrounddown va)/pgsize := by
    rw [pgrounddown, pgrounddown, pgrounddown, pgsize, maxva] at *
    omega
  have hend : pgrounddown va+pgsize*((pgrounddown (va+size-1)-pgrounddown va)/pgsize) < maxva := by
    rw [pgrounddown, pgrounddown, pgsize, maxva] at *
    omega
  obtain ⟨r, t, j, hrun, hch, hmap, hr⟩ := mapLoop_spec (a := pgrounddown va) h (Nat.mul_mod_left _ _) hend hpa
    (fun j hj => hnone j (Nat.lt_succ_of_le hj))
  refine ⟨r, t, j, ?_, hch, hmap, hr.imp id (fun h => ⟨h.1, Nat.lt_succ_of_le h.2.1⟩)⟩
  rw [mappages, hcount, hrun]

theorem uvmunmap_spec (h : Heap m s (tables s pt+((if doFree then frames s pt a n else 0)+R))) (hal : a%pgsize = 0)
    (ha : a+pgsize*n ≤ maxva)
    (hw : ∀ j < n, ∃ w, pteOf s pt (a+pgsize*j) = some w ∧ pteFlags w ≠ pteV) :
    ∃ t, uvmunmap m pt a n doFree s = .ok ((), t) ∧ Changed m R 2 pt s t ∧ tables t pt = tables s pt ∧
      ∀ k < 2^39, pteOf t pt k = if a ≤ k ∧ k < a+pgsize*n then none else pteOf s pt k := by
  have hcount : ((a+n*pgsize)%2^64-a)/pgsize = n := by
    rw [pgsize, maxva] at *
    omega
  rw [uvmunmap, if_neg (by rwa [not_not]), hcount]
  exact unmapLoop_spec h hal ha hw

def userPage : Option ℕ → ℕ
  | none => 0
  | some w => if w &&& pteU = 0 then 0 else pte2pa w

theorem walkaddr_run (ha : a < maxva) : walkaddr pt a s = .ok (userPage (pteOf s pt a), s) := by
  have hwalk : walk pt a false s = .ok ((slot sv39 s.word 2 pt a).map (fun q => (q, px 0 a)), s) := by
    rw [walk_run ha, walkFrom_false]
  rw [walkaddr, if_neg (by omega), run_bind hwalk]
  cases hslot : slot sv39 s.word 2 pt a with
  | none =>
    rw [pteOf, look_of_none hslot]
    rfl
  | some q =>
    rw [pteOf, look_eq hslot]
    change (if s.word q (px 0 a) &&& pteV = 0 then _ else _ : M ℕ) s = _
    by_cases hv : s.word q (px 0 a) &&& pteV = 0
    · have hno : sv39.valid (s.word q (sv39.digit 0 a)) = false :=
        Bool.eq_false_iff.mpr (fun h => valid_iff_and.mp h hv)
      rw [if_pos hv, Option.filter_some_neg hno]
      rfl
    have hyes : sv39.valid (s.word q (sv39.digit 0 a)) = true := valid_iff_and.mpr hv
    rw [if_neg hv, Option.filter_some_pos hyes, userPage]
    change _ = Except.ok (if s.word q (px 0 a) &&& pteU = 0 then _ else _, s)
    by_cases hu : s.word q (px 0 a) &&& pteU = 0
    · rw [if_pos hu, if_pos hu]
      rfl
    · rw [if_neg hu, if_neg hu]
      rfl

end Xv6.Vm
