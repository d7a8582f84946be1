import Xv6.VmSpace
import Xv6.VmByte

/-! uvmalloc and uvmdealloc: an address space grows by pages of zeros and shrinks from its end. -/
namespace Xv6.Vm
open Hoare Radix Multiset

def memAt (s : Ram) (pt va : ℕ) : Option (ℕ × UInt8) :=
  (pteOf s pt va).map (fun w => (pteFlags w, s.byte (pte2pa w+va%pgsize)))

def userFlags : ℕ := pteW ||| pteX ||| pteR ||| pteU ||| pteV

def Blank (s : Ram) (pt va : ℕ) : Prop :=
  ∃ w, pteOf s pt va = some w ∧ pteFlags w = userFlags ∧ s.word (pte2pa w) = filled 0

variable {m : Machine} {top : ℕ → Option ℕ} {s t u : Ram} {R : Multiset ℕ} {pt n k w : ℕ}

theorem pteOf_page (hk : k < 2^39) : pteOf s pt (pgsize*(k/pgsize)) = pteOf s pt k := by
  refine look_same ((same_iff ?_ hk).mpr ?_)
  · rw [pgsize]
    omega
  · rw [pgsize]
    omega

variable {j : ℕ}

theorem frame_mem (hj : j < n) : frame s pt (pgsize*j) ∈ frames s pt 0 n := by
  have hle := @frames_le s pt (j+1) n 0 hj
  rw [frames_succ, Nat.zero_add] at hle
  exact mem_of_le hle (mem_cons_self _ _)

theorem frame_of_pte (hk : k < 2^39) (hkn : k < pgsize*n) (hw : pteOf s pt k = some w) :
    pte2pa w ∈ frames s pt 0 n := by
  have hframe : frame s pt (pgsize*(k/pgsize)) = pte2pa w := by rw [frame, pteOf_page hk, hw, Option.getD_some]
  rw [← hframe]
  exact frame_mem (Nat.div_lt_of_lt_mul hkn)

theorem Kept.word (h : Kept R s t pt n) (hk : k < 2^39) (hkn : k < pgsize*n) (hw : pteOf s pt k = some w) :
    t.word (pte2pa w) = s.word (pte2pa w) :=
  h.keeps.left.word _ (frame_of_pte hk hkn hw)

theorem byte_of_word {q i : ℕ} (hq : q%pgsize = 0) (hi : i < pgsize) (h : t.word q = s.word q) :
    t.byte (q+i) = s.byte (q+i) :=
  byte_congr (by rw [pgrounddown_add hq hi, h])

theorem memAt_congr (hpte : pteOf t pt k = pteOf s pt k)
    (hword : ∀ w, pteOf s pt k = some w → t.word (pte2pa w) = s.word (pte2pa w)) : memAt t pt k = memAt s pt k := by
  rw [memAt, memAt, hpte]
  cases hw : pteOf s pt k with
  | none => rfl
  | some w =>
    rw [Option.map_some, Option.map_some, byte_of_word (pte2pa_aligned w) (Nat.mod_lt _ (by decide)) (hword w hw)]

theorem Kept.memAt (h : Kept R s t pt n) (hk : k < 2^39) (hkn : k < pgsize*n) : memAt t pt k = memAt s pt k :=
  memAt_congr (h.map k hkn) (fun _ hw => h.word hk hkn hw)

theorem Kept.blank (h : Kept R s t pt n) (hk : k < 2^39) (hkn : k < pgsize*n) (hb : Blank s pt k) : Blank t pt k := by
  obtain ⟨w, hw, hfl, hzero⟩ := hb
  exact ⟨w, (h.map k hkn).trans hw, hfl, (h.word hk hkn hw).trans hzero⟩

theorem Blank.page (h : Blank s pt (pgsize*j)) (hk : k < 2^39) (hj : k/pgsize = j) : Blank s pt k := by
  obtain ⟨w, hw, hrest⟩ := h
  rw [← hj, pteOf_page hk] at hw
  exact ⟨w, hw, hrest⟩

theorem byte_filled {q i : ℕ} (hq : q%pgsize = 0) (hi : i < pgsize) (h : s.word q = filled 0) : s.byte (q+i) = 0 := by
  rw [Ram.byte, pgrounddown_add hq hi, h, filled, Nat.zero_mul, Nat.zero_div]
  rfl

theorem Blank.memAt (h : Blank s pt k) : memAt s pt k = some (userFlags, 0) := by
  obtain ⟨w, hw, hfl, hzero⟩ := h
  rw [Vm.memAt, hw, Option.map_some, hfl, byte_filled (pte2pa_aligned w) (Nat.mod_lt _ (by decide)) hzero]

theorem signExtend_small {x : ℕ} (h : x < 2^31) : signExtend x = x := by
  rw [signExtend, Nat.mod_eq_of_lt (by omega), if_pos h]

theorem uvmdealloc_spec {oldsz : ℕ} (h : Space m top R s pt (pageNum oldsz)) (newsz : ℕ) :
    ∃ t, uvmdealloc m pt oldsz newsz s = .ok (min newsz oldsz, t) ∧
      Kept R s t pt (pageNum (min newsz oldsz)) ∧ tables t pt = tables s pt ∧
      Space m top R t pt (pageNum (min newsz oldsz)) := by
  by_cases hge : oldsz ≤ newsz
  · rw [Nat.min_eq_right hge]
    refine ⟨s, ?_, Kept.refl R s pt _, rfl, h⟩
    rw [uvmdealloc, if_pos hge]
    rfl
  have hbound := h.bound
  have hlt : newsz ≤ oldsz := Nat.le_of_not_le hge
  have htf : trapframe ≤ maxva := by decide
  have hold : oldsz ≤ maxva := (le_pageNum oldsz).trans (hbound.trans htf)
  have hmono := pageNum_mono hlt
  obtain ⟨t, hrun, hk, htables, ht⟩ := h.unmap hmono
  have hcount : signExtend ((pgsize*pageNum oldsz-pgsize*pageNum newsz)/pgsize) = pageNum oldsz-pageNum newsz := by
    have hdiv : (pgsize*pageNum oldsz-pgsize*pageNum newsz)/pgsize = pageNum oldsz-pageNum newsz := by
      rw [← Nat.mul_sub, Nat.mul_div_cancel_left _ (by decide)]
    rw [hdiv]
    apply signExtend_small
    rw [pgsize, trapframe, trampoline, maxva, pgsize] at hbound
    omega
  rw [Nat.min_eq_left hlt, uvmdealloc, if_neg hge, pgroundup_pageNum hold, pgroundup_pageNum (hlt.trans hold), hcount]
  by_cases heq : pageNum newsz = pageNum oldsz
  · refine ⟨s, ?_, Kept.refl R s pt _, rfl, heq ▸ h⟩
    rw [heq, if_neg (lt_irrefl _)]
    rfl
  have hlt' : pageNum newsz < pageNum oldsz := lt_of_le_of_ne hmono heq
  refine ⟨t, ?_, hk, htables, ht⟩
  rw [if_pos (Nat.mul_lt_mul_of_pos_left hlt' (by decide))]
  exact run_bind hrun _

theorem Space.back (h : Space m top R s pt j) (hj : n ≤ j) :
    ∃ r t, uvmdealloc m pt (pgsize*j) (pgsize*n) s = .ok (r, t) ∧ Kept R s t pt n ∧ Space m top R t pt n := by
  have hmin : pageNum (min (pgsize*n) (pgsize*j)) = n := by rw [Nat.min_eq_left (Nat.mul_le_mul_left _ hj), pageNum_mul]
  obtain ⟨t, hrun, hk, -, ht⟩ := @uvmdealloc_spec m top s R pt (pgsize*j) (by rwa [pageNum_mul]) (pgsize*n)
  rw [hmin] at hk ht
  exact ⟨_, t, hrun, hk, ht⟩

theorem memset_run (pa c : ℕ) (s : Ram) : memset pa c s = .ok ((), s.setPage pa (filled c)) := rfl

theorem allocPage_spec (h : Space m top R s pt j) (htop : top trampoline ≠ none) (hj : n ≤ j)
    (hfit : pgsize*(j+1) ≤ trapframe ∨ m.pageCount < 2^26) :
    ∃ b t, allocPage m pt (pgsize*n) (pgsize*j) s = .ok (b, t) ∧
      ((b = true ∧ Space m top R t pt (j+1) ∧ Kept R s t pt j ∧ Blank t pt (pgsize*j)) ∨
        (b = false ∧ Space m top R t pt n ∧ Kept R s t pt n ∧
          (s.refuse = [] → m.pageCount ≤ size 512 2+(j+R.card+1)))) := by
  obtain ⟨q, u, hkalloc, hku, -, hq⟩ := h.kalloc
  rw [allocPage, run_bind hkalloc]
  rcases hq with ⟨rfl, hu, hall⟩ | ⟨h0, hu⟩
  · obtain ⟨r, t, hback, hkt, ht⟩ := hu.back hj
    refine ⟨false, t, ?_, Or.inr ⟨rfl, ht, (hku.mono hj le_rfl).trans hkt, fun hnil => ?_⟩⟩
    · rw [if_pos rfl, run_bind hback]
      rfl
    · have hcard : (tables s pt).card ≤ size 512 2 := card_nodes_le
      rw [hall hnil]
      omega
  obtain ⟨hset, hkset, -⟩ := hu.setPage (filled 0)
  have hroom : pgsize*(j+1) ≤ trapframe := by
    refine hfit.elim id (fun hm => hu.room htop ?_ hm)
    rw [card_cons]
    exact Nat.succ_pos _
  have hperm : pteW ||| pteX ||| pteR ||| pteU < 2^10 := by decide
  have hleaf : pteW ||| pteX ||| pteR ||| pteU ||| pteV ≠ pteV := by decide
  obtain ⟨r, v, hmap, hkv, hr⟩ := hset.mapNext hroom hperm hleaf
  have hkept : Kept R s v pt j := (hku.trans hkset).trans (hkv.mono le_rfl (le_cons_self R q))
  rw [if_neg h0, run_bind (memset_run q 0 u), run_bind hmap]
  have hzero : v.word q = filled 0 := by
    rw [hkv.keeps.word q (mem_add.mpr (Or.inr (mem_cons_self q R)))]
    exact Function.update_self ..
  obtain ⟨hal, -, hqlt⟩ := pages_mem (hset.heap.mem_pages (mem_add.mpr (Or.inr
    (mem_add.mpr (Or.inr (mem_cons_self q R))))))
  have hstop := m.phystop_lt
  have hpa : pte2pa (pa2pte q ||| (pteW ||| pteX ||| pteR ||| pteU) ||| pteV) = q := by
    rw [pte2pa_pte (by omega) hperm, pgrounddown, Nat.div_mul_cancel (Nat.dvd_of_mod_eq_zero hal)]
  rcases hr with ⟨rfl, hv, hself⟩ | ⟨rfl, hv, hall⟩
  · refine ⟨true, v, ?_, Or.inl ⟨rfl, hv, hkept, _, hself, pteFlags_pte hperm, ?_⟩⟩
    · rw [if_neg (by decide)]
      rfl
    · rw [hpa, hzero]
  obtain ⟨x, hfree, hkx, -, hx⟩ := hv.kfree
  obtain ⟨r, y, hback, hky, hy⟩ := hx.back hj
  refine ⟨false, y, ?_, Or.inr ⟨rfl, hy, ((hkept.trans hkx).mono hj le_rfl).trans hky, fun hnil => ?_⟩⟩
  · rw [if_pos (by decide), run_bind hfree, run_bind hback]
    rfl
  · have hcard : (tables v pt).card ≤ size 512 2 := card_nodes_le
    rw [hall ((hku.trans hkset).keeps.refuse hnil)]
    omega

theorem allocLoop_spec {c : ℕ} (h : Space m top R s pt j) (htop : top trampoline ≠ none) (hj : n ≤ j)
    (hfit : pgsize*(j+c) ≤ trapframe ∨ m.pageCount < 2^26) :
    ∃ b t, allocLoop m pt (pgsize*n) c (pgsize*j) s = .ok (b, t) ∧
      ((b = true ∧ Space m top R t pt (j+c) ∧ Kept R s t pt j ∧ ∀ i, j ≤ i → i < j+c → Blank t pt (pgsize*i)) ∨
        (b = false ∧ Space m top R t pt n ∧ Kept R s t pt n ∧
          (s.refuse = [] → m.pageCount ≤ size 512 2+(j+c+R.card)))) := by
  induction c generalizing s j with
  | zero => exact ⟨true, s, rfl, Or.inl ⟨rfl, h, Kept.refl R s pt j, fun i hi hlt => by omega⟩⟩
  | succ c ih =>
    have hstep : pgsize*j+pgsize = pgsize*(j+1) := (Nat.mul_succ _ _).symm
    have hshift : j+1+c = j+(c+1) := by omega
    have hfirst : pgsize*(j+1) ≤ trapframe ∨ m.pageCount < 2^26 :=
      hfit.imp_left (fun hle => (Nat.mul_le_mul_left _ (by omega)).trans hle)
    obtain ⟨b, u, hturn, hb⟩ := allocPage_spec h htop hj hfirst
    rw [allocLoop, run_bind hturn]
    rcases hb with ⟨rfl, hu, hku, hblank⟩ | ⟨rfl, hu, hku, hall⟩
    · obtain ⟨b, t, hrun, hb⟩ := ih hu (hj.trans (Nat.le_succ j)) (by rwa [hshift])
      rw [hshift] at hb
      refine ⟨b, t, by rw [if_pos rfl, hstep, hrun], hb.imp (fun ⟨hb, ht, hkt, hnew⟩ => ⟨hb, ht, ?_, ?_⟩)
        (fun ⟨hb, ht, hkt, hall⟩ => ⟨hb, ht, (hku.mono hj le_rfl).trans hkt, fun hnil => hall (hku.keeps.refuse hnil)⟩)⟩
      · exact hku.trans (hkt.mono (Nat.le_succ j) le_rfl)
      intro i hi hlt
      rcases Nat.eq_or_lt_of_le hi with rfl | hi'
      · have hbound := hu.bound
        refine hkt.blank ?_ (Nat.mul_lt_mul_of_pos_left (Nat.lt_succ_self j) (by decide)) hblank
        rw [pgsize, trapframe, trampoline, maxva, pgsize] at hbound
        rw [pgsize]
        omega
      · exact hnew i hi' hlt
    · refine ⟨false, u, rfl, Or.inr ⟨rfl, hu, hku, fun hnil => ?_⟩⟩
      have := hall hnil
      omega

/-- uvmalloc grows the space by pages of zeros, or leaves it as it was. It fails only if kalloc is made
to fail or the pages run out. -/
theorem uvmalloc_spec {oldsz newsz : ℕ} (h : Space m top R s pt (pageNum oldsz)) (htop : top trampoline ≠ none)
    (hle : oldsz ≤ newsz) (hfit : newsz ≤ trapframe ∨ m.pageCount < 2^26) :
    ∃ r t, uvmalloc m pt oldsz newsz s = .ok (r, t) ∧ Kept R s t pt (pageNum oldsz) ∧
      ((r = newsz ∧ Space m top R t pt (pageNum newsz) ∧
          ∀ k < 2^39, pgsize*pageNum oldsz ≤ k → k < pgsize*pageNum newsz → Blank t pt k) ∨
        (r = 0 ∧ Space m top R t pt (pageNum oldsz) ∧
          (s.refuse = [] → m.pageCount ≤ size 512 2+(pageNum newsz+R.card)))) := by
  have hold : oldsz ≤ maxva := (le_pageNum oldsz).trans (h.bound.trans (by decide))
  have hnum : pageNum oldsz+(newsz-pgsize*pageNum oldsz+(pgsize-1))/pgsize = pageNum newsz := by
    rw [pageNum, pageNum, pgsize]
    omega
  have hfit' : pgsize*(pageNum oldsz+(newsz-pgsize*pageNum oldsz+(pgsize-1))/pgsize) ≤ trapframe ∨
      m.pageCount < 2^26 := by
    refine hfit.imp_left (fun hn => ?_)
    rw [hnum, pageNum, pgsize]
    rw [trapframe, trampoline, maxva, pgsize] at hn ⊢
    omega
  obtain ⟨b, t, hrun, hb⟩ := allocLoop_spec h htop le_rfl hfit'
  rw [hnum] at hb
  rw [uvmalloc, if_neg (Nat.not_lt.mpr hle), pgroundup_pageNum hold, run_bind hrun]
  rcases hb with ⟨rfl, ht, hkt, hnew⟩ | ⟨rfl, ht, hkt, hall⟩
  · refine ⟨newsz, t, rfl, hkt, Or.inl ⟨rfl, ht, fun k hk39 hlo hhi => (hnew (k/pgsize) ?_ ?_).page hk39 rfl⟩⟩
    · exact (Nat.le_div_iff_mul_le (by decide)).mpr (by rwa [Nat.mul_comm])
    · exact Nat.div_lt_of_lt_mul hhi
  · exact ⟨0, t, rfl, hkt, Or.inr ⟨rfl, ht, hall⟩⟩

end Xv6.Vm
