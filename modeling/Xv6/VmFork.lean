import Xv6.VmAlloc
import Xv6.VmApart
import Xv6.VmBreak

/-! uvmcopy and fork: the child gets a copy of every user page, in pages of its own. -/
namespace Xv6.Vm
open Function Hoare Radix Multiset

/-- The pages of the tables and of the first `n` user pages of `old` are among the pages in `R`. -/
def Held (s : Ram) (old n : ℕ) (R : Multiset ℕ) : Prop := tables s old+frames s old 0 n ≤ R

/-- A page of `new` with the flags and the contents of the page of `old`. -/
def Twin (s : Ram) (old new k : ℕ) : Prop :=
  ∃ w w', pteOf s old k = some w ∧ pteOf s new k = some w' ∧ pteFlags w' = pteFlags w ∧
    s.word (pte2pa w') = s.word (pte2pa w)

variable {m : Machine} {top : ℕ → Option ℕ} {R : Multiset ℕ} {s t : Ram} {old new n k j : ℕ}

section
variable (h : Held s old n R) (hk : Keeps R s t)
include h hk

theorem Held.keeps : Keeps (tables s old) s t := hk.mono (fun _ hq => mem_of_le h (mem_add.mpr (Or.inl hq)))

theorem Held.pteOf (k : ℕ) : pteOf t old k = pteOf s old k := (h.keeps hk).pteOf k

theorem Held.kept : Kept 0 s t old n := ⟨fun k _ => h.pteOf hk k, hk.mono (fun q hq => mem_of_le h (by
    rw [add_zero] at hq
    exact mem_add.mpr (Or.inr hq)))⟩

theorem Held.next : Held t old n R := by
  rw [Held, (h.keeps hk).tables, (h.kept hk).frames]
  exact h

end

theorem Twin.memAt (h : Twin s old new k) : memAt s new k = memAt s old k := by
  obtain ⟨w, w', hw, hw', hfl, hword⟩ := h
  have hbyte : s.byte (pte2pa w'+k%pgsize) = s.byte (pte2pa w+k%pgsize) := by
    have hoff : k%pgsize < pgsize := Nat.mod_lt _ (by decide)
    have hindex (q : ℕ) (hq : q%pgsize = 0) : wordIndex (q+k%pgsize) = wordIndex (k%pgsize) ∧
        (q+k%pgsize)%8 = k%pgsize%8 := by
      refine ⟨Fin.ext ?_, ?_⟩
      · change (q+k%pgsize)%pgsize/8 = k%pgsize%pgsize/8
        rw [Nat.add_mod, hq, Nat.zero_add, Nat.mod_mod]
      · rw [pgsize] at *
        omega
    obtain ⟨h1, h2⟩ := hindex _ (pte2pa_aligned w)
    obtain ⟨h1', h2'⟩ := hindex _ (pte2pa_aligned w')
    rw [Ram.byte, Ram.byte, pgrounddown_add (pte2pa_aligned w) hoff, pgrounddown_add (pte2pa_aligned w') hoff,
      h1, h2, h1', h2', hword]
  rw [Vm.memAt, Vm.memAt, hw, hw', Option.map_some, Option.map_some, hfl, hbyte]

theorem Twin.page (h : Twin s old new (pgsize*j)) (hk : k < 2^39) (hj : k/pgsize = j) : Twin s old new k := by
  obtain ⟨w, w', hw, hw', hrest⟩ := h
  rw [← hj, pteOf_page hk] at hw hw'
  exact ⟨w, w', hw, hw', hrest⟩

theorem Twin.kept {n' : ℕ} (h : Twin s old new k) (hk : k < 2^39) (hold : Kept 0 s t old n) (hn : k < pgsize*n)
    (hnew : Kept R s t new n') (hn' : k < pgsize*n') : Twin t old new k := by
  obtain ⟨w, w', hw, hw', hfl, hword⟩ := h
  exact ⟨w, w', (hold.map k hn).trans hw, (hnew.map k hn').trans hw', hfl, by
    rw [hnew.word hk hn' hw', hold.word hk hn hw, hword]⟩

theorem Space.unmapAll (h : Space m top R s new j) :
    ∃ t, uvmunmap m new 0 (pgsize*j/pgsize) true s = .ok ((), t) ∧ Keeps R s t ∧ Space m top R t new 0 := by
  obtain ⟨t, hrun, hk, -, ht⟩ := h.unmap (Nat.zero_le j)
  rw [Nat.mul_zero, Nat.sub_zero] at hrun
  rw [Nat.mul_div_cancel_left _ (by decide)]
  exact ⟨t, hrun, hk.keeps.right, ht⟩

variable {w : ℕ}

theorem walk_mapped (hk : k < maxva) (hw : pteOf s old k = some w) :
    ∃ q i, walk old k false s = .ok (some (q, i), s) ∧ s.word q i = w ∧ w &&& pteV ≠ 0 := by
  obtain ⟨q, hslot, hq, hv⟩ := look_some hw
  refine ⟨q, px 0 k, ?_, hq, valid_iff_and.mp hv⟩
  rw [walk_run hk, walkFrom_false, hslot]
  rfl

theorem flags_or_valid (hv : w &&& pteV ≠ 0) : pteFlags w ||| pteV = pteFlags w := by
  have hodd : w%2 = 1 := valid_iff.mp (valid_iff_and.mpr hv)
  apply Nat.eq_of_testBit_eq
  intro i
  rw [Nat.testBit_or]
  cases i with
  | zero =>
    have hbit : (pteFlags w).testBit 0 = true := by
      rw [Nat.testBit_zero, pteFlags, decide_eq_true_eq]
      omega
    rw [hbit, Bool.true_or]
  | succ i =>
    have hzero : pteV.testBit (i+1) = false := by
      rw [pteV, Nat.testBit_succ]
      simp
    rw [hzero, Bool.or_false]

theorem copyTurn_spec (h : Space m top R s new j) (hheld : Held s old n R) (hj : j < n)
    (hroom : pgsize*(j+1) ≤ trapframe) (hw : pteOf s old (pgsize*j) = some w) (hleaf : pteFlags w ≠ pteV) :
    ∃ b t, copyTurn m old new (pgsize*j) s = .ok (b, t) ∧ Keeps R s t ∧
      ((b = true ∧ Space m top R t new (j+1) ∧ Kept R s t new j ∧ Twin t old new (pgsize*j)) ∨
        (b = false ∧ Space m top R t new 0)) := by
  have hlt : pgsize*j < maxva := by
    rw [pgsize, trapframe, trampoline, maxva, pgsize] at *
    omega
  obtain ⟨q, i, hwalk, hq, hv⟩ := walk_mapped hlt hw
  obtain ⟨mem, u, hkalloc, hku, -, hmem⟩ := h.kalloc
  have hread : readWord q i s = .ok (w, s) := by rw [readWord_run, hq]
  rw [copyTurn, run_bind hwalk]
  simp only
  rw [run_bind hread, if_neg hv, run_bind hkalloc]
  rcases hmem with ⟨rfl, hu, -⟩ | ⟨h0, hu⟩
  · obtain ⟨t, hunmap, hkt, ht⟩ := hu.unmapAll
    refine ⟨false, t, ?_, hku.keeps.right.trans hkt, Or.inr ⟨rfl, ht⟩⟩
    rw [if_pos rfl, run_bind hunmap]
    rfl
  obtain ⟨hset, hkset, -⟩ := hu.setPage (u.word (pte2pa w))
  have hcopy : copyPage mem (pte2pa w) u = .ok ((), u.setPage mem (u.word (pte2pa w))) := rfl
  have hor := flags_or_valid hv
  have hperm : pteFlags w < 2^10 := Nat.mod_lt _ (by decide)
  obtain ⟨r, v, hmap, hkv, hr⟩ := hset.mapNext hroom hperm (by rwa [hor])
  have hkept : Kept R s v new j := (hku.trans hkset).trans (hkv.mono le_rfl (le_cons_self R mem))
  rw [if_neg h0, run_bind hcopy, run_bind hmap]
  rcases hr with ⟨rfl, hv', hself⟩ | ⟨rfl, hv', -⟩
  · refine ⟨true, v, ?_, hkept.keeps.right, Or.inl ⟨rfl, hv', hkept, w, _, ?_, hself, ?_, ?_⟩⟩
    · rw [if_neg (by decide)]
      rfl
    · exact (hheld.pteOf hkept.keeps.right _).trans hw
    · rw [pteFlags_pte hperm, hor]
    obtain ⟨hal, -, hmlt⟩ := pages_mem (hset.heap.mem_pages (mem_add.mpr (Or.inr
      (mem_add.mpr (Or.inr (mem_cons_self mem R))))))
    have hstop := m.phystop_lt
    have hnum : pgsize*j < 2^39 := hlt.trans (by decide)
    have hold : v.word (pte2pa w) = u.word (pte2pa w) := by
      rw [(hheld.kept hkept.keeps.right).word hnum (Nat.mul_lt_mul_of_pos_left hj (by decide)) hw,
        (hheld.kept hku.keeps.right).word hnum (Nat.mul_lt_mul_of_pos_left hj (by decide)) hw]
    rw [pte2pa_pte (by omega) hperm, pgrounddown, Nat.div_mul_cancel (Nat.dvd_of_mod_eq_zero hal), hold,
      hkv.keeps.word mem (mem_add.mpr (Or.inr (mem_cons_self mem R))), Ram.setPage_self]
  · obtain ⟨x, hfree, hkx, -, hx⟩ := hv'.kfree
    obtain ⟨y, hunmap, hky, hy⟩ := hx.unmapAll
    refine ⟨false, y, ?_, (hkept.keeps.right.trans hkx.keeps.right).trans hky, Or.inr ⟨rfl, hy⟩⟩
    rw [if_pos (by decide), run_bind hfree, run_bind hunmap]
    rfl

/-- uvmcopy copies all pages, or none. -/
theorem copyLoop_spec {c : ℕ} (h : Space m top R s new j) (hheld : Held s old n R) (hc : j+c = n)
    (hroom : pgsize*n ≤ trapframe)
    (hleaf : ∀ i < n, ∃ w, pteOf s old (pgsize*i) = some w ∧ pteFlags w ≠ pteV) :
    ∃ r t, copyLoop m old new c (pgsize*j) s = .ok (r, t) ∧ Keeps R s t ∧
      ((r = 0 ∧ Space m top R t new n ∧ Kept R s t new j ∧ ∀ i, j ≤ i → i < n → Twin t old new (pgsize*i)) ∨
        (r = -1 ∧ Space m top R t new 0)) := by
  induction c generalizing s j with
  | zero =>
    obtain rfl : j = n := hc
    exact ⟨0, s, rfl, Keeps.refl R s, Or.inl ⟨rfl, h, Kept.refl R s new j, fun i hi hlt => by omega⟩⟩
  | succ c ih =>
    have hstep : pgsize*j+pgsize = pgsize*(j+1) := (Nat.mul_succ _ _).symm
    have hjn : j < n := by omega
    have hroom' : pgsize*(j+1) ≤ trapframe := (Nat.mul_le_mul_left _ hjn).trans hroom
    obtain ⟨w, hw, hwl⟩ := hleaf j hjn
    obtain ⟨b, u, hturn, hku, hb⟩ := copyTurn_spec h hheld hjn hroom' hw hwl
    rw [copyLoop, run_bind hturn]
    rcases hb with ⟨rfl, hu, hkept, htwin⟩ | ⟨rfl, hu⟩
    · obtain ⟨r, t, hrun, hkt, hr⟩ := ih hu (hheld.next hku) (by omega) (fun i hi => by
        obtain ⟨w, hw, hwl⟩ := hleaf i hi
        exact ⟨w, (hheld.pteOf hku _).trans hw, hwl⟩)
      refine ⟨r, t, ?_, hku.trans hkt, hr.imp_left (fun ⟨hr, ht, hkt', hnew⟩ => ⟨hr, ht, ?_, ?_⟩)⟩
      · rw [if_pos rfl, hstep]
        exact hrun
      · exact hkept.trans (hkt'.mono (Nat.le_succ j) le_rfl)
      intro i hi hlt
      rcases Nat.eq_or_lt_of_le hi with rfl | hi'
      · have hj39 : pgsize*j < 2^39 := by
          rw [pgsize, trapframe, trampoline, maxva, pgsize] at *
          omega
        exact htwin.kept hj39 ((hheld.next hku).kept hkt) (Nat.mul_lt_mul_of_pos_left hjn (by decide)) hkt'
          (Nat.mul_lt_mul_of_pos_left (Nat.lt_succ_self j) (by decide))
      · exact hnew i hi' hlt
    · exact ⟨-1, u, rfl, hku, Or.inr ⟨rfl, hu⟩⟩

theorem uvmcopy_spec {sz : ℕ} (h : Space m top R s new 0) (hheld : Held s old (pageNum sz) R)
    (hroom : pgsize*pageNum sz ≤ trapframe)
    (hleaf : ∀ i < pageNum sz, ∃ w, pteOf s old (pgsize*i) = some w ∧ pteFlags w ≠ pteV) :
    ∃ r t, uvmcopy m old new sz s = .ok (r, t) ∧ Keeps R s t ∧
      ((r = 0 ∧ Space m top R t new (pageNum sz) ∧ ∀ i < pageNum sz, Twin t old new (pgsize*i)) ∨
        (r = -1 ∧ Space m top R t new 0)) := by
  obtain ⟨r, t, hrun, hk, hr⟩ := copyLoop_spec h hheld (Nat.zero_add _) hroom hleaf
  rw [Nat.mul_zero] at hrun
  exact ⟨r, t, hrun, hk, hr.imp_left (fun ⟨hr, ht, _, hnew⟩ => ⟨hr, ht, fun i hi => hnew i (Nat.zero_le i) hi⟩)⟩

structure Unchanged (R : Multiset ℕ) (s t : Ram) (p : Proc) : Prop where
  map : ∀ k, pteOf t p.pagetable k = pteOf s p.pagetable k
  memory : ∀ k < pgsize*pageNum p.sz, memAt t p.pagetable k = memAt s p.pagetable k
  rest : ∀ q ∈ R, t.word q = s.word q

/-- What fork is to give the child `c` of `p`: the same memory and the same saved registers except a0. And
whatever the two then write, neither of them changes the memory of the other. -/
structure Forked (s t : Ram) (p c : Proc) : Prop where
  sz : c.sz = p.sz
  memory : ∀ k < pgsize*pageNum p.sz, memAt t c.pagetable k = memAt s p.pagetable k
  frame : ∀ i : Fin 512, i.val < 36 → i ≠ frameA0 → t.word c.trapframe i = s.word p.trapframe i
  a0 : t.word c.trapframe frameA0 = 0
  apart : ∀ es e va, let other := if e.1 then c.pagetable else p.pagetable
    pteOf (accesses t p.pagetable c.pagetable (es ++ [e])) other va =
      pteOf (accesses t p.pagetable c.pagetable es) other va ∧
    userByte (accesses t p.pagetable c.pagetable (es ++ [e])) other va =
      userByte (accesses t p.pagetable c.pagetable es) other va

theorem Space.unchanged {p : Proc} (h : Space m top R s p.pagetable (pageNum p.sz))
    (hk : Keeps (tables s p.pagetable+(frames s p.pagetable 0 (pageNum p.sz)+R)) s t) : Unchanged R s t p := by
  have hkept : Kept R s t p.pagetable (pageNum p.sz) := ⟨fun k _ => hk.left.pteOf k, hk.right⟩
  exact ⟨hk.left.pteOf, fun k hk' => hkept.memAt (h.lt hk') hk', hk.right.right.word⟩

theorem Space.forkFrame {tf src pt : ℕ} (h : Space m top (tf ::ₘ R) s pt n) (h0 : src ≠ 0) :
    ∃ u t, copyFrame tf src s = .ok ((), u) ∧ writeWord tf frameA0 0 u = .ok ((), t) ∧
      Space m top (tf ::ₘ R) t pt n ∧ Kept R s t pt n ∧
      ∀ k, k.val < 36 → t.word tf k = if k = frameA0 then 0 else s.word src k := by
  have htf : tf ≠ 0 := h.heap.ne_zero (mem_add.mpr (Or.inr (mem_add.mpr (Or.inr (mem_cons_self tf R)))))
  obtain ⟨hu, hku, -⟩ := h.setPage (fun i => if i.val < 36 then s.word src i else s.word tf i)
  obtain ⟨ht, hkt, -⟩ := hu.setPage (update ((s.setPage tf _).word tf) frameA0 0)
  refine ⟨_, _, copyFrame_run htf h0 s, rfl, ht, hku.trans hkt, fun k hk => ?_⟩
  dsimp only
  rw [Ram.setWord_self, update_apply, Ram.setPage_self, if_pos hk]

/-- fork fails and frees what it took, or the child has a copy of the parent's space. The pages in use,
those of the parent among them, are in `R`. -/
theorem fork_spec {ps : Procs} {i : Fin nproc} (hps : Clean ps) (hi : (ps i).state ≠ .unused) (h : Heap m s R)
    (hheld : Held s (ps i).pagetable (pageNum (ps i).sz) R) (hroom : pgsize*pageNum (ps i).sz ≤ trapframe)
    (hleaf : ∀ j < pageNum (ps i).sz, ∃ w, pteOf s (ps i).pagetable (pgsize*j) = some w ∧ pteFlags w ≠ pteV)
    (htf : (ps i).trapframe ∈ R) (nextpid : ℤ) :
    ∃ r ps' pid' t, fork m ps nextpid i s = .ok ((r, ps', pid'), t) ∧ Keeps R s t ∧
      ((r = -1 ∧ Heap m t R ∧ (∀ j, (ps j).state = .unused → (ps' j).state = .unused) ∧
          ∀ j, (ps j).state ≠ .unused → ps' j = ps j) ∨
        ∃ c tf pt bt, r = nextpid ∧ (ps c).state = .unused ∧
          ps' = update ps c (((ps c).born nextpid tf pt bt).childOf (ps i) (i.val+1)) ∧
          Space m (procMap m tf) (own tf+(own bt+R)) t pt (pageNum (ps i).sz) ∧
          (∀ k < pageNum (ps i).sz, Twin t (ps i).pagetable pt (pgsize*k)) ∧
          ∀ k, k.val < 36 → t.word tf k = if k = frameA0 then 0 else s.word (ps i).trapframe k) := by
  obtain ⟨r, ps1, pid1, u, halloc, hku, -, hr⟩ := allocproc_spec h hps nextpid
  rw [fork, run_bind halloc]
  rcases hr with ⟨rfl, hu, hun, hother, -⟩ | ⟨c, tf, pt, bt, rfl, hc, rfl, htf0, hpt0, hu, -, -⟩
  · exact ⟨-1, ps1, pid1, u, rfl, hku, Or.inl ⟨rfl, hu, hun, hother⟩⟩
  have hic : i ≠ c := fun he => hi (by rw [he, hc])
  have hR : R ≤ own tf+(own bt+R) := by
    rw [← add_assoc]
    exact le_add_left _ _
  have hheld' : Held u (ps i).pagetable (pageNum (ps i).sz) (own tf+(own bt+R)) := (hheld.next hku).trans hR
  obtain ⟨r, v, hcopy, hkv, hr⟩ := uvmcopy_spec hu hheld' hroom (fun j hj => by
    obtain ⟨w, hw, hwl⟩ := hleaf j hj
    exact ⟨w, (hheld.pteOf hku _).trans hw, hwl⟩)
  dsimp only
  rw [update_of_ne hic, update_self]
  have hkR : Keeps R s v := hku.trans hkv.right.right
  have hself : ∀ p, update (update ps c ((ps c).born nextpid tf pt bt)) c p =
    update ps c p := fun p => update_idem _ _ _
  rw [Proc.born_pagetable, Proc.born_trapframe, run_bind hcopy]
  simp only [hself]
  rcases hr with ⟨rfl, hv, htwin⟩ | ⟨rfl, hv⟩
  · rw [own_of_ne htf0, singleton_add] at hv
    obtain ⟨x, t, hx, hwrite, ht, hkept, hframe⟩ := hv.forkFrame (h.ne_zero htf)
    have hkt : Keeps R v t := hkept.keeps.right.right
    refine ⟨nextpid, _, pid1, t, ?_, hkR.trans hkt,
      Or.inr ⟨c, tf, pt, bt, rfl, hc, rfl, ?_, fun k hk => ?_, fun k hk => ?_⟩⟩
    · rw [if_neg (by decide), run_bind hx, run_bind hwrite]
      rfl
    · rw [own_of_ne htf0, singleton_add]
      exact ht
    · have hlt := Nat.mul_lt_mul_of_pos_left hk (by decide : 0 < pgsize)
      exact (htwin k hk).kept (hv.lt hlt) ((hheld.next hkR).kept hkt) hlt hkept hlt
    · rw [hframe k hk, hkR.word _ htf]
  · have hempty : pageNum ((ps c).born nextpid tf pt bt).sz = 0 := by
      have hsz : ((ps c).born nextpid tf pt bt).sz = 0 := (hps c hc).sz
      rw [hsz]
      rfl
    obtain ⟨t, hfree, hkt, ht⟩ := @freeproc_spec m R v ((ps c).born nextpid tf pt bt) tf hpt0 (by
      rw [hempty]
      exact hv)
    refine ⟨-1, update ps c ((ps c).born nextpid tf pt bt).cleared, pid1, t, ?_, hkR.trans hkt,
      Or.inl ⟨rfl, ht, fun j hj => ?_, fun j hj => ?_⟩⟩
    · rw [if_pos (by decide), run_bind hfree]
      rfl
    · by_cases hjc : j = c
      · rw [hjc, update_self]
        rfl
      · rw [update_of_ne hjc, hj]
    · exact update_of_ne (fun hjc : j = c => hj (by rw [hjc, hc])) _ _

theorem accesses_append (s : Ram) (pt pt' : ℕ) (es : List (Bool × Access)) (e : Bool × Access) :
    accesses s pt pt' (es ++ [e]) = e.2.apply (accesses s pt pt' es) (if e.1 then pt else pt') := by
  rw [accesses, List.foldl_append]
  rfl

theorem twins_memAt (hn : pgsize*n ≤ trapframe) (h : ∀ j < n, Twin s old new (pgsize*j)) (hk : k < pgsize*n) :
    memAt s new k = memAt s old k := by
  have hlt : k < 2^39 := hk.trans_le (hn.trans (by decide))
  exact ((h _ (Nat.div_lt_of_lt_mul hk)).page hlt rfl).memAt

/-- fork gives the child an equal memory of its own, or it fails and the slot that it took is unused
again. The parent is left as it was. -/
theorem fork_copies_memory (m : Machine) (R : Multiset ℕ) (s : Ram) (ps : Procs) (nextpid : ℤ) (i : Fin nproc)
    (hps : Clean ps) (hi : (ps i).state ≠ .unused)
    (h : Space m (procMap m (ps i).trapframe) R s (ps i).pagetable (pageNum (ps i).sz))
    (htf : (ps i).trapframe ∈ R) :
    ∃ r ps' pid' t, fork m ps nextpid i s = .ok ((r, ps', pid'), t) ∧ ps' i = ps i ∧ Unchanged R s t (ps i) ∧
      ((r = -1 ∧ (∀ j, (ps j).state = .unused → (ps' j).state = .unused) ∧ ∀ j, (ps j).state ≠ .unused → ps' j = ps j) ∨
        ∃ c, r = nextpid ∧ (ps c).state = .unused ∧ (∀ j, j ≠ c → ps' j = ps j) ∧ Forked s t (ps i) (ps' c)) := by
  have hle : tables s (ps i).pagetable+frames s (ps i).pagetable 0 (pageNum (ps i).sz) ≤
      tables s (ps i).pagetable+(frames s (ps i).pagetable 0 (pageNum (ps i).sz)+R) := by
    rw [← add_assoc]
    exact le_add_right _ _
  have hmem : (ps i).trapframe ∈ tables s (ps i).pagetable+(frames s (ps i).pagetable 0 (pageNum (ps i).sz)+R) :=
    mem_add.mpr (Or.inr (mem_add.mpr (Or.inr htf)))
  obtain ⟨r, ps', pid', t, hrun, hk, hr⟩ := fork_spec hps hi h.heap hle h.bound h.leaf hmem nextpid
  have hpar := h.unchanged hk
  refine ⟨r, ps', pid', t, hrun, ?_⟩
  rcases hr with ⟨rfl, -, hun, hother⟩ | ⟨c, tf, pt, bt, rfl, hc, rfl, hchild, htwin, hframe⟩
  · exact ⟨hother i hi, hpar, Or.inl ⟨rfl, hun, hother⟩⟩
  have hic : i ≠ c := fun he => hi (by rw [he, hc])
  have hspaces : TwoSpaces t (ps i).pagetable pt := by
    have hheap := hchild.heap
    rw [← add_assoc (own tf), ← add_assoc (frames t pt 0 _), ← add_assoc (tables t pt), add_comm, add_assoc,
      add_assoc] at hheap
    refine (hchild.twoSpaces (h.congr hk.left hheap) ?_).symm
    rw [hk.left.tables, hk.left.frames, ← add_assoc (own tf)]
    exact hle.trans (le_add_left _ _)
  refine ⟨update_of_ne hic _ _, hpar, Or.inr ⟨c, rfl, hc, fun j hj => update_of_ne hj _ _, ?_⟩⟩
  rw [update_self]
  refine ⟨rfl, fun k hkn => ?_, fun k hk36 hne => ?_, ?_, fun es e va => ?_⟩
  · exact (twins_memAt h.bound htwin hkn).trans (hpar.memory k hkn)
  · exact (hframe k hk36).trans (if_neg hne)
  · exact (hframe frameA0 (by decide)).trans (if_pos rfl)
  · dsimp only
    rw [accesses_append]
    exact ((hspaces.run es).step e).2 va

def firstSlot : Fin nproc := ⟨0, by decide⟩

def oneProc (p : Proc) : Procs := update noProcs firstSlot p

theorem oneProc_first (p : Proc) : oneProc p firstSlot = p := update_self ..

theorem oneProc_clean {p : Proc} (hp : p.state ≠ .unused) : Clean (oneProc p) := by
  intro j hj
  by_cases hj0 : j = firstSlot
  · rw [hj0, oneProc_first] at hj
    exact absurd hj hp
  · rw [oneProc, update_of_ne hj0]
    exact noProcs_clean j rfl

theorem one_page_forks : ∃ (s : Ram) (R : Multiset ℕ) (ps : Procs), (ps firstSlot).sz = 4096 ∧
    ∃ r ps' pid' t, fork roomy ps 2 firstSlot s = .ok ((r, ps', pid'), t) ∧ ps' firstSlot = ps firstSlot ∧
      Unchanged R s t (ps firstSlot) ∧
      ((r = -1 ∧ (∀ j, (ps j).state = .unused → (ps' j).state = .unused) ∧ ∀ j, (ps j).state ≠ .unused → ps' j = ps j) ∨
        ∃ c, r = 2 ∧ (ps c).state = .unused ∧ (∀ j, j ≠ c → ps' j = ps j) ∧ Forked s t (ps firstSlot) (ps' c)) := by
  obtain ⟨s, pt, tf, -, hs, -⟩ := one_page_exists
  have hused : (procWith pt tf 4096).state ≠ .unused := by
    change ProcState.running ≠ .unused
    decide
  refine ⟨s, {tf}, oneProc (procWith pt tf 4096), by rw [oneProc_first]; rfl,
    fork_copies_memory roomy {tf} s _ 2 firstSlot (oneProc_clean hused) ?_ ?_ ?_⟩
  · rwa [oneProc_first]
  · rw [oneProc_first]
    exact hs
  · rw [oneProc_first]
    exact mem_singleton_self tf

end Xv6.Vm
