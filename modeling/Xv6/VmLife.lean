import Xv6.VmSpace

/-! An address space is made by proc_pagetable, empty but for TRAMPOLINE and TRAPFRAME, and freed by
proc_freepagetable. -/
namespace Xv6.Vm
open Function Hoare Radix List

def setTop (top : ℕ → Option ℕ) (a : ℕ) (w : Option ℕ) (k : ℕ) : Option ℕ :=
  if k/pgsize = a/pgsize then w else top k

def trampolinePte (m : Machine) : ℕ := pa2pte m.trampoline ||| (pteR ||| pteX) ||| pteV

def trapframePte (tf : ℕ) : ℕ := pa2pte tf ||| (pteR ||| pteW) ||| pteV

/-- What every process has mapped above its user pages. -/
def procMap (m : Machine) (tf : ℕ) : ℕ → Option ℕ :=
  setTop (setTop (fun _ => none) trampoline (some (trampolinePte m))) trapframe (some (trapframePte tf))

variable {m : Machine} {top top' : ℕ → Option ℕ} {s t : Ram} {R : Multiset ℕ} {pt n a w : ℕ}

theorem procMap_trampoline (m : Machine) (tf : ℕ) : procMap m tf trampoline = some (trampolinePte m) := by
  rw [procMap, setTop, if_neg (by decide), setTop, if_pos rfl]

theorem procMap_trapframe (m : Machine) (tf : ℕ) : procMap m tf trapframe = some (trapframePte tf) := by
  rw [procMap, setTop, if_pos rfl]

theorem procMap_ne_none (m : Machine) (tf : ℕ) : procMap m tf trampoline ≠ none := by
  rw [procMap_trampoline]
  exact Option.some_ne_none _

theorem setTop_free (ha : trapframe ≤ a) (h : ∀ k < trapframe, top k = none) {k : ℕ} (hk : k < trapframe)
    (v : Option ℕ) : setTop top a v k = none := by
  rw [setTop, if_neg (fun he => ?_), h k hk]
  rw [trapframe, trampoline, maxva, pgsize] at *
  omega

theorem Space.retop (h : Space m top R s pt n) (ha : trapframe ≤ a) (ha' : a < maxva) (v : Option ℕ)
    (hheap : Heap m t (tables t pt+(frames s pt 0 n+R)))
    (hinner : Inner sv39 t.word Plain 2 pt) (hself : pteOf t pt a = v)
    (hother : ∀ k < 2^39, ¬Same sv39 2 a k → pteOf t pt k = pteOf s pt k) :
    Space m (setTop top a v) R t pt n ∧ ∀ k < pgsize*n, pteOf t pt k = pteOf s pt k := by
  have hbound := h.bound
  have hsame {k : ℕ} (hk : k < 2^39) : Same sv39 2 a k ↔ k/pgsize = a/pgsize := by
    rw [same_iff (ha'.trans (by decide)) hk, eq_comm]
  have hlow (k : ℕ) (hk : k < pgsize*n) : pteOf t pt k = pteOf s pt k := by
    have hk39 : k < 2^39 := hk.trans_le (hbound.trans (by decide))
    refine hother k hk39 (fun hs => ?_)
    rw [hsame hk39] at hs
    rw [trapframe, trampoline, maxva, pgsize] at *
    omega
  have hframes : frames t pt 0 n = frames s pt 0 n := by
    refine frames_congr (fun j hj => ?_)
    rw [Nat.zero_add, frame, frame, hlow _ (Nat.mul_lt_mul_of_pos_left hj (by decide))]
  refine ⟨⟨by rwa [hframes], hinner, fun j hj => ?_, fun k hk39 hkn => ?_, hbound,
    fun k hk => setTop_free ha h.free hk v⟩, hlow⟩
  · obtain ⟨w, hw, hwl⟩ := h.leaf j hj
    exact ⟨w, (hlow _ (Nat.mul_lt_mul_of_pos_left hj (by decide))).trans hw, hwl⟩
  rw [setTop]
  by_cases hka : k/pgsize = a/pgsize
  · rw [if_pos hka, ← hself]
    exact (look_same ((hsame hk39).mpr hka)).symm
  · rw [if_neg hka, hother k hk39 (fun hs => hka ((hsame hk39).mp hs)), h.above k hk39 hkn]

variable {pa perm c : ℕ}

theorem Space.mapTop (h : Space m top R s pt n) (ha : trapframe ≤ a) (ha' : a < maxva)
    (hal : a%pgsize = 0) (hnone : top a = none) :
    ∃ r t, mappages pt a pgsize pa perm s = .ok (r, t) ∧ Keeps R s t ∧
      ((r = 0 ∧ Space m (setTop top a (some (pa2pte pa ||| perm ||| pteV))) R t pt n) ∨
        (r = -1 ∧ Space m top R t pt n)) := by
  have hfree : pteOf s pt a = none := (h.above a (ha'.trans (by decide)) (h.bound.trans ha)).trans hnone
  obtain ⟨r, t, hrun, hch, hr⟩ := @mappages_page m s _ pt a pa perm h.heap hal ha' hfree
  refine ⟨r, t, hrun, hch.keeps.right, hr.imp (fun h' => ⟨h'.1, ?_⟩) (fun h' => ⟨h'.1, ?_⟩)⟩
  · exact (h.retop ha ha' _ hch.heap (hch.inner h.inner) h'.2.1 (fun k _ => h'.2.2 k)).1
  have hframes : frames t pt 0 n = frames s pt 0 n := frames_congr (fun j _ => by rw [frame, frame, h'.2.1])
  refine ⟨hframes ▸ hch.heap, hch.inner h.inner, fun j hj => ?_, fun k hk39 hkn => ?_, h.bound, h.free⟩
  · obtain ⟨w, hw, hwl⟩ := h.leaf j hj
    exact ⟨w, (h'.2.1 _).trans hw, hwl⟩
  · exact (h'.2.1 k).trans (h.above k hk39 hkn)

theorem Space.unmapTop (h : Space m top R s pt n) (ha : trapframe ≤ a) (ha' : a < maxva) (hal : a%pgsize = 0)
    (hw : top a = some w) (hleaf : pteFlags w ≠ pteV) :
    ∃ t, uvmunmap m pt a 1 false s = .ok ((), t) ∧ Kept R s t pt n ∧ Space m (setTop top a none) R t pt n := by
  have hpte : pteOf s pt a = some w := (h.above a (ha'.trans (by decide)) (h.bound.trans ha)).trans hw
  have hend : a+pgsize*1 ≤ maxva := by
    rw [pgsize, maxva] at *
    omega
  obtain ⟨t, hrun, hch, -, hlook⟩ := @uvmunmap_spec m s (frames s pt 0 n+R) pt a 1 false
    (by simpa using h.heap) hal hend (fun j hj => by
      rw [Nat.lt_one_iff.mp hj]
      exact ⟨w, hpte, hleaf⟩)
  have hself : pteOf t pt a = none := by rw [hlook a (ha'.trans (by decide)), if_pos (by rw [pgsize]; omega)]
  obtain ⟨ht, hlow⟩ := h.retop (t := t) ha ha' none hch.heap (hch.inner h.inner) hself (fun k hk hs => by
    rw [hlook k hk, if_neg (fun hin => hs ((same_iff (ha'.trans (by decide)) hk).mpr ?_))]
    rw [pgsize] at *
    omega)
  exact ⟨t, hrun, ⟨hlow, hch.keeps⟩, ht⟩

theorem Space.freewalk (h : Space m top R s pt 0) (htop : ∀ k < 2^39, top k = none) :
    ∃ t, freewalk m 3 pt s = .ok ((), t) ∧ Keeps R s t ∧ Heap m t R := by
  have hheap := h.heap
  rw [frames, zero_add] at hheap
  refine freewalk_spec hheap (bare_of_none (fun k hk => ?_)) h.inner
  rw [h.above k hk (Nat.zero_le k), htop k hk]

theorem uvmfree_spec {sz : ℕ} (h : Space m top R s pt (pageNum sz)) (htop : ∀ k < 2^39, top k = none) :
    ∃ t, uvmfree m pt sz s = .ok ((), t) ∧ Keeps R s t ∧ Heap m t R := by
  have hsz : sz ≤ maxva := (le_pageNum sz).trans (h.bound.trans (by decide))
  have hcount : pgroundup sz/pgsize = pageNum sz := by rw [pgroundup_pageNum hsz, Nat.mul_div_cancel_left _ (by decide)]
  by_cases h0 : sz > 0
  · obtain ⟨u, hunmap, hk, -, hu⟩ := h.unmap (Nat.zero_le _)
    rw [Nat.mul_zero, Nat.sub_zero] at hunmap
    obtain ⟨t, hfree, hkt, hheap⟩ := hu.freewalk htop
    refine ⟨t, ?_, hk.keeps.right.trans hkt, hheap⟩
    rw [uvmfree, if_pos h0, hcount, run_bind hunmap]
    exact hfree
  · obtain rfl : sz = 0 := by omega
    obtain ⟨t, hfree, hkt, hheap⟩ := Space.freewalk h htop
    refine ⟨t, ?_, hkt, hheap⟩
    rw [uvmfree, if_neg h0]
    exact hfree

theorem trampolinePte_leaf (m : Machine) : pteFlags (trampolinePte m) ≠ pteV := by
  rw [trampolinePte, pteFlags_pte (by decide)]
  decide

theorem trapframePte_leaf (tf : ℕ) : pteFlags (trapframePte tf) ≠ pteV := by
  rw [trapframePte, pteFlags_pte (by decide)]
  decide

/-- proc_freepagetable gives all pages of an address space back, but for the trapframe. -/
theorem procFreepagetable_spec {sz tf : ℕ} (h : Space m (procMap m tf) R s pt (pageNum sz)) :
    ∃ t, procFreepagetable m pt sz s = .ok ((), t) ∧ Keeps R s t ∧ Heap m t R := by
  obtain ⟨u, hu, hku, hsu⟩ := h.unmapTop (by decide) (by decide) (by decide) (procMap_trampoline m tf)
    (trampolinePte_leaf m)
  have htf : setTop (procMap m tf) trampoline none trapframe = some (trapframePte tf) := by
    rw [setTop, if_neg (by decide), procMap_trapframe]
  obtain ⟨v, hv, hkv, hsv⟩ := hsu.unmapTop (by decide) (by decide) (by decide) htf (trapframePte_leaf tf)
  obtain ⟨t, ht, hkt, hheap⟩ := uvmfree_spec hsv (fun k _ => by
    rw [setTop, setTop, procMap, setTop, setTop]
    split_ifs <;> rfl)
  refine ⟨t, ?_, (hku.keeps.right.trans hkv.keeps.right).trans hkt, hheap⟩
  rw [procFreepagetable, run_bind hu, run_bind hv, ht]

/-- The next `d` calls of kalloc return pages, if `c` pages are in use before them. -/
def Grants (m : Machine) (c : ℕ) (s : Ram) (d : ℕ) : Prop := ∀ i < d, s.refuse.getD i false = false ∧ c+i < m.pageCount

theorem getD_drop (l : List Bool) (c i : ℕ) : (l.drop c).getD i false = l.getD (c+i) false := by
  rw [getD_eq_getElem?_getD, List.getElem?_drop, ← getD_eq_getElem?_getD]

theorem grants_add {d e : ℕ} (h : t.refuse = s.refuse.drop d) :
    Grants m c s (d+e) ↔ Grants m c s d ∧ Grants m (c+d) t e := by
  constructor
  · intro hg
    refine ⟨fun i hi => hg i (by omega), fun i hi => ?_⟩
    rw [h, getD_drop, Nat.add_assoc]
    exact hg (d+i) (by omega)
  rintro ⟨hd, he⟩ i hi
  by_cases hid : i < d
  · exact hd i hid
  · have hrest := he (i-d) (by omega)
    rwa [h, getD_drop, Nat.add_assoc, Nat.add_sub_cancel' (not_lt.mp hid)] at hrest

theorem grants_one (hc : R.card = c) : Grants m c s 1 ↔ Granted m R s := by
  have hhead : s.refuse.getD 0 false = s.refuse.headD false := by cases s.refuse <;> rfl
  rw [Granted, hc, ← hhead]
  constructor
  · exact fun hg => hg 0 Nat.one_pos
  · intro hg i hi
    rw [Nat.lt_one_iff.mp hi]
    exact hg

theorem grants_of_nil {d : ℕ} (hr : s.refuse = []) (h : c+d ≤ m.pageCount) : Grants m c s d := by
  intro i hi
  rw [hr]
  exact ⟨rfl, by omega⟩

theorem not_valid_filled (i : Fin 512) : ¬sv39.valid (filled 0 i) = true := by
  rw [valid_iff, filled]
  omega

/-- walk with alloc in an empty table of level `l`: it takes `l` pages, or fails. -/
theorem walkFrom_blank {l va : ℕ} (h : Heap m s (pt ::ₘ R)) (hb : s.word pt = filled 0) :
    ∃ r t, walkFrom va true l pt s = .ok (r, t) ∧
      ((r.isSome = true ∧ Grants m (R.card+1) s l ∧ t.refuse = s.refuse.drop l ∧ Keeps R s t ∧
          (nodes sv39 t.word l pt).card = l+1) ∨
        (r = none ∧ ¬Grants m (R.card+1) s l)) := by
  induction l generalizing pt s R with
  | zero =>
    refine ⟨_, s, rfl, Or.inl ⟨rfl, fun i hi => absurd hi (Nat.not_lt_zero i), rfl, Keeps.refl R s, ?_⟩⟩
    rw [nodes_zero, Multiset.card_singleton]
  | succ l ih =>
    have hzero : s.word pt (px (l+1) va) &&& pteV = 0 := by rw [hb, filled, Nat.zero_mul, Nat.zero_and]
    obtain ⟨q, t, hkalloc, hk, hrefuse, hq⟩ := kalloc_cases h
    have hone := @grants_one m s (pt ::ₘ R) (R.card+1) (Multiset.card_cons pt R)
    have hsplit := @grants_add m s t (R.card+1) 1 l (by rw [hrefuse, drop_one])
    rw [Nat.add_comm 1] at hsplit
    rw [walkFrom, run_bind (readWord_run pt _ s), if_neg (not_not.mpr hzero), if_neg (by decide), run_bind hkalloc]
    rcases hq with ⟨rfl, -, hno⟩ | ⟨h0, hheap, hyes⟩
    · exact ⟨none, t, rfl, Or.inr ⟨rfl, fun hg => hno (hone.mp (hsplit.mp hg).1)⟩⟩
    obtain ⟨u, hu⟩ : ∃ u, u = (t.setPage q (filled 0)).setWord pt (px (l+1) va) (pa2pte q ||| pteV) := ⟨_, rfl⟩
    have hqpt : pt ≠ q := fun he => (Multiset.nodup_cons.mp hheap.nodup).1 (he ▸ Multiset.mem_cons_self pt R)
    have hpt : u.word pt = update (filled 0) (px (l+1) va) (pa2pte q ||| pteV) := by
      rw [hu, Ram.setWord_self, Ram.setPage_of_ne _ hqpt, hk.word pt (Multiset.mem_cons_self pt R), hb]
    have hheapu : Heap m u (q ::ₘ pt ::ₘ R) := by
      rw [hu]
      exact (hheap.setPage (Multiset.mem_cons_self q _) _).setWord
        (Multiset.mem_cons_of_mem (Multiset.mem_cons_self pt R)) _ _
    have hqu : u.word q = filled 0 := by rw [hu, Ram.setWord_of_ne _ hqpt.symm, Ram.setPage_self]
    have hru : u.refuse = t.refuse := by rw [hu]; rfl
    have hfirst : (memset q 0 >>= fun _ => writeWord pt (px (l+1) va) (pa2pte q ||| pteV) >>=
        fun _ => walkFrom va true l q) t = walkFrom va true l q u := by
      rw [hu]
      rfl
    obtain ⟨r, v, hrun, hr⟩ := ih hheapu hqu
    rw [Multiset.card_cons] at hr
    have hg : Grants m (R.card+1+1) u l ↔ Grants m (R.card+1+1) t l := by rw [Grants, Grants, hru]
    refine ⟨r, v, ?_, hr.imp ?_ (fun h => ⟨h.1, ?_⟩)⟩
    · rw [if_neg h0]
      exact hfirst.trans hrun
    · rintro ⟨hs, hgr, href, hkv, hcard⟩
      refine ⟨hs, ?_, ?_, ?_, ?_⟩
      · exact hsplit.mpr ⟨hone.mpr hyes, hg.mp hgr⟩
      · rw [href, hru, hrefuse, ← drop_one, drop_drop, Nat.add_comm]
      · have hkR : Keeps R s u := by
          refine ⟨fun x hx => ?_, fun hnil => ?_⟩
          · have hxpt : x ≠ pt := fun he => (Multiset.nodup_cons.mp h.nodup).1 (he ▸ hx)
            have hxq : x ≠ q := fun he =>
              (Multiset.nodup_cons.mp hheap.nodup).1 (he ▸ Multiset.mem_cons_of_mem hx)
            rw [hu, Ram.setWord_of_ne _ hxpt, Ram.setPage_of_ne _ hxq, hk.word x (Multiset.mem_cons_of_mem hx)]
          · rw [hru]
            exact hk.refuse hnil
        exact hkR.trans (hkv.mono (fun x hx => Multiset.mem_cons_of_mem hx))
      · obtain ⟨hal, -, hlt⟩ := pages_mem (hheap.mem_pages (Multiset.mem_cons_self q _))
        have hstop := m.phystop_lt
        have hptv : v.word pt = update (filled 0) (px (l+1) va) (pa2pte q ||| pteV) :=
          (hkv.word pt (Multiset.mem_cons_self pt R)).trans hpt
        have hent : v.word pt (px (l+1) va) = pa2pte q ||| pteV := by rw [hptv, update_self]
        have hnext : sv39.next (v.word pt (px (l+1) va)) = q := by
          rw [hent]
          exact pte2pa_table hal (by omega)
        rw [nodes_single (i := px (l+1) va) (by rw [hent]; exact valid_pte _) (fun j hj => ?_), hnext,
          Multiset.card_cons, hcard]
        rw [hptv, update_of_ne hj]
        exact not_valid_filled j
    · exact fun hall => h.2 (hg.mpr (hsplit.mp hall).2)

theorem walkFrom_slot {l va q : ℕ} (hs : slot sv39 s.word l pt va = some q) (alloc : Bool) :
    walkFrom va alloc l pt s = .ok (some (q, px 0 va), s) := by
  induction l generalizing pt with
  | zero =>
    cases hs
    rfl
  | succ l ih =>
    by_cases hv : sv39.valid (s.word pt (sv39.digit (l+1) va)) = true
    · rw [slot_valid hv] at hs
      have hv' : s.word pt (px (l+1) va) &&& pteV ≠ 0 := valid_iff_and.mp hv
      rw [walkFrom, run_bind (readWord_run pt _ s), if_pos hv']
      exact ih hs
    · rw [slot_invalid hv] at hs
      cases hs

theorem mappages_of_walk {x : Option (ℕ × Fin 512)} {r : ℤ} {u : Ram} (hal : a%pgsize = 0)
    (ha : a < maxva) (hwalk : walk pt a true s = .ok (x, u))
    (hmap : mappages pt a pgsize pa perm s = .ok (r, t)) :
    (x = none ∧ r = -1 ∧ t = u) ∨ ∃ q i, x = some (q, i) ∧ r = 0 ∧ t = u.setWord q i (pa2pte pa ||| perm ||| pteV) := by
  rw [mappages_one hal ha, mapPage, bind_assoc, run_bind hwalk] at hmap
  cases x with
  | none =>
    cases hmap
    exact Or.inl ⟨rfl, rfl, rfl⟩
  | some e =>
    obtain ⟨q, i⟩ := e
    refine Or.inr ⟨q, i, rfl, ?_⟩
    by_cases hv : u.word q i &&& pteV ≠ 0
    · have herr : (readWord q i >>= fun pte => if pte &&& pteV ≠ 0 then throw .remap else do
          writeWord q i (pa2pte pa ||| perm ||| pteV)
          return true : M Bool) u = .error .remap := by
        rw [run_bind (readWord_run q i u), if_pos hv]
        rfl
      have hmap' := run_bind_ok hmap
      obtain ⟨b, v, hb, -⟩ := hmap'
      exact absurd (herr.symm.trans hb) (by intro h; cases h)
    have hok : (readWord q i >>= fun pte => if pte &&& pteV ≠ 0 then throw .remap else do
        writeWord q i (pa2pte pa ||| perm ||| pteV)
        return true : M Bool) u = .ok (true, u.setWord q i (pa2pte pa ||| perm ||| pteV)) := by
      rw [run_bind (readWord_run q i u), if_neg hv]
      rfl
    have hmap' := (run_bind hok _).symm.trans hmap
    cases hmap'
    exact ⟨rfl, rfl⟩

theorem uvmcreate_spec (h : Heap m s R) : ∃ q t, uvmcreate s = .ok (q, t) ∧ Keeps R s t ∧ t.refuse = s.refuse.tail ∧
      ((q = 0 ∧ Heap m t R ∧ ¬Granted m R s) ∨ (q ≠ 0 ∧ Heap m t (q ::ₘ R) ∧ t.word q = filled 0 ∧ Granted m R s)) := by
  obtain ⟨q, u, hrun, hk, href, hq⟩ := kalloc_cases h
  rw [uvmcreate, run_bind hrun]
  rcases hq with ⟨rfl, hu, hno⟩ | ⟨h0, hu, hyes⟩
  · exact ⟨0, u, rfl, hk, href, Or.inl ⟨rfl, hu, hno⟩⟩
  have hqR := (Multiset.nodup_cons.mp hu.nodup).1
  refine ⟨q, u.setPage q (filled 0), ?_, hk.trans (Keeps.setPage hqR _), href,
    Or.inr ⟨h0, hu.setPage (Multiset.mem_cons_self q R) _, Ram.setPage_self _ _, hyes⟩⟩
  rw [if_neg h0]
  rfl

theorem Space.blank (h : Heap m s (pt ::ₘ R)) (hb : s.word pt = filled 0) : Space m (fun _ => none) R s pt 0 := by
  have hno (i : Fin 512) : ¬sv39.valid (s.word pt i) = true := by
    rw [hb]
    exact not_valid_filled i
  refine ⟨?_, Inner.blank hno, fun j hj => absurd hj (Nat.not_lt_zero j), fun k _ _ => look_blank hno,
    Nat.zero_le _, fun _ _ => rfl⟩
  rw [tables, nodes_blank hno, frames, zero_add, Multiset.singleton_add]
  exact h

theorem map_trampoline (h : Heap m s (pt ::ₘ R)) (hb : s.word pt = filled 0) :
    ∃ r t, mappages pt trampoline pgsize pa perm s = .ok (r, t) ∧ Keeps R s t ∧
      ((r = 0 ∧ Space m (setTop (fun _ => none) trampoline (some (pa2pte pa ||| perm ||| pteV))) R t pt 0 ∧
          Grants m (R.card+1) s 2 ∧ t.refuse = s.refuse.drop 2 ∧ (tables t pt).card = 3) ∨
        (r = -1 ∧ Space m (fun _ => none) R t pt 0 ∧ ¬Grants m (R.card+1) s 2)) := by
  have hspace := Space.blank h hb
  have hheap := hspace.heap
  obtain ⟨r, t, hmap, hk, hr⟩ := @Space.mapTop m _ s R pt 0 trampoline pa perm hspace (by decide) (by decide)
    (by decide) rfl
  obtain ⟨x, u, hwalk, hx⟩ := @walkFrom_blank m s R pt 2 trampoline h hb
  obtain ⟨x', u', hwalk', hgrown, hx'⟩ := @walkFrom_true m s _ 2 pt trampoline hheap
  obtain ⟨rfl, rfl⟩ : x' = x ∧ u' = u := by
    rw [hwalk'] at hwalk
    injection hwalk with hpair
    exact ⟨congrArg Prod.fst hpair, congrArg Prod.snd hpair⟩
  have hlink := mappages_of_walk (by decide) (by decide) ((walk_run (by decide)).trans hwalk) hmap
  refine ⟨r, t, hmap, hk, ?_⟩
  rcases hlink with ⟨rfl, rfl, rfl⟩ | ⟨q, i, rfl, rfl, rfl⟩
  · rcases hx with ⟨hs, -⟩ | ⟨-, hno⟩
    · exact absurd hs (by decide)
    · rcases hr with ⟨h0, -⟩ | ⟨-, hsp⟩
      · exact absurd h0 (by decide)
      · exact Or.inr ⟨rfl, hsp, hno⟩
  rcases hx with ⟨-, hg, href, -, hcard⟩ | ⟨hn, -⟩
  · rcases hr with ⟨-, hsp⟩ | ⟨h0, -⟩
    · refine Or.inl ⟨rfl, hsp, hg, href, ?_⟩
      rcases hx' with ⟨q', hq', hslot⟩ | ⟨hn, -⟩
      · injection hq' with hpair
        obtain rfl : q = q' := congrArg Prod.fst hpair
        obtain rfl : i = px 0 trampoline := congrArg Prod.snd hpair
        rw [(Changed.setSlot hgrown.heap hslot _).2.1]
        exact hcard
      · cases hn
    · exact absurd h0 (by decide)
  · cases hn

theorem map_trapframe {w : ℕ} (h : Space m top R s pt 0) (hw : top trampoline = some w) (hnone : top trapframe = none) :
    ∃ t, mappages pt trapframe pgsize pa perm s = .ok (0, t) ∧ Keeps R s t ∧ t.refuse = s.refuse ∧
      (tables t pt).card = (tables s pt).card ∧
      Space m (setTop top trapframe (some (pa2pte pa ||| perm ||| pteV))) R t pt 0 := by
  obtain ⟨r, t, hmap, hk, hr⟩ := @Space.mapTop m top s R pt 0 trapframe pa perm h le_rfl (by decide) (by decide) hnone
  have hpte : pteOf s pt trampoline = some w := (h.above _ (by decide) (Nat.zero_le _)).trans hw
  obtain ⟨q, hq, -⟩ := look_some hpte
  have hslot : slot sv39 s.word 2 pt trapframe = some q := by
    rw [← hq]
    refine slot_same (fun j h0 hj => ?_)
    interval_cases j <;> rfl
  have hwalk : walk pt trapframe true s = .ok (some (q, px 0 trapframe), s) :=
    (walk_run (by decide)).trans (walkFrom_slot hslot true)
  rcases mappages_of_walk (by decide) (by decide) hwalk hmap with ⟨hn, -⟩ | ⟨q', i, hq', rfl, rfl⟩
  · cases hn
  injection hq' with hpair
  obtain rfl : q = q' := congrArg Prod.fst hpair
  obtain rfl : px 0 trapframe = i := congrArg Prod.snd hpair
  rcases hr with ⟨-, hsp⟩ | ⟨h0, -⟩
  · exact ⟨_, hmap, hk, rfl, congrArg Multiset.card (Changed.setSlot h.heap hslot _).2.1, hsp⟩
  · exact absurd h0 (by decide)

/-- proc_pagetable takes three pages, or none. -/
theorem procPagetable_spec (h : Heap m s R) (tf : ℕ) : ∃ r t, procPagetable m tf s = .ok (r, t) ∧ Keeps R s t ∧
      ((r = 0 ∧ Heap m t R ∧ ¬Grants m R.card s 3) ∨
        (r ≠ 0 ∧ Space m (procMap m tf) R t r 0 ∧ Grants m R.card s 3 ∧ t.refuse = s.refuse.drop 3 ∧
          (tables t r).card = 3)) := by
  obtain ⟨q, u, hcreate, hku, hru, hq⟩ := uvmcreate_spec h
  have hsplit := @grants_add m s u R.card 1 2 (by rw [hru, drop_one])
  rw [grants_one rfl] at hsplit
  rw [procPagetable, run_bind hcreate]
  rcases hq with ⟨rfl, hu, hno⟩ | ⟨h0, hu, hb, hyes⟩
  · exact ⟨0, u, rfl, hku, Or.inl ⟨rfl, hu, fun hg => hno (hsplit.mp hg).1⟩⟩
  obtain ⟨r, v, hmap, hkv, hr⟩ := @map_trampoline m u R q m.trampoline (pteR ||| pteX) hu hb
  rw [if_neg h0, run_bind hmap]
  rcases hr with ⟨rfl, hv, hg, hrv, hcard⟩ | ⟨rfl, hv, hno⟩
  · obtain ⟨t, hmap', hkt, hrt, hct, ht⟩ := @map_trapframe m _ v R q tf (pteR ||| pteW) _ hv (if_pos rfl)
      (if_neg (by decide))
    refine ⟨q, t, ?_, (hku.trans hkv).trans hkt, Or.inr ⟨h0, ht, hsplit.mpr ⟨hyes, hg⟩, ?_, hct.trans hcard⟩⟩
    · rw [if_neg (lt_irrefl 0), run_bind hmap', if_neg (lt_irrefl 0)]
      rfl
    · rw [hrt, hrv, hru, ← drop_one, drop_drop]
  · obtain ⟨t, hfree, hkt, ht⟩ := @uvmfree_spec m _ v R q 0 hv (fun _ _ => rfl)
    refine ⟨0, t, ?_, (hku.trans hkv).trans hkt, Or.inl ⟨rfl, ht, fun hg => hno (hsplit.mp hg).2⟩⟩
    rw [if_pos (by decide), run_bind hfree]
    rfl

end Xv6.Vm
