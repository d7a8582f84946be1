import Xv6.VmApart
import Xv6.VmBreak

/-! The contents of an address space whose pages are filled by the kernel: what a write to its user
memory leaves behind, and what uvmclear does. -/
namespace Xv6.Vm
open Hoare Radix Bytes Multiset

/-- The first `n` pages are as uvmalloc maps them and hold the bytes `f`. -/
def Image (s : Ram) (pt n : ℕ) (f : ℕ → UInt8) : Prop := ∀ k < pgsize*n, memAt s pt k = some (userFlags, f k)

variable {m : Machine} {top : ℕ → Option ℕ} {R : Multiset ℕ} {s t : Ram} {pt n k a tf : ℕ} {bs : List UInt8}
  {f : ℕ → UInt8}

variable {q w : ℕ} {x : ℕ × UInt8}

theorem mem_frames (h : q ∈ frames s pt 0 n) : ∃ j < n, q = frame s pt (pgsize*j) := by
  induction n with
  | zero => exact absurd h (notMem_zero q)
  | succ n ih =>
    rw [frames_succ, Nat.zero_add, mem_cons] at h
    rcases h with rfl | h
    · exact ⟨n, Nat.lt_succ_self n, rfl⟩
    · obtain ⟨j, hj, hq⟩ := ih h
      exact ⟨j, hj.trans (Nat.lt_succ_self n), hq⟩

theorem userFlags_user : userFlags &&& pteU ≠ 0 := by decide

theorem Space.keeps_written (h : Space m (procMap m tf) R s pt n) (hw : Written s t pt a bs) :
    Keeps (tables s pt+R) s t := by
  have hnd := nodup_add.mp h.heap.nodup
  refine ⟨fun q hq => hw.word q (fun k _ hf => ?_), fun hr => hw.refuse.trans hr⟩
  have hmem := (h.userFrame hf).2.2
  rcases mem_add.mp hq with hq | hq
  · exact disjoint_left.mp hnd.2.2 hq (mem_add.mpr (Or.inl hmem))
  · exact disjoint_left.mp (nodup_add.mp hnd.2.1).2.2 hmem hq

theorem Space.written (h : Space m (procMap m tf) R s pt n) (hw : Written s t pt a bs) :
    Space m (procMap m tf) R t pt n := by
  refine h.congr (h.keeps_written hw).left (h.heap.keep hw.freelist (fun q hq => hw.word q (fun k _ hf => hq ?_)))
  exact mem_add.mpr (Or.inr (mem_add.mpr (Or.inl (h.userFrame hf).2.2)))

theorem Space.written_kept {j : ℕ} (h : Space m (procMap m tf) R s pt n) (hw : Written s t pt a bs) (hj : j ≤ n)
    (ha : pgsize*j ≤ a) : Kept R s t pt j := by
  have hk := h.keeps_written hw
  have hframes := (nodup_add.mp (nodup_add.mp h.heap.nodup).2.1).1
  refine ⟨fun k _ => hk.left.pteOf k, ⟨fun q hq => ?_, hk.refuse⟩⟩
  rcases mem_add.mp hq with hq | hq
  · refine hw.word q (fun k _ hf => ?_)
    obtain ⟨i, hi, rfl⟩ := mem_frames hq
    obtain ⟨hlt, hfr, -⟩ := h.userFrame hf
    have heq := frames_inj hframes (hi.trans_le hj) (Nat.div_lt_of_lt_mul hlt) hfr
    have hle : j ≤ (a+k)/pgsize := (Nat.le_div_iff_mul_le (by decide)).mpr (by rw [Nat.mul_comm]; omega)
    omega
  · exact hk.right.word q hq

theorem memAt_some (h : memAt s pt k = some x) :
    ∃ w, pteOf s pt k = some w ∧ pteFlags w = x.1 ∧ s.byte (pte2pa w+k%pgsize) = x.2 := by
  obtain ⟨w, hw, rfl⟩ := Option.map_eq_some_iff.mp h
  exact ⟨w, hw, rfl, rfl⟩

theorem userFrame_of_pte (hk : k < maxva) (hw : pteOf s pt k = some w) (hu : pteFlags w &&& pteU ≠ 0) :
    userFrame s pt k = some (pte2pa w) := by
  have hu' : w &&& pteU ≠ 0 := by rwa [and_flags (by decide)]
  rw [userFrame, if_pos hk, hw, Option.filter_some_pos (by simpa using hu'), Option.map_some]

theorem userByte_of_memAt (hk : k < maxva) (h : memAt s pt k = some x) (hu : x.1 &&& pteU ≠ 0) :
    userByte s pt k = some x.2 := by
  obtain ⟨w, hw, hfl, hb⟩ := memAt_some h
  rw [userByte, userFrame_of_pte hk hw (by rwa [hfl]), Option.map_some, hb]

theorem Space.written_memAt (h : Space m (procMap m tf) R s pt n) (hw : Written s t pt a bs)
    (hk : k < maxva) (hx : memAt s pt k = some x) (hu : x.1 &&& pteU ≠ 0) :
    memAt t pt k = some (x.1, if a ≤ k ∧ k < a+bs.length then bs.getD (k-a) 0 else x.2) := by
  obtain ⟨w, hpte, hfl, -⟩ := memAt_some hx
  have hbyte := hw.byte k
  rw [userByte_of_memAt hk hx hu, userByte, hw.frame, userFrame_of_pte hk hpte (by rwa [hfl]), Option.map_some] at hbyte
  rw [memAt, (h.keeps_written hw).left.pteOf k, hpte, Option.map_some, hfl]
  by_cases hin : a ≤ k ∧ k < a+bs.length
  · rw [if_pos hin] at hbyte ⊢
    rw [List.getD_eq_getElem?_getD, ← hbyte, Option.getD_some]
  · rw [if_neg hin] at hbyte ⊢
    rw [Option.some.inj hbyte]

theorem Image.lt_maxva (h : Space m top R s pt n) (hk : k < pgsize*n) : k < maxva :=
  hk.trans_le (h.bound.trans (by decide))

theorem Image.userByte (h : Image s pt n f) (hs : Space m top R s pt n) (hk : k < pgsize*n) :
    userByte s pt k = some (f k) :=
  userByte_of_memAt (Image.lt_maxva hs hk) (h k hk) userFlags_user

theorem Image.written (h : Image s pt n f) (hs : Space m (procMap m tf) R s pt n) (hw : Written s t pt a bs) :
    Image t pt n (fun k => if a ≤ k ∧ k < a+bs.length then bs.getD (k-a) 0 else f k) :=
  fun k hk => hs.written_memAt hw (Image.lt_maxva hs hk) (h k hk) userFlags_user

def guardFlags : ℕ := pteW ||| pteX ||| pteR ||| pteV

theorem clear_flags (h : pteFlags w = userFlags) : pteFlags (w &&& (2^64-1-pteU)) = guardFlags := by
  rw [pteFlags] at h ⊢
  rw [Nat.and_mod_two_pow, h]
  decide

theorem clear_pa (w : ℕ) : pte2pa (w &&& (2^64-1-pteU)) = pte2pa w := by
  have hmask : (2^64-1-pteU)/2^10 = 2^54-1 := by decide
  rw [pte2pa, pte2pa, Nat.and_div_two_pow, hmask, Nat.and_two_pow_sub_one_eq_mod]
  omega

theorem uvmclear_spec {j : ℕ} (h : Space m top R s pt n) (hj : j < n) (hw : pteOf s pt (pgsize*j) = some w)
    (hfl : pteFlags w = userFlags) :
    ∃ t, uvmclear pt (pgsize*j) s = .ok ((), t) ∧ Space m top R t pt n ∧ Keeps R s t ∧ ∀ k < pgsize*n, memAt t pt k =
        if k/pgsize = j then (memAt s pt k).map (fun x => (guardFlags, x.2)) else memAt s pt k := by
  have hpos := pgsize_pos
  have hlt : pgsize*j < pgsize*n := Nat.mul_lt_mul_of_pos_left hj hpos
  have hva := Image.lt_maxva h hlt
  have hflags := clear_flags hfl
  obtain ⟨q, hslot, hq, hv⟩ := look_some hw
  obtain ⟨hch, -, hself, hother⟩ := Changed.setSlot h.heap hslot (w &&& (2^64-1-pteU))
  have hvalid : sv39.valid (w &&& (2^64-1-pteU)) = true := by
    have hodd : guardFlags%2 = 1 := by decide
    rw [pteFlags] at hflags
    exact valid_iff.mpr (by omega)
  rw [Option.filter_some_pos hvalid] at hself
  have hrest (k : ℕ) (hk : k < 2^39) (hne : k/pgsize ≠ j) : pteOf (s.setWord q (px 0 (pgsize*j))
      (w &&& (2^64-1-pteU))) pt k = pteOf s pt k := by
    refine hother k (fun hsame => hne ?_)
    have := (same_iff (hva.trans (by decide)) hk).mp hsame
    rw [pgsize] at *
    omega
  refine ⟨_, ?_, ⟨?_, hch.inner h.inner, fun i hi => ?_, fun k hk hkn => ?_, h.bound, h.free⟩, hch.keeps.right,
    fun k hk => ?_⟩
  · have hwalk : walk pt (pgsize*j) false s = .ok (some (q, px 0 (pgsize*j)), s) := by
      rw [walk_run hva, walkFrom_false, hslot]
      rfl
    have hread : readWord q (px 0 (pgsize*j)) s = .ok (w, s) := by
      rw [readWord_run]
      exact congrArg (fun x => Except.ok (x, s)) hq
    rw [uvmclear, run_bind hwalk]
    exact run_bind hread _
  · have hframes : frames (s.setWord q (px 0 (pgsize*j)) (w &&& (2^64-1-pteU))) pt 0 n = frames s pt 0 n := by
      refine frames_congr (fun i hi => ?_)
      rw [Nat.zero_add, frame, frame]
      by_cases hij : i = j
      · rw [hij, hself, hw, Option.getD_some, Option.getD_some, clear_pa]
      · rw [hrest _ (h.lt (Nat.mul_lt_mul_of_pos_left hi hpos)) (by rwa [Nat.mul_div_cancel_left _ hpos])]
    rw [hframes]
    exact hch.heap
  · by_cases hij : i = j
    · rw [hij]
      exact ⟨_, hself, by rw [hflags]; decide⟩
    · obtain ⟨w', hw', hl⟩ := h.leaf i hi
      refine ⟨w', ?_, hl⟩
      rw [hrest _ (h.lt (Nat.mul_lt_mul_of_pos_left hi hpos)) (by rwa [Nat.mul_div_cancel_left _ hpos]), hw']
  · rw [hrest k hk (fun hkj => ?_), h.above k hk hkn]
    have hkn' := (Nat.div_lt_iff_lt_mul hpos).mp (hkj.trans_lt hj)
    rw [Nat.mul_comm] at hkn'
    omega
  · have hword (w' : ℕ) (hw' : pteOf s pt k = some w') := hch.keeps.left.word _ (frame_of_pte (h.lt hk) hk hw')
    by_cases hkj : k/pgsize = j
    · have hpte : pteOf s pt k = some w := by rw [← pteOf_page (h.lt hk), hkj, hw]
      rw [if_pos hkj, memAt, memAt, ← pteOf_page (h.lt hk), hkj, hself, hpte, Option.map_some, Option.map_some,
        Option.map_some, hflags, clear_pa, byte_of_word (pte2pa_aligned w) (Nat.mod_lt _ hpos) (hword w hpte)]
    · rw [if_neg hkj]
      exact memAt_congr (hrest k (h.lt hk) hkj) hword

theorem Image.grow {sz newsz : ℕ} (h : Image s pt (pageNum sz) f) (hs : Space m (procMap m tf) R s pt (pageNum sz))
    (hf : ∀ k, pgsize*pageNum sz ≤ k → f k = 0) (hm : m.pageCount < 2^26) :
    ∃ r t, uvmalloc m pt sz newsz s = .ok (r, t) ∧ Keeps R s t ∧
      ((r = max sz newsz ∧ Space m (procMap m tf) R t pt (pageNum r) ∧ Image t pt (pageNum r) f) ∨
        (r = 0 ∧ Space m (procMap m tf) R t pt (pageNum sz) ∧
          (s.refuse = [] → m.pageCount ≤ size 512 2+(pageNum newsz+R.card)))) := by
  by_cases hlt : newsz < sz
  · refine ⟨sz, s, ?_, Keeps.refl R s, Or.inl ⟨(Nat.max_eq_left hlt.le).symm, hs, h⟩⟩
    rw [uvmalloc, if_pos hlt]
    rfl
  have hle : sz ≤ newsz := not_lt.mp hlt
  obtain ⟨r, t, hrun, hk, hr⟩ := uvmalloc_spec hs (procMap_ne_none m tf) hle (Or.inr hm)
  refine ⟨r, t, hrun, hk.keeps.right, hr.imp_left ?_⟩
  rintro ⟨rfl, ht, hblank⟩
  refine ⟨(Nat.max_eq_right hle).symm, ht, fun k hkn => ?_⟩
  by_cases hin : k < pgsize*pageNum sz
  · rw [hk.memAt (ht.lt hkn) hin, h k hin]
  · rw [(hblank k (ht.lt hkn) (not_lt.mp hin) hkn).memAt, hf k (not_lt.mp hin)]

end Xv6.Vm
