import Xv6.ExecModel
import Xv6.VmImage

/-! Loading a program: what readi returns of the file, and where exec's segments put it. -/
namespace Xv6.Exec
open Hoare Vm Bytes List

variable {m : Machine} {R : Multiset ℕ} {s t : Ram} {pt n va sz offset off tf : ℕ} {data bs : List UInt8}
  {f : ℕ → UInt8}

theorem maxsize_le : maxsize ≤ 2^32-pgsize := by decide

theorem readi_length_le (data : List UInt8) (off n : ℕ) : (readi data off n).length ≤ n := by
  rw [readi]
  split
  · exact Nat.zero_le n
  · exact length_take_le _ _

theorem readi_full (hn : 0 < n) (h : (readi data off n).length = n) :
    off+n ≤ data.length ∧ readi data off n = (data.drop off).take n := by
  rw [readi] at h ⊢
  split at h
  · exact absurd h (by rw [length_nil]; omega)
  rename_i hin
  rw [length_take, length_drop] at h
  rw [if_neg hin]
  exact ⟨by omega, rfl⟩

theorem readi_length (hlen : data.length < 2^32) (h : off+n ≤ data.length) : (readi data off n).length = n := by
  rw [readi, if_neg (by omega), length_take, length_drop]
  omega

theorem memmove_run (pa : ℕ) (bs : List UInt8) (s : Ram) : memmove pa bs s = .ok ((), s.setBytes pa bs) := rfl

/-- The loop of loadseg, from page `i` on. It ends because a file is not so long that the index could
wrap around. -/
theorem loadLoop_spec {fuel i : ℕ} (hs : UserSpace s pt) (hmap : ∀ k < sz, UserMapped s pt (va+k))
    (hva : va+sz ≤ maxva) (hal : va%pgsize = 0) (hi : i%pgsize = 0) (hlen : data.length ≤ 2^32-pgsize)
    (hoff : offset < 2^32) (hsz : sz < 2^32) (hin : sz ≤ i ∨ i = 0 ∨ offset+i ≤ data.length)
    (hle : i < sz+pgsize) (hfuel : sz+pgsize ≤ i+pgsize*fuel) :
    ∃ r t bs, loadLoop pt va data offset sz fuel i s = .ok (r, t) ∧ Written s t pt (va+i) bs ∧
      ((r = 0 ∧ bs = (data.drop (offset+i)).take (sz-i) ∧ (sz ≤ i ∨ offset+sz ≤ data.length)) ∨
        (r = -1 ∧ i < sz ∧ data.length < offset+sz)) := by
  induction fuel generalizing s i with
  | zero => omega
  | succ fuel ih =>
    have hpos := pgsize_pos
    rw [loadLoop]
    by_cases hlt : i < sz
    · obtain ⟨g, hg⟩ := Option.isSome_iff_exists.mp (hmap i hlt)
      have hg0 : g ≠ 0 := fun h0 => hs.ne_zero _ (h0 ▸ hg)
      have hround : pgrounddown (va+i) = va+i := by
        rw [pgrounddown, pgsize] at *
        omega
      have hmod : (va+i)%2^64 = va+i := by
        rw [maxva] at hva
        omega
      have hwalk := walkaddr_user s pt (va+i)
      have hzero : (va+i)%pgsize = 0 := by
        rw [pgsize] at *
        omega
      have hoi : (offset+i)%2^32 = offset+i := by
        rw [pgsize] at hlen
        omega
      rw [hround, hg, Option.getD_some] at hwalk
      rw [if_pos hlt, hmod, run_bind hwalk, if_neg hg0, hoi]
      generalize hn : (if sz-i < pgsize then sz-i else pgsize) = n
      have hn' : n = min (sz-i) pgsize := by
        rw [← hn]
        split <;> omega
      have hroom : (readi data (offset+i) n).length ≤ pgsize-(va+i)%pgsize := by
        have := readi_length_le data (offset+i) n
        omega
      have hw := hs.memmove hg hroom
      rw [hzero, Nat.add_zero] at hw
      rw [run_bind (memmove_run _ _ s)]
      by_cases hfull : (readi data (offset+i) n).length = n
      · obtain ⟨hend, hbytes⟩ := readi_full (by omega : 0 < n) hfull
        have hnext : (i+pgsize)%2^32 = i+pgsize := Nat.mod_eq_of_lt (by rw [pgsize] at *; omega)
        rw [if_neg (fun h => h hfull), hnext]
        rw [Nat.mul_succ] at hfuel
        by_cases hlast : sz ≤ i+pgsize
        · -- the last page, after which the loop ends
          have hn : n = sz-i := by omega
          obtain ⟨fuel, rfl⟩ : ∃ x, fuel = x+1 := Nat.exists_eq_succ_of_ne_zero (by rintro rfl; omega)
          refine ⟨0, _, _, by rw [loadLoop, if_neg (by omega)]; rfl, hw, Or.inl ⟨rfl, ?_, Or.inr (by omega)⟩⟩
          rw [hbytes, hn]
        have hn : n = pgsize := by omega
        obtain ⟨r, t, cs, hrun, hwt, hr⟩ := ih (i := i+pgsize) (hs.congr hw)
          (fun k hk => by rw [UserMapped, hw.frame]; exact hmap k hk) (by rw [Nat.add_mod_right, hi]) (by omega)
          (by omega) (by omega)
        have hnext : va+(i+pgsize) = va+i+(readi data (offset+i) n).length := by rw [hfull, hn, Nat.add_assoc]
        rw [hnext] at hwt
        refine ⟨r, t, _, hrun, hw.append hwt, hr.imp (fun h => ⟨h.1, ?_, by omega⟩)
          (fun h => ⟨h.1, hlt, h.2.2⟩)⟩
        rw [h.2.1, hbytes, hn, show sz-i = pgsize+(sz-(i+pgsize)) by omega, take_add, drop_drop, Nat.add_assoc]
      · refine ⟨-1, _, _, by rw [if_pos hfull]; rfl, hw, Or.inr ⟨rfl, hlt, ?_⟩⟩
        by_contra hshort
        exact hfull (readi_length (by rw [pgsize] at hlen; omega) (by omega))
    · refine ⟨0, s, [], by rw [if_neg hlt]; rfl, Written.nil s pt _, Or.inl ⟨rfl, ?_, Or.inl (by omega)⟩⟩
      rw [Nat.sub_eq_zero_of_le (by omega), take_zero]

theorem loadseg_spec {filesz : ℕ} (hs : UserSpace s pt) (hmap : ∀ k < filesz%2^32, UserMapped s pt (va+k))
    (hva : va+filesz%2^32 ≤ maxva) (hal : va%pgsize = 0) (hlen : data.length ≤ 2^32-pgsize) :
    ∃ r t bs, loadseg pt va data offset filesz s = .ok (r, t) ∧ Written s t pt va bs ∧
      ((r = 0 ∧ bs = (data.drop (offset%2^32)).take (filesz%2^32) ∧
          (filesz%2^32 = 0 ∨ offset%2^32+filesz%2^32 ≤ data.length)) ∨
        (r = -1 ∧ 0 < filesz%2^32 ∧ data.length < offset%2^32+filesz%2^32)) := by
  have hmod : filesz%2^32 < 2^32 := Nat.mod_lt _ (by decide)
  obtain ⟨r, t, bs, hrun, hw, hr⟩ := @loadLoop_spec s pt va (filesz%2^32) (offset%2^32) data
    (filesz%2^32/pgsize+2) 0 hs hmap hva hal rfl hlen (Nat.mod_lt _ (by decide)) hmod (Or.inr (Or.inl rfl))
    (by rw [pgsize]; omega) (by rw [pgsize]; omega)
  rw [Nat.sub_zero, Nat.add_zero] at hr
  refine ⟨r, t, bs, ?_, hw, hr.imp_left (fun h => ⟨h.1, h.2.1, by omega⟩)⟩
  rw [loadseg, if_neg (fun h => h hal), hrun]

/-- The file bytes of a segment are in the file. The offset is taken modulo 2^32, and so is the size. -/
def ProgHdr.InFile (data : List UInt8) (ph : ProgHdr) : Prop := ∀ k < ph.filesz%2^32, (ph.off+k)%2^32 < data.length

structure ProgHdr.Loadable (data : List UInt8) (ph : ProgHdr) : Prop where
  size : ph.filesz ≤ ph.memsz
  fits : ph.vaddr+ph.memsz < 2^64
  pos : 0 < ph.vaddr+ph.memsz
  aligned : ph.vaddr%pgsize = 0
  inFile : ph.InFile data

def ProgHdr.overlay (data : List UInt8) (f : ℕ → UInt8) (ph : ProgHdr) (k : ℕ) : UInt8 :=
  if ph.vaddr ≤ k ∧ k < ph.vaddr+ph.filesz%2^32 then data.getD ((ph.off+(k-ph.vaddr))%2^32) 0 else f k

def headers (data : List UInt8) : ℕ → ℕ → List ProgHdr
  | 0, _ => []
  | n+1, off => proghdr (readi data off proghdrSize) :: headers data n ((off+proghdrSize)%2^32)

def HeadersIn (data : List UInt8) : ℕ → ℕ → Prop
  | 0, _ => True
  | n+1, off => (readi data off proghdrSize).length = proghdrSize ∧ HeadersIn data n ((off+proghdrSize)%2^32)

def segments (data : List UInt8) (n off : ℕ) : List ProgHdr :=
  (headers data n off).filter (fun ph => decide (ph.type = elfProgLoad))

theorem leNat_lt (bs : List UInt8) : leNat bs < 256^bs.length := by
  induction bs with
  | nil => exact Nat.one_pos
  | cons b =>
    have hb := b.toNat_lt
    rw [leNat, length_cons, pow_succ]
    omega

theorem field_lt (bs : List UInt8) (off len : ℕ) : field bs off len < 256^len :=
  (leNat_lt _).trans_le (Nat.pow_le_pow_right (by decide) (length_take_le _ _))

theorem proghdr_lt (bs : List UInt8) : (proghdr bs).vaddr < 2^64 ∧ (proghdr bs).memsz < 2^64 :=
  ⟨(field_lt bs 16 8).trans_le (by decide), (field_lt bs 40 8).trans_le (by decide)⟩

variable {ph : ProgHdr}

theorem overlay_zero {a b : ℕ} (hf : ∀ k, a ≤ k → f k = 0) (hab : a ≤ b)
    (hph : ph.vaddr+ph.filesz%2^32 ≤ b) (k : ℕ) (hk : b ≤ k) : ph.overlay data f k = 0 := by
  rw [ProgHdr.overlay, if_neg (by omega), hf k (by omega)]

theorem loadSegment_spec (h : Image s pt (pageNum sz) f)
    (hs : Space m (procMap m tf) R s pt (pageNum sz)) (hf : ∀ k, pgsize*pageNum sz ≤ k → f k = 0)
    (hm : m.pageCount < 2^26) (hlen : data.length ≤ 2^32-pgsize) (hv : ph.vaddr < 2^64) (hz : ph.memsz < 2^64) :
    ∃ b sz' t, loadSegment m pt data ph sz s = .ok ((b, sz'), t) ∧ Keeps R s t ∧
      Space m (procMap m tf) R t pt (pageNum sz') ∧
      ((b = true ∧ Image t pt (pageNum sz') (ph.overlay data f) ∧ sz' = max sz (ph.vaddr+ph.memsz) ∧
          ph.vaddr+ph.filesz%2^32 ≤ sz' ∧ ph.InFile data) ∨
        (b = false ∧ (ph.Loadable data → s.refuse = [] →
          m.pageCount ≤ Radix.size 512 2+(pageNum (ph.vaddr+ph.memsz)+R.card)))) := by
  rw [loadSegment]
  by_cases h1 : ph.memsz < ph.filesz
  · exact ⟨false, sz, s, by rw [if_pos h1]; rfl, Keeps.refl R s, hs,
      Or.inr ⟨rfl, fun hok => absurd hok.size (by omega)⟩⟩
  by_cases h2 : (ph.vaddr+ph.memsz)%2^64 < ph.vaddr
  · exact ⟨false, sz, s, by rw [if_neg h1, if_pos h2]; rfl, Keeps.refl R s, hs,
      Or.inr ⟨rfl, fun hok => absurd hok.fits (by omega)⟩⟩
  have hend : (ph.vaddr+ph.memsz)%2^64 = ph.vaddr+ph.memsz := by omega
  rw [if_neg h1, if_neg h2, hend]
  obtain ⟨sz1, u, hrun, hku, hr⟩ := @Image.grow m R s pt tf f sz (ph.vaddr+ph.memsz) h hs hf hm
  rw [run_bind hrun]
  by_cases h0 : sz1 = 0
  · refine ⟨false, sz, u, by rw [if_pos h0]; rfl, hku, ?_⟩
    rcases hr with ⟨hmax, hu, -⟩ | ⟨-, hu, hall⟩
    · have hsz : sz = sz1 := by omega
      rw [← hsz] at hu
      exact ⟨hu, Or.inr ⟨rfl, fun hok => absurd hok.pos (by omega)⟩⟩
    · exact ⟨hu, Or.inr ⟨rfl, fun _ => hall⟩⟩
  obtain ⟨hmax, hu, himg⟩ : sz1 = max sz (ph.vaddr+ph.memsz) ∧ Space m (procMap m tf) R u pt (pageNum sz1) ∧
      Image u pt (pageNum sz1) f := hr.resolve_right (fun hr => h0 hr.1)
  rw [if_neg h0]
  by_cases hal : ph.vaddr%pgsize = 0
  · have hfile : ph.filesz%2^32 ≤ ph.filesz := Nat.mod_le _ _
    have hpages := le_pageNum sz1
    have hbound := hu.bound.trans (by decide : trapframe ≤ maxva)
    obtain ⟨r, t, bs, hload, hw, hr⟩ := @loadseg_spec u pt ph.vaddr ph.off data ph.filesz hu.userSpace
      (fun k hk => userMapped_of_byte (himg.userByte hu (by omega))) (by omega) hal hlen
    rw [if_neg (fun h => h hal), run_bind hload]
    refine ⟨decide (0 ≤ r), sz1, t, rfl, hku.trans (hu.keeps_written hw).right, hu.written hw, ?_⟩
    rcases hr with ⟨rfl, hbs, hin⟩ | ⟨rfl, hpos, hshort⟩
    · have hlt : data.length < 2^32 := by
        rw [pgsize] at hlen
        omega
      have hcount : bs.length = ph.filesz%2^32 := by
        rw [hbs, length_take, length_drop]
        omega
      have hwrap (i : ℕ) (hi : i < ph.filesz%2^32) : (ph.off+i)%2^32 = ph.off%2^32+i := by omega
      refine Or.inl ⟨rfl, fun k hk => ?_, hmax, by omega, fun k hk => by rw [hwrap k hk]; omega⟩
      rw [himg.written hu hw k hk, hcount, ProgHdr.overlay]
      dsimp only
      by_cases hk' : ph.vaddr ≤ k ∧ k < ph.vaddr+ph.filesz%2^32
      · rw [if_pos hk', if_pos hk', hwrap _ (by omega), hbs, getD_eq_getElem?_getD, getD_eq_getElem?_getD,
          List.getElem?_take_of_lt (by omega), List.getElem?_drop]
      · rw [if_neg hk', if_neg hk']
    · -- a byte past the end of the file would have to be in it
      refine Or.inr ⟨rfl, fun hok => ?_⟩
      have hfirst := hok.inFile 0 hpos
      have hend := hok.inFile (data.length-ph.off%2^32) (by omega)
      rw [pgsize] at hlen
      omega
  · exact ⟨false, sz1, u, by rw [if_pos hal]; rfl, hku, hu, Or.inr ⟨rfl, fun hok => absurd hok.aligned hal⟩⟩

def endOf (sz : ℕ) (segs : List ProgHdr) : ℕ := segs.foldl (fun z ph => max z (ph.vaddr+ph.memsz)) sz

theorem le_endOf (sz : ℕ) (segs : List ProgHdr) : sz ≤ endOf sz segs := by
  induction segs generalizing sz with
  | nil => exact le_rfl
  | cons ph segs ih => exact (Nat.le_max_left _ _).trans (ih _)

theorem seg_le_endOf {segs : List ProgHdr} (h : ph ∈ segs) (sz : ℕ) : ph.vaddr+ph.memsz ≤ endOf sz segs := by
  induction segs generalizing sz with
  | nil => cases h
  | cons q segs ih =>
    rcases mem_cons.mp h with rfl | h
    · exact (Nat.le_max_right _ _).trans (le_endOf _ _)
    · exact ih h _

theorem segments_succ (data : List UInt8) (n off : ℕ) : segments data (n+1) off =
    if (proghdr (readi data off proghdrSize)).type = elfProgLoad
    then proghdr (readi data off proghdrSize) :: segments data n ((off+proghdrSize)%2^32)
    else segments data n ((off+proghdrSize)%2^32) := by
  rw [segments, headers, filter_cons]
  simp only [decide_eq_true_eq]
  rfl

theorem loadSegments_spec (h : Image s pt (pageNum sz) f) (hs : Space m (procMap m tf) R s pt (pageNum sz))
    (hf : ∀ k, pgsize*pageNum sz ≤ k → f k = 0) (hm : m.pageCount < 2^26) (hlen : data.length ≤ 2^32-pgsize) :
    ∃ b sz' t, loadSegments m pt data n off sz s = .ok ((b, sz'), t) ∧ Keeps R s t ∧
      Space m (procMap m tf) R t pt (pageNum sz') ∧
      ((b = true ∧ Image t pt (pageNum sz') ((segments data n off).foldl (ProgHdr.overlay data) f) ∧
          (∀ k, pgsize*pageNum sz' ≤ k → (segments data n off).foldl (ProgHdr.overlay data) f k = 0) ∧
          sz' = endOf sz (segments data n off) ∧
          ∀ ph ∈ segments data n off, ph.vaddr+ph.filesz%2^32 ≤ sz' ∧ ph.InFile data) ∨
        (b = false ∧ (HeadersIn data n off → (∀ ph ∈ segments data n off, ph.Loadable data) → s.refuse = [] →
          ∃ ph ∈ segments data n off, m.pageCount ≤ Radix.size 512 2+(pageNum (ph.vaddr+ph.memsz)+R.card)))) := by
  induction n generalizing s sz f off with
  | zero => exact ⟨true, sz, s, rfl, Keeps.refl R s, hs, Or.inl ⟨rfl, h, hf, rfl, nofun⟩⟩
  | succ n ih =>
    rw [loadSegments, segments_succ]
    by_cases hshort : (readi data off proghdrSize).length = proghdrSize
    · rw [if_neg (fun h => h hshort)]
      by_cases htype : (proghdr (readi data off proghdrSize)).type = elfProgLoad
      · rw [if_neg (fun h => h htype), if_pos htype]
        obtain ⟨hv, hz⟩ := proghdr_lt (readi data off proghdrSize)
        obtain ⟨b, sz1, u, hrun, hku, hu, hb⟩ := loadSegment_spec h hs hf hm hlen hv hz
        rw [run_bind hrun]
        rcases hb with ⟨rfl, himg, hmax, hend, hin⟩ | ⟨rfl, hall⟩
        · have hnum := Nat.mul_le_mul_left pgsize (pageNum_mono (hmax ▸ Nat.le_max_left sz _ : sz ≤ sz1))
          obtain ⟨b, sz', t, hrest, hkt, ht, hb⟩ := @ih u sz1 ((off+proghdrSize)%2^32) _ himg hu
            (overlay_zero hf hnum (hend.trans (le_pageNum sz1)))
          refine ⟨b, sz', t, hrest, hku.trans hkt, ht, hb.imp (fun ⟨hb, himg', hzero, hsz', hall⟩ => ?_)
            (fun ⟨hb, hall⟩ => ⟨hb, fun hh hseg hr => ?_⟩)⟩
          · refine ⟨hb, himg', hzero, by rw [hsz', hmax]; rfl, fun ph hph => ?_⟩
            rcases mem_cons.mp hph with rfl | hph
            · exact ⟨hend.trans (hsz' ▸ le_endOf sz1 _), hin⟩
            · exact hall ph hph
          · obtain ⟨ph, hph, hcard⟩ := hall hh.2 (fun ph hph => hseg ph (mem_cons_of_mem _ hph)) (hku.refuse hr)
            exact ⟨ph, mem_cons_of_mem _ hph, hcard⟩
        · exact ⟨false, sz1, u, rfl, hku, hu, Or.inr ⟨rfl, fun _ hseg hr =>
            ⟨_, mem_cons_self, hall (hseg _ mem_cons_self) hr⟩⟩⟩
      · rw [if_pos htype, if_neg htype]
        obtain ⟨b, sz', t, hrest, hkt, ht, hb⟩ := ih h hs hf
        exact ⟨b, sz', t, hrest, hkt, ht, hb.imp_right (fun ⟨hb, hall⟩ => ⟨hb, fun hh => hall hh.2⟩)⟩
    · exact ⟨false, sz, s, by rw [if_pos hshort]; rfl, Keeps.refl R s, hs, Or.inr ⟨rfl, fun hh => absurd hh.1 hshort⟩⟩

/-- A program with its stack: the image in the first `n` pages, then a page that user code cannot
reach, then the stack. -/
structure Stacked (s : Ram) (pt n : ℕ) (f : ℕ → UInt8) : Prop where
  image : Image s pt n f
  guard : ∀ k, pgsize*n ≤ k → k < pgsize*(n+1) → memAt s pt k = some (guardFlags, 0)
  stack : ∀ k, pgsize*(n+1) ≤ k → k < pgsize*(n+2) → memAt s pt k = some (userFlags, 0)

theorem stackPages_spec (h : Image s pt (pageNum sz) f) (hs : Space m (procMap m tf) R s pt (pageNum sz))
    (hf : ∀ k, pgsize*pageNum sz ≤ k → f k = 0) (hm : m.pageCount < 2^26) :
    ∃ b sz' t, stackPages m pt sz s = .ok ((b, sz'), t) ∧ Keeps R s t ∧ Space m (procMap m tf) R t pt (pageNum sz') ∧
      ((b = true ∧ sz' = pgsize*(pageNum sz+2) ∧ Stacked t pt (pageNum sz) f) ∨
        (b = false ∧ (s.refuse = [] → m.pageCount ≤ Radix.size 512 2+(pageNum sz+2+R.card)))) := by
  have hsz : sz ≤ maxva := (le_pageNum sz).trans (hs.bound.trans (by decide))
  have hbound := hs.bound
  have hnew : (pgsize*pageNum sz+2*pgsize)%2^64 = pgsize*(pageNum sz+2) := by
    rw [trapframe, trampoline, maxva, pgsize] at *
    omega
  rw [stackPages, pgroundup_pageNum hsz, hnew]
  generalize pageNum sz = n at *
  obtain ⟨r, u, hrun, hku, hr⟩ := @Image.grow m R s pt tf f (pgsize*n) (pgsize*(n+2)) (by rwa [pageNum_mul])
    (by rwa [pageNum_mul]) (by rwa [pageNum_mul]) hm
  have hmax : max (pgsize*n) (pgsize*(n+2)) = pgsize*(n+2) := Nat.max_eq_right (Nat.mul_le_mul_left _ (by omega))
  rw [run_bind hrun]
  rw [hmax, pageNum_mul, pageNum_mul] at hr
  rcases hr with ⟨rfl, hu, himg⟩ | ⟨rfl, hu, hall⟩
  · rw [pageNum_mul] at hu himg
    have hclear : (pgsize*(n+2)+(2^64-2*pgsize))%2^64 = pgsize*n := by
      rw [trapframe, trampoline, maxva, pgsize] at *
      omega
    obtain ⟨w, hw, hfl, -⟩ := memAt_some (himg (pgsize*n) (Nat.mul_lt_mul_of_pos_left (by omega) pgsize_pos))
    obtain ⟨t, hrun', ht, hkt, hmem⟩ := uvmclear_spec hu (by omega) hw hfl
    have hpage (k i : ℕ) (hlo : pgsize*i ≤ k) (hhi : k < pgsize*(i+1)) : k/pgsize = i := by
      rw [pgsize] at *
      omega
    have hone : pgsize*(n+1) = pgsize*n+pgsize := Nat.mul_succ _ _
    have htwo : pgsize*(n+2) = pgsize*(n+1)+pgsize := Nat.mul_succ _ _
    rw [if_neg (Nat.mul_pos pgsize_pos (by omega)).ne', hclear, run_bind hrun']
    refine ⟨true, _, t, rfl, hku.trans hkt, by rwa [pageNum_mul], Or.inl ⟨rfl, rfl, fun k hk => ?_, fun k hlo hhi => ?_,
      fun k hlo hhi => ?_⟩⟩
    · rw [hmem k (by omega), if_neg (Nat.ne_of_lt (Nat.div_lt_of_lt_mul hk)), himg k (by omega)]
    · rw [hmem k (by omega), if_pos (hpage k n hlo hhi), himg k (by omega), Option.map_some, hf k hlo]
    · rw [hmem k (by omega), hpage k (n+1) hlo hhi, if_neg (by omega), himg k (by omega), hf k (by omega)]
  · exact ⟨false, _, u, rfl, hku, by rwa [pageNum_mul], Or.inr ⟨rfl, hall⟩⟩

end Xv6.Exec
