import Xv6.Hoare
import Xv6.Radix
import Mathlib.Data.Multiset.Basic

/-! The page allocator of kernel/kalloc.c, with the free list threaded through the free pages
themselves. -/
namespace Xv6.Vm
open Function Hoare Radix List

def pgsize : ℕ := 4096

theorem pgsize_pos : 0 < pgsize := by decide

scoped instance neZero512 : NeZero 512 := ⟨by decide⟩

/-- `PGROUNDUP`, in 64-bit arithmetic. -/
def pgroundup (sz : ℕ) : ℕ := (sz+pgsize-1)%2^64/pgsize*pgsize

def pgrounddown (a : ℕ) : ℕ := a/pgsize*pgsize

/-- Where the kernel ends, where RAM ends, and the page of trampoline code in the kernel. -/
structure Machine where
  kend : ℕ
  phystop : ℕ
  trampoline : ℕ
  kend_pos : 0 < kend
  kend_le : kend ≤ phystop
  phystop_lt : phystop < 2^56
  trampoline_aligned : trampoline%pgsize = 0
  trampoline_lt : trampoline < kend

inductive Panic where
  | kfree | walk | remap | unmapAligned | unmapWalk | unmapMapped | unmapLeaf | freewalkLeaf
  | inituvm | copyPte | copyPresent | uvmclear | loadsegAligned | loadsegAddress
  | filedup | fileclose | initExiting | kerneltrap | hang
  deriving DecidableEq

/-- Physical memory, a page at an address as 512 words of 64 bits, and kmem.freelist. The list
`refuse` says which of the next calls of kalloc fail although a page is free. -/
structure Ram where
  word : ℕ → Fin 512 → ℕ
  freelist : ℕ
  refuse : List Bool

abbrev M := Prog Ram Panic

def Ram.setPage (s : Ram) (pa : ℕ) (page : Fin 512 → ℕ) : Ram := { s with word := update s.word pa page }

def Ram.setWord (s : Ram) (pa : ℕ) (i : Fin 512) (v : ℕ) : Ram := { s with word := write s.word pa i v }

section Store
variable (s : Ram) {pa q : ℕ}

theorem Ram.setPage_self (page : Fin 512 → ℕ) : (s.setPage pa page).word pa = page := update_self ..

theorem Ram.setPage_of_ne (h : q ≠ pa) (page : Fin 512 → ℕ) : (s.setPage pa page).word q = s.word q :=
  update_of_ne h _ _

theorem Ram.setPage_setPage (page page' : Fin 512 → ℕ) : (s.setPage pa page).setPage pa page' = s.setPage pa page' :=
  congrArg (fun w => Ram.mk w s.freelist s.refuse) (update_idem ..)

theorem Ram.setWord_self (i : Fin 512) (v : ℕ) : (s.setWord pa i v).word pa = update (s.word pa) i v := update_self ..

theorem Ram.setWord_of_ne (h : q ≠ pa) (i : Fin 512) (v : ℕ) : (s.setWord pa i v).word q = s.word q := write_node h v

end Store

def filled (c : ℕ) : Fin 512 → ℕ := fun _ => c*0x0101010101010101

def memset (pa c : ℕ) : M Unit := modify (fun s => s.setPage pa (filled c))

def readWord (pa : ℕ) (i : Fin 512) : M ℕ := do
  let s ← get
  return s.word pa i

def writeWord (pa : ℕ) (i : Fin 512) (v : ℕ) : M Unit := modify (fun s => s.setWord pa i v)

def kfree (m : Machine) (pa : ℕ) : M Unit := do
  if pa%pgsize ≠ 0 ∨ pa < m.kend ∨ pa ≥ m.phystop then throw .kfree
  memset pa 1
  modify (fun s => { s.setWord pa 0 s.freelist with freelist := pa })

def kalloc : M ℕ := do
  let s ← get
  set { s with refuse := s.refuse.tail }
  if s.refuse.headD false then return 0
  else if s.freelist = 0 then return 0
  else do
    modify (fun s => { s with freelist := s.word s.freelist 0 })
    memset s.freelist 5
    return s.freelist

/-- The loop of freerange, with a bound on the number of pages. -/
def freerangeLoop (m : Machine) (paEnd : ℕ) : ℕ → ℕ → M Unit
  | 0, _ => return ()
  | n+1, p => do
    if p+pgsize ≤ paEnd then do
      kfree m p
      freerangeLoop m paEnd n (p+pgsize)

def freerange (m : Machine) (paStart paEnd : ℕ) : M Unit := freerangeLoop m paEnd (paEnd/pgsize) (pgroundup paStart)

def kinit (m : Machine) : M Unit := freerange m m.kend m.phystop

section Pages
variable (m : Machine)

def Machine.pageCount : ℕ := (m.phystop-pgroundup m.kend)/pgsize

/-- The pages that kinit puts on the free list. -/
def Machine.pages : Multiset ℕ := (Multiset.range m.pageCount).map (fun i => pgroundup m.kend+pgsize*i)

end Pages

def Linked (word : ℕ → Fin 512 → ℕ) : ℕ → List ℕ → Prop
  | h, [] => h = 0
  | h, p :: ps => h = p ∧ p ≠ 0 ∧ Linked word (word p 0) ps

/-- The pages that are not in use are on the free list, each of them once. -/
def Heap (m : Machine) (s : Ram) (used : Multiset ℕ) : Prop :=
  ∃ free : List ℕ, Linked s.word s.freelist free ∧ (free : Multiset ℕ)+used = m.pages

/-- What an operation that does not concern the pages in `R` leaves as it was. -/
structure Keeps (R : Multiset ℕ) (s t : Ram) : Prop where
  word : ∀ q ∈ R, t.word q = s.word q
  refuse : s.refuse = [] → t.refuse = []

variable {m : Machine} {s t u : Ram} {R U : Multiset ℕ} {p q : ℕ}

theorem Keeps.refl (R : Multiset ℕ) (s : Ram) : Keeps R s s := ⟨fun _ _ => rfl, id⟩

theorem Keeps.trans (h : Keeps R s t) (h' : Keeps R t u) : Keeps R s u :=
  ⟨fun q hq => (h'.word q hq).trans (h.word q hq), fun hr => h'.refuse (h.refuse hr)⟩

theorem Keeps.mono (h : Keeps U s t) (hR : ∀ q ∈ R, q ∈ U) : Keeps R s t := ⟨fun q hq => h.word q (hR q hq), h.refuse⟩

theorem Keeps.left (h : Keeps (U+R) s t) : Keeps U s t := h.mono (fun _ hq => Multiset.mem_add.mpr (Or.inl hq))

theorem Keeps.right (h : Keeps (U+R) s t) : Keeps R s t := h.mono (fun _ hq => Multiset.mem_add.mpr (Or.inr hq))

theorem pgroundup_eq {a : ℕ} (h : a < 2^63) : pgroundup a = (a+4095)/4096*4096 := by
  rw [pgroundup, pgsize, Nat.mod_eq_of_lt (by omega)]
  omega

theorem pages_mem (h : p ∈ m.pages) : p%pgsize = 0 ∧ m.kend ≤ p ∧ p < m.phystop := by
  have hend := m.kend_le
  have hstop := m.phystop_lt
  obtain ⟨i, hi, rfl⟩ := Multiset.mem_map.mp h
  rw [Multiset.mem_range, Machine.pageCount, pgroundup_eq (by omega), pgsize] at hi
  rw [pgroundup_eq (by omega), pgsize]
  omega

theorem pages_nodup (m : Machine) : m.pages.Nodup := by
  refine (Multiset.nodup_range _).map_on (fun i _ j _ hij => ?_)
  rw [pgsize] at hij
  omega

theorem pages_card (m : Machine) : m.pages.card = m.pageCount := by
  rw [Machine.pages, Multiset.card_map, Multiset.card_range]

section Heap

theorem Linked.congr {word word' : ℕ → Fin 512 → ℕ} {h : ℕ} {ps : List ℕ} (hl : Linked word h ps)
    (heq : ∀ p ∈ ps, word' p = word p) : Linked word' h ps := by
  induction ps generalizing h with
  | nil => exact hl
  | cons p ps ih =>
    refine ⟨hl.1, hl.2.1, ?_⟩
    rw [heq p mem_cons_self]
    exact ih hl.2.2 (fun r hr => heq r (mem_cons_of_mem p hr))

section
variable (h : Heap m s U)
include h

theorem Heap.nodup : U.Nodup := by
  obtain ⟨free, -, hall⟩ := h
  exact Multiset.nodup_of_le (Multiset.le_add_left U _) (hall ▸ pages_nodup m)

theorem Heap.mem_pages (hq : q ∈ U) : q ∈ m.pages := by
  obtain ⟨free, -, hall⟩ := h
  exact hall ▸ Multiset.mem_add.mpr (Or.inr hq)

theorem Heap.ne_zero (hq : q ∈ U) : q ≠ 0 := by
  have hpos := m.kend_pos
  have := (pages_mem (h.mem_pages hq)).2.1
  omega

theorem Heap.card_le : U.card ≤ m.pageCount := by
  obtain ⟨free, -, hall⟩ := h
  rw [← pages_card, ← hall, Multiset.card_add]
  exact Nat.le_add_left _ _

theorem Heap.keep (hfree : t.freelist = s.freelist) (hword : ∀ q ∉ U, t.word q = s.word q) : Heap m t U := by
  obtain ⟨free, hl, hall⟩ := h
  refine ⟨free, ?_, hall⟩
  rw [hfree]
  refine hl.congr (fun p hp => hword p (fun hU => ?_))
  have hnd := pages_nodup m
  rw [← hall, Multiset.nodup_add] at hnd
  exact Multiset.disjoint_left.mp hnd.2.2 (Multiset.mem_coe.mpr hp) hU

theorem Heap.setPage (hq : q ∈ U) (page : Fin 512 → ℕ) : Heap m (s.setPage q page) U :=
  h.keep rfl (fun _ hr => update_of_ne (ne_of_mem_of_not_mem hq hr).symm _ _)

theorem Heap.setWord (hq : q ∈ U) (i : Fin 512) (v : ℕ) : Heap m (s.setWord q i v) U := h.setPage hq _

end

theorem Heap.disjoint (h : Heap m s (U+R)) (hq : q ∈ U) : q ∉ R :=
  fun hR => Multiset.disjoint_left.mp (Multiset.nodup_add.mp h.nodup).2.2 hq hR

theorem Keeps.setPage (hq : q ∉ R) (page : Fin 512 → ℕ) : Keeps R s (s.setPage q page) :=
  ⟨fun _ hr => update_of_ne (ne_of_mem_of_not_mem hr hq) _ _, id⟩

theorem Keeps.setWord (hq : q ∉ R) (i : Fin 512) (v : ℕ) : Keeps R s (s.setWord q i v) := Keeps.setPage hq _

/-- The next call of kalloc returns a page: it is not made to fail, and not all pages are in use. -/
def Granted (m : Machine) (R : Multiset ℕ) (s : Ram) : Prop := s.refuse.headD false = false ∧ R.card < m.pageCount

theorem kalloc_cases (h : Heap m s R) : ∃ q t, kalloc s = .ok (q, t) ∧ Keeps R s t ∧ t.refuse = s.refuse.tail ∧
      ((q = 0 ∧ Heap m t R ∧ ¬Granted m R s) ∨ (q ≠ 0 ∧ Heap m t (q ::ₘ R) ∧ Granted m R s)) := by
  have hrefuse : s.refuse = [] → s.refuse.tail = [] := fun hr => by rw [hr, tail_nil]
  by_cases hr : s.refuse.headD false = true
  · refine ⟨0, { s with refuse := s.refuse.tail }, ?_, ⟨fun _ _ => rfl, hrefuse⟩, rfl, Or.inl ⟨rfl, h, fun hg => ?_⟩⟩
    · change (if s.refuse.headD false = true then _ else _ : M ℕ) _ = _
      rw [if_pos hr]
      rfl
    · exact absurd (hg.1.symm.trans hr) Bool.false_ne_true
  obtain ⟨free, hl, hall⟩ := id h
  have hcard : free.length+R.card = m.pageCount := by rw [← pages_card, ← hall, Multiset.card_add, Multiset.coe_card]
  cases free with
  | nil =>
    have h0 : s.freelist = 0 := hl
    refine ⟨0, { s with refuse := s.refuse.tail }, ?_, ⟨fun _ _ => rfl, hrefuse⟩, rfl, Or.inl ⟨rfl, h, fun hg => ?_⟩⟩
    · change (if s.refuse.headD false = true then _ else _ : M ℕ) _ = _
      rw [if_neg hr, if_pos h0]
      rfl
    · have hlt := hg.2
      rw [length_nil] at hcard
      omega
  | cons p ps =>
    obtain ⟨hp, hp0, hps⟩ := hl
    have hnd := pages_nodup m
    rw [← hall, ← Multiset.cons_coe, Multiset.cons_add, Multiset.nodup_cons] at hnd
    have hpR : p ∉ R := fun hR => hnd.1 (Multiset.mem_add.mpr (Or.inr hR))
    have hpps : p ∉ ps := fun hm => hnd.1 (Multiset.mem_add.mpr (Or.inl hm))
    refine ⟨p, Ram.setPage { s with refuse := s.refuse.tail, freelist := s.word p 0 } p (filled 5),
      ?_, ⟨fun r hr => update_of_ne (ne_of_mem_of_not_mem hr hpR) _ _, hrefuse⟩, rfl,
      Or.inr ⟨hp0, ⟨ps, ?_, ?_⟩, Bool.eq_false_iff.mpr hr, ?_⟩⟩
    · change (if s.refuse.headD false = true then _ else _ : M ℕ) _ = _
      rw [if_neg hr, if_neg (fun h0 => hp0 (hp.symm.trans h0)), hp]
      rfl
    · exact hps.congr (fun r hr => update_of_ne (ne_of_mem_of_not_mem hr hpps) _ _)
    · rw [Multiset.add_cons, ← Multiset.cons_add, Multiset.cons_coe, hall]
    · rw [length_cons] at hcard
      omega

/-- kalloc returns 0 or a page that was not in use, and it returns 0 only if it is made to or
all pages are in use. -/
theorem kalloc_spec (h : Heap m s R) : ∃ q t, kalloc s = .ok (q, t) ∧ Keeps R s t ∧
      ((q = 0 ∧ Heap m t R ∧ (s.refuse = [] → R = m.pages)) ∨ (q ≠ 0 ∧ Heap m t (q ::ₘ R))) := by
  obtain ⟨q, t, hrun, hk, -, hq⟩ := kalloc_cases h
  refine ⟨q, t, hrun, hk, hq.imp (fun h' => ⟨h'.1, h'.2.1, fun hnil => ?_⟩) (fun h' => ⟨h'.1, h'.2.1⟩)⟩
  have hfull : m.pageCount ≤ R.card := by
    by_contra hlt
    exact h'.2.2 ⟨by rw [hnil]; rfl, Nat.lt_of_not_le hlt⟩
  obtain ⟨free, -, hall⟩ := id h
  refine Multiset.eq_of_le_of_card_le (hall ▸ Multiset.le_add_left R _) ?_
  rwa [pages_card]

theorem kfree_spec (h : Heap m s (q ::ₘ R)) : ∃ t, kfree m q s = .ok ((), t) ∧ Keeps R s t ∧ Heap m t R := by
  obtain ⟨hal, hlo, hhi⟩ := pages_mem (h.mem_pages (Multiset.mem_cons_self q R))
  have h0 := h.ne_zero (Multiset.mem_cons_self q R)
  obtain ⟨free, hl, hall⟩ := id h
  have hnd := pages_nodup m
  rw [← hall, Multiset.add_cons, Multiset.nodup_cons] at hnd
  have hqR : q ∉ R := fun hR => hnd.1 (Multiset.mem_add.mpr (Or.inr hR))
  have hqf : q ∉ free := fun hm => hnd.1 (Multiset.mem_add.mpr (Or.inl hm))
  refine ⟨{ (s.setPage q (filled 1)).setWord q 0 s.freelist with freelist := q }, ?_,
    ⟨fun r hr => ?_, id⟩, q :: free, ⟨rfl, h0, ?_⟩, ?_⟩
  · change (if q%pgsize ≠ 0 ∨ q < m.kend ∨ q ≥ m.phystop then _ else _ : M Unit) s = _
    rw [if_neg (by omega)]
    rfl
  · exact ((Keeps.setPage hqR _).trans (Keeps.setWord hqR 0 s.freelist)).word r hr
  · change Linked (write (s.setPage q (filled 1)).word q 0 s.freelist)
      (write (s.setPage q (filled 1)).word q 0 s.freelist q 0) free
    rw [write_self]
    refine hl.congr (fun r hr => ?_)
    have hrq : r ≠ q := ne_of_mem_of_not_mem hr hqf
    rw [write_node hrq]
    exact update_of_ne hrq _ _
  · rw [← Multiset.cons_coe, Multiset.cons_add, ← Multiset.add_cons, hall]

def Machine.pagesFrom (m : Machine) (i : ℕ) : Multiset ℕ :=
  ((List.range' i (m.pageCount-i)).map (fun j => pgroundup m.kend+pgsize*j) : List ℕ)

theorem pagesFrom_zero (m : Machine) : m.pagesFrom 0 = m.pages := by
  rw [Machine.pagesFrom, Nat.sub_zero, ← range_eq_range', ← Multiset.map_coe, Multiset.coe_range]
  rfl

theorem pagesFrom_cons {i : ℕ} (h : i < m.pageCount) :
    m.pagesFrom i = (pgroundup m.kend+pgsize*i) ::ₘ m.pagesFrom (i+1) := by
  rw [Machine.pagesFrom, ← Nat.succ_pred_eq_of_pos (Nat.sub_pos_of_lt h), List.range'_succ, map_cons,
    ← Multiset.cons_coe, Nat.pred_eq_sub_one, Nat.sub_sub]
  rfl

theorem page_le_phystop (m : Machine) (i : ℕ) : pgroundup m.kend+pgsize*i+pgsize ≤ m.phystop ↔ i < m.pageCount := by
  have hend := m.kend_le
  have hlt := m.phystop_lt
  rw [Machine.pageCount, pgroundup_eq (by omega), pgsize]
  omega

theorem freerangeLoop_spec {n i : ℕ} (hn : m.pageCount ≤ i+n) (h : Heap m s (m.pagesFrom i)) :
    ∃ t, freerangeLoop m m.phystop n (pgroundup m.kend+pgsize*i) s = .ok ((), t) ∧ Heap m t 0 ∧
      (s.refuse = [] → t.refuse = []) := by
  induction n generalizing i s with
  | zero =>
    refine ⟨s, rfl, ?_, id⟩
    rwa [Machine.pagesFrom, Nat.sub_eq_zero_of_le (by omega), List.range'_zero, map_nil, Multiset.coe_nil] at h
  | succ n ih =>
    rw [freerangeLoop]
    by_cases hi : i < m.pageCount
    · rw [pagesFrom_cons hi] at h
      obtain ⟨t, ht, hk, hheap⟩ := kfree_spec h
      rw [if_pos ((page_le_phystop m i).mpr hi), run_bind ht, Nat.add_assoc, ← Nat.mul_succ]
      obtain ⟨u, hu, hheapu, hrefuse⟩ := ih (by omega) hheap
      exact ⟨u, hu, hheapu, fun hnil => hrefuse (hk.refuse hnil)⟩
    · rw [if_neg (fun hle => hi ((page_le_phystop m i).mp hle))]
      refine ⟨s, rfl, ?_, id⟩
      rwa [Machine.pagesFrom, Nat.sub_eq_zero_of_le (by omega), List.range'_zero, map_nil, Multiset.coe_nil] at h

/-- kinit puts every page of the range on the free list, once. -/
theorem kinit_spec (h : s.freelist = 0) :
    ∃ t, kinit m s = .ok ((), t) ∧ Heap m t 0 ∧ (s.refuse = [] → t.refuse = []) := by
  have hstart : Heap m s (m.pagesFrom 0) := by
    refine ⟨[], h, ?_⟩
    rw [pagesFrom_zero, Multiset.coe_nil, zero_add]
  have hn : m.pageCount ≤ 0+m.phystop/pgsize := by
    rw [Machine.pageCount, Nat.zero_add]
    exact Nat.div_le_div_right (Nat.sub_le _ _)
  simpa only [kinit, freerange, Nat.mul_zero, Nat.add_zero] using freerangeLoop_spec hn hstart

end Heap

end Xv6.Vm
