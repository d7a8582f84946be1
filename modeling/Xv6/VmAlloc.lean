import Xv6.VmProc
import Xv6.VmLife
import Xv6.Runs

/-! allocproc and freeproc: a process gets a trapframe, a page table and a second trapframe for its
signal handlers, and gives them back. -/
namespace Xv6.Vm
open Function Hoare Radix Runs Multiset

def own (q : ℕ) : Multiset ℕ := if q = 0 then 0 else {q}

variable {m : Machine} {top : ℕ → Option ℕ} {R : Multiset ℕ} {s t : Ram} {p : Proc} {pt n q : ℕ}

theorem own_zero : own 0 = 0 := rfl

theorem own_of_ne (h : q ≠ 0) : own q = {q} := if_neg h

theorem kfreeIf_spec (h : Heap m s (own q+R)) : ∃ t, kfreeIf m q s = .ok ((), t) ∧ Keeps R s t ∧ Heap m t R := by
  rw [kfreeIf]
  by_cases h0 : q = 0
  · rw [h0, own_zero, zero_add] at h
    exact ⟨s, by rw [if_pos h0]; rfl, Keeps.refl R s, h⟩
  · rw [own_of_ne h0, singleton_add] at h
    obtain ⟨t, hrun, hk, ht⟩ := kfree_spec h
    exact ⟨t, by rw [if_neg h0, hrun], hk, ht⟩

theorem Space.kfreeIf (h : Space m top (own q+R) s pt n) :
    ∃ t, kfreeIf m q s = .ok ((), t) ∧ Keeps R s t ∧ Space m top R t pt n := by
  have hheap := h.heap
  rw [add_left_comm (frames s pt 0 n), add_left_comm (tables s pt)] at hheap
  obtain ⟨t, hrun, hk, ht⟩ := kfreeIf_spec hheap
  exact ⟨t, hrun, hk.right.right, h.congr hk.left ht⟩

theorem freeproc_bare (hpt : p.pagetable = 0) (h : Heap m s (own p.trapframe+(own p.backupTrapframe+R))) :
    ∃ t, freeproc m p s = .ok (p.cleared, t) ∧ Keeps R s t ∧ Heap m t R := by
  obtain ⟨u, hu, hku, hheap⟩ := kfreeIf_spec h
  obtain ⟨t, ht, hkt, hheapt⟩ := kfreeIf_spec hheap
  refine ⟨t, ?_, hku.right.trans hkt, hheapt⟩
  rw [freeproc, run_bind hu, run_bind ht, freeTableIf, if_pos hpt]
  rfl

theorem freeproc_spec {tf : ℕ} (hpt : p.pagetable ≠ 0)
    (h : Space m (procMap m tf) (own p.trapframe+(own p.backupTrapframe+R)) s p.pagetable (pageNum p.sz)) :
    ∃ t, freeproc m p s = .ok (p.cleared, t) ∧ Keeps R s t ∧ Heap m t R := by
  obtain ⟨u, hu, hku, hsu⟩ := h.kfreeIf
  obtain ⟨v, hv, hkv, hsv⟩ := hsu.kfreeIf
  obtain ⟨t, ht, hkt, hheap⟩ := procFreepagetable_spec hsv
  refine ⟨t, ?_, (hku.right.trans hkv).trans hkt, hheap⟩
  rw [freeproc, run_bind hu, run_bind hv, freeTableIf, if_neg hpt, run_bind ht]
  rfl

structure NoPages (p : Proc) : Prop where
  trapframe : p.trapframe = 0
  backupTrapframe : p.backupTrapframe = 0
  pagetable : p.pagetable = 0
  sz : p.sz = 0

theorem cleared_noPages (p : Proc) : NoPages p.cleared := ⟨rfl, rfl, rfl, rfl⟩

def Proc.born (p : Proc) (pid : ℤ) (tf pt bt : ℕ) : Proc :=
  { p with pid, state := .used, trapframe := tf, pagetable := pt, signalMask := 0,
           pendingSignals := 0, sigHandlerFlag := 0, frozen := 0, backupTrapframe := bt,
           signalHandlers := fun _ => sigDfl, sigMaskArray := fun _ => 0 }

theorem Proc.born_trapframe (pid : ℤ) (tf pt bt : ℕ) : (p.born pid tf pt bt).trapframe = tf := rfl

theorem Proc.born_pagetable (pid : ℤ) (tf pt bt : ℕ) : (p.born pid tf pt bt).pagetable = pt := rfl

/-- allocproc takes four pages or none, and then a fifth one if it gets it. -/
theorem allocFound_spec (h : Heap m s R) (hp : NoPages p) (pid : ℤ) :
    ∃ b p' t, allocFound m p pid s = .ok ((b, p'), t) ∧ Keeps R s t ∧
      ((b = false ∧ p'.state = .unused ∧ NoPages p' ∧ Heap m t R ∧ ¬Grants m R.card s 4) ∨
        (b = true ∧ Grants m R.card s 4 ∧ ∃ tf pt bt, p' = p.born pid tf pt bt ∧ tf ≠ 0 ∧ pt ≠ 0 ∧
          Space m (procMap m tf) (own tf+(own bt+R)) t pt 0 ∧ (bt ≠ 0 ↔ Grants m R.card s 5))) := by
  obtain ⟨tf, u, hkalloc, hku, hru, htf⟩ := kalloc_cases h
  have hfour := @grants_add m s u R.card 1 3 (by rw [hru, List.drop_one])
  rw [grants_one rfl] at hfour
  rw [allocFound, run_bind hkalloc]
  rcases htf with ⟨rfl, hu, hno⟩ | ⟨h0, hu, hyes⟩
  · obtain ⟨t, hfree, hkt, ht⟩ := @freeproc_bare m R u { p with pid, state := .used, trapframe := 0 } hp.pagetable (by
        dsimp only
        rw [hp.backupTrapframe, own_zero, zero_add, zero_add]
        exact hu)
    refine ⟨false, Proc.cleared { p with pid, state := .used, trapframe := 0 }, t, ?_, hku.trans hkt,
      Or.inl ⟨rfl, rfl, cleared_noPages _, ht, fun hg => hno (hfour.mp hg).1⟩⟩
    rw [if_pos rfl, run_bind hfree]
    rfl
  obtain ⟨pt, v, hpage, hkv, hpt⟩ := procPagetable_spec hu tf
  rw [card_cons] at hpt
  rw [if_neg h0, run_bind hpage]
  have hkR : Keeps R s v := hku.trans (hkv.mono (fun x hx => mem_cons_of_mem hx))
  rcases hpt with ⟨rfl, hv, hno⟩ | ⟨hpt0, hv, hg, hrv, hcard⟩
  · obtain ⟨t, hfree, hkt, ht⟩ := @freeproc_bare m R v
      { p with pid, state := .used, trapframe := tf, pagetable := 0 } rfl (by
        dsimp only
        rw [hp.backupTrapframe, own_zero, zero_add, own_of_ne h0, singleton_add]
        exact hv)
    refine ⟨false, Proc.cleared { p with pid, state := .used, trapframe := tf, pagetable := 0 }, t, ?_,
      hkR.trans hkt, Or.inl ⟨rfl, rfl, cleared_noPages _, ht, fun hg => hno (hfour.mp hg).2⟩⟩
    rw [if_pos rfl, run_bind hfree]
    rfl
  · -- the page for backupTrapframe: 0 if it cannot be had
    have hg4 := hfour.mpr ⟨hyes, hg⟩
    have hR4 : (tables v pt+(frames v pt 0 0+(tf ::ₘ R))).card = R.card+4 := by
      rw [card_add, card_add, hcard, card_frames, card_cons]
      omega
    have hfive := @grants_add m s v R.card 4 1 (by rw [hrv, hru, ← List.drop_one, List.drop_drop])
    rw [grants_one hR4] at hfive
    obtain ⟨bt, t, hkalloc', hkt, -, hbt⟩ := kalloc_cases hv.heap
    have hkt' : Keeps R s t := hkR.trans (hkt.right.right.mono (fun x hx => mem_cons_of_mem hx))
    rw [if_neg hpt0, run_bind hkalloc']
    refine ⟨true, p.born pid tf pt bt, t, rfl, hkt', Or.inr ⟨rfl, hg4, tf, pt, bt, rfl, h0, hpt0, ?_⟩⟩
    rw [own_of_ne h0, singleton_add]
    rcases hbt with ⟨rfl, ht, hno⟩ | ⟨hbt0, ht, hyes'⟩
    · rw [own_zero, zero_add]
      exact ⟨hv.congr hkt.left ht, iff_of_false (fun h => h rfl) (fun hg5 => hno (hfive.mp hg5).2)⟩
    · rw [own_of_ne hbt0, singleton_add, cons_swap]
      rw [← add_cons, ← add_cons] at ht
      exact ⟨hv.congr hkt.left ht, iff_of_true hbt0 (hfive.mpr ⟨hg4, hyes'⟩)⟩

/-- The unused slots own no pages. -/
def Clean (ps : Procs) : Prop := ∀ i, (ps i).state = .unused → NoPages (ps i)

variable {ps : Procs}

theorem findUnused_none (h : findUnused ps = none) (i : Fin nproc) : (ps i).state ≠ .unused := by
  have hall := List.find?_eq_none.mp h i (List.mem_finRange i)
  simpa using hall

theorem findUnused_some {i : Fin nproc} (h : findUnused ps = some i) : (ps i).state = .unused := by
  simpa using List.find?_some h

/-- allocproc fails and leaves the table as it was, or returns a slot with a trapframe and a page table.
Its backupTrapframe is null if there was no fifth page. -/
theorem allocproc_spec (h : Heap m s R) (hps : Clean ps) (nextpid : ℤ) :
    ∃ r ps' pid' t, allocproc m ps nextpid s = .ok ((r, ps', pid'), t) ∧ Keeps R s t ∧ Clean ps' ∧
      ((r = none ∧ Heap m t R ∧ (∀ j, (ps j).state = .unused → (ps' j).state = .unused) ∧
          (∀ j, (ps j).state ≠ .unused → ps' j = ps j) ∧
          ((∀ i, (ps i).state ≠ .unused) ∨ ¬Grants m R.card s 4)) ∨
        ∃ i tf pt bt, r = some i ∧ (ps i).state = .unused ∧
          ps' = update ps i ((ps i).born nextpid tf pt bt) ∧ tf ≠ 0 ∧ pt ≠ 0 ∧
          Space m (procMap m tf) (own tf+(own bt+R)) t pt 0 ∧ Grants m R.card s 4 ∧
          (bt ≠ 0 ↔ Grants m R.card s 5)) := by
  rw [allocproc]
  cases hfind : findUnused ps with
  | none =>
    have hno := findUnused_none hfind
    exact ⟨none, ps, nextpid, s, rfl, Keeps.refl R s, hps, Or.inl ⟨rfl, h, fun _ hj => hj, fun _ _ => rfl, Or.inl hno⟩⟩
  | some i =>
    have hi := findUnused_some hfind
    obtain ⟨b, p', t, hrun, hk, hb⟩ := allocFound_spec h (hps i hi) nextpid
    have hclean (hp' : p'.state = .unused → NoPages p') : Clean (update ps i p') := by
      intro j hj
      by_cases hji : j = i
      · subst hji
        rw [update_self] at hj ⊢
        exact hp' hj
      · rw [update_of_ne hji] at hj ⊢
        exact hps j hj
    refine ⟨if b then some i else none, update ps i p', nextpid+1, t, run_bind hrun _, hk, ?_⟩
    rcases hb with ⟨rfl, hst, hnp, ht, hno⟩ | ⟨rfl, hg, tf, pt, bt, rfl, htf, hpt, ht, hbt⟩
    · refine ⟨hclean (fun _ => hnp), Or.inl ⟨rfl, ht, fun j hj => ?_, fun j hj => ?_, Or.inr hno⟩⟩
      · by_cases hji : j = i
        · rw [hji, update_self, hst]
        · rw [update_of_ne hji, hj]
      · exact update_of_ne (fun hji : j = i => hj (by rw [hji, hi])) _ _
    · have hused : ((ps i).born nextpid tf pt bt).state ≠ .unused := by
        change ProcState.used ≠ .unused
        decide
      exact ⟨hclean (fun hst => absurd hst hused), Or.inr ⟨i, tf, pt, bt, rfl, hi, rfl, htf, hpt, ht, hg, hbt⟩⟩

/-- What allocproc is to do: it returns all pages that it took, or a slot with three pages for its
trapframes and the root of its page table. -/
def AllOrNothing (m : Machine) (R : Multiset ℕ) (t : Ram) (ps ps' : Procs) : Option (Fin nproc) → Prop
  | none => Heap m t R ∧ (∀ j, (ps j).state = .unused → (ps' j).state = .unused ∧ NoPages (ps' j)) ∧
      ∀ j, (ps j).state ≠ .unused → ps' j = ps j
  | some i => (ps' i).trapframe ≠ 0 ∧ (ps' i).backupTrapframe ≠ 0 ∧ (ps' i).pagetable ≠ 0 ∧
      (ps' i).trapframe ≠ (ps' i).backupTrapframe ∧ (ps' i).trapframe ≠ (ps' i).pagetable ∧
      (ps' i).backupTrapframe ≠ (ps' i).pagetable ∧
      (∃ U, Heap m t ((ps' i).trapframe ::ₘ (ps' i).backupTrapframe ::ₘ (ps' i).pagetable ::ₘ (U+R))) ∧
      ∀ j, j ≠ i → ps' j = ps j

theorem three_distinct {a b c : ℕ} {U : Multiset ℕ} (h : Heap m t (a ::ₘ b ::ₘ c ::ₘ U)) : a ≠ b ∧ a ≠ c ∧ b ≠ c := by
  have hnd := h.nodup
  simp only [nodup_cons, mem_cons, not_or] at hnd
  exact ⟨hnd.1.1, hnd.1.2.1, hnd.2.1.1⟩

theorem tables_root (s : Ram) (pt : ℕ) : ∃ U, tables s pt = pt ::ₘ U := exists_cons_of_mem self_mem_nodes

theorem allOrNothing_iff (h : Heap m s R) (hps : Clean ps) (nextpid : ℤ) :
    ∃ r ps' pid' t, allocproc m ps nextpid s = .ok ((r, ps', pid'), t) ∧ (AllOrNothing m R t ps ps' r ↔
        (∀ i, (ps i).state ≠ .unused) ∨ ¬(Grants m R.card s 4 ∧ ¬Grants m R.card s 5)) := by
  obtain ⟨r, ps', pid', t, hrun, -, hclean, hr⟩ := allocproc_spec h hps nextpid
  refine ⟨r, ps', pid', t, hrun, ?_⟩
  rcases hr with ⟨rfl, ht, hun, hother, hno⟩ | ⟨i, tf, pt, bt, rfl, hi, rfl, htf, hpt, ht, hg, hbt⟩
  · refine iff_of_true ⟨ht, fun j hj => ⟨hun j hj, hclean j (hun j hj)⟩, hother⟩ ?_
    exact hno.imp_right (fun hno hg => hno hg.1)
  have hnotall : ¬∀ j, (ps j).state ≠ .unused := fun hall => hall i hi
  by_cases hbt0 : bt = 0
  · have hg5 : ¬Grants m R.card s 5 := fun hg5 => hbt.mpr hg5 hbt0
    refine iff_of_false (fun hall => hall.2.1 ?_) (fun hor => hor.elim hnotall (fun hnot => hnot ⟨hg, hg5⟩))
    rw [update_self]
    exact hbt0
  have hg5 := hbt.mp hbt0
  refine iff_of_true ?_ (Or.inr (fun hnot => hnot.2 hg5))
  obtain ⟨U, hU⟩ := tables_root t pt
  have hheap := ht.heap
  rw [hU, frames, zero_add, own_of_ne htf, own_of_ne hbt0, singleton_add, singleton_add,
    add_cons, add_cons, cons_add] at hheap
  obtain ⟨h1, h2, h3⟩ := three_distinct hheap
  rw [AllOrNothing, update_self]
  exact ⟨htf, hbt0, hpt, h1, h2, h3, ⟨U, hheap⟩, fun j hj => update_of_ne hj _ _⟩

/-- What happens to the slots of the process table. Each allocproc and freeproc finds the memory as the
rest of the kernel left it. -/
inductive SlotEvent where
  | alloc (s : Ram)
  | free (i : Fin nproc) (s : Ram)
  | move (i : Fin nproc) (st : ProcState)

def slotStep (m : Machine) (x : Procs × ℤ) : SlotEvent → Option (Procs × ℤ)
  | .alloc s =>
    match allocproc m x.1 x.2 s with
    | .ok (r, _) => some r.2
    | .error _ => none
  | .free i s =>
    if (x.1 i).state = .unused then none
    else match freeproc m (x.1 i) s with
      | .ok (p, _) => some (update x.1 i p, x.2)
      | .error _ => none
  | .move i st =>
    if (x.1 i).state = .unused ∨ st = .unused then none
    else some (update x.1 i { x.1 i with state := st }, x.2)

/-- allocproc finds a heap in which it gets fewer than four pages, or five. -/
def FifthPage (m : Machine) : SlotEvent → Prop
  | .alloc s => ∃ R, Heap m s R ∧ ¬(Grants m R.card s 4 ∧ ¬Grants m R.card s 5)
  | _ => True

structure Backed (ps : Procs) : Prop where
  clean : Clean ps
  frame : ∀ i, (ps i).state ≠ .unused → (ps i).trapframe ≠ 0 ∧ (ps i).backupTrapframe ≠ 0

theorem Backed.update (h : Backed ps) (i : Fin nproc) {p : Proc} (hun : p.state = .unused → NoPages p)
    (hfr : p.state ≠ .unused → p.trapframe ≠ 0 ∧ p.backupTrapframe ≠ 0) : Backed (update ps i p) := by
  constructor
  · intro j hj
    by_cases hji : j = i
    · rw [hji, update_self] at hj ⊢
      exact hun hj
    · rw [update_of_ne hji] at hj ⊢
      exact h.clean j hj
  intro j hj
  by_cases hji : j = i
  · rw [hji, update_self] at hj ⊢
    exact hfr hj
  · rw [update_of_ne hji] at hj ⊢
    exact h.frame j hj

theorem Backed.alloc {x y : Procs × ℤ} {s : Ram} (h : Backed x.1) (hc : FifthPage m (.alloc s))
    (hs : slotStep m x (.alloc s) = some y) : Backed y.1 := by
  obtain ⟨R, hheap, hfive⟩ := hc
  obtain ⟨r, ps', pid', t, hrun, -, hclean, hr⟩ := allocproc_spec hheap h.clean x.2
  rw [slotStep, hrun] at hs
  cases hs
  rcases hr with ⟨-, -, hun, hother, -⟩ | ⟨i, tf, pt, bt, -, -, rfl, htf, -, -, hg, hbt⟩
  · refine ⟨hclean, fun i hi => ?_⟩
    have hused : (x.1 i).state ≠ .unused := fun hst => hi (hun i hst)
    dsimp only at hi ⊢
    rw [hother i hused]
    exact h.frame i hused
  · have hbt0 : bt ≠ 0 := hbt.mpr (not_not.mp (fun hg5 => hfive ⟨hg, hg5⟩))
    refine h.update i (fun hst => ?_) (fun _ => ⟨htf, hbt0⟩)
    exact absurd hst (by change ProcState.used ≠ .unused; decide)

theorem Backed.step {x y : Procs × ℤ} {e : SlotEvent} (h : Backed x.1) (hc : FifthPage m e)
    (hs : slotStep m x e = some y) : Backed y.1 := by
  cases e with
  | alloc => exact h.alloc hc hs
  | free i s =>
    rw [slotStep] at hs
    split_ifs at hs with hst
    cases hrun : freeproc m (x.1 i) s with
    | error =>
      rw [hrun] at hs
      cases hs
    | ok r =>
      obtain ⟨p', t⟩ := r
      rw [hrun] at hs
      cases hs
      obtain ⟨-, u, -, hu⟩ := run_bind_ok hrun
      obtain ⟨-, v, -, hv⟩ := run_bind_ok hu
      obtain ⟨-, w, -, hw⟩ := run_bind_ok hv
      cases hw
      exact h.update i (fun _ => cleared_noPages _) (fun hne => absurd rfl hne)
  | move i =>
    rw [slotStep] at hs
    split_ifs at hs with hst
    rw [not_or] at hst
    cases hs
    exact h.update i (fun hun => absurd hun hst.2) (fun _ => h.frame i hst.1)

theorem copyFrame_run {dst src : ℕ} (hd : dst ≠ 0) (hs : src ≠ 0) (s : Ram) : copyFrame dst src s =
      .ok ((), s.setPage dst (fun i => if i.val < 36 then s.word src i else s.word dst i)) := by
  rw [copyFrame, if_neg (by rw [not_or]; exact ⟨hd, hs⟩)]
  rfl

def noProcs : Procs := fun _ =>
  ⟨.unused, 0, 0, 0, 0, 0, 0, 0, 0, fun _ => 0, 0, [], 0, 0, fun _ => sigDfl, 0, 0, 0, 0, fun _ => 0⟩

theorem noProcs_clean : Clean noProcs := fun _ _ => ⟨rfl, rfl, rfl, rfl⟩

/-- allocproc is all or nothing if and only if it is not the fifth page that is missing. -/
theorem allocproc_all_or_nothing_iff (m : Machine) : (∀ ps nextpid s R, Clean ps → Heap m s R →
      ∃ r ps' pid' t, allocproc m ps nextpid s = .ok ((r, ps', pid'), t) ∧ (AllOrNothing m R t ps ps' r ↔
          (∀ i, (ps i).state ≠ .unused) ∨ ¬(Grants m R.card s 4 ∧ ¬Grants m R.card s 5))) ∧
    (∀ x, Reach (slotStep m) (fun _ e => FifthPage m e) (noProcs, 1) x → ∀ i, (x.1 i).state ≠ .unused → ∀ s,
        (∃ t, backupFrame (x.1 i) s = .ok ((), t)) ∧ ∃ t, restoreFrame (x.1 i) s = .ok ((), t)) := by
  refine ⟨fun ps nextpid s R hps h => allOrNothing_iff h hps nextpid, fun x hx i hi s => ?_⟩
  have hbacked : Backed x.1 := Reach.invariant (I := fun y => Backed y.1) hx
    ⟨noProcs_clean, fun _ h => absurd rfl h⟩ (fun y e z hy hc hs => hy.step hc hs)
  obtain ⟨htf, hbt⟩ := hbacked.frame i hi
  exact ⟨⟨_, copyFrame_run hbt htf s⟩, ⟨_, copyFrame_run htf hbt s⟩⟩

def fourPages : Machine := ⟨4096, 20480, 0, pgsize_pos, by decide, by decide, Nat.zero_mod _, pgsize_pos⟩

theorem fourPages_pageCount : fourPages.pageCount = 4 := by decide

theorem first_process_of_four_pages : ∃ s, Heap fourPages s 0 ∧
    ∃ r ps' pid' t, allocproc fourPages noProcs 1 s = .ok ((r, ps', pid'), t) ∧
      (AllOrNothing fourPages 0 t noProcs ps' r ↔ (∀ i, (noProcs i).state ≠ .unused) ∨
          ¬(Grants fourPages (0 : Multiset ℕ).card s 4 ∧ ¬Grants fourPages (0 : Multiset ℕ).card s 5)) := by
  obtain ⟨s, -, hs, -⟩ := @kinit_spec fourPages ⟨fun _ _ => 0, 0, []⟩ rfl
  exact ⟨s, hs, (allocproc_all_or_nothing_iff fourPages).1 noProcs 1 s 0 noProcs_clean hs⟩

/-- The first process on a machine with four pages: allocproc returns a slot whose backupTrapframe is
null, and the first signal with a handler makes the kernel trap. -/
theorem backup_missing : ∃ s, Heap fourPages s 0 ∧
    ∃ i ps' pid' t, allocproc fourPages noProcs 1 s = .ok ((some i, ps', pid'), t) ∧
      (ps' i).backupTrapframe = 0 ∧ backupFrame (ps' i) t = .error .kerneltrap := by
  obtain ⟨s, -, hs, hrefuse⟩ := @kinit_spec fourPages ⟨fun _ _ => 0, 0, []⟩ rfl
  have hnil := hrefuse rfl
  have hg4 : Grants fourPages (0 : Multiset ℕ).card s 4 := by
    intro i hi
    rw [hnil, fourPages_pageCount, card_zero, Nat.zero_add]
    exact ⟨rfl, hi⟩
  have hg5 : ¬Grants fourPages (0 : Multiset ℕ).card s 5 := by
    intro hg
    have hlt := (hg 4 (by decide)).2
    rw [fourPages_pageCount, card_zero] at hlt
    omega
  obtain ⟨r, ps', pid', t, hrun, -, -, hr⟩ := allocproc_spec hs noProcs_clean 1
  refine ⟨s, hs, ?_⟩
  rcases hr with ⟨-, -, -, -, hno⟩ | ⟨i, tf, pt, bt, rfl, -, rfl, -, -, -, -, hbt⟩
  · exact hno.elim (fun hall => absurd rfl (hall ⟨0, by decide⟩)) (fun hno => absurd hg4 hno)
  have hbt0 : bt = 0 := by
    by_contra hne
    exact hg5 (hbt.mp hne)
  refine ⟨i, _, pid', t, hrun, ?_, ?_⟩
  · rw [update_self]
    exact hbt0
  · have hnull : ((noProcs i).born 1 tf pt bt).backupTrapframe = 0 := hbt0
    rw [update_self, backupFrame, copyFrame, if_pos (Or.inl hnull)]
    rfl

end Xv6.Vm
