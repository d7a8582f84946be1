import Xv6.BsemWait

/-! The result of bsem_alloc is read from the slot after the lock is released. -/
namespace Xv6.Bsem
open Function Runs List
variable {n : ℕ}

def Entry.isAssign : Entry → Bool
  | .assigned _ => true
  | _ => false

def Entry.ret : Entry → Option CInt
  | .returned _ r => some r
  | _ => none

def Sys.allocs (s : Sys n) : ℕ := s.hist.countP Entry.isAssign

def Pc.returnsFrom : Pc → Option Slot
  | .returning i _ => some i
  | _ => none

/-- No bsem_free of a slot whose bsem_alloc has not returned yet. -/
def Patient (s : Sys n) : Event n → Prop
  | .free _ b => ∀ i ∈ s.slotOf b, ∀ p, (s.pc p).returnsFrom ≠ some i
  | _ => True

instance (s : Sys n) (e : Event n) : Decidable (Patient s e) := by
  rcases e with _ | _ | _ | _ | _ | _ | _ | _ <;> dsimp only [Patient] <;> infer_instance

def Given (s : Sys n) (sid : CInt) : Prop := ∃ k, k < s.allocs ∧ sid = sidOf k

structure AllocInv (s : Sys n) : Prop where
  nextsid : s.nextsid = sidOf s.allocs
  used : ∀ i, (s.sem i).isUsed = 0 ∨ (s.sem i).isUsed = 1
  pending : ∀ p i sid, s.pc p = .returning i sid →
    (s.sem i).isUsed = 1 ∧ (s.sem i).id = sid ∧ Given s sid ∧ sid ∉ s.hist.filterMap Entry.ret
  distinct : ∀ p q i j sid, s.pc p = .returning i sid → s.pc q = .returning j sid → p = q
  returned : ∀ sid ret, Entry.returned sid ret ∈ s.hist → ret = sid ∧ Given s sid
  full : ∀ table, Entry.full table ∈ s.hist → ∀ i, (table i).isUsed = 1
  fresh : (s.hist.filterMap Entry.ret).Nodup

theorem allocInv_init (n : ℕ) : AllocInv (Sys.init n) where
  nextsid := rfl
  used _ := Or.inl rfl
  pending p i sid hp := by cases hp
  distinct p q i j sid hp := by cases hp
  returned sid ret hr := by cases hr
  full table ht := by cases ht
  fresh := nodup_nil

section Step
variable {s t : Sys n} {e : Event n}

variable {i : Slot} {sid : CInt}

theorem Effect.returning (h : Effect s e t) {p : Fin n}
    (hp : t.pc p = .returning i sid) : s.pc p = .returning i sid ∨ e = .alloc p := by
  have hm := h.pcMove p
  rw [hp] at hm
  generalize hx : Pc.returning i sid = x at hm
  cases hm with
  | stay => exact Or.inl rfl
  | assign j _ _ he => exact Or.inr he
  | _ => cases hx

theorem Given.mono (h : s.allocs ≤ t.allocs) (hg : Given s sid) : Given t sid := by
  obtain ⟨k, hk, hsid⟩ := hg
  exact ⟨k, hk.trans_le h, hsid⟩

section
variable (hs : AllocInv s)
include hs

theorem AllocInv.not_given (hk : s.allocs+1 < 2^32) : ¬ Given s s.nextsid := by
  rintro ⟨k, hlt, he⟩
  rw [hs.nextsid] at he
  have := sidOf_inj_of_lt hk (by omega) he
  omega

theorem AllocInv.given_of_mem {r : CInt} (hr : r ∈ s.hist.filterMap Entry.ret) : Given s r := by
  obtain ⟨x, hx, hret⟩ := mem_filterMap.mp hr
  cases x with
  | returned sid ret =>
    obtain rfl := Option.some.inj hret
    obtain ⟨rfl, hg⟩ := hs.returned sid ret hx
    exact hg
  | _ => cases hret

theorem AllocInv.used_step (h : Effect s e t) (i : Slot) : (t.sem i).isUsed = 0 ∨ (t.sem i).isUsed = 1 := by
  have hm := h.semMove i
  generalize t.sem i = x at hm
  cases hm with
  | assign => exact Or.inr rfl
  | free => exact Or.inl rfl
  | _ => exact hs.used i

theorem AllocInv.keeps (hc : Patient s e) (h : Effect s e t) {p : Fin n}
    (hp : s.pc p = .returning i sid) : (t.sem i).isUsed = 1 ∧ (t.sem i).id = sid := by
  obtain ⟨hu, hid, -⟩ := hs.pending p i sid hp
  have hfree (q : Fin n) (b : CInt) (he : e = .free q b) : s.slotOf b ≠ some i := by
    subst he
    intro hi
    exact hc i hi p (by rw [hp]; rfl)
  obtain ⟨hu', hid'⟩ := h.keeps hu hfree
  exact ⟨hu', hid'.trans hid⟩

theorem AllocInv.quiet (hc : Patient s e) (h : Effect s e t) (hsid : t.nextsid = s.nextsid)
    (hpc : ∀ p i sid, t.pc p = .returning i sid → s.pc p = .returning i sid) (l : List Entry)
    (hl : t.hist = s.hist ++ l) (hret : ∀ x ∈ l, x.ret = none) (hasg : ∀ x ∈ l, x.isAssign = false)
    (hfull : ∀ table, Entry.full table ∈ l → ∀ i, (table i).isUsed = 1) : AllocInv t := by
  have hallocs : t.allocs = s.allocs := by
    have hz : l.countP Entry.isAssign = 0 := by
      rw [countP_eq_zero]
      intro x hx
      simp [hasg x hx]
    rw [Sys.allocs, hl, countP_append, hz]
    rfl
  have hrets : t.hist.filterMap Entry.ret = s.hist.filterMap Entry.ret := by
    rw [hl, filterMap_append, filterMap_eq_nil_iff.mpr hret, append_nil]
  refine ⟨?_, hs.used_step h, fun p i sid hp => ?_, fun p q i j sid hp hq => ?_,
    fun sid ret hr => ?_, fun table ht => ?_, by rw [hrets]; exact hs.fresh⟩
  · rw [hsid, hallocs, hs.nextsid]
  · have hp' := hpc p i sid hp
    obtain ⟨hu, hid⟩ := hs.keeps hc h hp'
    obtain ⟨-, -, hg, hno⟩ := hs.pending p i sid hp'
    exact ⟨hu, hid, hg.mono hallocs.ge, by rwa [hrets]⟩
  · exact hs.distinct p q i j sid (hpc p i sid hp) (hpc q j sid hq)
  · rw [hl, mem_append] at hr
    rcases hr with hr | hr
    · obtain ⟨he, hg⟩ := hs.returned sid ret hr
      exact ⟨he, hg.mono hallocs.ge⟩
    · cases hret _ hr
  · rw [hl, mem_append] at ht
    rcases ht with ht | ht
    · exact hs.full table ht
    · exact hfull table ht

theorem AllocInv.assign (hc : Patient s e) (h : Effect s e t)
    (hk : s.allocs+1 < 2^32) {p : Fin n} (hi : (t.sem i) = ⟨s.nextsid, 0, 1⟩)
    (hsid : t.nextsid = s.nextsid+1) (hl : t.hist = s.hist ++ [.assigned s.nextsid])
    (hpc : t.pc = update s.pc p (.returning i s.nextsid)) : AllocInv t := by
  have hallocs : t.allocs = s.allocs+1 := by
    rw [Sys.allocs, hl, countP_append]
    rfl
  have hrets : t.hist.filterMap Entry.ret = s.hist.filterMap Entry.ret := by
    rw [hl, filterMap_append]
    exact append_nil _
  have hmono {sid : CInt} (hg : Given s sid) : Given t sid := hg.mono (by omega)
  -- an older call is still on its own slot, with another id
  have hold {q : Fin n} (hq : q ≠ p) : t.pc q = s.pc q := by rw [hpc, update_of_ne hq]
  have hself : t.pc p = .returning i s.nextsid := by rw [hpc, update_self]
  have hne {q : Fin n} {j : Slot} (hq : q ≠ p) : t.pc q ≠ .returning j s.nextsid := by
    intro hj
    rw [hold hq] at hj
    exact hs.not_given hk (hs.pending q j _ hj).2.2.1
  refine ⟨?_, hs.used_step h, fun q j sid hq => ?_, fun q r j k sid hq hr => ?_,
    fun sid ret hr => ?_, fun table ht => ?_, by rw [hrets]; exact hs.fresh⟩
  · rw [hsid, hallocs, hs.nextsid, sidOf_succ]
  · by_cases hqp : q = p
    · subst hqp
      rw [hself] at hq
      obtain ⟨rfl, rfl⟩ := Pc.returning.inj hq
      refine ⟨by rw [hi], by rw [hi], ⟨s.allocs, by omega, hs.nextsid⟩, ?_⟩
      rw [hrets]
      exact fun hm => hs.not_given hk (hs.given_of_mem hm)
    · rw [hold hqp] at hq
      obtain ⟨hu, hid⟩ := hs.keeps hc h hq
      obtain ⟨-, -, hg, hno⟩ := hs.pending q j sid hq
      exact ⟨hu, hid, hmono hg, by rwa [hrets]⟩
  · by_cases hqp : q = p
    · subst hqp
      by_contra hne'
      rw [hself] at hq
      obtain ⟨-, rfl⟩ := Pc.returning.inj hq
      exact hne (Ne.symm hne') hr
    by_cases hrp : r = p
    · subst hrp
      rw [hself] at hr
      obtain ⟨-, rfl⟩ := Pc.returning.inj hr
      exact absurd hq (hne hqp)
    · rw [hold hqp] at hq
      rw [hold hrp] at hr
      exact hs.distinct q r j k sid hq hr
  · rw [hl, mem_append] at hr
    obtain ⟨he, hg⟩ := hs.returned sid ret (hr.resolve_right (by simp))
    exact ⟨he, hmono hg⟩
  · rw [hl, mem_append] at ht
    exact hs.full table (ht.resolve_right (by simp))

theorem AllocInv.allocReturn (hc : Patient s e) (h : Effect s e t) {p : Fin n}
    (hp : s.pc p = .returning i sid) (hsid : t.nextsid = s.nextsid)
    (hl : t.hist = s.hist ++ [.returned sid (s.sem i).id])
    (hpc : t.pc = update s.pc p .idle) : AllocInv t := by
  obtain ⟨hu, hid, hg, hno⟩ := hs.pending p i sid hp
  rw [hid] at hl
  have hallocs : t.allocs = s.allocs := by
    rw [Sys.allocs, hl, countP_append]
    rfl
  have hrets : t.hist.filterMap Entry.ret = s.hist.filterMap Entry.ret ++ [sid] := by
    rw [hl, filterMap_append]
    rfl
  have hmono {c : CInt} (hg : Given s c) : Given t c := hg.mono hallocs.ge
  have hold {q : Fin n} {j : Slot} {c : CInt} (hq : t.pc q = .returning j c) : s.pc q = .returning j c ∧ q ≠ p := by
    have hqp : q ≠ p := by
      rintro rfl
      rw [hpc, update_self] at hq
      cases hq
    rw [hpc, update_of_ne hqp] at hq
    exact ⟨hq, hqp⟩
  refine ⟨?_, hs.used_step h, fun q j c hq => ?_, fun q r j k c hq hr => ?_, fun c ret hr => ?_, fun table ht => ?_, ?_⟩
  · rw [hsid, hallocs, hs.nextsid]
  · obtain ⟨hq', hqp⟩ := hold hq
    obtain ⟨hu', hid'⟩ := hs.keeps hc h hq'
    obtain ⟨-, -, hg', hno'⟩ := hs.pending q j c hq'
    refine ⟨hu', hid', hmono hg', ?_⟩
    rw [hrets, mem_append, mem_singleton, not_or]
    refine ⟨hno', ?_⟩
    rintro rfl
    exact hqp (hs.distinct q p j i c hq' hp)
  · exact hs.distinct q r j k c (hold hq).1 (hold hr).1
  · rw [hl, mem_append, mem_singleton] at hr
    rcases hr with hr | hr
    · obtain ⟨he, hg'⟩ := hs.returned c ret hr
      exact ⟨he, hmono hg'⟩
    · obtain ⟨rfl, rfl⟩ := Entry.returned.inj hr
      exact ⟨rfl, hmono hg⟩
  · rw [hl, mem_append] at ht
    exact hs.full table (ht.resolve_right (by simp))
  · rw [hrets]
    exact nodup_append.mpr ⟨hs.fresh, nodup_singleton _, by
      rintro a ha b hb rfl
      rw [mem_singleton.mp hb] at ha
      exact hno ha⟩

theorem AllocInv.still (hc : Patient s e) (h : Effect s e t)
    (he : ∀ p, e ≠ .alloc p) (hsid : t.nextsid = s.nextsid) (hl : t.hist = s.hist) : AllocInv t :=
  hs.quiet hc h hsid (fun p _ _ hp => (h.returning hp).resolve_right (he p)) []
    (hl.trans (append_nil _).symm) (by simp) (by simp) (by simp)

theorem AllocInv.step (hc : Patient s e) (h : Effect s e t) (hk : t.allocs+1 < 2^32) : AllocInv t := by
  cases h with
  | full p hfull =>
    refine hs.quiet hc (.full p hfull) rfl (fun _ _ _ hp => hp) [.full s.sem] rfl (by simp [Entry.ret])
      (by simp [Entry.isAssign]) ?_
    intro table ht i
    obtain rfl := Entry.full.inj (mem_singleton.mp ht)
    exact (hs.used i).resolve_left (hfull i)
  | assign p i hp hi hfirst =>
    have hk' : s.allocs+1 < 2^32 := by
      refine lt_of_le_of_lt ?_ hk
      simp [Sys.allocs]
    exact hs.assign hc (.assign p i hp hi hfirst) hk' (update_self ..) rfl rfl rfl
  | allocReturn p i sid hp => exact hs.allocReturn hc (.allocReturn p i sid hp) hp rfl rfl rfl
  | lock _ p b i he hl =>
    have hne (q : Fin n) : e ≠ .alloc q := by cases he <;> simp
    have h := Effect.lock e p b i he hl
    exact hs.quiet hc h rfl (fun q _ _ hp => (h.returning hp).resolve_right (hne q))
      [.down b (s.sem i)] rfl (by simp [Entry.ret]) (by simp [Entry.isAssign]) (by simp)
  | unlock p b i hp hb hl =>
    have h := Effect.unlock p b i hp hb hl
    exact hs.quiet hc h rfl (fun q _ _ hp => (h.returning hp).resolve_right (by simp))
      [.up b] rfl (by simp [Entry.ret]) (by simp [Entry.isAssign]) (by simp)
  | free p b i hi => exact hs.still hc (.free p b i hi) (by simp) rfl rfl
  | sleep _ p b i he hl => exact hs.still hc (.sleep e p b i he hl) (fun q => by cases he <;> simp) rfl rfl
  | turn p q i hp => exact hs.still hc (.turn p q i hp) (by simp) rfl rfl
  | scanned p i k hp hn => exact hs.still hc (.scanned p i k hp hn) (by simp) rfl rfl
  | kill q b i hq => exact hs.still hc (.kill q b i hq) (by simp) rfl rfl
  | noSlot => exact hs

end

theorem Effect.allocs_le (h : Effect s e t) : s.allocs ≤ t.allocs := by
  obtain ⟨l, hl, -⟩ := h.histMove
  rw [Sys.allocs, Sys.allocs, hl, countP_append]
  exact Nat.le_add_right _ _

end Step

theorem allocInv_reach {s : Sys n} (h : Reach step Patient (Sys.init n) s) (hk : s.allocs+1 < 2^32) : AllocInv s := by
  refine h.invariant (I := fun s => s.allocs+1 < 2^32 → AllocInv s) (fun _ => allocInv_init n) ?_ hk
  intro t e u ht hc hst hu
  have heff := step_effect hst
  have hle := heff.allocs_le
  exact (ht (by omega)).step hc heff hu

/-- With fewer than 2^31-1 allocations, and no slot freed before its bsem_alloc has returned, every
id is new. -/
theorem bsem_alloc_returns_fresh (s : Sys n) (h : Reach step Patient (Sys.init n) s) (hk : s.allocs < 2^31-1) :
    (∀ sid ret, Entry.returned sid ret ∈ s.hist → ret = sid ∧ ret ≠ -1) ∧
    (∀ table, Entry.full table ∈ s.hist → ∀ i, (table i).isUsed = 1) ∧
    (s.hist.filterMap Entry.ret).Nodup := by
  have hs := allocInv_reach h (by omega)
  refine ⟨fun sid ret hr => ?_, hs.full, hs.fresh⟩
  obtain ⟨rfl, k, hlt, hret⟩ := hs.returned sid ret hr
  refine ⟨rfl, fun h1 => ?_⟩
  have hv := congrArg BitVec.toNat (hret.symm.trans h1)
  have h32 : k+1 < 2^32 := by omega
  simp only [sidOf, BitVec.toNat_ofNat, Nat.mod_eq_of_lt h32] at hv
  have hneg : (-1 : CInt).toNat = 2^32-1 := by decide
  omega

theorem bsem_alloc_returns_first : ∃ s, run (fun u e => if Patient u e then step u e else none) (Sys.init 1)
        [.alloc 0, .allocReturn 0, .free 0 1, .alloc 0, .allocReturn 0] = some s ∧
      (s.hist.filterMap Entry.ret).Nodup := by
  have hrun : (run (fun u e => if Patient u e then step u e else none) (Sys.init 1)
      [.alloc 0, .allocReturn 0, .free 0 1, .alloc 0, .allocReturn 0]).any
      (fun s => decide (s.allocs < 2^31-1)) = true := by decide
  obtain ⟨s, hs, hk⟩ := (Option.any_eq_true _ _).mp hrun
  exact ⟨s, hs, (bsem_alloc_returns_fresh s (Reach.of_run hs) (of_decide_eq_true hk)).2.2⟩

/-- Process 1 frees the id of process 0's semaphore before bsem_alloc has returned it, and
allocates the slot again: both calls return 2. -/
theorem bsem_alloc_returns_twice :
    ∃ s, run step (Sys.init 2) [.alloc 0, .free 1 1, .alloc 1, .allocReturn 0, .allocReturn 1] = some s ∧
      s.allocs = 2 ∧ s.hist.filterMap Entry.ret = [2, 2] := by
  have hrun : (run step (Sys.init 2) [.alloc 0, .free 1 1, .alloc 1, .allocReturn 0, .allocReturn 1]).any
      (fun s => decide (s.allocs = 2) && decide (s.hist.filterMap Entry.ret = [2, 2])) = true := by
    decide
  obtain ⟨s, hs, hp⟩ := (Option.any_eq_true _ _).mp hrun
  simp only [Bool.and_eq_true, decide_eq_true_eq] at hp
  exact ⟨s, hs, hp⟩

end Xv6.Bsem
