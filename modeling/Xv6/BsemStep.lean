import Xv6.BsemModel

/-! What one step of the semaphore code can do, said once for all invariants. -/
namespace Xv6.Bsem
open Function Runs
variable {n : ℕ}

/-- The process stands before the test of `isLocked` of slot `i` in bsem_down(b): it has
just found the slot, or it has been woken. -/
inductive AtTest (s : Sys n) (p : Fin n) (b : CInt) (i : Slot) : Event n → Prop
  | found (hp : s.pc p = .idle) (hi : s.slotOf b = some i) : AtTest s p b i (.down p b)
  | woken (hp : s.pc p = .woken b i) : AtTest s p b i (.retest p)

/-- The effects of a step, one constructor for each way through the code that differs in
what it writes. -/
inductive Effect (s : Sys n) : Event n → Sys n → Prop
  | full (p : Fin n) (hfull : ∀ i, (s.sem i).isUsed ≠ 0) :
      Effect s (.alloc p) (s.log (.full s.sem))
  | assign (p : Fin n) (i : Slot) (hp : s.pc p = .idle) (hi : (s.sem i).isUsed = 0)
      (hfirst : ∀ j, j < i → (s.sem j).isUsed ≠ 0) :
      Effect s (.alloc p) { s with
        sem := update s.sem i ⟨s.nextsid, 0, 1⟩
        nextsid := s.nextsid+1
        hist := s.hist ++ [.assigned s.nextsid]
        pc := update s.pc p (.returning i s.nextsid) }
  | allocReturn (p : Fin n) (i : Slot) (sid : CInt) (hp : s.pc p = .returning i sid) :
      Effect s (.allocReturn p) { s with
        hist := s.hist ++ [.returned sid (s.sem i).id]
        pc := update s.pc p .idle }
  | free (p : Fin n) (b : CInt) (i : Slot) (hi : s.slotOf b = some i) :
      Effect s (.free p b) { s with sem := update s.sem i ⟨0, 0, 0⟩ }
  | sleep (e : Event n) (p : Fin n) (b : CInt) (i : Slot) (he : AtTest s p b i e)
      (hl : (s.sem i).isLocked = 1) :
      Effect s e { s with pc := update s.pc p (.sleeping b i) }
  | lock (e : Event n) (p : Fin n) (b : CInt) (i : Slot) (he : AtTest s p b i e)
      (hl : (s.sem i).isLocked ≠ 1) :
      Effect s e { s with
        sem := update s.sem i { s.sem i with isLocked := 1 }
        hist := s.hist ++ [.down b (s.sem i)]
        pc := update s.pc p .idle }
  | unlock (p : Fin n) (b : CInt) (i : Slot) (hp : s.pc p = .idle) (hb : (s.sem i).id = b)
      (hl : (s.sem i).isLocked = 1) :
      Effect s (.up p b) { s with
        sem := update s.sem i { s.sem i with isLocked := 0 }
        hist := s.hist ++ [.up b]
        pc := update s.pc p (.waking i 0) }
  | turn (p q : Fin n) (i : Slot) (hp : s.pc p = .waking i q.val) :
      Effect s (.scan p) { s with
        pc := update (update s.pc q ((s.pc q).wake i)) p (.waking i (q.val+1)) }
  | scanned (p : Fin n) (i : Slot) (k : ℕ) (hp : s.pc p = .waking i k) (hk : n ≤ k) :
      Effect s (.scan p) { s with pc := update s.pc p .idle }
  | kill (q : Fin n) (b : CInt) (i : Slot) (hq : s.pc q = .sleeping b i) :
      Effect s (.kill q) { s with pc := update s.pc q (.woken b i) }
  | noSlot (e : Event n)
      (he : ∃ p b, e = .free p b ∧ s.slotOf b = none ∨ e = .down p b ∧ s.slotOf b = none ∨
        e = .up p b ∧ ∀ i, (s.sem i).id = b → (s.sem i).isLocked ≠ 1) :
      Effect s e s

variable {b : CInt} {i : Slot}

theorem downLoop_effect {s : Sys n} {p : Fin n} {e : Event n}
    (he : AtTest s p b i e) : Effect s e (downLoop s p b i) := by
  unfold downLoop
  split_ifs with hl
  · exact Effect.sleep e p b i he hl
  · exact Effect.lock e p b i he hl

theorem bsemAlloc_effect {s : Sys n} {p : Fin n} (hp : s.pc p = .idle) : Effect s (.alloc p) (bsemAlloc s p) := by
  unfold bsemAlloc
  split
  · rename_i i hi
    obtain ⟨h0, hfirst⟩ := (find_eq_some s _ i).mp hi
    exact Effect.assign p i hp (of_decide_eq_true h0) (fun j hj => of_decide_eq_false (hfirst j hj))
  · rename_i hnone
    exact Effect.full p (fun i => of_decide_eq_false ((find_eq_none s _).mp hnone i))

theorem bsemUp_effect {s : Sys n} {p : Fin n} (hp : s.pc p = .idle) : Effect s (.up p b) (bsemUp s p b) := by
  unfold bsemUp
  split
  · rename_i i hi
    have h := ((find_eq_some s _ i).mp hi).1
    rw [Bool.and_eq_true, decide_eq_true_eq, decide_eq_true_eq] at h
    exact Effect.unlock p b i hp h.1 h.2
  rename_i hnone
  refine Effect.noSlot _ ⟨p, b, Or.inr (Or.inr ⟨rfl, fun i hi hl => ?_⟩)⟩
  have h := (find_eq_none s _).mp hnone i
  simp [hi, hl] at h

theorem wakeupTurn_effect {s : Sys n} {p : Fin n} {k : ℕ} (hp : s.pc p = .waking i k) :
    Effect s (.scan p) (wakeupTurn s p i k) := by
  unfold wakeupTurn
  split
  · rename_i hk
    have hturn := Effect.turn p ⟨k, hk⟩ i hp
    dsimp only
    split_ifs with hq
    · exact hturn
    -- the caller itself is not asleep, so passing over it changes nothing
    have hq' : (⟨k, hk⟩ : Fin n) = p := not_not.mp hq
    have hv : p.val = k := by rw [← hq']
    have hwake : (s.pc p).wake i = .waking i k := by rw [hp]; rfl
    rw [hq', hwake, update_idem, hv] at hturn
    exact hturn
  · rename_i hk
    exact Effect.scanned p i k hp (not_lt.mp hk)

theorem step_effect {s t : Sys n} {e : Event n} (h : step s e = some t) : Effect s e t := by
  cases e with
  | alloc =>
    simp only [step] at h
    split_ifs at h with hp
    cases h
    exact bsemAlloc_effect hp
  | allocReturn p =>
    simp only [step] at h
    split at h
    · rename_i i sid hp
      cases h
      exact Effect.allocReturn p i sid hp
    · cases h
  | free p b =>
    simp only [step] at h
    split_ifs at h with hp
    rw [← Option.some.inj h, bsemFree]
    split
    · rename_i i hi
      exact Effect.free p b i hi
    · rename_i hnone
      exact Effect.noSlot _ ⟨p, b, Or.inl ⟨rfl, hnone⟩⟩
  | down p b =>
    simp only [step] at h
    split_ifs at h with hp
    rw [← Option.some.inj h, bsemDown]
    split
    · rename_i i hi
      exact downLoop_effect (AtTest.found hp hi)
    · rename_i hnone
      exact Effect.noSlot _ ⟨p, b, Or.inr (Or.inl ⟨rfl, hnone⟩)⟩
  | retest p =>
    simp only [step] at h
    split at h
    · rename_i b i hp
      cases h
      exact downLoop_effect (AtTest.woken hp)
    · cases h
  | up =>
    simp only [step] at h
    split_ifs at h with hp
    cases h
    exact bsemUp_effect hp
  | scan p =>
    simp only [step] at h
    split at h
    · rename_i i k hp
      cases h
      exact wakeupTurn_effect hp
    · cases h
  | kill q =>
    simp only [step] at h
    split at h
    · rename_i b i hq
      cases h
      exact Effect.kill q b i hq
    · cases h

inductive PcMove (s : Sys n) (e : Event n) (r : Fin n) : Pc → Prop
  | stay : PcMove s e r (s.pc r)
  | assign (i : Slot) (hr : s.pc r = .idle) (hi : (s.sem i).isUsed = 0) (he : e = .alloc r) :
      PcMove s e r (.returning i s.nextsid)
  | leave (hr : ∀ b i, s.pc r ≠ .sleeping b i) (hk : ∀ i k, s.pc r = .waking i k → n ≤ k) :
      PcMove s e r .idle
  | sleep (b : CInt) (i : Slot) (he : AtTest s r b i e) (hl : (s.sem i).isLocked = 1) :
      PcMove s e r (.sleeping b i)
  | unlock (i : Slot) (hr : s.pc r = .idle) : PcMove s e r (.waking i 0)
  | turn (i : Slot) (k : ℕ) (hr : s.pc r = .waking i k) : PcMove s e r (.waking i (k+1))
  | wake (b : CInt) (i : Slot) (hr : s.pc r = .sleeping b i) : PcMove s e r (.woken b i)

theorem AtTest.pc {s : Sys n} {e : Event n} {p : Fin n}
    (h : AtTest s p b i e) : s.pc p = .idle ∨ s.pc p = .woken b i := by
  cases h with
  | found hp => exact Or.inl hp
  | woken hp => exact Or.inr hp

theorem pcMove_update {s : Sys n} {e : Event n} {p : Fin n} {x : Pc} (h : PcMove s e p x) (r : Fin n) :
    PcMove s e r (update s.pc p x r) := by
  by_cases hr : r = p
  · subst hr
    rwa [update_self]
  · rw [update_of_ne hr]
    exact PcMove.stay

theorem pcMove_wake (s : Sys n) (e : Event n) (q : Fin n) (i : Slot) : PcMove s e q ((s.pc q).wake i) := by
  cases hq : s.pc q with
  | sleeping b j =>
    simp only [Pc.wake]
    split_ifs
    · exact PcMove.wake b j hq
    · rw [← hq]
      exact PcMove.stay
  | _ =>
    simp only [Pc.wake]
    rw [← hq]
    exact PcMove.stay

theorem Effect.pcMove {s t : Sys n} {e : Event n} (h : Effect s e t) (r : Fin n) : PcMove s e r (t.pc r) := by
  cases h with
  | full => exact PcMove.stay
  | assign p i hp hi => exact pcMove_update (PcMove.assign i hp hi rfl) r
  | allocReturn p i sid hp => exact pcMove_update (PcMove.leave (by simp [hp]) (by simp [hp])) r
  | free => exact PcMove.stay
  | sleep _ p b i he hl => exact pcMove_update (PcMove.sleep b i he hl) r
  | lock _ p b i he =>
    refine pcMove_update (PcMove.leave ?_ ?_) r
    · rcases he.pc with hp | hp <;> simp [hp]
    · rcases he.pc with hp | hp <;> simp [hp]
  | unlock p b i hp => exact pcMove_update (PcMove.unlock i hp) r
  | turn p q i hp =>
    by_cases hr : r = p
    · subst hr
      dsimp only
      rw [update_self]
      exact PcMove.turn i q.val hp
    · dsimp only
      rw [update_of_ne hr]
      exact pcMove_update (pcMove_wake s _ q i) r
  | scanned p i k hp hk =>
    refine pcMove_update (PcMove.leave (by simp [hp]) ?_) r
    intro j l hl
    rw [hp] at hl
    exact (Pc.waking.inj hl).2 ▸ hk
  | kill q b i hq => exact pcMove_update (PcMove.wake b i hq) r
  | noSlot => exact PcMove.stay

inductive SemMove (s : Sys n) (e : Event n) (i : Slot) : Semaphore → Prop
  | stay : SemMove s e i (s.sem i)
  | assign (hi : (s.sem i).isUsed = 0) : SemMove s e i ⟨s.nextsid, 0, 1⟩
  | free (p : Fin n) (b : CInt) (hi : s.slotOf b = some i) (he : e = .free p b) :
      SemMove s e i ⟨0, 0, 0⟩
  | lock (p : Fin n) (b : CInt) (he : AtTest s p b i e) (hl : (s.sem i).isLocked ≠ 1) :
      SemMove s e i { s.sem i with isLocked := 1 }
  | unlock (p : Fin n) (he : e = .up p (s.sem i).id) (hl : (s.sem i).isLocked = 1) :
      SemMove s e i { s.sem i with isLocked := 0 }

theorem semMove_update {s : Sys n} {e : Event n} {x : Semaphore} (h : SemMove s e i x)
    (j : Slot) : SemMove s e j (update s.sem i x j) := by
  by_cases hj : j = i
  · subst hj
    rwa [update_self]
  · rw [update_of_ne hj]
    exact SemMove.stay

theorem Effect.semMove {s t : Sys n} {e : Event n} (h : Effect s e t) (j : Slot) : SemMove s e j (t.sem j) := by
  cases h with
  | assign p i _ hi => exact semMove_update (SemMove.assign hi) j
  | free p b i hi => exact semMove_update (SemMove.free p b hi rfl) j
  | lock _ p b i he hl => exact semMove_update (SemMove.lock p b he hl) j
  | unlock p b i _ hb hl => exact semMove_update (SemMove.unlock p (by rw [hb]) hl) j
  | _ => exact SemMove.stay

inductive HistMove (s : Sys n) (e : Event n) : List Entry → Prop
  | stay : HistMove s e []
  | assigned : HistMove s e [.assigned s.nextsid]
  | returned (p : Fin n) (i : Slot) (sid : CInt) (hp : s.pc p = .returning i sid) :
      HistMove s e [.returned sid (s.sem i).id]
  | full (hfull : ∀ i, (s.sem i).isUsed ≠ 0) : HistMove s e [.full s.sem]
  | down (p : Fin n) (b : CInt) (i : Slot) (he : AtTest s p b i e) :
      HistMove s e [.down b (s.sem i)]
  | up (p : Fin n) (i : Slot) (he : e = .up p (s.sem i).id) : HistMove s e [.up (s.sem i).id]

theorem Effect.histMove {s t : Sys n} {e : Event n} (h : Effect s e t) :
    ∃ l, t.hist = s.hist ++ l ∧ HistMove s e l := by
  cases h with
  | full p hfull => exact ⟨_, rfl, HistMove.full hfull⟩
  | assign => exact ⟨_, rfl, HistMove.assigned⟩
  | allocReturn p i sid hp => exact ⟨_, rfl, HistMove.returned p i sid hp⟩
  | lock _ p b i he => exact ⟨_, rfl, HistMove.down p b i he⟩
  | unlock p b i _ hb =>
    subst hb
    exact ⟨_, rfl, HistMove.up p i rfl⟩
  | _ => exact ⟨[], (List.append_nil _).symm, HistMove.stay⟩

theorem slotOf_id {s : Sys n} (h : s.slotOf b = some i) : (s.sem i).id = b :=
  of_decide_eq_true ((find_eq_some s _ i).mp h).1

theorem slotOf_eq_none {s : Sys n} : s.slotOf b = none ↔ ∀ i, (s.sem i).id ≠ b := by
  rw [Sys.slotOf, find_eq_none]
  simp only [decide_eq_false_iff_not, ne_eq]

def sidOf (k : ℕ) : CInt := BitVec.ofNat 32 (k+1)

theorem sidOf_succ (k : ℕ) : sidOf (k+1) = sidOf k+1 := by
  rw [sidOf, sidOf, BitVec.ofNat_add (k+1) 1]
  rfl

theorem sidOf_inj_of_lt {k l : ℕ} (hk : k+1 < 2^32) (hl : l+1 < 2^32) (h : sidOf k = sidOf l) : k = l := by
  have hv := congrArg BitVec.toNat h
  simp only [sidOf, BitVec.toNat_ofNat, Nat.mod_eq_of_lt hk, Nat.mod_eq_of_lt hl] at hv
  omega

end Xv6.Bsem
