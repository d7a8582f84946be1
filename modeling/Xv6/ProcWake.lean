import Xv6.ProcFamily

/-! exit wakes the parent before the process is a zombie, but both happen under wait_lock, which
wait gives up only when it is asleep. -/
namespace Xv6.Sched
open Signal Runs
variable {κ : Type} {n : ℕ} {s t : Sys κ n}

/-- What exit and wait have found out, as far as they have got, and who may still be asleep:
init, with a zombie that was just given to it and whose wakeup is under way. -/
structure Told (s : Sys κ n) : Prop where
  scanned : ∀ p addr k b i, s.pc p = .waitScan addr k b → i.val < k →
    (s.slot i).parent = some p → (s.slot i).state ≠ .zombie
  telling : ∀ p status chan j r, s.pc p = .exitWakeParent status chan j →
    (s.slot p).parent = some r → chan = some (.proc r) ∧ (r.val < j → ¬ Asleep s r)
  told : ∀ p status r, s.pc p = .exitZombie status → (s.slot p).parent = some r → ¬ Asleep s r
  awake : ∀ i k, Asleep s i → (s.slot k).parent = some i → (s.slot k).state = .zombie →
    i = 0 ∧ ∃ p status m, s.pc p = .exitWakeInit status m 0

theorem told_boot : Told (Sys.boot κ n) := by
  refine ⟨fun p addr k b i hp => ?_, fun p status chan j r hp => ?_, fun p status r hp => ?_, fun i k hi => ?_⟩
  · cases hp
  · cases hp
  · cases hp
  · have hst := hi.1
    by_cases hi0 : i = 0 <;> simp [Sys.boot, hi0, userinit, zeroSlot, zeroProc] at hst

theorem Busy.not_asleep (hb : Busy s) {p : Idx n} (hp : (s.pc p).holdsWait = true) : ¬ Asleep s p := by
  intro ha
  cases (hb p hp).symm.trans ha.1

theorem not_asleep_of_wakeup {r : Idx n} (h : t.slot r = (s.slot r).wakeup (some (.proc r))) : ¬ Asleep t r := by
  intro ha
  rw [Asleep, h, Slot.wakeup] at ha
  split_ifs at ha with hs
  · cases ha.1
  · exact hs ha

variable [DecidableEq κ] {e : Event κ n}

theorem Effect.asleep (h : Effect s e t) {r : Idx n} (hr : Asleep t r) :
    Asleep s r ∨ ∃ addr k, s.pc r = .waitScan addr k true ∧ n < k := by
  obtain ⟨hst, hch⟩ := hr
  have hm := h.slotMove r
  generalize t.slot r = q at hm hst hch
  cases hm with
  | stay => exact Or.inl ⟨hst, hch⟩
  | enter => cases hch
  | away c _ q _ _ _ _ ha =>
    cases ha with
    | sleep => cases hch
    | wait addr k hpc hk => exact Or.inr ⟨addr, k, hpc, hk⟩
    | _ => cases hst
  | setParent | adopt => exact Or.inl ⟨hst, hch⟩
  | kill _ _ _ _ signum =>
    obtain ⟨hkst, -, hkch, -⟩ := kill_eq (s.slot r) signum
    rcases hkst with hkst | ⟨-, hkst⟩
    · exact Or.inl ⟨hkst.symm.trans hst, hkch.symm.trans hch⟩
    · cases hkst.symm.trans hst
  | fault => exact Or.inl ⟨hst, hch⟩
  | _ => cases hst

theorem HeldBy.parent (hw : HeldBy s) (h : Effect s e t) {p k r : Idx n}
    (hp : (s.pc p).holdsWait = true) (hr : (t.slot k).parent = some r) :
    (s.slot k).parent = some r ∨ ∃ status, s.pc p = .exitReparent status k.val := by
  rcases h.parent hr with hold | ⟨_, _, _, _, hfree, _⟩ | ⟨_, i, status, hpc, _⟩
  · exact Or.inl hold
  · cases hfree.symm.trans ((hw p).mp hp)
  · obtain rfl := hw.unique hp (q := i) (by rw [hpc]; rfl)
    exact Or.inr ⟨status, hpc⟩

theorem HeldBy.zombie (hw : HeldBy s) (h : Effect s e t) {p k : Idx n}
    (hp : (s.pc p).holdsWait = true) (hz : (t.slot k).state = .zombie) :
    (s.slot k).state = .zombie ∨ ∃ status, s.pc p = .exitZombie status := by
  rcases h.zombie hz with hold | ⟨status, hpc, -⟩
  · exact Or.inl hold
  · obtain rfl := hw.unique hp (q := k) (by rw [hpc]; rfl)
    exact Or.inr ⟨status, hpc⟩

theorem HeldBy.asleep (hw : HeldBy s) (h : Effect s e t) {p r : Idx n}
    (hp : (s.pc p).holdsWait = true) (hr : Asleep t r) :
    Asleep s r ∨ ∃ addr k, s.pc p = .waitScan addr k true ∧ n < k := by
  rcases h.asleep hr with hold | ⟨addr, k, hpc, hk⟩
  · exact Or.inl hold
  · obtain rfl := hw.unique hp (q := r) (by rw [hpc]; rfl)
    exact Or.inr ⟨addr, k, hpc, hk⟩

variable {status : ℤ}

theorem Effect.wakeInit (h : Effect s e t) (hb : Busy s) {p : Idx n} {m : ℕ}
    (hp : s.pc p = .exitWakeInit status m 0) (hp0 : p ≠ 0) :
    t.pc p = .exitWakeInit status m 0 ∨ ¬ Asleep t 0 := by
  have hrun : (s.slot p).state = .running := hb p (by rw [hp]; rfl)
  have hm := h.pcMove p
  generalize t.pc p = y at hm
  cases hm with
  | stay => exact Or.inl hp
  | back hno =>
    rcases hno with hex | hu
    · rw [hp] at hex
      cases hex
    · cases hrun.symm.trans hu
  | away q w y b l ha =>
    cases ha with
    | yield => exact Or.inl hp
    | sleep _ hpc => cases hpc.symm.trans hp
    | exit _ hpc => cases hpc.symm.trans hp
    | wait _ _ hpc => cases hpc.symm.trans hp
  | next y hn =>
    cases hn with
    | plain y hpc =>
      rw [hp] at hpc
      cases hpc
    | exit _ hpc => cases hpc.symm.trans hp
    | notChild _ _ hpc => cases hpc.symm.trans hp
    | reparented _ _ hpc => cases hpc.symm.trans hp
    | wokeInit _ _ j hpc hj =>
      -- the scan has not started
      obtain ⟨-, -, rfl⟩ := Pc.exitWakeInit.inj (hpc.symm.trans hp)
      exact absurd hj (Nat.not_lt_zero n)
    | wokeParent _ _ _ hpc => cases hpc.symm.trans hp
    | scan _ _ _ _ hpc => cases hpc.symm.trans hp
  | take c y _ ht =>
    cases ht with
    | exit _ hpc => cases hpc.symm.trans hp
    | wait _ hpc => cases hpc.symm.trans hp
  | turn j chan y ht hslot =>
    cases ht with
    | init status' k _ hpc =>
      -- this is init's turn
      obtain rfl : j = 0 := Fin.ext (Pc.exitWakeInit.inj (hpc.symm.trans hp)).2.2
      refine Or.inr (not_asleep_of_wakeup (s := s) ?_)
      rw [hslot (Ne.symm hp0), Function.update_self]
    | parent _ _ _ hpc => cases hpc.symm.trans hp
  | alloc np _ hpc => cases hpc.symm.trans hp
  | setParent _ _ hpc => cases hpc.symm.trans hp
  | adopt _ _ hpc => cases hpc.symm.trans hp

namespace Told

theorem scanned_step (hw : HeldBy s) (hs : Told s) (h : Effect s e t) {p i : Idx n} {addr b : Bool}
    {k : ℕ} (hp : t.pc p = .waitScan addr k b) (hi : i.val < k) (hpar : (t.slot i).parent = some p) :
    (t.slot i).state ≠ .zombie := by
  intro hz
  have hm := h.holdMove (p := p) (by rw [hp]; rfl)
  generalize t.pc p = x at hm hp
  cases hm with
  | stay hheld =>
    rcases hw.parent h hheld hpar with hold | ⟨_, hpc⟩
    · rcases hw.zombie h hheld hz with hzold | ⟨_, hpc⟩
      · exact hs.scanned p addr k b i hp hi hold hzold
      · cases hpc.symm.trans hp
    · cases hpc.symm.trans hp
  | takeWait =>
    obtain ⟨-, rfl, -⟩ := Pc.waitScan.inj hp
    exact absurd hi (Nat.not_lt_zero _)
  | scan addr' k' b' _ hpc hk hslot =>
    obtain ⟨-, rfl, -⟩ := Pc.waitScan.inj hp
    rw [hslot] at hpar hz
    rcases Nat.lt_succ_iff_lt_or_eq.mp hi with hlt | heq
    · exact hs.scanned p addr' _ b' i hpc hlt hpar hz
    · rw [Fin.ext heq] at hpar hz
      exact hk hpar hz
  | _ => cases hp

theorem telling_step (hb : Busy s) (hw : HeldBy s) (hs : Told s) (h : Effect s e t) {p r : Idx n}
    {chan : Option (Chan n)} {j : ℕ} (hp : t.pc p = .exitWakeParent status chan j)
    (hr : (t.slot p).parent = some r) : chan = some (.proc r) ∧ (r.val < j → ¬ Asleep t r) := by
  -- what was known before the step stays true: the process has had wait_lock throughout
  have hold {j : ℕ} (hpc : s.pc p = .exitWakeParent status chan j) :
      chan = some (.proc r) ∧ (r.val < j → ¬ Asleep t r) := by
    have hheld : (s.pc p).holdsWait = true := by rw [hpc]; rfl
    rcases hw.parent h hheld hr with hsr | ⟨_, hpc'⟩
    · obtain ⟨hch, hno⟩ := hs.telling p status chan j r hpc hsr
      refine ⟨hch, fun hj ha => ?_⟩
      rcases hw.asleep h hheld ha with has | ⟨_, _, hpc', _⟩
      · exact hno hj has
      · cases hpc'.symm.trans hpc
    · cases hpc'.symm.trans hpc
  have hm := h.holdMove (p := p) (by rw [hp]; rfl)
  generalize t.pc p = x at hm hp
  cases hm with
  | stay => exact hold hp
  | reparented status' k _ _ hslot =>
    obtain ⟨-, rfl, rfl⟩ := Pc.exitWakeParent.inj hp
    rw [hslot] at hr
    rw [hr]
    exact ⟨rfl, fun hj => absurd hj (Nat.not_lt_zero _)⟩
  | turnParent status' chan' j' hpc hslot hown =>
    obtain ⟨rfl, rfl, rfl⟩ := Pc.exitWakeParent.inj hp
    obtain ⟨hch, hno⟩ := hold hpc
    refine ⟨hch, fun hj => ?_⟩
    rcases Nat.lt_succ_iff_lt_or_eq.mp hj with hlt | heq
    · exact hno hlt
    obtain rfl : r = j' := Fin.ext heq
    by_cases hrp : r = p
    · have hheld : (s.pc p).holdsWait = true := by rw [hpc]; rfl
      rw [Asleep, hown hrp, hrp]
      exact hb.not_asleep hheld
    · refine not_asleep_of_wakeup (s := s) ?_
      rw [hslot hrp, Function.update_self, hch]
  | _ => cases hp

theorem told_step (hw : HeldBy s) (hs : Told s) (h : Effect s e t) {p r : Idx n}
    (hp : t.pc p = .exitZombie status) (hr : (t.slot p).parent = some r) : ¬ Asleep t r := by
  intro ha
  have hm := h.holdMove (p := p) (by rw [hp]; rfl)
  generalize t.pc p = x at hm hp
  cases hm with
  | stay hheld =>
    rcases hw.parent h hheld hr with hsr | ⟨_, hpc⟩
    · rcases hw.asleep h hheld ha with has | ⟨_, _, hpc, _⟩
      · exact hs.told p status r hp hsr has
      · cases hpc.symm.trans hp
    · cases hpc.symm.trans hp
  | wokeParent status' chan j hpc hj hslot =>
    rw [hslot] at hr
    rw [Asleep, hslot] at ha
    exact (hs.telling p status' chan j r hpc hr).2 (by have := r.isLt; omega) ha
  | _ => cases hp

theorem awake_step (hc : OnCpu s) (hb : Busy s) (hw : HeldBy s) (hf : Family s) (hs : Told s)
    (h : Effect s e t) {i k : Idx n} (ha : Asleep t i) (hpar : (t.slot k).parent = some i)
    (hz : (t.slot k).state = .zombie) : i = 0 ∧ ∃ p status m, t.pc p = .exitWakeInit status m 0 := by
  rcases h.asleep ha with has | ⟨addr, m, hpc, hm⟩
  · rcases h.parent hpar with hold | ⟨c, _, hrun, _⟩ | ⟨rfl, p, status, _, hpc, _⟩
    · rcases h.zombie hz with hzold | ⟨status, hpc, _⟩
      · obtain ⟨rfl, p, status, m, hpc⟩ := hs.awake i k has hold hzold
        have hp0 := hf.exits p (by rw [hpc]; rfl)
        exact ⟨rfl, p, status, m, (h.wakeInit hb hpc hp0).resolve_right (not_not.mpr ha)⟩
      · -- the parent has been woken before
        exact absurd has (hs.told k status i hpc hold)
    · cases has.1.symm.trans (hc.runs hrun)
    · exact ⟨rfl, p, status, k.val, hpc⟩
  · -- the scan that has just ended has seen the child
    have hheld : (s.pc i).holdsWait = true := by rw [hpc]; rfl
    rcases hw.parent h hheld hpar with hold | ⟨_, hpc'⟩
    · rcases hw.zombie h hheld hz with hzold | ⟨_, hpc'⟩
      · exact absurd hzold (hs.scanned i addr m true k hpc (by have := k.isLt; omega) hold)
      · cases hpc'.symm.trans hpc
    · cases hpc'.symm.trans hpc

theorem step (hc : OnCpu s) (hb : Busy s) (hw : HeldBy s) (hf : Family s) (hs : Told s)
    (h : Effect s e t) : Told t where
  scanned _ _ _ _ _ := hs.scanned_step hw h
  telling _ _ _ _ _ := hs.telling_step hb hw h
  told _ _ _ := hs.told_step hw h
  awake _ _ := hs.awake_step hc hb hw hf h

end Told

end Xv6.Sched
