import Xv6.ProcCpu

/-! The process that holds wait_lock, and what the others can do to parents, zombies and
sleepers in the meantime. -/
namespace Xv6.Sched
open Function Signal Runs
variable {κ : Type} {n : ℕ}

def Pc.holdsWait : Pc n → Bool
  | .exitReparent _ _ | .exitWakeInit _ _ _ | .exitWakeParent _ _ _ | .exitZombie _
  | .waitScan _ _ _ => true
  | _ => false

theorem holdsWait_of_plain {x : Pc n} (h : x.isPlain = true) : x.holdsWait = false := by
  cases x <;> first | rfl | cases h

theorem holdsWait_of_mayYield {x : Pc n} (h : x.mayYield = true) : x.holdsWait = false := by
  cases x <;> first | rfl | cases h

def Asleep (s : Sys κ n) (i : Idx n) : Prop := (s.slot i).state = .sleeping ∧ (s.slot i).chan = some (.proc i)

inductive HoldMove (s t : Sys κ n) (p : Idx n) : Pc n → Prop
  | stay (hp : (s.pc p).holdsWait = true) : HoldMove s t p (s.pc p)
  | takeExit (c : κ) (status : ℤ) (hc : (s.cpu c).phase = .running p)
      (hpc : s.pc p = .exitLock status) : HoldMove s t p (.exitReparent status 0)
  | takeWait (c : κ) (addr : Bool) (hc : (s.cpu c).phase = .running p) :
      HoldMove s t p (.waitScan addr 0 false)
  | notChild (status : ℤ) (k : Idx n) (hpc : s.pc p = .exitReparent status k.val)
      (hk : (s.slot k).parent ≠ some p) (hslot : t.slot = s.slot) :
      HoldMove s t p (.exitReparent status (k.val+1))
  | adopt (status : ℤ) (k : Idx n) (hpc : s.pc p = .exitReparent status k.val)
      (hslot : t.slot = update s.slot k { s.slot k with parent := some 0 }) :
      HoldMove s t p (.exitWakeInit status k.val 0)
  | turnInit (status : ℤ) (k j : ℕ) (hpc : s.pc p = .exitWakeInit status k j) :
      HoldMove s t p (.exitWakeInit status k (j+1))
  | wokeInit (status : ℤ) (k j : ℕ) (hpc : s.pc p = .exitWakeInit status k j) :
      HoldMove s t p (.exitReparent status (k+1))
  | reparented (status : ℤ) (k : ℕ) (hpc : s.pc p = .exitReparent status k) (hk : n < k)
      (hslot : t.slot = s.slot) :
      HoldMove s t p (.exitWakeParent status ((s.slot p).parent.map .proc) 0)
  | turnParent (status : ℤ) (chan : Option (Chan n)) (j : Idx n)
      (hpc : s.pc p = .exitWakeParent status chan j.val)
      (hslot : j ≠ p → t.slot = update s.slot j ((s.slot j).wakeup chan))
      (hown : j = p → t.slot = s.slot) : HoldMove s t p (.exitWakeParent status chan (j.val+1))
  | wokeParent (status : ℤ) (chan : Option (Chan n)) (j : ℕ)
      (hpc : s.pc p = .exitWakeParent status chan j) (hj : n < j) (hslot : t.slot = s.slot) :
      HoldMove s t p (.exitZombie status)
  | scan (addr : Bool) (k : Idx n) (b b' : Bool) (hpc : s.pc p = .waitScan addr k.val b)
      (hk : (s.slot k).parent = some p → (s.slot k).state ≠ .zombie) (hslot : t.slot = s.slot) :
      HoldMove s t p (.waitScan addr (k.val+1) b')

section
variable {s t : Sys κ n}

theorem Next.holdMove {i : Idx n} {x : Pc n} (h : Next s i x) (hslot : t.slot = s.slot)
    (hx : x.holdsWait = true) : HoldMove s t i x := by
  cases h with
  | plain x _ hplain =>
    rw [holdsWait_of_plain hplain] at hx
    cases hx
  | exit => cases hx
  | notChild status k hpc hk => exact .notChild status k hpc hk hslot
  | reparented status k hpc hk => exact .reparented status k hpc hk hslot
  | wokeInit status k j hpc => exact .wokeInit status k j hpc
  | wokeParent status chan j hpc hj => exact .wokeParent status chan j hpc hj hslot
  | scan addr k b b' hpc hk => exact .scan addr k b b' hpc hk hslot

def HeldBy (s : Sys κ n) : Prop := ∀ p, (s.pc p).holdsWait = true ↔ s.waitLock = some p

theorem HeldBy.unique (hs : HeldBy s) {p q : Idx n} (hp : (s.pc p).holdsWait = true)
    (hq : (s.pc q).holdsWait = true) : p = q :=
  Option.some.inj (((hs p).mp hp).symm.trans ((hs q).mp hq))

theorem HeldBy.move (hs : HeldBy s) {i : Idx n} {x : Pc n} (hx : x.holdsWait = (s.pc i).holdsWait) (p : Idx n) :
    (update s.pc i x p).holdsWait = true ↔ s.waitLock = some p := by
  by_cases hpi : p = i
  · subst hpi
    rw [update_self, hx]
    exact hs p
  · rw [update_of_ne hpi]
    exact hs p

theorem HeldBy.release (hs : HeldBy s) {i : Idx n} {x : Pc n} (hi : (s.pc i).holdsWait = true)
    (hx : x.holdsWait = false) (p : Idx n) :
    (update s.pc i x p).holdsWait = true ↔ none = some p := by
  refine iff_of_false ?_ (by simp)
  by_cases hpi : p = i
  · subst hpi
    rw [update_self, hx]
    decide
  · rw [update_of_ne hpi]
    exact fun hp => hpi (hs.unique hp hi)

def Busy (s : Sys κ n) : Prop := ∀ p, (s.pc p).holdsWait = true → (s.slot p).state = .running

theorem HoldMove.held {p : Idx n} {x : Pc n} (h : HoldMove s t p x) :
    (s.pc p).holdsWait = true ∨ (∃ c, (s.cpu c).phase = .running p) ∧
      ((∃ status, x = .exitReparent status 0) ∨ ∃ addr, x = .waitScan addr 0 false) := by
  cases h with
  | stay hp => exact Or.inl hp
  | takeExit c status hc => exact Or.inr ⟨⟨c, hc⟩, Or.inl ⟨status, rfl⟩⟩
  | takeWait c addr hc => exact Or.inr ⟨⟨c, hc⟩, Or.inr ⟨addr, rfl⟩⟩
  | notChild _ _ hpc => exact Or.inl (by rw [hpc]; rfl)
  | adopt _ _ hpc => exact Or.inl (by rw [hpc]; rfl)
  | turnInit _ _ _ hpc => exact Or.inl (by rw [hpc]; rfl)
  | wokeInit _ _ _ hpc => exact Or.inl (by rw [hpc]; rfl)
  | reparented _ _ hpc => exact Or.inl (by rw [hpc]; rfl)
  | turnParent _ _ _ hpc => exact Or.inl (by rw [hpc]; rfl)
  | wokeParent _ _ _ hpc => exact Or.inl (by rw [hpc]; rfl)
  | scan _ _ _ _ hpc => exact Or.inl (by rw [hpc]; rfl)

theorem HoldMove.running {p : Idx n} {x : Pc n} (h : HoldMove s t p x) (hs : OnCpu s) (hb : Busy s) :
    (s.slot p).state = .running := by
  rcases h.held with hp | ⟨⟨c, hc⟩, -⟩
  · exact hb p hp
  · exact hs.runs hc

variable [DecidableEq κ] {e : Event κ n}

theorem Effect.holdMove (h : Effect s e t) {p : Idx n} (hp : (t.pc p).holdsWait = true) : HoldMove s t p (t.pc p) := by
  have hm := h.pcMove p
  generalize t.pc p = x at hm hp
  cases hm with
  | stay => exact .stay hp
  | away q w x b l ha =>
    cases ha with
    | yield => exact .stay hp
    | _ => cases hp
  | next x hn hslot => exact hn.holdMove hslot hp
  | take c x hc ht =>
    cases ht with
    | exit status hpc => exact .takeExit c status hc hpc
    | wait addr => exact .takeWait c addr hc
  | turn j chan x ht hslot hown =>
    cases ht with
    | init status k _ hpc => exact .turnInit status k j.val hpc
    | parent status chan _ hpc => exact .turnParent status chan j hpc hslot hown
  | adopt status k hpc hslot => exact .adopt status k hpc hslot
  | _ => cases hp

theorem Busy.step (hs : OnCpu s) (hf : Forking s) (hb : Busy s) (h : Effect s e t) : Busy t := by
  intro p hp
  have hrun := (h.holdMove hp).running hs hb
  have hm := h.slotMove p
  generalize t.slot p = q at hm
  cases hm with
  | stay => exact hrun
  | pick => rfl
  | enter => exact hrun
  | away c hc q w x b l ha hpc =>
    -- where it goes off its CPU it has no wait_lock
    rw [hpc] at hp
    cases ha with
    | yield hy =>
      rw [holdsWait_of_mayYield hy] at hp
      cases hp
    | _ => cases hp
  | wake _ hj => cases hrun.symm.trans hj
  | allocFail _ hj => cases hrun.symm.trans hj
  | alloc _ _ _ _ hj => cases hrun.symm.trans hj
  | setParent => exact hrun
  | ready c i pid _ hpc => cases hrun.symm.trans (hf.used i p pid (by rw [hpc]; rfl)).1
  | adopt => exact hrun
  | reap _ _ _ _ _ _ _ hj => cases hrun.symm.trans hj
  | kill _ _ _ _ signum =>
    rcases (kill_eq (s.slot p) signum).1 with hk | ⟨hk, -⟩
    · exact hk.trans hrun
    · cases hrun.symm.trans hk
  | fault => exact hrun

theorem HeldBy.step (hb : Busy s) (hs : HeldBy s) (h : Effect s e t) : HeldBy t := by
  cases h with
  | away _ c i q w x b l _ _ h =>
    cases h with
    | yield =>
      intro p
      dsimp only
      rw [update_eq_self]
      exact hs p
    | sleep chan hpc => exact hs.move (by rw [hpc])
    | exit status hpc => exact hs.release (by rw [hpc]; rfl) rfl
    | wait addr k hpc => exact hs.release (by rw [hpc]; rfl) rfl
  | next _ c i x _ h =>
    refine hs.move ?_
    cases h with
    | plain x hpc hx => rw [holdsWait_of_plain hpc, holdsWait_of_plain hx]
    | exit status hpc => rw [hpc]; rfl
    | notChild status k hpc => rw [hpc]; rfl
    | reparented status k hpc => rw [hpc]; rfl
    | wokeInit status k j hpc => rw [hpc]; rfl
    | wokeParent status chan j hpc => rw [hpc]; rfl
    | scan addr k b b' hpc => rw [hpc]; rfl
  | take _ c i x _ hw h =>
    intro p
    dsimp only
    by_cases hpi : p = i
    · subst hpi
      rw [update_self]
      cases h <;> simp [Pc.holdsWait]
    have hno : ¬ (s.pc p).holdsWait = true := by
      rw [hs p, hw]
      simp
    rw [update_of_ne hpi]
    exact iff_of_false hno fun hp => hpi (Option.some.inj hp).symm
  | giveUp _ c i addr k b _ hpc => exact hs.release (by rw [hpc]; rfl) rfl
  | turn _ c i j chan x _ h =>
    refine hs.move ?_
    cases h with
    | init status k _ hpc => rw [hpc]; rfl
    | parent status chan _ hpc => rw [hpc]; rfl
  | ownTurn _ c i chan x _ h =>
    refine hs.move ?_
    cases h with
    | init status k _ hpc => rw [hpc]; rfl
    | parent status chan _ hpc => rw [hpc]; rfl
  | allocFail _ c i k q l _ hpc => exact hs.move (by rw [hpc]; rfl)
  | alloc _ c i k hc hpc _ hk =>
    have hk' : (s.pc k).holdsWait = false := by
      by_contra hno
      cases hk.symm.trans (hb k (by simpa using hno))
    intro p
    dsimp only
    by_cases hpi : p = i
    · subst hpi
      rw [update_self, ← hs p, hpc]
      rfl
    · rw [update_of_ne hpi]
      exact hs.move (x := .run) (by rw [hk']; rfl) p
  | setParent _ c i np pid _ hpc => exact hs.move (by rw [hpc]; rfl)
  | ready _ c i np pid _ hpc => exact hs.move (by rw [hpc]; rfl)
  | adopt _ c i k status _ hpc => exact hs.move (by rw [hpc]; rfl)
  | reap _ c i k addr b _ hpc => exact hs.release (by rw [hpc]; rfl) rfl
  | kill c _ i k pid signum _ hpc => exact hs.move (by rw [hpc]; rfl)
  | _ => exact hs

end

end Xv6.Sched
