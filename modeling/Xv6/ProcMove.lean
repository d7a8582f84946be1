import Xv6.ProcStep

/-! What a step does to the state of one slot and to the program counter of one process. -/
namespace Xv6.Sched
open Function Signal Runs
variable {κ : Type} {n : ℕ}

inductive SlotMove (s : Sys κ n) (e : Event κ n) (t : Sys κ n) (j : Idx n) : Slot n → Prop
  | stay : SlotMove s e t j (s.slot j)
  | pick (hl : s.lock j = none) (hj : (s.slot j).state = .runnable) :
      SlotMove s e t j { s.slot j with state := .running }
  | enter (c : κ) (hc : (s.cpu c).phase = .picked j) : SlotMove s e t j { s.slot j with chan := none }
  | away (c : κ) (hc : (s.cpu c).phase = .running j) (q : Slot n) (w : Option (Idx n)) (x : Pc n)
      (b : Bool) (l : List (Entry κ n)) (h : Away s j q w x b l) (hpc : t.pc j = x)
      (hist : t.hist = s.hist ++ l) : SlotMove s e t j q
  | wake (hl : s.lock j = none) (hj : (s.slot j).state = .sleeping) :
      SlotMove s e t j { s.slot j with state := .runnable }
  | allocFail (hl : s.lock j = none) (hj : (s.slot j).state = .unused) (q : Slot n)
      (hq : q.gen = s.nextgen) : SlotMove s e t j q.freeproc
  | alloc (c : κ) (i : Idx n) (hc : (s.cpu c).phase = .running i) (hl : s.lock j = none)
      (hj : (s.slot j).state = .unused) (hgen : t.nextgen = s.nextgen+1)
      (hrest : ∀ k, k ≠ j → t.slot k = s.slot k) :
      SlotMove s e t j (((s.slot j).alloc s.nextpid.toInt s.nextgen).copyFrom (s.slot i))
  | setParent (c : κ) (i : Idx n) (pid : ℤ) (hc : (s.cpu c).phase = .running i)
      (hpc : s.pc i = .forkParent j pid) (hw : s.waitLock = none) (hready : t.pc i = .forkReady j pid) :
      SlotMove s e t j { s.slot j with parent := some i }
  | ready (c : κ) (i : Idx n) (pid : ℤ) (hc : (s.cpu c).phase = .running i)
      (hpc : s.pc i = .forkReady j pid) (hrun : t.pc i = .run)
      (hist : Entry.forked (s.slot j).gen pid ∈ t.hist) :
      SlotMove s e t j { s.slot j with state := .runnable }
  | adopt (c : κ) (i : Idx n) (status : ℤ) (hc : (s.cpu c).phase = .running i)
      (hpc : s.pc i = .exitReparent status j.val) (hj : (s.slot j).parent = some i)
      (hnext : t.pc i = .exitWakeInit status j.val 0) (hw : t.waitLock = s.waitLock) :
      SlotMove s e t j { s.slot j with parent := some 0 }
  | reap (c : κ) (i : Idx n) (addr b : Bool) (hc : (s.cpu c).phase = .running i)
      (hpc : s.pc i = .waitScan addr j.val b) (hl : s.lock j = none)
      (hj : (s.slot j).state = .zombie) : SlotMove s e t j (s.slot j).freeproc
  | kill (c : κ) (mem : Memory) (i : Idx n) (pid : ℤ) (signum : Sig) (he : e = .act c mem)
      (hc : (s.cpu c).phase = .running i) (hpc : s.pc i = .killScan pid signum j.val)
      (hl : s.lock j = none) (hj : (s.slot j).pid = pid) : SlotMove s e t j ((s.slot j).kill signum)
  | fault (c : κ) (hc : (s.cpu c).phase = .running j) : SlotMove s e t j { s.slot j with killed := 1 }

theorem slotMove_update {s t : Sys κ n} {e : Event κ n} {i : Idx n} {q : Slot n} (h : SlotMove s e t i q) (j : Idx n) :
    SlotMove s e t j (update s.slot i q j) := by
  by_cases hj : j = i
  · subst hj
    rwa [update_self]
  · rw [update_of_ne hj]
    exact .stay

theorem slotMove_wakeup {s t : Sys κ n} {e : Event κ n} {j : Idx n} (hl : s.lock j = none)
    (chan : Option (Chan n)) : SlotMove s e t j ((s.slot j).wakeup chan) := by
  unfold Slot.wakeup
  split_ifs with h
  · exact .wake hl h.1
  · exact .stay

/-- The child that a fork has allocated and not made runnable yet, with its pid. -/
def Pc.child : Pc n → Option (Idx n × ℤ)
  | .forkParent np pid => some (np, pid)
  | .forkReady np pid => some (np, pid)
  | _ => none

def Pc.isExit : Pc n → Bool
  | .exitLock _ | .exitReparent _ _ | .exitWakeInit _ _ _ | .exitWakeParent _ _ _ | .exitZombie _ => true
  | _ => false

inductive PcMove (s t : Sys κ n) (p : Idx n) : Pc n → Prop
  | stay : PcMove s t p (s.pc p)
  -- a call returns, or the thread of a new process is set up
  | back (h : (s.pc p).isExit = false ∨ (s.slot p).state = .unused) : PcMove s t p .run
  | away (q : Slot n) (w : Option (Idx n)) (x : Pc n) (b : Bool) (l : List (Entry κ n))
      (h : Away s p q w x b l) : PcMove s t p x
  | next (x : Pc n) (h : Next s p x) (hslot : t.slot = s.slot) : PcMove s t p x
  | take (c : κ) (x : Pc n) (hc : (s.cpu c).phase = .running p) (h : Takes s p x) : PcMove s t p x
  | turn (j : Idx n) (chan : Option (Chan n)) (x : Pc n) (h : Turn s p j chan x)
      (hslot : j ≠ p → t.slot = update s.slot j ((s.slot j).wakeup chan))
      (hown : j = p → t.slot = s.slot) : PcMove s t p x
  | alloc (np : Idx n) (pid : ℤ) (hpc : s.pc p = .forkAlloc np.val) (hnp : (s.slot np).state = .unused)
      (hused : (t.slot np).state = .used) (hpid : (t.slot np).pid = pid)
      (hrest : ∀ q, q ≠ p → t.pc q = s.pc q ∨ t.pc q = .run) : PcMove s t p (.forkParent np pid)
  | setParent (np : Idx n) (pid : ℤ) (hpc : s.pc p = .forkParent np pid)
      (hpar : (t.slot np).parent = some p) : PcMove s t p (.forkReady np pid)
  | adopt (status : ℤ) (k : Idx n) (hpc : s.pc p = .exitReparent status k.val)
      (hslot : t.slot = update s.slot k { s.slot k with parent := some 0 }) :
      PcMove s t p (.exitWakeInit status k.val 0)

theorem pcMove_update {s t : Sys κ n} {i : Idx n} {x : Pc n} (h : PcMove s t i x) (p : Idx n) :
    PcMove s t p (update s.pc i x p) := by
  by_cases hp : p = i
  · subst hp
    rwa [update_self]
  · rw [update_of_ne hp]
    exact .stay

variable [DecidableEq κ]

section Steps
variable {s t : Sys κ n} {e : Event κ n}

theorem Effect.slotMove (h : Effect s e t) (j : Idx n) : SlotMove s e t j (t.slot j) := by
  cases h with
  | pick c i _ hl hi => exact slotMove_update (.pick hl hi) j
  | enter c i hc =>
    refine slotMove_update ?_ j
    split_ifs
    · exact .enter c hc
    · exact .stay
  | away _ c i q w x b l hc _ h => exact slotMove_update (.away c hc q w x b l h (update_self ..) rfl) j
  | wakeOther chan i hl => exact slotMove_update (slotMove_wakeup hl _) j
  | turn _ c i k chan x _ _ _ hl => exact slotMove_update (slotMove_wakeup hl _) j
  | allocFail _ c i k q l _ _ hl hk h =>
    refine slotMove_update (.allocFail hl hk q ?_) j
    rcases h with ⟨rfl, -⟩ | ⟨rfl, -⟩ <;> rfl
  | alloc _ c i k hc _ hl hk => exact slotMove_update (.alloc c i hc hl hk rfl fun _ hne => update_of_ne hne ..) j
  | setParent _ c i np pid hc hpc hw => exact slotMove_update (.setParent c i pid hc hpc hw (update_self ..)) j
  | ready _ c i np pid hc hpc => exact slotMove_update (.ready c i pid hc hpc (update_self ..) (by simp)) j
  | adopt _ c i k status hc hpc hk =>
    refine slotMove_update (.adopt c i status hc hpc hk ?_ ?_) j
    · exact update_self ..
    · rfl
  | reap _ c i k addr b hc hpc _ hl hz => exact slotMove_update (.reap c i addr b hc hpc hl hz) j
  | kill c mem i k pid signum hc hpc hl hk => exact slotMove_update (.kill c mem i pid signum rfl hc hpc hl hk) j
  | fault c i hc => exact slotMove_update (.fault c hc) j
  | _ => exact .stay

theorem kill_eq (q : Slot n) (signum : Sig) :
    ((q.kill signum).state = q.state ∨ q.state = .sleeping ∧ (q.kill signum).state = .runnable) ∧
    (q.kill signum).pid = q.pid ∧ (q.kill signum).chan = q.chan ∧ (q.kill signum).xstate = q.xstate ∧
    (q.kill signum).parent = q.parent ∧ (q.kill signum).gen = q.gen := by
  unfold Slot.kill killSlot
  dsimp only
  split_ifs with hs hst
  · exact ⟨Or.inr ⟨hst, rfl⟩, rfl, rfl, rfl, rfl, rfl⟩
  · exact ⟨Or.inl rfl, rfl, rfl, rfl, rfl, rfl⟩
  · exact ⟨Or.inl rfl, rfl, rfl, rfl, rfl, rfl⟩

theorem Effect.pcMove (h : Effect s e t) (p : Idx n) : PcMove s t p (t.pc p) := by
  cases h with
  | away _ c i q w x b l _ _ h => exact pcMove_update (.away q w x b l h) p
  | next _ c i x _ h =>
    refine pcMove_update (.next x h ?_) p
    rfl
  | take _ c i x hc _ h => exact pcMove_update (.take c x hc h) p
  | giveUp _ c i _ _ _ _ hpc => exact pcMove_update (.back (Or.inl (by rw [hpc]; rfl))) p
  | turn _ c i j chan x _ h hj => exact pcMove_update (.turn j chan x h (fun _ => rfl) (fun hji => absurd hji hj)) p
  | ownTurn _ c i chan x _ h =>
    refine pcMove_update (.turn i chan x h (fun hne => absurd rfl hne) fun _ => ?_) p
    rfl
  | allocFail _ c i k q l _ hpc => exact pcMove_update (.back (Or.inl (by rw [hpc]; rfl))) p
  | alloc _ c i k _ hpc _ hk =>
    dsimp only
    by_cases hp : p = i
    · subst hp
      rw [update_self]
      refine .alloc k _ hpc hk ?_ ?_ fun q hq => ?_
      · simp only [update_self]
        rfl
      · simp only [update_self]
        rfl
      dsimp only
      rw [update_of_ne hq]
      by_cases hqk : q = k
      · exact Or.inr (by rw [hqk, update_self])
      · exact Or.inl (update_of_ne hqk ..)
    · rw [update_of_ne hp]
      exact pcMove_update (.back (Or.inr hk)) p
  | setParent _ c i np pid _ hpc => exact pcMove_update (.setParent np pid hpc (by simp only [update_self])) p
  | ready _ c i np pid _ hpc => exact pcMove_update (.back (Or.inl (by rw [hpc]; rfl))) p
  | adopt _ c i k status _ hpc => exact pcMove_update (.adopt status k hpc rfl) p
  | reap _ c i k _ _ _ hpc => exact pcMove_update (.back (Or.inl (by rw [hpc]; rfl))) p
  | kill c _ i k pid signum _ hpc => exact pcMove_update (.back (Or.inl (by rw [hpc]; rfl))) p
  | _ => exact .stay

omit [DecidableEq κ] in
theorem Next.child {i : Idx n} {x : Pc n} (h : Next s i x) : x.child = none := by
  cases h with
  | plain x _ hx => cases x <;> first | rfl | cases hx
  | _ => rfl

theorem Effect.child (h : Effect s e t) {p np : Idx n} {pid : ℤ} (hp : (t.pc p).child = some (np, pid)) :
    (s.pc p).child = some (np, pid) ∨ ((s.slot np).state = .unused ∧ (t.slot np).state = .used ∧ (t.slot np).pid = pid ∧
        ∀ q x, q ≠ p → (t.pc q).child = some x → (s.pc q).child = some x) := by
  have hm := h.pcMove p
  generalize t.pc p = y at hm hp
  cases hm with
  | stay => exact Or.inl hp
  | away q w y b l ha =>
    cases ha with
    | yield => exact Or.inl hp
    | _ => cases hp
  | next y hn => cases hn.child.symm.trans hp
  | take c y _ ht => cases ht <;> cases hp
  | turn j chan y ht => cases ht <;> cases hp
  | alloc k pid' _ hk hused hpid hrest =>
    cases hp
    refine Or.inr ⟨hk, hused, hpid, fun q x hq hx => ?_⟩
    rcases hrest q hq with hsame | hrun
    · rwa [hsame] at hx
    · rw [hrun] at hx
      cases hx
  | setParent np' pid' hpc =>
    left
    rw [hpc]
    exact hp
  | _ => cases hp

end Steps

end Xv6.Sched
