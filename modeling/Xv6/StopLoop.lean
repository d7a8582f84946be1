import Xv6.SignalReturn

/-! kill hands SIGKILL over in `killed` and everything else in `pendingSignals`, while the loop of
sigstopHandler looks at `frozen` and at the SIGKILL bit. -/
namespace Xv6.Signal

def killAll (table : List Proc) (pid : ℤ) (ks : List Sig) : List Proc :=
  ks.foldl (fun tb s => (kill tb pid s.val).1) table

/-- The stop loop of the process in slot `i`; `sched` lists the signals of the
kill(p->pid, s) calls that complete in each yield. -/
def sigstopLoopIn (i : ℕ) (table : List Proc) (sched : List (List Sig)) : Bool × List Proc :=
  match table[i]? with
  | none => (false, table)
  | some p => match stopTest p with
    | some q => (true, table.set i q)
    | none => match sched with
      | [] => (false, table)
      | ks :: sched => sigstopLoopIn i (killAll table p.pid ks) sched

theorem killScan_first (pre post : List Proc) (p : Proc) (s : Sig) (hpre : ∀ q ∈ pre, q.pid ≠ p.pid) :
    killScan p.pid s (pre ++ p :: post) = (pre ++ killSlot p s :: post, 0) := by
  induction pre with
  | nil => simp [killScan]
  | cons q pre ih =>
    have hq : q.pid ≠ p.pid := hpre q List.mem_cons_self
    have hrest := ih (fun r hr => hpre r (List.mem_cons_of_mem _ hr))
    simp only [List.cons_append, killScan, if_neg hq, hrest]

theorem killSlot_pid (p : Proc) (s : Sig) : (killSlot p s).pid = p.pid := by
  unfold killSlot
  split <;> rfl

theorem killAll_first (ks : List Sig) (pre post : List Proc) (p : Proc) (hpre : ∀ q ∈ pre, q.pid ≠ p.pid) :
    killAll (pre ++ p :: post) p.pid ks = pre ++ ks.foldl killSlot p :: post := by
  induction ks generalizing p with
  | nil => rfl
  | cons s ks ih =>
    have hrange : ¬ ((s.val : ℤ) < 0 ∨ (s.val : ℤ) ≥ 32) := by omega
    have hs : Fin.ofNat 32 ((s.val : ℤ)).toNat = s := by simp
    have hone : (kill (pre ++ p :: post) p.pid s.val).1 = pre ++ killSlot p s :: post := by
      rw [kill, if_neg hrange, hs, killScan_first pre post p s hpre]
    have hpid := killSlot_pid p s
    have hrest := ih (killSlot p s) (fun q hq => hpid ▸ hpre q hq)
    rw [hpid] at hrest
    rw [killAll, List.foldl_cons, hone, List.foldl_cons]
    exact hrest

theorem sigstopLoopIn_first (sched : List (List Sig)) (pre post : List Proc) (p : Proc)
    (hpre : ∀ q ∈ pre, q.pid ≠ p.pid) :
    sigstopLoopIn pre.length (pre ++ p :: post) sched =
      ((sigstopLoop p sched).1, pre ++ (sigstopLoop p sched).2 :: post) := by
  have hget (q : Proc) : (pre ++ q :: post)[pre.length]? = some q := by simp
  have hset (q : Proc) : (pre ++ p :: post).set pre.length q = pre ++ q :: post := by simp
  induction sched generalizing p with
  | nil =>
    rw [sigstopLoopIn, hget]
    cases h : stopTest p <;> simp [sigstopLoop, h]
  | cons ks sched ih =>
    rw [sigstopLoopIn, hget]
    cases h : stopTest p with
    | some => simp [sigstopLoop, h]
    | none =>
      have hpid : (ks.foldl killSlot p).pid = p.pid :=
        List.foldlRecOn (motive := fun q : Proc => q.pid = p.pid) ks killSlot rfl
          (fun q hq s _ => (killSlot_pid q s).trans hq)
      simp only [sigstopLoop, h, killAll_first ks pre post p hpre]
      exact ih _ (fun q hq => hpid ▸ hpre q hq) (fun q => by simp)

/-- `p` is inside the stop loop: sigstopHandler was entered, and each of its tests so far
went on to yield. -/
def InStopLoop (p : Proc) : Prop := ∃ q sched, sigstopHandler sched q = (false, p)

theorem sigstopLoop_running (sched : List (List Sig)) (p r : Proc) (hf : p.frozen = 1)
    (h : sigstopLoop p sched = (false, r)) : r.frozen = 1 ∧ isPending r sigkill = false := by
  induction sched generalizing p with
  | nil =>
    simp only [sigstopLoop, stopTest_of_frozen p hf] at h
    cases hk : isPending p sigkill with
    | true => simp [hk] at h
    | false =>
      obtain rfl : p = r := by simpa [hk] using h
      exact ⟨hf, hk⟩
  | cons ks sched ih =>
    simp only [sigstopLoop, stopTest_of_frozen p hf] at h
    cases hk : isPending p sigkill with
    | true => simp [hk] at h
    | false =>
      simp only [hk, Bool.false_eq_true, ↓reduceIte] at h
      exact ih _ ((killSlots_keep ks p).1.trans hf) h

/-- No sequence of kill calls gets a process out of the stop loop. -/
theorem sigstopLoopIn_running (sched : List (List Sig)) (pre post : List Proc) (p : Proc)
    (hpre : ∀ q ∈ pre, q.pid ≠ p.pid) (hp : InStopLoop p) :
    (sigstopLoopIn pre.length (pre ++ p :: post) sched).1 = false := by
  obtain ⟨q, past, hq⟩ := hp
  obtain ⟨hf, hk⟩ := sigstopLoop_running past { q with frozen := 1 } p rfl hq
  rw [sigstopLoopIn_first sched pre post p hpre]
  exact (sigstopLoop_stays sched p hf hk).1

/-- The loop is left exactly if SIGCONT or SIGKILL has been sent, with `killed` set in the
second case. -/
def StopEnds (i : ℕ) (table : List Proc) (sched : List (List Sig)) : Prop :=
  ((sigstopLoopIn i table sched).1 = true ↔ sigcont ∈ sched.flatten ∨ sigkill ∈ sched.flatten) ∧
  (sigkill ∈ sched.flatten → (sigstopLoopIn i table sched).1 = true →
    ∀ q, (sigstopLoopIn i table sched).2[i]? = some q → q.killed = 1)

theorem stop_ends_iff (pre post : List Proc) (p : Proc) (hpre : ∀ q ∈ pre, q.pid ≠ p.pid)
    (hp : InStopLoop p) (sched : List (List Sig)) :
    StopEnds pre.length (pre ++ p :: post) sched ↔ sigcont ∉ sched.flatten ∧ sigkill ∉ sched.flatten := by
  have hrun := sigstopLoopIn_running sched pre post p hpre hp
  simp only [StopEnds, hrun, Bool.false_eq_true, false_iff, not_or, IsEmpty.forall_iff, implies_true, and_true]

/-! A process stopped by its default SIGSTOP. -/

def stoppedProc : Proc := { interrupted 0 with frozen := 1, pendingSignals := bit sigstop }

theorem stoppedProc_inStopLoop : InStopLoop stoppedProc := ⟨{ stoppedProc with frozen := 0 }, [], rfl⟩

theorem stop_ends_without_signals : StopEnds 0 [stoppedProc] [[1, 2], [], [17]] :=
  (stop_ends_iff [] [] stoppedProc (by simp) stoppedProc_inStopLoop [[1, 2], [], [17]]).mpr (by decide)

/-- Neither SIGCONT nor SIGKILL gets the process out of the loop. -/
theorem stop_survives_sigcont_sigkill : InStopLoop stoppedProc ∧
    ¬ StopEnds 0 [stoppedProc] [[sigcont]] ∧ ¬ StopEnds 0 [stoppedProc] [[sigkill]] := by
  refine ⟨stoppedProc_inStopLoop, fun h => ?_, fun h => ?_⟩
  · have hleft := h.1.mpr (by decide)
    revert hleft
    decide
  · have hleft := h.1.mpr (by decide)
    revert hleft
    decide

end Xv6.Signal
