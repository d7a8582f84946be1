import Xv6.ProcCpu
import Xv6.StopLoop

/-! kill compares pids without looking at the state of the slot, and free slots have the pid 0. -/
namespace Xv6.Sched
open Signal Runs List
variable {κ : Type} {n : ℕ}

def Sys.table (s : Sys κ n) : List Signal.Proc := (List.finRange (n+1)).map (fun i => (s.slot i).toProc)

/-- kill(pid, signum) succeeds exactly if a live process has the pid, and changes at most one
slot, that of such a process. -/
def KillOk (table : List Signal.Proc) (pid signum : ℤ) : Prop := ((Signal.kill table pid signum).2 = 0 ↔
    (0 ≤ signum ∧ signum < 32) ∧ ∃ p ∈ table, p.state ≠ .unused ∧ p.pid = pid) ∧
  ((Signal.kill table pid signum).1 = table ∨
    ∃ pre p q post, table = pre ++ p :: post ∧ (Signal.kill table pid signum).1 = pre ++ q :: post ∧
      p.state ≠ .unused ∧ p.pid = pid)

def HitsFree (table : List Signal.Proc) (pid signum : ℤ) : Prop :=
  (0 ≤ signum ∧ signum < 32) ∧ ∃ pre p post, table = pre ++ p :: post ∧ (∀ q ∈ pre, q.pid ≠ pid) ∧
    p.pid = pid ∧ p.state = .unused

variable {pid signum : ℤ} {table : List Signal.Proc}

theorem killScan_none (h : ∀ p ∈ table, p.pid ≠ pid) (i : Sig) : killScan pid i table = (table, -1) := by
  induction table with
  | nil => rfl
  | cons p ps ih =>
    rw [forall_mem_cons] at h
    rw [killScan, if_neg h.1, ih h.2]

theorem exists_first (h : ∃ p ∈ table, p.pid = pid) :
    ∃ pre p post, table = pre ++ p :: post ∧ (∀ q ∈ pre, q.pid ≠ pid) ∧ p.pid = pid := by
  obtain ⟨p, hp⟩ : ∃ p, table.find? (fun p => decide (p.pid = pid)) = some p := by
    rw [← Option.isSome_iff_exists, List.find?_isSome]
    simpa using h
  obtain ⟨hpid, pre, post, hsplit, hpre⟩ := List.find?_eq_some_iff_append.mp hp
  exact ⟨pre, p, post, hsplit, fun q hq => by simpa using hpre q hq, of_decide_eq_true hpid⟩

theorem kill_in_range (hr : 0 ≤ signum ∧ signum < 32) (table : List Signal.Proc) :
    Signal.kill table pid signum = killScan pid (Fin.ofNat 32 signum.toNat) table := by
  rw [Signal.kill, if_neg (by omega)]

theorem kill_ok_of_not_hitsFree (h : ¬ HitsFree table pid signum) : KillOk table pid signum := by
  by_cases hr : 0 ≤ signum ∧ signum < 32
  · by_cases hm : ∃ p ∈ table, p.pid = pid
    · obtain ⟨pre, p, post, rfl, hpre, rfl⟩ := exists_first hm
      have hlive : p.state ≠ .unused := fun hu => h ⟨hr, pre, p, post, rfl, hpre, rfl, hu⟩
      rw [KillOk, kill_in_range hr, killScan_first pre post p _ hpre]
      exact ⟨iff_of_true rfl ⟨hr, p, by simp, hlive, rfl⟩, Or.inr ⟨pre, p, _, post, rfl, rfl, hlive, rfl⟩⟩
    have hno : ∀ p ∈ table, p.pid ≠ pid := fun p hp he => hm ⟨p, hp, he⟩
    rw [KillOk, kill_in_range hr, killScan_none hno]
    refine ⟨iff_of_false (by simp) ?_, Or.inl rfl⟩
    rintro ⟨-, p, hp, -, he⟩
    exact hno p hp he
  · have hk : Signal.kill table pid signum = (table, -1) := by rw [Signal.kill, if_pos (by omega)]
    rw [KillOk, hk]
    exact ⟨iff_of_false (by simp) fun h => hr h.1, Or.inl rfl⟩

theorem not_kill_ok_of_hitsFree (h : HitsFree table pid signum) (hno : ∀ p ∈ table, p.state ≠ .unused → p.pid ≠ pid) :
    ¬ KillOk table pid signum := by
  obtain ⟨hr, pre, p, post, rfl, hpre, rfl, -⟩ := h
  rintro ⟨hret, -⟩
  rw [kill_in_range hr, killScan_first pre post p _ hpre] at hret
  obtain ⟨-, q, hq, hlive, he⟩ := hret.mp rfl
  exact hno q hq hlive he

section Runs
variable [DecidableEq κ]

def finds (s : Sys κ n) (c : κ) : Bool :=
  match (s.cpu c).phase with
  | .running i =>
    match s.pc i with
    | .killScan pid _ k =>
      if h : k < n+1 then
        decide ((s.slot ⟨k, h⟩).pid = pid) && decide ((s.slot ⟨k, h⟩).state = .unused)
      else false
    | _ => false
  | _ => false

/-- No kill call stops at a free slot. -/
def SparesFree (s : Sys κ n) : Event κ n → Prop
  | .act c _ => finds s c = false
  | _ => True

instance (s : Sys κ n) (e : Event κ n) : Decidable (SparesFree s e) := by
  cases e <;> unfold SparesFree <;> infer_instance

structure Unkilled (s : Sys κ n) : Prop where
  free : ∀ i, (s.slot i).state = .unused → (s.slot i).killed = 0
  alloced : ∀ p, Entry.alloced p ∈ s.hist → p.killed = 0 ∧ p.pendingSignals = 0

variable {s t : Sys κ n} {e : Event κ n}

theorem Unkilled.free_step (hs : OnCpu s) (hu : Unkilled s) (hc : SparesFree s e) (h : Effect s e t)
    (j : Idx n) (hj : (t.slot j).state = .unused) : (t.slot j).killed = 0 := by
  have hm := h.slotMove j
  generalize t.slot j = q at hm hj
  cases hm with
  | stay | enter => exact hu.free j hj
  | away c _ q _ _ _ _ ha => cases ha <;> cases hj
  | allocFail => rfl
  | setParent | adopt => exact hu.free j hj
  | reap => rfl
  | kill c mem i pid signum he hrun hpc _ hpid =>
    have hst : (s.slot j).state = .unused := by
      rcases (kill_eq (s.slot j) signum).1 with hk | ⟨-, hk⟩
      · exact hk.symm.trans hj
      · cases hk.symm.trans hj
    subst he
    simp only [SparesFree, finds, hrun, hpc, j.isLt, ↓reduceDIte, Fin.eta, hpid, hst, decide_true,
      Bool.and_self, Bool.true_eq_false] at hc
  | fault c hrun => cases (hs.runs hrun).symm.trans hj
  | _ => cases hj

theorem Unkilled.step (hs : OnCpu s) (hu : Unkilled s) (hc : SparesFree s e) (h : Effect s e t) : Unkilled t where
  free := hu.free_step hs hc h
  alloced p hp := by
    have hnew {k : Idx n} (hk : (s.slot k).state = .unused) : ((s.slot k).alloc s.nextpid.toInt s.nextgen).killed = 0 ∧
        ((s.slot k).alloc s.nextpid.toInt s.nextgen).pendingSignals = 0 := ⟨hu.free k hk, rfl⟩
    cases h with
    | away _ c i q w x b l _ _ h =>
      dsimp only at hp
      rw [mem_append] at hp
      refine hu.alloced p (hp.resolve_right fun hl => ?_)
      cases h <;> simp at hl
    | allocFail _ c i k q l _ _ _ hk h =>
      simp only [mem_append, mem_singleton] at hp
      rcases hp with (hp | hp) | hp
      · exact hu.alloced p hp
      · rcases h with ⟨-, rfl⟩ | ⟨rfl, rfl⟩
        · cases hp
        · obtain rfl := Entry.alloced.inj (mem_singleton.mp hp)
          exact hnew hk
      · cases hp
    | alloc _ c i k _ _ _ hk =>
      simp only [mem_append, mem_singleton] at hp
      rcases hp with hp | hp
      · exact hu.alloced p hp
      · obtain rfl := Entry.alloced.inj hp
        exact hnew hk
    | ready | reap => exact hu.alloced p (by simpa using hp)
    | _ => exact hu.alloced p hp

omit [DecidableEq κ] in
theorem unkilled_boot : Unkilled (Sys.boot κ n) where
  free i hi := by
    simp only [Sys.boot] at hi ⊢
    split_ifs at hi ⊢
    · cases hi
    · rfl
  alloced p hp := by
    obtain rfl := Entry.alloced.inj (mem_singleton.mp hp)
    exact ⟨rfl, rfl⟩

theorem unkilled_reach (h : Reach step SparesFree (Sys.boot κ n) s) : Unkilled s := by
  refine (h.invariant (I := fun s => (OnCpu s ∧ Forking s) ∧ Unkilled s)
    ⟨⟨onCpu_boot, forking_boot⟩, unkilled_boot⟩ ?_).2
  rintro t e u ⟨⟨ht, hf⟩, hu⟩ hc hst
  have heff := step_effect hst
  exact ⟨⟨ht.step hf heff, hf.step ht heff⟩, hu.step ht hc heff⟩

/-- A kill call does what it should unless it stops at a free slot. In a run without such a call
allocproc returns only processes that are not killed and have nothing pending. -/
theorem kill_touches_live_process (s : Sys κ n) :
    (∀ pid signum, ¬ HitsFree s.table pid signum → KillOk s.table pid signum) ∧
    (∀ pid signum, HitsFree s.table pid signum →
      (∀ p ∈ s.table, p.state ≠ .unused → p.pid ≠ pid) → ¬ KillOk s.table pid signum) ∧
    (Reach step SparesFree (Sys.boot κ n) s → ∀ p, Entry.alloced p ∈ s.hist → p.killed = 0 ∧ p.pendingSignals = 0) :=
  ⟨fun _ _ => kill_ok_of_not_hitsFree, fun _ _ => not_kill_ok_of_hitsFree, fun h => (unkilled_reach h).alloced⟩

end Runs

theorem kill_touches_init : ∃ s, run (fun u e => if SparesFree u e then step u e else none) (Sys.boot Unit 1)
        [.pick () 0, .enter (), .call () (.kill 1 3), .act () .ok, .call () .fork, .act () .ok, .act () .ok] = some s ∧
      ∀ p, Entry.alloced p ∈ s.hist → p.killed = 0 ∧ p.pendingSignals = 0 := by
  have hrun : (run (fun u e => if SparesFree u e then step u e else none) (Sys.boot Unit 1)
      [.pick () 0, .enter (), .call () (.kill 1 3), .act () .ok, .call () .fork, .act () .ok,
        .act () .ok]).isSome = true := by decide +kernel
  obtain ⟨s, hs⟩ := Option.isSome_iff_exists.mp hrun
  exact ⟨s, hs, (kill_touches_live_process s).2.2 (Reach.of_run hs)⟩

def Entry.isKilledAlloc {κ : Type} {n : ℕ} : Entry κ n → Bool
  | .alloced p => decide (p.killed = 1)
  | _ => false

/-- kill(0, SIGKILL) succeeds at boot, where only init is live, and the child that init
forks next is killed from the start. -/
theorem kill_zero_hits_free_slot : (∀ p ∈ (Sys.boot Unit 1).table, p.state ≠ .unused → p.pid ≠ 0) ∧
    (Signal.kill (Sys.boot Unit 1).table 0 9).2 = 0 ∧ ¬ KillOk (Sys.boot Unit 1).table 0 9 ∧
    ∃ s, run step (Sys.boot Unit 1) [.pick () 0, .enter (), .call () (.kill 0 9), .act () .ok,
        .act () .ok, .call () .fork, .act () .ok, .act () .ok] = some s ∧
      ∃ p, Entry.alloced p ∈ s.hist ∧ p.killed = 1 := by
  have hlive : ∀ p ∈ (Sys.boot Unit 1).table, p.state ≠ .unused → p.pid ≠ 0 := by decide +kernel
  have hret : (Signal.kill (Sys.boot Unit 1).table 0 9).2 = 0 := by decide +kernel
  have hrun : (run step (Sys.boot Unit 1) [.pick () 0, .enter (), .call () (.kill 0 9), .act () .ok,
      .act () .ok, .call () .fork, .act () .ok, .act () .ok]).any
      (fun s => s.hist.any Entry.isKilledAlloc) = true := by decide +kernel
  refine ⟨hlive, hret, ?_, ?_⟩
  · rintro ⟨hok, -⟩
    obtain ⟨-, p, hp, hst, hpid⟩ := hok.mp hret
    exact hlive p hp hst hpid
  obtain ⟨s, hs, hany⟩ := (Option.any_eq_true _ _).mp hrun
  obtain ⟨x, hx, hk⟩ := any_eq_true.mp hany
  cases x with
  | alloced p => exact ⟨s, hs, p, hx, of_decide_eq_true hk⟩
  | _ => cases hk

end Xv6.Sched
