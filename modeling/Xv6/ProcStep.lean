import Xv6.ProcModel

/-! What one step of the process code can do. Steps that move only the program counter of
the acting process are kept apart from those that write the table. -/
namespace Xv6.Sched
open Function Signal Runs
variable {κ : Type} {n : ℕ}

def Pc.isPlain : Pc n → Bool
  | .run | .forkAlloc _ | .waitLock _ | .killScan _ _ _ => true
  | _ => false

inductive Next (s : Sys κ n) (i : Idx n) : Pc n → Prop
  | plain (x : Pc n) (hpc : (s.pc i).isPlain = true) (hx : x.isPlain = true) : Next s i x
  | exit (status : ℤ) (hpc : s.pc i = .run) (hi : i ≠ 0) : Next s i (.exitLock status)
  | notChild (status : ℤ) (k : Idx n) (hpc : s.pc i = .exitReparent status k.val)
      (hk : (s.slot k).parent ≠ some i) : Next s i (.exitReparent status (k.val+1))
  | reparented (status : ℤ) (k : ℕ) (hpc : s.pc i = .exitReparent status k) (hk : n < k) :
      Next s i (.exitWakeParent status ((s.slot i).parent.map .proc) 0)
  | wokeInit (status : ℤ) (k j : ℕ) (hpc : s.pc i = .exitWakeInit status k j) (hj : n < j) :
      Next s i (.exitReparent status (k+1))
  | wokeParent (status : ℤ) (chan : Option (Chan n)) (j : ℕ)
      (hpc : s.pc i = .exitWakeParent status chan j) (hj : n < j) : Next s i (.exitZombie status)
  | scan (addr : Bool) (k : Idx n) (have1 have2 : Bool) (hpc : s.pc i = .waitScan addr k.val have1)
      (hk : (s.slot k).parent = some i → (s.slot k).state ≠ .zombie) :
      Next s i (.waitScan addr (k.val+1) have2)

/-- How process `i` leaves its CPU: the slot it leaves behind, who has wait_lock then, where
the process goes on, whether inside sleep, and what is recorded. -/
inductive Away (s : Sys κ n) (i : Idx n) : Slot n → Option (Idx n) → Pc n → Bool → List (Entry κ n) → Prop
  | yield (hpc : (s.pc i).mayYield = true) :
      Away s i { s.slot i with state := .runnable } s.waitLock (s.pc i) false []
  | sleep (chan : ℕ) (hpc : s.pc i = .run) :
      Away s i { s.slot i with chan := some (.other chan), state := .sleeping } s.waitLock .run true []
  | exit (status : ℤ) (hpc : s.pc i = .exitZombie status) :
      Away s i { s.slot i with xstate := status, state := .zombie } none .dead false [.exited (s.slot i).gen status]
  | wait (addr : Bool) (k : ℕ) (hpc : s.pc i = .waitScan addr k true) (hk : n < k) :
      Away s i { s.slot i with chan := some (.proc i), state := .sleeping } none (.waitLock addr) true []

inductive Takes (s : Sys κ n) (i : Idx n) : Pc n → Prop
  | exit (status : ℤ) (hpc : s.pc i = .exitLock status) : Takes s i (.exitReparent status 0)
  | wait (addr : Bool) (hpc : s.pc i = .waitLock addr) : Takes s i (.waitScan addr 0 false)

inductive Turn (s : Sys κ n) (i : Idx n) : Idx n → Option (Chan n) → Pc n → Prop
  | init (status : ℤ) (k : ℕ) (j : Idx n) (hpc : s.pc i = .exitWakeInit status k j.val) :
      Turn s i j (some (.proc 0)) (.exitWakeInit status k (j.val+1))
  | parent (status : ℤ) (chan : Option (Chan n)) (j : Idx n)
      (hpc : s.pc i = .exitWakeParent status chan j.val) :
      Turn s i j chan (.exitWakeParent status chan (j.val+1))

theorem callPc_next {s : Sys κ n} {i : Idx n} {op : Op} {x : Pc n} (hpc : s.pc i = .run)
    (h : callPc i op = some x) : Next s i x := by
  have hplain : (s.pc i).isPlain = true := by rw [hpc]; rfl
  cases op with
  | fork =>
    cases h
    exact .plain _ hplain rfl
  | exit status =>
    simp only [callPc] at h
    split_ifs at h with hi
    cases h
    exact .exit status hpc hi
  | wait =>
    cases h
    exact .plain _ hplain rfl
  | kill =>
    simp only [callPc] at h
    split_ifs at h <;> cases h <;> exact .plain _ hplain rfl

variable [DecidableEq κ]

inductive Effect (s : Sys κ n) : Event κ n → Sys κ n → Prop
  | pick (c : κ) (i : Idx n) (hc : (s.cpu c).phase = .idle) (hl : s.lock i = none)
      (hi : (s.slot i).state = .runnable) :
      Effect s (.pick c i) { s with
        slot := update s.slot i { s.slot i with state := .running }
        lock := update s.lock i (some c)
        cpu := update s.cpu c ⟨some i, .picked i⟩ }
  | enter (c : κ) (i : Idx n) (hc : (s.cpu c).phase = .picked i) :
      Effect s (.enter c) { s with
        slot := update s.slot i (if s.inSleep i then { s.slot i with chan := none } else s.slot i)
        lock := update s.lock i none
        cpu := update s.cpu c { s.cpu c with phase := .running i }
        inSleep := update s.inSleep i false }
  | away (e : Event κ n) (c : κ) (i : Idx n) (q : Slot n) (w : Option (Idx n)) (x : Pc n) (b : Bool)
      (l : List (Entry κ n)) (hc : (s.cpu c).phase = .running i) (hl : s.lock i = none)
      (h : Away s i q w x b l) :
      Effect s e { s with
        slot := update s.slot i q
        lock := update s.lock i (some c)
        cpu := update s.cpu c { s.cpu c with phase := .leaving i }
        pc := update s.pc i x
        inSleep := update s.inSleep i b
        waitLock := w
        hist := s.hist ++ l }
  | leave (c : κ) (i : Idx n) (hc : (s.cpu c).phase = .leaving i) :
      Effect s (.leave c) { s with cpu := update s.cpu c ⟨none, .left i⟩ }
  | drop (c : κ) (i : Idx n) (hc : (s.cpu c).phase = .left i) :
      Effect s (.drop c) { s with
        lock := update s.lock i none
        cpu := update s.cpu c { s.cpu c with phase := .idle } }
  | next (e : Event κ n) (c : κ) (i : Idx n) (x : Pc n) (hc : (s.cpu c).phase = .running i)
      (h : Next s i x) : Effect s e { s with pc := update s.pc i x }
  | take (e : Event κ n) (c : κ) (i : Idx n) (x : Pc n) (hc : (s.cpu c).phase = .running i)
      (hw : s.waitLock = none) (h : Takes s i x) :
      Effect s e { s with pc := update s.pc i x, waitLock := some i }
  -- wait returns -1
  | giveUp (e : Event κ n) (c : κ) (i : Idx n) (addr : Bool) (k : ℕ) (b : Bool)
      (hc : (s.cpu c).phase = .running i) (hpc : s.pc i = .waitScan addr k b) :
      Effect s e { s with pc := update s.pc i .run, waitLock := none }
  | wakeOther (chan : ℕ) (j : Idx n) (hl : s.lock j = none) :
      Effect s (.wake chan j) { s with
        slot := update s.slot j ((s.slot j).wakeup (some (.other chan))) }
  | turn (e : Event κ n) (c : κ) (i j : Idx n) (chan : Option (Chan n)) (x : Pc n)
      (hc : (s.cpu c).phase = .running i) (h : Turn s i j chan x) (hj : j ≠ i) (hl : s.lock j = none) :
      Effect s e { s with
        slot := update s.slot j ((s.slot j).wakeup chan)
        pc := update s.pc i x }
  | ownTurn (e : Event κ n) (c : κ) (i : Idx n) (chan : Option (Chan n)) (x : Pc n)
      (hc : (s.cpu c).phase = .running i) (h : Turn s i i chan x) :
      Effect s e { s with pc := update s.pc i x }
  | allocFail (e : Event κ n) (c : κ) (i k : Idx n) (q : Slot n) (l : List (Entry κ n))
      (hc : (s.cpu c).phase = .running i) (hpc : s.pc i = .forkAlloc k.val) (hl : s.lock k = none)
      (hk : (s.slot k).state = .unused)
      (h : q = { s.slot k with gen := s.nextgen } ∧ l = [] ∨
        q = (s.slot k).alloc s.nextpid.toInt s.nextgen ∧ l = [.alloced q.toProc]) :
      Effect s e { s with
        slot := update s.slot k q.freeproc
        pc := update s.pc i .run
        nextpid := s.nextpid+1
        nextgen := s.nextgen+1
        hist := s.hist ++ l ++ [.freed k (fun c => (s.cpu c).proc)] }
  | alloc (e : Event κ n) (c : κ) (i k : Idx n) (hc : (s.cpu c).phase = .running i)
      (hpc : s.pc i = .forkAlloc k.val) (hl : s.lock k = none) (hk : (s.slot k).state = .unused) :
      Effect s e { s with
        slot := update s.slot k (((s.slot k).alloc s.nextpid.toInt s.nextgen).copyFrom (s.slot i))
        pc := update (update s.pc k .run) i (.forkParent k s.nextpid.toInt)
        inSleep := update s.inSleep k false
        nextpid := s.nextpid+1
        nextgen := s.nextgen+1
        hist := s.hist ++ [.alloced ((s.slot k).alloc s.nextpid.toInt s.nextgen).toProc] }
  | setParent (e : Event κ n) (c : κ) (i np : Idx n) (pid : ℤ) (hc : (s.cpu c).phase = .running i)
      (hpc : s.pc i = .forkParent np pid) (hw : s.waitLock = none) :
      Effect s e { s with
        slot := update s.slot np { s.slot np with parent := some i }
        pc := update s.pc i (.forkReady np pid) }
  | ready (e : Event κ n) (c : κ) (i np : Idx n) (pid : ℤ) (hc : (s.cpu c).phase = .running i)
      (hpc : s.pc i = .forkReady np pid) (hl : s.lock np = none) :
      Effect s e { s with
        slot := update s.slot np { s.slot np with state := .runnable }
        pc := update s.pc i .run
        hist := s.hist ++ [.forked (s.slot np).gen pid] }
  | adopt (e : Event κ n) (c : κ) (i k : Idx n) (status : ℤ) (hc : (s.cpu c).phase = .running i)
      (hpc : s.pc i = .exitReparent status k.val) (hk : (s.slot k).parent = some i) :
      Effect s e { s with
        slot := update s.slot k { s.slot k with parent := some 0 }
        pc := update s.pc i (.exitWakeInit status k.val 0) }
  | reap (e : Event κ n) (c : κ) (i k : Idx n) (addr b : Bool) (hc : (s.cpu c).phase = .running i)
      (hpc : s.pc i = .waitScan addr k.val b) (hk : (s.slot k).parent = some i)
      (hl : s.lock k = none) (hz : (s.slot k).state = .zombie) :
      Effect s e { s with
        slot := update s.slot k (s.slot k).freeproc
        pc := update s.pc i .run
        waitLock := none
        hist := s.hist ++ [.reaped (s.slot k).gen (s.slot k).pid ((s.slot k).statusFor addr) i (s.slot k).parent] ++
          [.freed k (fun c => (s.cpu c).proc)] }
  | kill (c : κ) (mem : Memory) (i k : Idx n) (pid : ℤ) (signum : Sig)
      (hc : (s.cpu c).phase = .running i) (hpc : s.pc i = .killScan pid signum k.val)
      (hl : s.lock k = none) (hk : (s.slot k).pid = pid) :
      Effect s (.act c mem) { s with
        slot := update s.slot k ((s.slot k).kill signum)
        pc := update s.pc i .run }
  | fault (c : κ) (i : Idx n) (hc : (s.cpu c).phase = .running i) (hpc : s.pc i = .run) :
      Effect s (.fault c) { s with slot := update s.slot i { s.slot i with killed := 1 } }

section Inversion
variable {s t : Sys κ n} {c : κ} {i : Idx n} {mem : Memory}

theorem forkFound_effect (hc : (s.cpu c).phase = .running i) {k : Idx n}
    (hpc : s.pc i = .forkAlloc k.val) (hl : s.lock k = none) (hk : (s.slot k).state = .unused) :
    Effect s (.act c mem) (forkFound s i k mem) := by
  cases mem with
  | ok => exact .alloc _ c i k hc hpc hl hk
  | noPage =>
    have h := Effect.allocFail (.act c .noPage) c i k _ _ hc hpc hl hk (Or.inl ⟨rfl, rfl⟩)
    rw [List.append_nil] at h
    exact h
  | noCopy => exact .allocFail _ c i k _ _ hc hpc hl hk (Or.inr ⟨rfl, rfl⟩)

variable {k : ℕ}

theorem forkAlloc_effect (hc : (s.cpu c).phase = .running i) (hpc : s.pc i = .forkAlloc k)
    (h : actStep s c i mem = some t) : Effect s (.act c mem) t := by
  have hplain : (s.pc i).isPlain = true := by rw [hpc]; rfl
  simp only [actStep, hpc] at h
  split_ifs at h with hk hl hu
  · cases h
    exact forkFound_effect hc hpc (not_not.mp hl) hu
  · cases h
    exact .next _ c i _ hc (.plain _ hplain rfl)
  · cases h
    exact .next _ c i _ hc (.plain _ hplain rfl)

theorem killScan_effect {pid : ℤ} {signum : Sig} (hc : (s.cpu c).phase = .running i)
    (hpc : s.pc i = .killScan pid signum k) (h : actStep s c i mem = some t) :
    Effect s (.act c mem) t := by
  have hplain : (s.pc i).isPlain = true := by rw [hpc]; rfl
  simp only [actStep, hpc] at h
  split_ifs at h with hk hl hp
  · cases h
    exact .kill c mem i ⟨k, hk⟩ pid signum hc hpc (not_not.mp hl) hp
  · cases h
    exact .next _ c i _ hc (.plain _ hplain rfl)
  · cases h
    exact .next _ c i _ hc (.plain _ hplain rfl)

theorem wakeupTurn_effect {j : Idx n} {chan : Option (Chan n)} {x : Pc n}
    (hc : (s.cpu c).phase = .running i) (hturn : Turn s i j chan x)
    (h : (wakeupTurn s i j chan).map (Sys.setPc · i x) = some t) : Effect s (.act c mem) t := by
  obtain ⟨u, hu, rfl⟩ := Option.map_eq_some_iff.mp h
  unfold wakeupTurn at hu
  split_ifs at hu with hj hl
  · cases hu
    subst hj
    exact .ownTurn _ c j chan x hc hturn
  · cases hu
    exact .turn _ c i j chan x hc hturn hj hl

theorem waitScan_effect {addr b : Bool} (hc : (s.cpu c).phase = .running i)
    (hpc : s.pc i = .waitScan addr k b) (h : actStep s c i mem = some t) :
    Effect s (.act c mem) t := by
  simp only [actStep, hpc] at h
  split_ifs at h with hk hp
  · unfold waitChild at h
    split_ifs at h with hl hz hcopy
    · cases h
      exact .giveUp _ c i addr k b hc hpc
    · cases h
      exact .reap _ c i ⟨k, hk⟩ addr b hc hpc hp (not_not.mp hl) hz
    · cases h
      exact .next _ c i _ hc (.scan addr ⟨k, hk⟩ b true hpc fun _ => hz)
  · cases h
    exact .next _ c i _ hc (.scan addr ⟨k, hk⟩ b b hpc fun hp' => absurd hp' hp)
  unfold waitEnd at h
  split_ifs at h with hend hl
  · cases h
    exact .giveUp _ c i addr k b hc hpc
  cases h
  rw [not_or] at hend
  obtain rfl : b = true := by simpa using hend.1
  have haway := Effect.away (.act c mem) c i _ _ _ _ _ hc (not_not.mp hl) (.wait addr k hpc (by omega))
  rw [List.append_nil] at haway
  exact haway

theorem actStep_effect (hc : (s.cpu c).phase = .running i) (h : actStep s c i mem = some t) :
    Effect s (.act c mem) t := by
  cases hpc : s.pc i with
  | run | dead => simp [actStep, hpc] at h
  | forkAlloc => exact forkAlloc_effect hc hpc h
  | forkParent np pid =>
    simp only [actStep, hpc] at h
    split_ifs at h with hw
    cases h
    exact .setParent _ c i np pid hc hpc (not_not.mp hw)
  | forkReady np pid =>
    simp only [actStep, hpc] at h
    split_ifs at h with hl
    cases h
    exact .ready _ c i np pid hc hpc (not_not.mp hl)
  | exitLock status =>
    simp only [actStep, hpc] at h
    split_ifs at h with hw
    cases h
    exact .take _ c i _ hc (not_not.mp hw) (.exit status hpc)
  | exitReparent status k =>
    simp only [actStep, hpc] at h
    split_ifs at h with hk hp
    · cases h
      exact .adopt _ c i ⟨k, hk⟩ status hc hpc hp
    · cases h
      exact .next _ c i _ hc (.notChild status ⟨k, hk⟩ hpc hp)
    · cases h
      exact .next _ c i _ hc (.reparented status k hpc (by omega))
  | exitWakeInit status k j =>
    simp only [actStep, hpc] at h
    split_ifs at h with hj
    · exact wakeupTurn_effect hc (.init status k ⟨j, hj⟩ hpc) h
    · cases h
      exact .next _ c i _ hc (.wokeInit status k j hpc (by omega))
  | exitWakeParent status chan j =>
    simp only [actStep, hpc] at h
    split_ifs at h with hj
    · exact wakeupTurn_effect hc (.parent status chan ⟨j, hj⟩ hpc) h
    · cases h
      exact .next _ c i _ hc (.wokeParent status chan j hpc (by omega))
  | exitZombie status =>
    simp only [actStep, hpc] at h
    split_ifs at h with hl
    cases h
    exact .away _ c i _ _ _ _ _ hc (not_not.mp hl) (.exit status hpc)
  | waitLock addr =>
    simp only [actStep, hpc] at h
    split_ifs at h with hw
    cases h
    exact .take _ c i _ hc (not_not.mp hw) (.wait addr hpc)
  | waitScan => exact waitScan_effect hc hpc h
  | killScan => exact killScan_effect hc hpc h

theorem step_effect {e : Event κ n} (h : step s e = some t) : Effect s e t := by
  cases e with
  | pick c i =>
    simp only [step] at h
    split_ifs at h with hc
    cases h
    exact .pick c i hc.1 hc.2.1 hc.2.2
  | enter c =>
    simp only [step] at h
    split at h
    · rename_i i hc
      cases h
      exact .enter c i hc
    · cases h
  | yield c =>
    simp only [step] at h
    split at h
    · rename_i i hc
      split_ifs at h with hy
      cases h
      have haway := Effect.away (.yield c) c i _ _ _ _ _ hc hy.2 (.yield hy.1)
      rw [List.append_nil, update_eq_self] at haway
      exact haway
    · cases h
  | sleep c chan =>
    simp only [step] at h
    split at h
    · rename_i i hc
      split_ifs at h with hy
      cases h
      have haway := Effect.away (.sleep c chan) c i _ _ _ _ _ hc hy.2 (.sleep chan hy.1)
      rw [List.append_nil, ← hy.1, update_eq_self] at haway
      exact haway
    · cases h
  | leave c =>
    simp only [step] at h
    split at h
    · rename_i i hc
      cases h
      exact .leave c i hc
    · cases h
  | drop c =>
    simp only [step] at h
    split at h
    · rename_i i hc
      cases h
      exact .drop c i hc
    · cases h
  | call c op =>
    simp only [step] at h
    split at h
    · rename_i i hc
      split_ifs at h with hpc
      obtain ⟨x, hx, rfl⟩ := Option.map_eq_some_iff.mp h
      exact .next _ c i x hc (callPc_next hpc hx)
    · cases h
  | act c mem =>
    simp only [step] at h
    split at h
    · rename_i i hc
      exact actStep_effect hc h
    · cases h
  | fault c =>
    simp only [step] at h
    split at h
    · rename_i i hc
      split_ifs at h with hpc
      cases h
      exact .fault c i hc hpc
    · cases h
  | wake chan j =>
    simp only [step] at h
    split_ifs at h with hl
    cases h
    exact .wakeOther chan j hl

end Inversion

end Xv6.Sched
