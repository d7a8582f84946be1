import Xv6.SignalModel
import Xv6.Runs

/-! The process table of kernel/proc.c, its scheduler and fork, exit, wait, sleep, wakeup and
kill, on any number of CPUs. A section that one thread opens and closes under p->lock is one
step, taken when the lock is free; p->lock stays held across swtch, and wait_lock from one
step to another. Slot 0 is initproc. -/
namespace Xv6.Sched
open Function Signal Runs

abbrev Idx (n : ℕ) := Fin (n+1)

inductive Chan (n : ℕ) where
  | proc (i : Idx n)
  | other (k : ℕ)
  deriving DecidableEq

/-- A slot of the table. `gen` numbers the processes that slots have held; the code has
no such field. -/
structure Slot (n : ℕ) extends Signal.Proc where
  chan : Option (Chan n)
  xstate : ℤ
  parent : Option (Idx n)
  gen : ℕ

/-- Where a process is in its kernel code. Loop indices are those of the scans over the
table: `exitWakeInit` is the scan of wakeup(initproc) after slot `k` has been given to
init, `exitWakeParent` that of wakeup(p->parent). -/
inductive Pc (n : ℕ) where
  | run
  | forkAlloc (k : ℕ)
  | forkParent (np : Idx n) (pid : ℤ)
  | forkReady (np : Idx n) (pid : ℤ)
  | exitLock (status : ℤ)
  | exitReparent (status : ℤ) (k : ℕ)
  | exitWakeInit (status : ℤ) (k j : ℕ)
  | exitWakeParent (status : ℤ) (chan : Option (Chan n)) (j : ℕ)
  | exitZombie (status : ℤ)
  | waitLock (addr : Bool)
  | waitScan (addr : Bool) (k : ℕ) (havekids : Bool)
  | killScan (pid : ℤ) (signum : Sig) (k : ℕ)
  | dead
  deriving DecidableEq

/-- What a CPU does: it is in the scheduler loop; it has switched to a process that still
holds p->lock for it; it runs the process; the process has called sched with p->lock
held; the scheduler is back and still holds p->lock. -/
inductive Phase (n : ℕ) where
  | idle
  | picked (i : Idx n)
  | running (i : Idx n)
  | leaving (i : Idx n)
  | left (i : Idx n)
  deriving DecidableEq

structure Cpu (n : ℕ) where
  proc : Option (Idx n)
  phase : Phase n
  deriving DecidableEq

/-- What the history records: a process as allocproc returns it, the pid that fork
returns for process number `gen`, an exit, a wait that returns a pid (with the status it
copies out, its caller and the parent), and a call of freeproc with the `proc` of every CPU. -/
inductive Entry (κ : Type) (n : ℕ) where
  | alloced (p : Signal.Proc)
  | forked (gen : ℕ) (pid : ℤ)
  | exited (gen : ℕ) (status : ℤ)
  | reaped (gen : ℕ) (pid : ℤ) (status : Option ℤ) (waiter : Idx n) (parent : Option (Idx n))
  | freed (i : Idx n) (procs : κ → Option (Idx n))

structure Sys (κ : Type) (n : ℕ) where
  slot : Idx n → Slot n
  lock : Idx n → Option κ
  pc : Idx n → Pc n
  inSleep : Idx n → Bool
  cpu : κ → Cpu n
  waitLock : Option (Idx n)
  nextpid : BitVec 32
  nextgen : ℕ
  hist : List (Entry κ n)

inductive Op where
  | fork
  | exit (status : ℤ)
  | wait (addr : Bool)
  | kill (pid signum : ℤ)

/-- How the memory operations of a section turn out: they succeed, kalloc or
proc_pagetable fails in allocproc, or uvmcopy or copyout fails. -/
inductive Memory where
  | ok
  | noPage
  | noCopy
  deriving DecidableEq

inductive Event (κ : Type) (n : ℕ) where
  | pick (c : κ) (i : Idx n)
  | enter (c : κ)
  | yield (c : κ)
  | sleep (c : κ) (chan : ℕ)
  | leave (c : κ)
  | drop (c : κ)
  | call (c : κ) (op : Op)
  | act (c : κ) (mem : Memory)
  | fault (c : κ)
  | wake (chan : ℕ) (j : Idx n)

variable {κ : Type} {n : ℕ}

/-! What the sections do to a slot. -/

def Slot.alloc (q : Slot n) (pid : ℤ) (gen : ℕ) : Slot n := { q with
    pid := pid
    state := .used
    signalMask := 0
    pendingSignals := 0
    sigHandlerFlag := 0
    frozen := 0
    signalHandlers := fun _ => sigDfl
    sigMaskArray := fun _ => 0
    gen := gen }

def Slot.freeproc (q : Slot n) : Slot n := { q with
    pid := 0
    parent := none
    chan := none
    killed := 0
    xstate := 0
    state := .unused }

def Slot.copyFrom (np p : Slot n) : Slot n := { np with
    mem := p.mem
    signalMask := p.signalMask
    signalHandlers := p.signalHandlers
    sigMaskArray := p.sigMaskArray
    trapframe := { p.trapframe with regs := { p.trapframe.regs with a0 := 0 } } }

def Slot.wakeup (q : Slot n) (chan : Option (Chan n)) : Slot n :=
  if q.state = .sleeping ∧ q.chan = chan then { q with state := .runnable } else q

def Slot.kill (q : Slot n) (s : Sig) : Slot n := { q with toProc := killSlot q.toProc s }

def Slot.statusFor (q : Slot n) (addr : Bool) : Option ℤ := if addr then some q.xstate else none

namespace Sys

def setSlot (s : Sys κ n) (i : Idx n) (q : Slot n) : Sys κ n := { s with slot := update s.slot i q }

def setPc (s : Sys κ n) (i : Idx n) (x : Pc n) : Sys κ n := { s with pc := update s.pc i x }

def setLock (s : Sys κ n) (i : Idx n) (o : Option κ) : Sys κ n := { s with lock := update s.lock i o }

def log (s : Sys κ n) (e : Entry κ n) : Sys κ n := { s with hist := s.hist ++ [e] }

def free (s : Sys κ n) (k : Idx n) (q : Slot n) : Sys κ n :=
  (s.setSlot k q.freeproc).log (.freed k (fun c => (s.cpu c).proc))

def allocpid (s : Sys κ n) : ℤ × Sys κ n := (s.nextpid.toInt, { s with nextpid := s.nextpid+1, nextgen := s.nextgen+1 })

end Sys

-- The rest of fork's first section, for the free slot `k` that allocproc has found.
def forkFound (s : Sys κ n) (i k : Idx n) (mem : Memory) : Sys κ n :=
  let (pid, s') := s.allocpid
  let np := (s.slot k).alloc pid s.nextgen
  match mem with
  | .noPage => (s'.free k { s.slot k with gen := s.nextgen }).setPc i .run
  | .noCopy => ((s'.log (.alloced np.toProc)).free k np).setPc i .run
  | .ok =>
    let s' := (s'.log (.alloced np.toProc)).setSlot k (np.copyFrom (s.slot i))
    -- the new thread starts in forkret
    let s' := { s' with inSleep := update s'.inSleep k false }
    (s'.setPc k .run).setPc i (.forkParent k pid)

section
variable [DecidableEq κ]

def Sys.setCpu (s : Sys κ n) (c : κ) (x : Cpu n) : Sys κ n := { s with cpu := update s.cpu c x }

/-- The process on `c` has taken p->lock and put its slot in order; sched takes it away. -/
def sched (s : Sys κ n) (c : κ) (i : Idx n) (q : Slot n) (inSleep : Bool) : Sys κ n :=
  let s := ((s.setSlot i q).setLock i (some c)).setCpu c { s.cpu c with phase := .leaving i }
  { s with inSleep := update s.inSleep i inSleep }

def Pc.mayYield : Pc n → Bool
  | .run | .forkAlloc _ | .forkParent _ _ | .forkReady _ _ | .exitLock _ | .waitLock _
  | .killScan _ _ _ => true
  | _ => false

def callPc (i : Idx n) : Op → Option (Pc n)
  | .fork => some (.forkAlloc 0)
  -- init exiting is a panic
  | .exit status => if i = 0 then none else some (.exitLock status)
  | .wait addr => some (.waitLock addr)
  | .kill pid signum =>
    if signum < 0 ∨ signum ≥ 32 then some .run
    else some (.killScan pid (Fin.ofNat 32 signum.toNat) 0)

def wakeupTurn (s : Sys κ n) (i j : Idx n) (chan : Option (Chan n)) : Option (Sys κ n) :=
  if j = i then some s
  else if s.lock j = none then some (s.setSlot j ((s.slot j).wakeup chan))
  else none

-- wait at a child of the caller; the scan waits for the child's lock.
def waitChild (s : Sys κ n) (i k : Idx n) (addr : Bool) (mem : Memory) : Option (Sys κ n) :=
  if s.lock k ≠ none then none
  else if (s.slot k).state = .zombie then
    if addr ∧ mem ≠ .ok then some ({ s with waitLock := none }.setPc i .run)
    else
      let q := s.slot k
      let s' := { s with waitLock := none }.log (.reaped q.gen q.pid (q.statusFor addr) i q.parent)
      some ((s'.free k q).setPc i .run)
  else some (s.setPc i (.waitScan addr (k.val+1) true))

def waitEnd (s : Sys κ n) (c : κ) (i : Idx n) (addr havekids : Bool) : Option (Sys κ n) :=
  if havekids = false ∨ (s.slot i).killed ≠ 0 then some ({ s with waitLock := none }.setPc i .run)
  else if s.lock i ≠ none then none
  else
    let q := { s.slot i with chan := some (.proc i), state := .sleeping }
    some ((sched { s with waitLock := none } c i q true).setPc i (.waitLock addr))

/-- The next section of the call that process `i`, running on `c`, is in. -/
def actStep (s : Sys κ n) (c : κ) (i : Idx n) (mem : Memory) : Option (Sys κ n) :=
  match s.pc i with
  | .run => none
  | .dead => none
  | .forkAlloc k =>
    if h : k < n+1 then
      let k' : Idx n := ⟨k, h⟩
      if s.lock k' ≠ none then none
      else if (s.slot k').state = .unused then some (forkFound s i k' mem)
      else some (s.setPc i (.forkAlloc (k+1)))
    else some (s.setPc i .run)
  | .forkParent np pid =>
    if s.waitLock ≠ none then none
    else some ((s.setSlot np { s.slot np with parent := some i }).setPc i (.forkReady np pid))
  | .forkReady np pid =>
    if s.lock np ≠ none then none
    else
      let s' := s.setSlot np { s.slot np with state := .runnable }
      some ((s'.log (.forked (s.slot np).gen pid)).setPc i .run)
  | .exitLock status =>
    if s.waitLock ≠ none then none
    else some ({ s with waitLock := some i }.setPc i (.exitReparent status 0))
  | .exitReparent status k =>
    if h : k < n+1 then
      let k' : Idx n := ⟨k, h⟩
      if (s.slot k').parent = some i then
        some ((s.setSlot k' { s.slot k' with parent := some 0 }).setPc i (.exitWakeInit status k 0))
      else some (s.setPc i (.exitReparent status (k+1)))
    else some (s.setPc i (.exitWakeParent status ((s.slot i).parent.map .proc) 0))
  | .exitWakeInit status k j =>
    if h : j < n+1 then
      (wakeupTurn s i ⟨j, h⟩ (some (.proc 0))).map (Sys.setPc · i (.exitWakeInit status k (j+1)))
    else some (s.setPc i (.exitReparent status (k+1)))
  | .exitWakeParent status chan j =>
    if h : j < n+1 then
      (wakeupTurn s i ⟨j, h⟩ chan).map (Sys.setPc · i (.exitWakeParent status chan (j+1)))
    else some (s.setPc i (.exitZombie status))
  | .exitZombie status =>
    if s.lock i ≠ none then none
    else
      let q := { s.slot i with xstate := status, state := .zombie }
      let s' := sched { s with waitLock := none } c i q false
      some ((s'.log (.exited q.gen status)).setPc i .dead)
  | .waitLock addr =>
    if s.waitLock ≠ none then none
    else some ({ s with waitLock := some i }.setPc i (.waitScan addr 0 false))
  | .waitScan addr k havekids =>
    if h : k < n+1 then
      let k' : Idx n := ⟨k, h⟩
      if (s.slot k').parent = some i then waitChild s i k' addr mem
      else some (s.setPc i (.waitScan addr (k+1) havekids))
    else waitEnd s c i addr havekids
  | .killScan pid signum k =>
    if h : k < n+1 then
      let k' : Idx n := ⟨k, h⟩
      if s.lock k' ≠ none then none
      else if (s.slot k').pid = pid then
        some ((s.setSlot k' ((s.slot k').kill signum)).setPc i .run)
      else some (s.setPc i (.killScan pid signum (k+1)))
    else some (s.setPc i .run)

def step (s : Sys κ n) : Event κ n → Option (Sys κ n)
  | .pick c i =>
    if (s.cpu c).phase = .idle ∧ s.lock i = none ∧ (s.slot i).state = .runnable then
      some (((s.setSlot i { s.slot i with state := .running }).setLock i (some c)).setCpu c ⟨some i, .picked i⟩)
    else none
  | .enter c =>
    match (s.cpu c).phase with
    | .picked i =>
      -- behind the sched call of sleep, or of yield, or at the start of forkret
      let q := if s.inSleep i then { s.slot i with chan := none } else s.slot i
      let s' := ((s.setSlot i q).setLock i none).setCpu c { s.cpu c with phase := .running i }
      some { s' with inSleep := update s'.inSleep i false }
    | _ => none
  | .yield c =>
    match (s.cpu c).phase with
    | .running i =>
      if (s.pc i).mayYield ∧ s.lock i = none then
        some (sched s c i { s.slot i with state := .runnable } false)
      else none
    | _ => none
  | .sleep c chan =>
    match (s.cpu c).phase with
    | .running i =>
      if s.pc i = .run ∧ s.lock i = none then
        some (sched s c i { s.slot i with chan := some (.other chan), state := .sleeping } true)
      else none
    | _ => none
  | .leave c =>
    match (s.cpu c).phase with
    | .leaving i => some (s.setCpu c ⟨none, .left i⟩)
    | _ => none
  | .drop c =>
    match (s.cpu c).phase with
    | .left i => some ((s.setLock i none).setCpu c { s.cpu c with phase := .idle })
    | _ => none
  | .call c op =>
    match (s.cpu c).phase with
    | .running i => if s.pc i = .run then (callPc i op).map (s.setPc i) else none
    | _ => none
  | .act c mem =>
    match (s.cpu c).phase with
    | .running i => actStep s c i mem
    | _ => none
  -- p->killed = 1 in usertrap, or by the default action of a signal
  | .fault c =>
    match (s.cpu c).phase with
    | .running i =>
      if s.pc i = .run then some (s.setSlot i { s.slot i with killed := 1 }) else none
    | _ => none
  | .wake chan j =>
    if s.lock j = none then some (s.setSlot j ((s.slot j).wakeup (some (.other chan)))) else none

end

def zeroProc : Signal.Proc where
  pid := 0
  state := .unused
  killed := 0
  kstack := 0
  mem := ⟨fun _ => none, fun _ => 0⟩
  trapframe := ⟨0, 0, 0, 0, 0, ⟨0, 0, 0, 0, 0, 0, 0, 0, 0, 0, 0, 0, 0, 0, 0, 0, 0, 0, 0, 0, 0, 0, 0, 0, 0,
    0, 0, 0, 0, 0, 0⟩⟩
  pendingSignals := 0
  signalMask := 0
  signalHandlers := fun _ => 0
  backupTrapframePtr := 0
  backupTrapframe := ⟨0, 0, 0, 0, 0, ⟨0, 0, 0, 0, 0, 0, 0, 0, 0, 0, 0, 0, 0, 0, 0, 0, 0, 0, 0, 0, 0, 0, 0, 0,
    0, 0, 0, 0, 0, 0, 0⟩⟩
  frozen := 0
  backupSigMask := 0
  sigHandlerFlag := 0
  sigMaskArray := fun _ => 0
  slotTail := []

def zeroSlot (n : ℕ) : Slot n := { zeroProc with chan := none, xstate := 0, parent := none, gen := 0 }

def userinit (q : Slot n) : Slot n := { q with
    trapframe := { q.trapframe with epc := 0, regs := { q.trapframe.regs with sp := 4096 } }
    state := .runnable }

/-- After procinit and userinit: init is runnable with pid 1, and no CPU has started. -/
def Sys.boot (κ : Type) (n : ℕ) : Sys κ n where
  slot i := if i = 0 then userinit ((zeroSlot n).alloc 1 0) else zeroSlot n
  lock _ := none
  pc _ := .run
  inSleep _ := false
  cpu _ := ⟨none, .idle⟩
  waitLock := none
  nextpid := 2
  nextgen := 1
  hist := [.alloced ((zeroSlot n).alloc 1 0).toProc]

end Xv6.Sched
