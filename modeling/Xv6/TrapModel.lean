import Xv6.SignalModel
import Xv6.Runs

/-! A user process between its traps: usertrap and usertrapret of kernel/trap.c, the
dispatcher of kernel/syscall.c, and the system calls that reach the signal state. -/
namespace Xv6.Signal

def intOf (w : Word) : ℤ := (w.setWidth 32).toInt

def setA0 (p : Proc) (v : Word) : Proc :=
  { p with trapframe := { p.trapframe with regs := { p.trapframe.regs with a0 := v } } }

def sysExit : ℤ := 2
def sysKillNum : ℤ := 6
def sysExecNum : ℤ := 7
def sysSigprocmaskNum : ℤ := 22
def sysSigactionNum : ℤ := 23
def sysSigretNum : ℤ := 24
def sysMax : ℤ := 28

def sysSigprocmask (p : Proc) : Proc × Word :=
  let sigmask := intOf p.trapframe.regs.a0
  if sigmask < 0 then (p, BitVec.ofInt 64 (-1))
  else
    let r := sigprocmask p (BitVec.ofInt 32 sigmask)
    (r.1, r.2.setWidth 64)

def sysSigaction (p : Proc) : Proc × Word :=
  let r := sigaction p (intOf p.trapframe.regs.a0) p.trapframe.regs.a1 p.trapframe.regs.a2
  (r.1, BitVec.ofInt 64 r.2)

def sysSigret (p : Proc) : Proc × Word := (sigret p, 0)

/-- A new program image: entry point, stack pointer, argument count and memory. -/
structure ExecImage where
  entry : Word
  sp : Word
  argc : Word
  mem : UserMem

-- What a successful exec leaves in the fields modelled here.
def exec (p : Proc) (img : ExecImage) : Proc :=
  let reset (j : Sig) : Bool := decide (p.signalHandlers j ≠ sigIgn) && decide (p.signalHandlers j ≠ sigDfl)
  { p with
    trapframe := { p.trapframe with
      epc := img.entry, regs := { p.trapframe.regs with a1 := img.sp, sp := img.sp } }
    signalHandlers := fun j => if reset j then sigDfl else p.signalHandlers j
    sigMaskArray := fun j => if reset j then 0 else p.sigMaskArray j
    mem := img.mem }

inductive Cause where
  | syscall | devintr | fault
  deriving DecidableEq

structure Hart where
  satp : Word
  hartid : Word
  usertrap : Word

/-- A trap from user space: the registers, and what this model does not compute: the result of
system calls outside the signal code and their effect on user memory, the image that an exec
loads, and the kill calls by others up to the last test of `killed`, from there to the signal
pass, and in a stop loop. -/
structure Trap where
  regs : UserRegs
  sepc : Word
  cause : Cause
  ret : Word
  mem : UserMem → UserMem
  image : Option ExecImage
  killsIn : List Sig
  killsOut : List Sig
  sched : List (List Sig)
  hart : Hart

def sysKill (t : Trap) (p : Proc) : Proc × Word :=
  let signum := intOf p.trapframe.regs.a1
  if signum < 0 ∨ signum ≥ 32 then (p, BitVec.ofInt 64 (-1))
  else if intOf p.trapframe.regs.a0 = p.pid then (killSlot p (Fin.ofNat 32 signum.toNat), 0)
  else (p, t.ret)

def sysExec (t : Trap) (p : Proc) : Proc × Word :=
  match t.image with
  | none => (p, BitVec.ofInt 64 (-1))
  | some img => (exec p img, img.argc)

/-- The dispatcher; `none` when the call is exit, which does not return. -/
def syscall (t : Trap) (p : Proc) : Option Proc :=
  let num := intOf p.trapframe.regs.a7
  let store (r : Proc × Word) : Option Proc := some (setA0 r.1 r.2)
  if num = sysExit then none
  else if num = sysKillNum then store (sysKill t p)
  else if num = sysExecNum then store (sysExec t p)
  else if num = sysSigprocmaskNum then store (sysSigprocmask p)
  else if num = sysSigactionNum then store (sysSigaction p)
  else if num = sysSigretNum then store (sysSigret p)
  else if 0 < num ∧ num ≤ sysMax then store ({ p with mem := t.mem p.mem }, t.ret)
  else store (p, BitVec.ofInt 64 (-1))

-- uservec saves the registers, usertrap the program counter.
def saveUser (t : Trap) (p : Proc) : Proc := { p with trapframe := { p.trapframe with epc := t.sepc, regs := t.regs } }

def skipEcall (p : Proc) : Proc := { p with trapframe := { p.trapframe with epc := p.trapframe.epc+4#64 } }

-- The test of `killed` behind the three branches of usertrap, and the way to usertrapret.
def checkKilled (t : Trap) (p : Proc) : Option Proc :=
  let q := t.killsIn.foldl killSlot p
  if q.killed ≠ 0 then none else some (t.killsOut.foldl killSlot q)

/-- The process that usertrap hands to usertrapret, or `none` if the process exits. -/
def usertrap (t : Trap) (p : Proc) : Option Proc :=
  let p := saveUser t p
  match t.cause with
  | .syscall =>
    if p.killed ≠ 0 then none else (syscall t (skipEcall p)).bind (checkKilled t)
  | .devintr => checkKilled t p
  | .fault => checkKilled t { p with killed := 1 }

def setKernelFields (h : Hart) (p : Proc) : Proc := { p with trapframe := { p.trapframe with
      kernelSatp := h.satp
      kernelSp := p.kstack+4096#64
      kernelTrap := h.usertrap
      kernelHartid := h.hartid } }

def usertrapret (code : List UInt8) (sched : List (List Sig)) (h : Hart) (p : Proc) : Pass :=
  let r := signalHandler code sched p
  { r with proc := if r.done then setKernelFields h r.proc else r.proc }

inductive Mode where
  | user | stopped | exited
  deriving DecidableEq

/-- A process over time. `inHandler` says that a user-handler frame has been set up
and not yet been ended by its sigret. -/
structure Life where
  proc : Proc
  mode : Mode
  inHandler : Bool

inductive Event where
  | kill (s : Sig)
  | trap (t : Trap)

def isSigret (t : Trap) : Bool := decide (t.cause = .syscall) && decide (intOf t.regs.a7 = sysSigretNum)

/-- One kill call by another process, or one trap up to the return to user mode. -/
def step (code : List UInt8) (s : Life) : Event → Option Life
  | .kill k => if s.mode = .exited then none else some { s with proc := killSlot s.proc k }
  | .trap t =>
    if s.mode ≠ .user then none
    else match usertrap t s.proc with
      | none => some { s with mode := .exited }
      | some q =>
        let r := usertrapret code t.sched t.hart q
        some ⟨r.proc, if r.done then .user else .stopped, (s.inHandler && !isSigret t) || setsFrame r⟩

/-- A process as allocproc leaves it for its first return to user mode; fork fills in the
mask and the two handler tables. -/
structure Fresh (s : Life) : Prop where
  mode : s.mode = .user
  outside : s.inHandler = false
  pending : s.proc.pendingSignals = 0
  frozen : s.proc.frozen = 0
  flag : s.proc.sigHandlerFlag = 0

end Xv6.Signal
