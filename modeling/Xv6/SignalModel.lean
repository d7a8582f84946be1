import Mathlib.Data.List.FinRange
import Mathlib.Data.List.Sort
import Xv6.Bytes

/-! The signal code of kernel/proc.c on one slot of the process table. A C `int` is
an `ℤ`, a `uint32` set of signals is a bit vector, and a signal number that has passed
its range check is a `Fin 32`. -/
namespace Xv6.Signal
open Bytes

abbrev Word := BitVec 64
abbrev SigSet := BitVec 32
abbrev Sig := Fin 32

scoped instance neZero32 : NeZero 32 := ⟨by decide⟩

def sigDfl : Word := 0
def sigIgn : Word := 1
def sigkill : Sig := 9
def sigstop : Sig := 17
def sigcont : Sig := 19

/-- The 31 registers that uservec saves and userret restores. -/
structure UserRegs where
  (ra sp gp tp t0 t1 t2 s0 s1 a0 a1 a2 a3 a4 a5 a6 a7 : Word)
  (s2 s3 s4 s5 s6 s7 s8 s9 s10 s11 t3 t4 t5 t6 : Word)
  deriving DecidableEq

structure Trapframe where
  kernelSatp : Word
  kernelSp : Word
  kernelTrap : Word
  epc : Word
  kernelHartid : Word
  regs : UserRegs
  deriving DecidableEq

inductive ProcState where
  | unused | used | sleeping | runnable | running | zombie
  deriving DecidableEq

/-- User memory as copyin and copyout see it: `walkaddr` gives the physical page
behind a user page, if it is mapped with PTE_V and PTE_U. -/
structure UserMem where
  walkaddr : Word → Option Word
  phys : Word → UInt8

def pgSize : ℕ := 4096

def pgRoundDown (va : Word) : Word := va &&& ~~~4095#64

def UserMem.memmove (m : UserMem) (pa : Word) (bs : List UInt8) : UserMem :=
  { m with phys := fun a => bs.getD (a-pa).toNat (m.phys a) }

-- Every turn of the source's loop copies at least one byte, so `len` turns are enough.
def copyoutLoop : ℕ → UserMem → Word → List UInt8 → UserMem × ℤ
  | 0, m, _, _ => (m, 0)
  | fuel+1, m, dstva, src =>
    if src.length = 0 then (m, 0)
    else
      let va0 := pgRoundDown dstva
      match m.walkaddr va0 with
      | none => (m, -1)
      | some pa0 =>
        let n := min (pgSize-(dstva-va0).toNat) src.length
        copyoutLoop fuel (m.memmove (pa0+(dstva-va0)) (src.take n)) (va0+4096#64) (src.drop n)

def copyout (m : UserMem) (dstva : Word) (src : List UInt8) : UserMem × ℤ := copyoutLoop src.length m dstva src

def copyinLoop : ℕ → UserMem → Word → ℕ → Option (List UInt8)
  | 0, _, _, _ => some []
  | fuel+1, m, srcva, len =>
    if len = 0 then some []
    else
      let va0 := pgRoundDown srcva
      match m.walkaddr va0 with
      | none => none
      | some pa0 =>
        let n := min (pgSize-(srcva-va0).toNat) len
        let chunk := (List.range n).map (fun i => m.phys (pa0+(srcva-va0)+BitVec.ofNat 64 i))
        (copyinLoop fuel m (va0+4096#64) (len-n)).map (chunk ++ ·)

def copyin (m : UserMem) (srcva : Word) (len : ℕ) : Option (List UInt8) := copyinLoop len m srcva len

/-- The fields of `struct proc` that the signal code reads or writes. The page that
`backupTrapframe` points to is kept beside the pointer; `slotTail` is what follows
`sigMaskArray` in memory, which `sigaction` copies out for the last signal numbers. -/
structure Proc where
  pid : ℤ
  state : ProcState
  killed : ℤ
  kstack : Word
  mem : UserMem
  trapframe : Trapframe
  pendingSignals : SigSet
  signalMask : SigSet
  signalHandlers : Sig → Word
  backupTrapframePtr : Word
  backupTrapframe : Trapframe
  frozen : ℤ
  backupSigMask : SigSet
  sigHandlerFlag : ℤ
  sigMaskArray : Sig → SigSet
  slotTail : List UInt8

def bit (i : Sig) : SigSet := 1#32 <<< i.val

def sigprocmask (p : Proc) (sigmask : SigSet) : Proc × SigSet := ({ p with signalMask := sigmask }, p.signalMask)

-- The 16 bytes from &p->signalHandlers[i] on: two table entries, or the last entry and
-- the pointer behind the table.
def handlerBytes (p : Proc) (i : Sig) : List UInt8 :=
  (((List.finRange 32).map p.signalHandlers ++ [p.backupTrapframePtr]).flatMap
    (fun w => leBytes 8 w.toNat)).drop (8*i.val) |>.take 16

def maskBytes (p : Proc) (i : Sig) : List UInt8 :=
  (((List.finRange 32).map p.sigMaskArray).flatMap (fun w => leBytes 4 w.toNat) ++ p.slotTail).drop (4*i.val) |>.take 16

def sigaction (p : Proc) (signum : ℤ) (act oldact : Word) : Proc × ℤ :=
  if signum = 9 ∨ signum = 17 ∨ signum < 0 ∨ signum ≥ 32 then (p, -1)
  else
    let i : Sig := Fin.ofNat 32 signum.toNat
    match copyin p.mem act 16 with
    | none => (p, -1)
    | some tempAct =>
      let install (q : Proc) : Proc × ℤ := ({ q with
            signalHandlers := Function.update q.signalHandlers i (BitVec.ofNat 64 (leNat (tempAct.take 8)))
            sigMaskArray := Function.update q.sigMaskArray i (BitVec.ofNat 32 (leNat ((tempAct.drop 8).take 4))) }, 0)
      if oldact = 0 then install p
      else
        let r := copyout p.mem oldact (handlerBytes p i)
        if r.2 ≠ 0 then ({ p with mem := r.1 }, -1)
        else
          let r' := copyout r.1 (oldact+8#64) (maskBytes p i)
          if r'.2 ≠ 0 then ({ p with mem := r'.1 }, -1)
          else install { p with mem := r'.1 }

def sigret (p : Proc) : Proc := { p with trapframe := p.backupTrapframe, signalMask := p.backupSigMask }

/-- What `kill(p->pid, s)` does to the slot it finds, for a signal number in range. -/
def killSlot (p : Proc) (s : Sig) : Proc :=
  if s = sigkill then
    { p with
      killed := 1
      state := if p.state = .sleeping then .runnable else p.state }
  else { p with pendingSignals := p.pendingSignals ||| bit s }

def killScan (pid : ℤ) (s : Sig) : List Proc → List Proc × ℤ
  | [] => ([], -1)
  | p :: ps =>
    if p.pid = pid then (killSlot p s :: ps, 0)
    else (p :: (killScan pid s ps).1, (killScan pid s ps).2)

def kill (table : List Proc) (pid signum : ℤ) : List Proc × ℤ :=
  if signum < 0 ∨ signum ≥ 32 then (table, -1)
  else killScan pid (Fin.ofNat 32 signum.toNat) table

def sigkillHandler (p : Proc) : Proc := { p with killed := 1 }

def sigcontHandler (p : Proc) : Proc := if p.frozen = 1 then { p with frozen := 0 } else p

/-- The tests at the head of the loop of `sigstopHandler`: the process that leaves the
loop, or `none` when the loop goes on to `yield`. -/
def stopTest (p : Proc) : Option Proc :=
  if p.frozen = 0 then some p
  else if p.pendingSignals &&& bit sigkill ≠ 0 then some { p with killed := 1 }
  else none

-- `sched` lists, for each yield of the loop, the kill(p->pid, s) calls that complete in it.
-- The loop is not left yet when the schedule ends first.
def sigstopLoop (p : Proc) : List (List Sig) → Bool × Proc
  | [] => match stopTest p with
    | some q => (true, q)
    | none => (false, p)
  | ks :: sched => match stopTest p with
    | some q => (true, q)
    | none => sigstopLoop (ks.foldl killSlot p) sched

def sigstopHandler (sched : List (List Sig)) (p : Proc) : Bool × Proc := sigstopLoop { p with frozen := 1 } sched

/-- `code` is the assembled text between sigret_func_start and sigret_func_end. -/
def userSpaceHandler (code : List UInt8) (p : Proc) (signum : Sig) : Proc :=
  if p.sigHandlerFlag = 0 then
    let sp := p.trapframe.regs.sp-BitVec.ofNat 64 code.length
    { p with
      sigHandlerFlag := 1
      backupTrapframe := p.trapframe
      -- a failed copyout is only reported on the console
      mem := (copyout p.mem sp code).1
      trapframe := { p.trapframe with
        epc := p.signalHandlers signum
        regs := { p.trapframe.regs with sp := sp, ra := sp, a0 := BitVec.ofNat 64 signum.val } }
      backupSigMask := p.signalMask
      signalMask := p.sigMaskArray signum
      pendingSignals := p.pendingSignals &&& ~~~bit signum }
  else p

inductive Act where
  | kill | stop | cont | frame
  deriving DecidableEq

/-- A pass of `signalHandler`: the process it leaves, what it did on account of which
signal, and whether it ended (it has not while the process is in the stop loop). -/
structure Pass where
  proc : Proc
  acts : List (Sig × Act)
  done : Bool

def setsFrame (r : Pass) : Bool := r.acts.any (fun a => decide (a.2 = .frame))

def Pass.after (a : Sig × Act) (r : Pass) : Pass := { r with acts := a :: r.acts }

-- The switch over the signal number for a signal whose disposition is SIG_DFL.
def defaultAction (sched : List (List Sig)) (p : Proc) (i : Sig) : Act × Bool × Proc :=
  if i = sigkill then (.kill, true, sigkillHandler p)
  else if i = sigstop then (.stop, sigstopHandler sched p)
  else if i = sigcont then (.cont, true, sigcontHandler p)
  else (.kill, true, sigkillHandler p)

def clearPending (p : Proc) (i : Sig) : Proc := { p with pendingSignals := p.pendingSignals &&& ~~~bit i }

def signalLoop (code : List UInt8) (sched : List (List Sig)) : List Sig → Proc → Pass
  | [], p => ⟨p, [], true⟩
  | i :: is, p =>
    if bit i &&& p.pendingSignals ≠ 0 ∧ bit i &&& p.signalMask = 0 then
      if p.signalHandlers i = sigIgn then signalLoop code sched is p
      else if p.signalHandlers i = sigDfl then
        match defaultAction sched p i with
        | (a, true, q) => (signalLoop code sched is (clearPending q i)).after (i, a)
        | (a, false, q) => ⟨q, [(i, a)], false⟩
      else
        let q := { p with backupSigMask := p.signalMask }
        let r := signalLoop code sched is (userSpaceHandler code q i)
        if q.sigHandlerFlag = 0 then r.after (i, .frame) else r
    else signalLoop code sched is p

def signalHandler (code : List UInt8) (sched : List (List Sig)) (p : Proc) : Pass :=
  if p.sigHandlerFlag = 1 then ⟨p, [], true⟩
  else signalLoop code sched (List.finRange 32) p

end Xv6.Signal
