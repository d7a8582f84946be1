import Xv6.VmModel

/-! The functions of kernel/proc.c that make, copy, resize and free a process's memory. Pointers are
addresses, 0 for a null pointer; a trapframe is the first 36 words of its page. -/
namespace Xv6.Vm
open Function Hoare

def nproc : ℕ := 64

inductive ProcState where
  | unused
  | used
  | sleeping
  | runnable
  | running
  | zombie
  deriving DecidableEq

/-- `struct proc` without its lock, kernel stack and context. -/
structure Proc where
  state : ProcState
  chan : ℕ
  killed : ℤ
  xstate : ℤ
  pid : ℤ
  parent : ℕ
  sz : ℕ
  pagetable : ℕ
  trapframe : ℕ
  ofile : Fin 16 → ℕ
  cwd : ℕ
  name : List UInt8
  pendingSignals : BitVec 32
  signalMask : BitVec 32
  signalHandlers : Fin 32 → ℕ
  backupTrapframe : ℕ
  frozen : ℤ
  backupSigMask : BitVec 32
  sigHandlerFlag : ℤ
  sigMaskArray : Fin 32 → BitVec 32

abbrev Procs := Fin nproc → Proc

def sigDfl : ℕ := 0
def sigIgn : ℕ := 1

def uintAdd (sz : ℕ) (n : ℤ) : ℕ := (((sz : ℤ)+n)%2^32).toNat

/-- growproc, which keeps the size in a uint. -/
def growproc (m : Machine) (p : Proc) (n : ℤ) : M (ℤ × Proc) :=
  if n > 0 then do
    let sz ← uvmalloc m p.pagetable (p.sz%2^32) (uintAdd (p.sz%2^32) n)
    if sz%2^32 = 0 then return (-1, p) else return (0, { p with sz := sz%2^32 })
  else if n < 0 then do
    let sz ← uvmdealloc m p.pagetable (p.sz%2^32) (uintAdd (p.sz%2^32) n)
    return (0, { p with sz := sz%2^32 })
  else return (0, { p with sz := p.sz%2^32 })

def Proc.cleared (p : Proc) : Proc :=
  { p with trapframe := 0, backupTrapframe := 0, pagetable := 0, sz := 0, pid := 0, parent := 0,
           name := [], chan := 0, killed := 0, xstate := 0, state := .unused }

def kfreeIf (m : Machine) (q : ℕ) : M Unit := if q = 0 then return () else kfree m q

def freeTableIf (m : Machine) (pagetable sz : ℕ) : M Unit :=
  if pagetable = 0 then return () else procFreepagetable m pagetable sz

def freeproc (m : Machine) (p : Proc) : M Proc := do
  kfreeIf m p.trapframe
  kfreeIf m p.backupTrapframe
  freeTableIf m p.pagetable p.sz
  return p.cleared

def findUnused (ps : Procs) : Option (Fin nproc) := (List.finRange nproc).find? (fun i => (ps i).state = .unused)

/-- allocproc from `found` on, for the slot `p`: whether it succeeds, and the slot after it. The page
for backupTrapframe is not checked. -/
def allocFound (m : Machine) (p : Proc) (pid : ℤ) : M (Bool × Proc) := do
  let tf ← kalloc
  if tf = 0 then do
    let p' ← freeproc m { p with pid, state := .used, trapframe := tf }
    return (false, p')
  else do
    let pt ← procPagetable m tf
    if pt = 0 then do
      let p' ← freeproc m { p with pid, state := .used, trapframe := tf, pagetable := pt }
      return (false, p')
    else do
      let bt ← kalloc
      return (true, { p with pid, state := .used, trapframe := tf, pagetable := pt, signalMask := 0,
                             pendingSignals := 0, sigHandlerFlag := 0, frozen := 0, backupTrapframe := bt,
                             signalHandlers := fun _ => sigDfl, sigMaskArray := fun _ => 0 })

/-- allocproc: the slot, the table and nextpid after it. -/
def allocproc (m : Machine) (ps : Procs) (nextpid : ℤ) : M (Option (Fin nproc) × Procs × ℤ) :=
  match findUnused ps with
  | none => return (none, ps, nextpid)
  | some i => do
    let r ← allocFound m (ps i) nextpid
    return (if r.1 then some i else none, update ps i r.2, nextpid+1)

/-- The copy of a trapframe. There is no memory at address 0, and the kernel traps there. -/
def copyFrame (dst src : ℕ) : M Unit := do
  if dst = 0 ∨ src = 0 then throw .kerneltrap
  else modify (fun s => s.setPage dst (fun i => if i.val < 36 then s.word src i else s.word dst i))

/-- The copies of userSpaceHandler and of sigret. -/
def backupFrame (p : Proc) : M Unit := copyFrame p.backupTrapframe p.trapframe

def restoreFrame (p : Proc) : M Unit := copyFrame p.trapframe p.backupTrapframe

def frameA0 : Fin 512 := 14

/-- What fork copies from the parent `p` to the slot of the child. The references to files and to the
current directory are copied; their counts are not part of this model. -/
def Proc.childOf (c p : Proc) (parent : ℕ) : Proc :=
  { c with sz := p.sz, signalMask := p.signalMask, signalHandlers := p.signalHandlers,
           sigMaskArray := p.sigMaskArray, ofile := fun i => if p.ofile i ≠ 0 then p.ofile i else c.ofile i,
           cwd := p.cwd, name := p.name, parent := parent, state := .runnable }

def fork (m : Machine) (ps : Procs) (nextpid : ℤ) (parent : Fin nproc) : M (ℤ × Procs × ℤ) := do
  let r ← allocproc m ps nextpid
  match r.1 with
  | none => return (-1, r.2)
  | some c => do
    let copied ← uvmcopy m (r.2.1 parent).pagetable (r.2.1 c).pagetable (r.2.1 parent).sz
    if copied < 0 then do
      let p' ← freeproc m (r.2.1 c)
      return (-1, update r.2.1 c p', r.2.2)
    else do
      copyFrame (r.2.1 c).trapframe (r.2.1 parent).trapframe
      writeWord (r.2.1 c).trapframe frameA0 0
      return ((r.2.1 c).pid, update r.2.1 c ((r.2.1 c).childOf (r.2.1 parent) (parent.val+1)), r.2.2)

end Xv6.Vm
