import Xv6.Ring
import Xv6.Runs

/-! One pipe of kernel/pipe.c, used by any number of processes. Each turn of a loop is a
step, and so is each turn of the scan in wakeup; between two steps of the process that holds
pi->lock other processes can be killed, finish going to sleep or be woken. -/
namespace Xv6.Pipes
open Function Runs

abbrev pipeSize : ℕ := 512

scoped instance neZeroPipeSize : NeZero pipeSize := ⟨by decide⟩

abbrev Uint := BitVec 32

structure Pipe where
  data : Fin pipeSize → UInt8
  nread : Uint
  nwrite : Uint
  readopen : Bool
  writeopen : Bool

inductive Chan where
  | nread
  | nwrite
  deriving DecidableEq

/-- A call that has gone to sleep: pipewrite with `i` of `n` bytes stored, or piperead. -/
inductive Blocked where
  | writer (i : ℕ) (n : ℤ)
  | reader (n : ℤ)
  deriving DecidableEq

def Blocked.chan : Blocked → Chan
  | .writer _ _ => .nwrite
  | .reader _ => .nread

/-- What follows a call of wakeup: pipewrite goes to sleep, pipewrite or piperead returns
`r`, or pipeclose goes on to its last test. -/
inductive After where
  | sleep (i : ℕ) (n : ℤ)
  | ret (r : ℤ)
  | close
  deriving DecidableEq

/-- Where a process is in the pipe code. `out r` is outside of it, with `r` the result of its
last call. `writing i n k` is at the top of the loop in pipewrite, where `k` of the `i`
bytes were stored since pi->lock was last acquired; `waiting n` and `reading i n` are at the top
of the two loops of piperead. A process that is `parking` has given pi->lock up in sleep and
still holds its own p->lock. -/
inductive Pc where
  | out (r : ℤ)
  | writing (i : ℕ) (n : ℤ) (k : ℕ)
  | waiting (n : ℤ)
  | reading (i : ℕ) (n : ℤ)
  | waking (c : Chan) (k : ℕ) (a : After)
  | parking (b : Blocked)
  | sleeping (b : Blocked)
  | woken (b : Blocked)
  deriving DecidableEq

/-- The pipe, the holder of pi->lock and the processes, with the bytes put into the pipe and
taken out of it so far. -/
structure Sys (n : ℕ) where
  pipe : Pipe
  lock : Option (Fin n)
  freed : Bool
  pc : Fin n → Pc
  killed : Fin n → Bool
  put : List UInt8
  taken : List UInt8

/-- `writeTurn` carries what copyin brings, `readTurn` whether copyout succeeds. -/
inductive Event (n : ℕ) where
  | callWrite (p : Fin n) (m : ℤ)
  | callRead (p : Fin n) (m : ℤ)
  | callClose (p : Fin n) (writable : Bool)
  | writeTurn (p : Fin n) (ch : Option UInt8)
  | waitTurn (p : Fin n)
  | readTurn (p : Fin n) (ok : Bool)
  | scan (p : Fin n)
  | park (p : Fin n)
  | resume (p : Fin n)
  | kill (q : Fin n)
  | recycle (q : Fin n)
  deriving DecidableEq

variable {n : ℕ}

def Sys.init (data : Fin pipeSize → UInt8) (n : ℕ) : Sys n :=
  ⟨⟨data, 0, 0, true, true⟩, none, false, fun _ => .out 0, fun _ => false, [], []⟩

def Sys.setPc (s : Sys n) (p : Fin n) (c : Pc) : Sys n := { s with pc := update s.pc p c }

def Sys.acquire (s : Sys n) (p : Fin n) (c : Pc) : Option (Sys n) :=
  if s.lock = none ∧ s.freed = false then some { s.setPc p c with lock := some p } else none

def Sys.release (s : Sys n) (p : Fin n) (c : Pc) : Sys n := { s.setPc p c with lock := none }

def Pipe.isEmpty (pi : Pipe) : Prop := pi.nread = pi.nwrite

def Pipe.isFull (pi : Pipe) : Prop := pi.nwrite = pi.nread + BitVec.ofNat 32 pipeSize

instance (pi : Pipe) : Decidable pi.isEmpty := inferInstanceAs (Decidable (_ = _))

instance (pi : Pipe) : Decidable pi.isFull := inferInstanceAs (Decidable (_ = _))

def Pipe.store (pi : Pipe) (ch : UInt8) : Pipe :=
  { pi with data := update pi.data (Ring.cell pipeSize pi.nwrite) ch, nwrite := pi.nwrite+1 }

def Pipe.next (pi : Pipe) : UInt8 := pi.data (Ring.cell pipeSize pi.nread)

def pipewriteTurn (s : Sys n) (p : Fin n) (i : ℕ) (m : ℤ) (k : ℕ) (ch : Option UInt8) : Sys n :=
  if (i : ℤ) < m then
    if s.pipe.readopen = false ∨ s.killed p = true then s.release p (.out (-1))
    else if s.pipe.isFull then s.setPc p (.waking .nread 0 (.sleep i m))
    else match ch with
      | none => s.setPc p (.waking .nread 0 (.ret i))
      | some c => { s.setPc p (.writing (i+1) m (k+1)) with
          pipe := s.pipe.store c, put := s.put ++ [c] }
  else s.setPc p (.waking .nread 0 (.ret i))

def pipereadWait (s : Sys n) (p : Fin n) (m : ℤ) : Sys n :=
  if s.pipe.isEmpty ∧ s.pipe.writeopen = true then
    if s.killed p = true then s.release p (.out (-1))
    else s.release p (.parking (.reader m))
  else s.setPc p (.reading 0 m)

-- The byte is gone from the pipe even if copyout fails, and then it does not count in i.
def pipereadTurn (s : Sys n) (p : Fin n) (i : ℕ) (m : ℤ) (ok : Bool) : Sys n :=
  if (i : ℤ) < m ∧ ¬ s.pipe.isEmpty then
    { s.setPc p (if ok then .reading (i+1) m else .waking .nwrite 0 (.ret i)) with
      pipe := { s.pipe with nread := s.pipe.nread+1 }, taken := s.taken ++ [s.pipe.next] }
  else s.setPc p (.waking .nwrite 0 (.ret i))

def pipeclose (s : Sys n) (p : Fin n) (writable : Bool) : Option (Sys n) :=
  if writable then
    (s.acquire p (.waking .nread 0 .close)).map (fun t => { t with pipe := { t.pipe with writeopen := false } })
  else
    (s.acquire p (.waking .nwrite 0 .close)).map (fun t => { t with pipe := { t.pipe with readopen := false } })

def Pc.wake (c : Chan) : Pc → Pc
  | .sleeping b => if b.chan = c then .woken b else .sleeping b
  | x => x

def Pc.isParking : Pc → Bool
  | .parking _ => true
  | _ => false

def afterWakeup (s : Sys n) (p : Fin n) : After → Sys n
  | .sleep i m => s.release p (.parking (.writer i m))
  | .ret r => s.release p (.out r)
  | .close => { s.release p (.out 0) with freed := !s.pipe.readopen && !s.pipe.writeopen }

def wakeupTurn (s : Sys n) (p : Fin n) (c : Chan) (k : ℕ) (a : After) : Option (Sys n) :=
  if h : k < n then
    let q : Fin n := ⟨k, h⟩
    if q = p then some (s.setPc p (.waking c (k+1) a))
    else if (s.pc q).isParking then none
    else some ((s.setPc q ((s.pc q).wake c)).setPc p (.waking c (k+1) a))
  else some (afterWakeup s p a)

def Blocked.back : Blocked → Pc
  | .writer i m => .writing i m 0
  | .reader m => .waiting m

def killProc (s : Sys n) (q : Fin n) : Option (Sys n) :=
  match s.pc q with
  | .parking _ => none
  | .sleeping b => some { s.setPc q (.woken b) with killed := update s.killed q true }
  | _ => some { s with killed := update s.killed q true }

def step (s : Sys n) : Event n → Option (Sys n)
  | .callWrite p m =>
    match s.pc p with
    | .out _ => s.acquire p (.writing 0 m 0)
    | _ => none
  | .callRead p m =>
    match s.pc p with
    | .out _ => s.acquire p (.waiting m)
    | _ => none
  | .callClose p writable =>
    match s.pc p with
    | .out _ => pipeclose s p writable
    | _ => none
  | .writeTurn p ch =>
    match s.pc p with
    | .writing i m k => some (pipewriteTurn s p i m k ch)
    | _ => none
  | .waitTurn p =>
    match s.pc p with
    | .waiting m => some (pipereadWait s p m)
    | _ => none
  | .readTurn p ok =>
    match s.pc p with
    | .reading i m => some (pipereadTurn s p i m ok)
    | _ => none
  | .scan p =>
    match s.pc p with
    | .waking c k a => wakeupTurn s p c k a
    | _ => none
  | .park p =>
    match s.pc p with
    | .parking b => some (s.setPc p (.sleeping b))
    | _ => none
  | .resume p =>
    match s.pc p with
    | .woken b => s.acquire p b.back
    | _ => none
  | .kill q => killProc s q
  -- the slot goes to a new process, with killed as freeproc leaves it
  | .recycle q =>
    match s.pc q with
    | .out _ => some { s with killed := update s.killed q false }
    | _ => none

end Xv6.Pipes
