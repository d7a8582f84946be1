import Xv6.SignalBits
import Xv6.Runs

/-! The binary semaphores of kernel/proc.c, called by any number of processes. What a call
does between acquiring and releasing bsem_lock is one step, and so is each turn of the scan
in wakeup; sleep gives the lock up in the step that puts the caller to sleep. -/
namespace Xv6.Bsem
open Runs

abbrev CInt := BitVec 32

abbrev maxBsem : ℕ := 128

structure Semaphore where
  id : CInt
  isLocked : ℤ
  isUsed : ℤ
  deriving DecidableEq

abbrev Slot := Fin maxBsem

/-- Where a process is in the semaphore code. `returning i sid` is bsem_alloc between the
release of the lock and the read of slot `i` for its result (`sid` is the id it assigned); `sleeping b i` and `woken b i` are bsem_down(b)
asleep on slot `i` and about to test it again; `waking i k` is bsem_up in wakeup, with
process number `k` next. -/
inductive Pc where
  | idle
  | returning (i : Slot) (sid : CInt)
  | sleeping (b : CInt) (i : Slot)
  | woken (b : CInt) (i : Slot)
  | waking (i : Slot) (k : ℕ)
  deriving DecidableEq

/-- What the history records: an id given to a slot, the result of a bsem_alloc that gave
one, the table scanned by a bsem_alloc that returned -1, a bsem_down(b) that completed and the slot it
locked as it stood before, and a bsem_up(b) that found a locked slot. -/
inductive Entry where
  | assigned (sid : CInt)
  | returned (sid ret : CInt)
  | full (table : Slot → Semaphore)
  | down (b : CInt) (slot : Semaphore)
  | up (b : CInt)

/-- The table, the counter and the processes, with the history of the run so far. -/
structure Sys (n : ℕ) where
  sem : Slot → Semaphore
  nextsid : CInt
  pc : Fin n → Pc
  hist : List Entry

inductive Event (n : ℕ) where
  | alloc (p : Fin n)
  | allocReturn (p : Fin n)
  | free (p : Fin n) (b : CInt)
  | down (p : Fin n) (b : CInt)
  | retest (p : Fin n)
  | up (p : Fin n) (b : CInt)
  | scan (p : Fin n)
  | kill (q : Fin n)
  deriving DecidableEq

variable {n : ℕ}

def Sys.init (n : ℕ) : Sys n := ⟨fun _ => ⟨0, 0, 0⟩, 1, fun _ => .idle, []⟩

def Sys.setSem (s : Sys n) (i : Slot) (x : Semaphore) : Sys n := { s with sem := Function.update s.sem i x }

def Sys.setPc (s : Sys n) (p : Fin n) (c : Pc) : Sys n := { s with pc := Function.update s.pc p c }

def Sys.log (s : Sys n) (e : Entry) : Sys n := { s with hist := s.hist ++ [e] }

def Sys.find (s : Sys n) (P : Semaphore → Bool) : Option Slot := (List.finRange maxBsem).find? (fun i => P (s.sem i))

def Sys.allocsid (s : Sys n) : CInt × Sys n := (s.nextsid, { s with nextsid := s.nextsid+1 })

def bsemAlloc (s : Sys n) (p : Fin n) : Sys n :=
  match s.find (fun x => decide (x.isUsed = 0)) with
  | some i =>
    let (sid, s') := s.allocsid
    ((s'.setSem i ⟨sid, 0, 1⟩).log (.assigned sid)).setPc p (.returning i sid)
  | none => s.log (.full s.sem)

def bsemFree (s : Sys n) (b : CInt) : Sys n :=
  match s.find (fun x => decide (x.id = b)) with
  | some i => s.setSem i ⟨0, 0, 0⟩
  | none => s

/-- The loop of bsem_down on the slot that it has found, up to its next sleep. -/
def downLoop (s : Sys n) (p : Fin n) (b : CInt) (i : Slot) : Sys n :=
  if (s.sem i).isLocked = 1 then s.setPc p (.sleeping b i)
  else ((s.setSem i { s.sem i with isLocked := 1 }).log (.down b (s.sem i))).setPc p .idle

def bsemDown (s : Sys n) (p : Fin n) (b : CInt) : Sys n :=
  match s.find (fun x => decide (x.id = b)) with
  | some i => downLoop s p b i
  | none => s

-- The loop does not stop at a slot that has the id and is not locked.
def bsemUp (s : Sys n) (p : Fin n) (b : CInt) : Sys n :=
  match s.find (fun x => decide (x.id = b) && decide (x.isLocked = 1)) with
  | some i => ((s.setSem i { s.sem i with isLocked := 0 }).log (.up b)).setPc p (.waking i 0)
  | none => s

def Pc.wake (i : Slot) : Pc → Pc
  | .sleeping b j => if j = i then .woken b j else .sleeping b j
  | c => c

-- One turn of the loop in wakeup, which passes over the caller itself.
def wakeupTurn (s : Sys n) (p : Fin n) (i : Slot) (k : ℕ) : Sys n :=
  if h : k < n then
    let q : Fin n := ⟨k, h⟩
    (if q ≠ p then s.setPc q ((s.pc q).wake i) else s).setPc p (.waking i (k+1))
  else s.setPc p .idle

def step (s : Sys n) : Event n → Option (Sys n)
  | .alloc p => if s.pc p = .idle then some (bsemAlloc s p) else none
  | .allocReturn p =>
    match s.pc p with
    | .returning i sid => some ((s.log (.returned sid (s.sem i).id)).setPc p .idle)
    | _ => none
  | .free p b => if s.pc p = .idle then some (bsemFree s b) else none
  | .down p b => if s.pc p = .idle then some (bsemDown s p b) else none
  | .retest p =>
    match s.pc p with
    | .woken b i => some (downLoop s p b i)
    | _ => none
  | .up p b => if s.pc p = .idle then some (bsemUp s p b) else none
  | .scan p =>
    match s.pc p with
    | .waking i k => some (wakeupTurn s p i k)
    | _ => none
  -- kill(pid, SIGKILL) makes a sleeper runnable, whatever it sleeps on
  | .kill q =>
    match s.pc q with
    | .sleeping b i => some (s.setPc q (.woken b i))
    | _ => none

def Sys.slotOf (s : Sys n) (b : CInt) : Option Slot := s.find (fun x => decide (x.id = b))

theorem find_eq_some (s : Sys n) (P : Semaphore → Bool) (i : Slot) :
    s.find P = some i ↔ P (s.sem i) = true ∧ ∀ j, j < i → P (s.sem j) = false := by
  rw [Sys.find, Signal.find?_eq_some_of_sorted _ _ (List.pairwise_lt_finRange maxBsem)]
  simp only [List.mem_finRange, true_and, forall_const]

theorem find_eq_none (s : Sys n) (P : Semaphore → Bool) : s.find P = none ↔ ∀ i, P (s.sem i) = false := by
  simp [Sys.find, List.find?_eq_none]

end Xv6.Bsem
