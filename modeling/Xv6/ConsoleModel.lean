import Xv6.Ring
import Xv6.Runs

/-! Console input: consoleintr and consoleread of kernel/console.c. A reader holds cons.lock from
where it enters or wakes up to where it sleeps or returns, so these sections and the calls of
consoleintr follow one another. -/
namespace Xv6.Console
open Runs

abbrev inputBuf : ℕ := 128

abbrev Uint := BitVec 32

def newline : UInt8 := 10
def carriageReturn : UInt8 := 13
def ctrlD : UInt8 := 4
def ctrlH : UInt8 := 8
def ctrlP : UInt8 := 16
def ctrlU : UInt8 := 21
def delete : UInt8 := 127

structure Cons where
  buf : Fin inputBuf → UInt8
  r : Uint
  w : Uint
  e : Uint

def Cons.at (c : Cons) (x : Uint) : UInt8 := c.buf (Ring.cell inputBuf x)

-- Each turn of the source's loop brings e nearer to w.
def killLine : ℕ → Cons → Cons
  | 0, c => c
  | k+1, c => if c.e ≠ c.w ∧ c.at (c.e-1) ≠ newline then killLine k { c with e := c.e-1 } else c

def translate (x : UInt8) : UInt8 := if x = carriageReturn then newline else x

def Cons.store (c : Cons) (x : UInt8) : Cons :=
  { c with buf := Function.update c.buf (Ring.cell inputBuf c.e) x, e := c.e+1 }

def Cons.commit (c : Cons) (x : UInt8) : Cons :=
  if x = newline ∨ x = ctrlD ∨ c.e = c.r+BitVec.ofNat 32 inputBuf then { c with w := c.e } else c

/-- consoleintr, without its output. -/
def consoleintr (c : Cons) (x : UInt8) : Cons :=
  if x = ctrlP then c
  else if x = ctrlU then killLine (c.e-c.w).toNat c
  else if x = ctrlH ∨ x = delete then if c.e ≠ c.w then { c with e := c.e-1 } else c
  else if x ≠ 0 ∧ (c.e-c.r).toNat < inputBuf then (c.store (translate x)).commit (translate x)
  else c

/-- Where a section of consoleread ends: with the result and the bytes copied out, with -1 as the
process has been killed, or asleep with `n` bytes to go. -/
inductive Outcome where
  | returned (r : ℤ) (got : List UInt8)
  | killed
  | asleep (n : ℕ) (got : List UInt8)
  deriving DecidableEq

/-- A section: the console it leaves, its outcome, and what it has taken out of the buffer. -/
structure Section where
  cons : Cons
  outcome : Outcome
  took : List UInt8

def Section.after (x : UInt8) (s : Section) : Section := { s with took := x :: s.took }

/-- The loop of consoleread with `n` bytes to go. `ok` tells at which positions of the reader's
buffer a byte can be stored, `killed` what the test of p->killed finds. -/
def readLoop (ok : ℕ → Bool) (killed : Bool) (target : ℕ) : ℕ → Cons → List UInt8 → Section
  | 0, c, got => ⟨c, .returned target got, []⟩
  | n+1, c, got =>
    if c.r = c.w then ⟨c, if killed then .killed else .asleep (n+1) got, []⟩
    else if c.at c.r = ctrlD then
      -- with something to return the control-D is put back
      if n+1 < target then ⟨{ c with r := c.r+1-1 }, .returned (target-(n+1 : ℕ)) got, []⟩
      else ⟨{ c with r := c.r+1 }, .returned (target-(n+1 : ℕ)) got, [c.at c.r]⟩
    else if ok got.length = false then
      ⟨{ c with r := c.r+1 }, .returned (target-(n+1 : ℕ)) got, [c.at c.r]⟩
    else if c.at c.r = newline then
      ⟨{ c with r := c.r+1 }, .returned (target-n) (got ++ [c.at c.r]), [c.at c.r]⟩
    else (readLoop ok killed target n { c with r := c.r+1 } (got ++ [c.at c.r])).after (c.at c.r)

/-- A process with respect to the console. `id` numbers the calls. -/
inductive Reader where
  | idle
  | waiting (id target n : ℕ) (ok : ℕ → Bool) (got : List UInt8)

structure Result where
  id : ℕ
  size : ℕ
  ret : ℤ
  bytes : List UInt8
  deriving DecidableEq

/-- The console and its readers; the characters typed so far, with the room that each found, the
entries taken out of the buffer, each with the call that took it, and the results of the calls. -/
structure Sys where
  cons : Cons
  readers : ℕ → Reader
  calls : ℕ
  typed : List (UInt8 × ℕ)
  takes : List (ℕ × UInt8)
  results : List Result

def Cons.room (c : Cons) : ℕ := inputBuf-(c.e-c.r).toNat

def Sys.init (buf : Fin inputBuf → UInt8) (x : Uint) : Sys := ⟨⟨buf, x, x, x⟩, fun _ => .idle, 0, [], [], []⟩

def Sys.leave (s : Sys) (pid id target : ℕ) (ok : ℕ → Bool) (sec : Section) : Sys := { s with
    cons := sec.cons
    takes := s.takes ++ sec.took.map (fun b => (id, b))
    readers := Function.update s.readers pid (match sec.outcome with
      | .asleep n got => .waiting id target n ok got
      | _ => .idle)
    results := s.results ++ match sec.outcome with
      | .returned r got => [⟨id, target, r, got⟩]
      | .killed => [⟨id, target, -1, []⟩]
      | .asleep _ _ => [] }

/-- A character comes in, a process calls consoleread with a C int `n`, or one that sleeps in it
goes on. -/
inductive Event where
  | input (x : UInt8)
  | read (pid : ℕ) (n : ℤ) (ok : ℕ → Bool) (killed : Bool)
  | resume (pid : ℕ) (killed : Bool)

def step (s : Sys) : Event → Option Sys
  | .input x => some { s with
      cons := consoleintr s.cons x
      typed := s.typed ++ [(x, s.cons.room)] }
  | .read pid n ok killed => match s.readers pid with
    | .idle => some ({ s with calls := s.calls+1 }.leave pid s.calls n.toNat ok
        (readLoop ok killed n.toNat n.toNat s.cons []))
    | .waiting _ _ _ _ _ => none
  | .resume pid killed => match s.readers pid with
    | .idle => none
    | .waiting id target n ok got => some (s.leave pid id target ok (readLoop ok killed target n s.cons got))

end Xv6.Console
