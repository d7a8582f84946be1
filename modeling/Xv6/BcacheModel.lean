import Xv6.LogModel
import Xv6.Circular
import Xv6.Runs

/-! The buffer cache of kernel/bio.c under concurrent use, with the log on top of it. A section
under bcache.lock or log.lock is one step, and so is a disk transfer. -/
namespace Xv6.Bcache
open Logging (Block Log)
open Function Circular

def nbuf : ℕ := Logging.maxOpBlocks*3
def rootdev : ℕ := 1

abbrev Slot := Fin nbuf

instance : NeZero nbuf := ⟨by decide⟩

/-- The sleep-lock of a buffer. `p` has asked bread for block `b`: it is in bread, or bread has
returned; `dirty` if it has changed the data and not yet called log_write or bwrite. -/
inductive Lock where
  | free
  | reading (p b : ℕ)
  | held (p b : ℕ) (dirty : Bool)
  deriving DecidableEq

/-- A buffer. The last three fields are not in the code: the calls of bget that wait for the
sleep-lock, with the block that they were asked for; the calls of brelse that have given it up and
not yet decremented refcnt; and the pins. -/
structure Buf where
  dev : ℕ
  blockno : ℕ
  valid : Bool
  refcnt : ℕ
  data : Block
  lock : Lock
  waiting : List (ℕ × ℕ)
  leaving : ℕ
  pins : ℕ

/-- Where the process that commits is: before the test of commit; in turn `tail` of write_log,
before its memmove or before the bwrite of buffer `k`; before the header is filled in or written;
in turn `tail` of install_trans, before its memmove, bwrite or bunpin; and so on. -/
inductive Stage where
  | begin
  | copy (tail : ℕ)
  | copied (tail : ℕ) (k : Slot)
  | head
  | headed (k : Slot)
  | install (tail : ℕ)
  | moved (tail : ℕ) (k : Slot)
  | written (tail : ℕ) (k : Slot)
  | clear
  | erase
  | erased (k : Slot)
  | finish
  deriving DecidableEq

/-- The buffers and their list, where `none` is bcache.head, the disk and the log. `ops` are the
processes between begin_op and end_op, `commit` is the process that commits, and `last` the contents
last stored into each block. -/
structure Sys where
  buf : Slot → Buf
  links : Links (Option Slot)
  disk : ℕ → Block
  log : Log
  ops : List ℕ
  commit : Option (ℕ × Stage)
  last : ℕ → Block

inductive Event where
  | bget (p b : ℕ)
  | acquire (p : ℕ) (k : Slot)
  | fill (p : ℕ) (k : Slot)
  | store (p : ℕ) (k : Slot) (data : Block)
  | logWrite (p : ℕ) (k : Slot)
  | release (p : ℕ) (k : Slot)
  | drop (k : Slot)
  | beginOp (p : ℕ)
  | endOp (p : ℕ)
  | memmove (dst src : Slot)
  | header (k : Slot)
  | bwrite
  | turn

def Sys.set (s : Sys) (k : Slot) (x : Buf) : Sys := { s with buf := update s.buf k x }

def Sys.forward (s : Sys) : List Slot := (follow s.links.next none (nbuf+1) (s.links.next none)).reduceOption
def Sys.backward (s : Sys) : List Slot := (follow s.links.prev none (nbuf+1) (s.links.prev none)).reduceOption

/-- bget up to its call of acquiresleep. -/
def bget (s : Sys) (p b : ℕ) : Option Sys :=
  match s.forward.find? (fun k => decide ((s.buf k).dev = rootdev ∧ (s.buf k).blockno = b)) with
  | some k => some (s.set k { s.buf k with
      refcnt := (s.buf k).refcnt+1, waiting := (s.buf k).waiting ++ [(p, b)] })
  | none => match s.backward.find? (fun k => decide ((s.buf k).refcnt = 0)) with
    | some k => some (s.set k { s.buf k with
        dev := rootdev, blockno := b, valid := false, refcnt := 1,
        waiting := (s.buf k).waiting ++ [(p, b)] })
    | none => none

def acquire (s : Sys) (p : ℕ) (k : Slot) : Option Sys :=
  match (s.buf k).lock, (s.buf k).waiting.find? (fun w => w.1 = p) with
  | .free, some (_, b) => some (s.set k { s.buf k with
      lock := .reading p b, waiting := (s.buf k).waiting.erase (p, b) })
  | _, _ => none

def fill (s : Sys) (p : ℕ) (k : Slot) : Option Sys :=
  match (s.buf k).lock with
  | .reading q b =>
    if p ≠ q then none
    else if (s.buf k).valid then some (s.set k { s.buf k with lock := .held p b false })
    else some (s.set k { s.buf k with
      data := s.disk (s.buf k).blockno, valid := true, lock := .held p b false })
  | _ => none

def Sys.put (s : Sys) (k : Slot) (p b : ℕ) (data : Block) : Sys :=
  { s.set k { s.buf k with data := data, lock := .held p b true } with
    last := update s.last (s.buf k).blockno data }

def store (s : Sys) (p : ℕ) (k : Slot) (data : Block) : Option Sys :=
  match (s.buf k).lock with
  | .held q b _ => if p = q then some (s.put k p b data) else none
  | _ => none

def bpin (x : Buf) : Buf := { x with refcnt := x.refcnt+1, pins := x.pins+1 }
def bunpin (x : Buf) : Buf := { x with refcnt := x.refcnt-1, pins := x.pins-1 }

-- A block that is new in the log is pinned.
def logWrite (s : Sys) (p : ℕ) (k : Slot) : Option Sys :=
  match (s.buf k).lock with
  | .held q b _ =>
    if p ≠ q then none
    else match Logging.logWrite s.log (s.buf k).blockno with
      | .error _ => none
      | .ok l => some { s.set k
          { (if (s.buf k).blockno ∈ s.log.lh then s.buf k else bpin (s.buf k)) with
            lock := .held p b false } with log := l }
  | _ => none

def release (s : Sys) (p : ℕ) (k : Slot) : Option Sys :=
  match (s.buf k).lock with
  | .held q _ _ =>
    if p = q then some (s.set k { s.buf k with lock := .free, leaving := (s.buf k).leaving+1 })
    else none
  | _ => none

def Buf.leave (x : Buf) : Buf := { x with refcnt := x.refcnt-1, leaving := x.leaving-1 }

def drop (s : Sys) (k : Slot) : Option Sys :=
  if (s.buf k).leaving = 0 then none
  else if (s.buf k).leave.refcnt = 0 then
    some { s.set k (s.buf k).leave with
      links := (s.links.unlink (some k)).pushFront none (some k) }
  else some (s.set k (s.buf k).leave)

def beginOp (s : Sys) (p : ℕ) : Option Sys :=
  (Logging.beginOp s.log).map (fun l => { s with log := l, ops := p :: s.ops })

def endOp (s : Sys) (p : ℕ) : Option Sys :=
  match Logging.endOp s.log with
  | .error _ => none
  | .ok (l, doCommit) => some { s with
      log := l
      ops := s.ops.erase p
      commit := if doCommit then some (p, .begin) else s.commit }

def Sys.has (s : Sys) (k : Slot) (p b : ℕ) : Prop := ∃ dirty, (s.buf k).lock = .held p b dirty

instance (s : Sys) (k : Slot) (p b : ℕ) : Decidable (s.has k p b) :=
  decidable_of_iff ((s.buf k).lock = .held p b true ∨ (s.buf k).lock = .held p b false) (by simp [Sys.has, or_comm])

/-- The memmove of write_log and that of install_trans; the latter puts the contents of the log
back into the buffer that they were copied from. -/
def memmove (s : Sys) (k j : Slot) : Option Sys :=
  match s.commit with
  | some (p, .copy tail) => s.log.lh[tail]?.bind (fun b =>
    if s.has k p (s.log.start+tail+1) ∧ s.has j p b then
      some { s.put k p (s.log.start+tail+1) (s.buf j).data with commit := some (p, .copied tail k) }
    else none)
  | some (p, .install tail) => s.log.lh[tail]?.bind (fun b =>
    if s.has j p (s.log.start+tail+1) ∧ s.has k p b then
      some { s.set k { s.buf k with data := (s.buf j).data, lock := .held p b true } with
        commit := some (p, .moved tail k) }
    else none)
  | _ => none

def Stage.afterHeader (k : Slot) : Stage → Option Stage
  | .head => some (.headed k)
  | .erase => some (.erased k)
  | _ => none

def header (s : Sys) (k : Slot) : Option Sys :=
  match s.commit with
  | some (p, c) => (c.afterHeader k).bind (fun c' =>
    if s.has k p s.log.start then
      some { s.put k p s.log.start (Logging.fillHead (s.buf k).data s.log.lh) with
        commit := some (p, c') }
    else none)
  | none => none

def Stage.afterWrite : Stage → Option (Slot × Stage)
  | .copied tail k => some (k, .copy (tail+1))
  | .headed k => some (k, .install 0)
  | .moved tail k => some (k, .written tail k)
  | .erased k => some (k, .finish)
  | _ => none

/-- The process that commits has come to a bwrite; it panics if the buffer is not locked. -/
def bwrite (s : Sys) : Option Sys :=
  match s.commit with
  | some (p, c) => c.afterWrite.bind (fun (k, c') =>
    match (s.buf k).lock with
    | .held q b _ =>
      if p = q then
        some { s.set k { s.buf k with lock := .held p b false } with
          disk := update s.disk (s.buf k).blockno (s.buf k).data
          commit := some (p, c') }
      else none
    | _ => none)
  | none => none

/-- The other steps of commit: its test, the ends of its loops, bunpin, the assignment to lh.n and
the last section of end_op. -/
def turn (s : Sys) : Option Sys :=
  match s.commit with
  | some (p, .begin) => some { s with commit := some (p, if 0 < s.log.lh.length then .copy 0 else .finish) }
  | some (p, .copy tail) =>
    if tail < s.log.lh.length then none else some { s with commit := some (p, .head) }
  | some (p, .install tail) =>
    if tail < s.log.lh.length then none else some { s with commit := some (p, .clear) }
  | some (p, .written tail k) => some { s.set k (bunpin (s.buf k)) with commit := some (p, .install (tail+1)) }
  | some (p, .clear) => some { s with log := { s.log with lh := [] }, commit := some (p, .erase) }
  | some (_, .finish) => some { s with log := Logging.endCommit s.log, commit := none }
  | _ => none

def step (s : Sys) : Event → Option Sys
  | .bget p b => bget s p b
  | .acquire p k => acquire s p k
  | .fill p k => fill s p k
  | .store p k data => store s p k data
  | .logWrite p k => logWrite s p k
  | .release p k => release s p k
  | .drop k => drop s k
  | .beginOp p => beginOp s p
  | .endOp p => endOp s p
  | .memmove k j => memmove s k j
  | .header k => header s k
  | .bwrite => bwrite s
  | .turn => turn s

def logArea (l : Log) (b : ℕ) : Prop := l.start ≤ b ∧ b < l.start+l.size

instance (l : Log) (b : ℕ) : Decidable (logArea l b) := inferInstanceAs (Decidable (_ ∧ _))

def Lock.dirtyBy (p : ℕ) : Lock → Bool
  | .held q _ dirty => decide (q = p) && dirty
  | _ => false

/-- What the callers keep to. Blocks are modified and passed to log_write between begin_op and
end_op, after a modification log_write comes before brelse and before end_op, and only commit uses
the blocks of the log. -/
def disciplined (s : Sys) : Event → Bool
  | .bget p b => decide (logArea s.log b → s.commit.map Prod.fst = some p)
  | .store p k _ => decide (p ∈ s.ops ∧ ¬ logArea s.log (s.buf k).blockno)
  | .logWrite p k => decide (p ∈ s.ops ∧ ¬ logArea s.log (s.buf k).blockno)
  | .release p k => !(s.buf k).lock.dirtyBy p
  | .beginOp p => decide (p ∉ s.ops)
  | .endOp p => decide (p ∈ s.ops ∧ ∀ k, (s.buf k).lock.dirtyBy p = false)
  | _ => true

/-- The list that binit makes: each buffer is put in front of those before it. -/
def binit : Links (Option Slot) := (List.finRange nbuf).foldl (fun L k => L.pushFront none (some k)) ⟨id, id⟩

def init (start size : ℕ) (disk : ℕ → Block) : Sys where
  buf := fun _ => ⟨0, 0, false, 0, fun _ => 0, .free, [], 0, 0⟩
  links := binit
  disk := disk
  log := ⟨start, size, 0, false, []⟩
  ops := []
  commit := none
  last := disk

end Xv6.Bcache
