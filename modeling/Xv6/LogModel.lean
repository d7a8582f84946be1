import Xv6.Bytes
import Xv6.WriteTrace

/-! The redo log of kernel/log.c over a buffer cache: the header block, the reservation of
log space, and the block writes of commit and recovery. -/
namespace Xv6.Logging
open Function Bytes WriteTrace

def bsize : ℕ := 1024
def maxOpBlocks : ℕ := 10
def logSize : ℕ := maxOpBlocks*3

abbrev Block := ByteMem

abbrev Disk := ℕ → Block

inductive Panic where
  | tooBigTransaction | outsideOfTrans | logCommitting
  deriving DecidableEq

/-- `struct log` with the part of `lh.block` below `lh.n` as a list. -/
structure Log where
  start : ℕ
  size : ℕ
  outstanding : ℤ
  committing : Bool
  lh : List ℕ
  deriving DecidableEq

/-- begin_op once it is not put to sleep again; `none` while it sleeps. -/
def beginOp (l : Log) : Option Log :=
  if l.committing then none
  else if (l.lh.length : ℤ)+(l.outstanding+1)*maxOpBlocks > logSize then none
  else some { l with outstanding := l.outstanding+1 }

/-- end_op up to the call of commit, with do_commit as the second component. -/
def endOp (l : Log) : Except Panic (Log × Bool) :=
  let l := { l with outstanding := l.outstanding-1 }
  if l.committing then .error .logCommitting
  else if l.outstanding = 0 then .ok ({ l with committing := true }, true)
  else .ok (l, false)

def endCommit (l : Log) : Log := { l with committing := false }

-- The absorbed block overwrites its own entry, so only a new block changes the header.
def logWrite (l : Log) (blockno : ℕ) : Except Panic Log :=
  if l.lh.length ≥ logSize ∨ (l.lh.length : ℤ) ≥ (l.size : ℤ)-1 then .error .tooBigTransaction
  else if l.outstanding < 1 then .error .outsideOfTrans
  else if blockno ∈ l.lh then .ok l
  else .ok { l with lh := l.lh ++ [blockno] }

/-- A machine with its disk, the valid buffers of the cache and their pins. `recycled`
lists, for each cache miss, the blocks whose buffers other users of the cache and the
miss itself have taken since the last one; `writes` records the calls of bwrite. -/
structure Machine where
  log : Log
  disk : Disk
  cache : ℕ → Option Block
  pins : ℕ → ℕ
  recycled : List (List ℕ)
  writes : List (ℕ × Block)

-- bget takes only buffers with a zero reference count.
def recycle (m : Machine) : Machine := { m with
    cache := fun b => if b ∈ m.recycled.headD [] ∧ m.pins b = 0 then none else m.cache b
    recycled := m.recycled.tail }

def bread (m : Machine) (b : ℕ) : Block × Machine :=
  match m.cache b with
  | some data => (data, m)
  | none =>
    let m := recycle m
    (m.disk b, { m with cache := update m.cache b (some (m.disk b)) })

def bwrite (m : Machine) (b : ℕ) (data : Block) : Machine := { m with
    disk := update m.disk b data
    cache := update m.cache b (some data)
    writes := m.writes ++ [(b, data)] }

def bunpin (m : Machine) (b : ℕ) : Machine := { m with pins := update m.pins b (m.pins b-1) }

-- struct logheader: n at offset 0, block[i] at 4+4i
def headN (h : Block) : ℕ := loadLE h 0 4
def headBlock (h : Block) (i : ℕ) : ℕ := loadLE h (4+4*i) 4

def fillBlocks (h : Block) (i : ℕ) : List ℕ → Block
  | [] => h
  | b :: bs => fillBlocks (storeLE h (4+4*i) 4 b) (i+1) bs

def fillHead (h : Block) (bs : List ℕ) : Block := fillBlocks (storeLE h 0 4 bs.length) 0 bs

def headList (h : Block) : List ℕ :=
  if headN h < 2^31 then (List.range (headN h)).map (headBlock h) else []

def readHead (m : Machine) : Machine :=
  let r := bread m m.log.start
  { r.2 with log := { r.2.log with lh := headList r.1 } }

def writeHead (m : Machine) : Machine :=
  let r := bread m m.log.start
  bwrite r.2 r.2.log.start (fillHead r.1 r.2.log.lh)

def writeLogLoop (m : Machine) (tail : ℕ) : List ℕ → Machine
  | [] => m
  | b :: bs =>
    let dst := bread m (m.log.start+tail+1)
    let src := bread dst.2 b
    writeLogLoop (bwrite src.2 (m.log.start+tail+1) src.1) (tail+1) bs

def writeLog (m : Machine) : Machine := writeLogLoop m 0 m.log.lh

def installLoop (recovering : Bool) (m : Machine) (tail : ℕ) : List ℕ → Machine
  | [] => m
  | b :: bs =>
    let lbuf := bread m (m.log.start+tail+1)
    let dbuf := bread lbuf.2 b
    let m := bwrite dbuf.2 b lbuf.1
    installLoop recovering (if recovering then m else bunpin m b) (tail+1) bs

def installTrans (recovering : Bool) (m : Machine) : Machine := installLoop recovering m 0 m.log.lh

def clearHead (m : Machine) : Machine := { m with log := { m.log with lh := [] } }

def commit (m : Machine) : Machine :=
  if m.log.lh.length > 0 then
    writeHead (clearHead (installTrans false (writeHead (writeLog m))))
  else m

def recoverFromLog (m : Machine) : Machine := writeHead (clearHead (installTrans true (readHead m)))

def initlog (start size : ℕ) (d : Disk) (recycled : List (List ℕ)) : Machine :=
  recoverFromLog ⟨⟨start, size, 0, false, []⟩, d, fun _ => none, fun _ => 0, recycled, []⟩

end Xv6.Logging
