import Xv6.Ring
import Xv6.Runs

/-! The disk driver of kernel/virtio_disk.c and its device. The driver works under vdisk_lock; the
device looks at a chain of descriptors from the increment of avail->idx on, so what virtio_disk_rw
does before it is one step. A sleeping process may go on at any time here. -/
namespace Xv6.Virtio
open Function Runs

abbrev num : ℕ := 8

/-- VRING_DESC_F_NEXT and VRING_DESC_F_WRITE. -/
def descNext : BitVec 16 := 1
def descWrite : BitVec 16 := 2

/-- VIRTIO_BLK_T_IN and VIRTIO_BLK_T_OUT. -/
def blkIn : BitVec 32 := 0
def blkOut : BitVec 32 := 1

/-- What a descriptor points at: nothing, disk.ops[i], the data of a buffer, disk.info[i].status. -/
inductive Addr where
  | null
  | op (i : ℕ)
  | data (b : ℕ)
  | status (i : ℕ)
  deriving DecidableEq

structure Desc where
  addr : Addr
  len : BitVec 32
  flags : BitVec 16
  next : ℕ
  deriving DecidableEq

def Desc.zero : Desc := ⟨.null, 0, 0, 0⟩

structure Op where
  type : BitVec 32
  reserved : BitVec 32
  sector : BitVec 64
  deriving DecidableEq

/-- struct disk with what it points at. `seenIdx` is disk.used_idx, `usedIdx` disk.used->idx. -/
structure Disk where
  desc : ℕ → Desc
  availIdx : BitVec 16
  availRing : Fin num → ℕ
  usedIdx : BitVec 16
  usedRing : Fin num → ℕ
  free : ℕ → Bool
  seenIdx : BitVec 16
  infoB : ℕ → Option ℕ
  infoStatus : ℕ → UInt8
  ops : ℕ → Op

/-- What stops the kernel: a panic, a store through the null pointer, or a loop without end. -/
inductive Halt where
  | freeDesc1
  | freeDesc2
  | intrStatus
  | nullBuf
  | endless
  deriving DecidableEq

def allocDesc (d : Disk) : Option (ℕ × Disk) :=
  ((List.range num).find? d.free).map (fun i => (i, { d with free := update d.free i false }))

def freeDesc (d : Disk) (i : ℕ) : Except Halt Disk :=
  if num ≤ i then .error .freeDesc1
  else if d.free i = true then .error .freeDesc2
  else .ok { d with
    desc := update d.desc i Desc.zero
    free := update d.free i true }

/-- Each turn frees a descriptor that was not free or panics, so that `num+1` turns are enough. -/
def freeChain : ℕ → ℕ → Disk → Except Halt Disk
  | 0, _, _ => .error .endless
  | fuel+1, i, d => match freeDesc d i with
    | .error e => .error e
    | .ok d' => if (d.desc i).flags &&& descNext ≠ 0 then freeChain fuel (d.desc i).next d' else .ok d'

def alloc3Loop : ℕ → List ℕ → Disk → Except Halt (Option (List ℕ) × Disk)
  | 0, idx, d => .ok (some idx, d)
  | k+1, idx, d => match allocDesc d with
    | none => (idx.foldlM freeDesc d).map (fun d' => (none, d'))
    | some (i, d') => alloc3Loop k (idx ++ [i]) d'

def alloc3Desc (d : Disk) : Except Halt (Option (List ℕ) × Disk) := alloc3Loop 3 [] d

structure Call where
  id : ℕ
  b : ℕ
  blockno : BitVec 32
  write : Bool
  deriving DecidableEq

-- b->blockno * (BSIZE / 512) is computed in 32 bits
def Call.sector (c : Call) : BitVec 64 := (c.blockno*2).setWidth 64

structure Chain where
  call : Call
  i0 : ℕ
  i1 : ℕ
  i2 : ℕ
  deriving DecidableEq

def Chain.idx (k : Chain) : List ℕ := [k.i0, k.i1, k.i2]

/-- virtio_disk_rw from the allocation to the entry in the avail ring. -/
def Disk.format (d : Disk) (k : Chain) : Disk := { d with
    ops := update d.ops k.i0 ⟨if k.call.write then blkOut else blkIn, 0, k.call.sector⟩
    desc := update (update (update d.desc k.i0 ⟨.op k.i0, 16, descNext, k.i1⟩)
      k.i1 ⟨.data k.call.b, 1024, (if k.call.write then 0 else descWrite) ||| descNext, k.i2⟩)
      k.i2 ⟨.status k.i0, 1, descWrite, 0⟩
    infoStatus := update d.infoStatus k.i0 0xff
    infoB := update d.infoB k.i0 (some k.call.b)
    availRing := update d.availRing (Ring.cell num d.availIdx) k.i0 }

/-- Where a process is: not in virtio_disk_rw; before the allocation; behind it, with the lock and
before the increment of avail->idx; in the loop that waits for the device. -/
inductive Pc where
  | idle
  | waiting (c : Call)
  | filled (k : Chain)
  | asleep (k : Chain)
  deriving DecidableEq

def Pc.chain : Pc → Option Chain
  | .filled k => some k
  | .asleep k => some k
  | _ => none

def Pc.call : Pc → Option Call
  | .idle => none
  | .waiting c => some c
  | .filled k => some k.call
  | .asleep k => some k.call

inductive Lock where
  | free
  | proc (p : ℕ)
  | intr
  deriving DecidableEq

/-- What the device makes of a chain: the transfer, and where the status goes. -/
structure Request where
  write : Bool
  sector : BitVec 64
  b : ℕ
  status : ℕ
  deriving DecidableEq

/-- A chain that the device has taken from the avail ring: which one that was, and what the device
has found. -/
structure Work where
  posted : Option Chain
  head : ℕ
  request : Option Request
  deriving DecidableEq

/-- A chain as the device expects it: the command, the data and the status, in three descriptors. -/
def readChain (d : Disk) (h : ℕ) : Option Request :=
  match (d.desc h).addr, (d.desc (d.desc h).next).addr, (d.desc (d.desc (d.desc h).next).next).addr with
  | .op i, .data b, .status j =>
    if (d.desc h).len = 16 ∧ (d.desc h).flags = descNext ∧ ((d.ops i).type = blkIn ∨ (d.ops i).type = blkOut) ∧
        (d.desc (d.desc h).next).len = 1024 ∧
        (d.desc (d.desc h).next).flags = (if (d.ops i).type = blkOut then 0 else descWrite) ||| descNext ∧
        (d.desc (d.desc (d.desc h).next).next).len = 1 ∧
        (d.desc (d.desc (d.desc h).next).next).flags = descWrite
    then some ⟨decide ((d.ops i).type = blkOut), (d.ops i).sector, b, j⟩ else none
  | _, _, _ => none

/-- The driver, the device and the processes. `flag b` is b->disk, `taken` is how far the device has
got in the avail ring and `work` what it is busy with. Beside these stand the number of calls, the
chains in the order they were made available, the transfers in the order of completion, the buffers
whose flag virtio_disk_intr has cleared, and the calls that have returned. -/
structure Sys where
  disk : Disk
  flag : ℕ → Bool
  pcs : ℕ → Pc
  lock : Lock
  halt : Option Halt
  taken : BitVec 16
  work : List Work
  calls : ℕ
  published : List Chain
  completed : List Work
  cleared : List ℕ
  returned : List Call

def Sys.init (flag : ℕ → Bool) : Sys :=
  { disk := ⟨fun _ => Desc.zero, 0, fun _ => 0, 0, fun _ => 0, fun i => decide (i < num), 0,
      fun _ => none, fun _ => 0, fun _ => ⟨0, 0, 0⟩⟩
    flag, pcs := fun _ => .idle, lock := .free, halt := none, taken := 0, work := [], calls := 0
    published := [], completed := [], cleared := [], returned := [] }

/-- virtio_disk_rw from the call of alloc3_desc to the entry in the avail ring, or to the sleep. -/
def Sys.alloc (s : Sys) (p : ℕ) (c : Call) : Sys :=
  match alloc3Desc s.disk with
  | .ok (some [i0, i1, i2], d) => { s with
      disk := d.format ⟨c, i0, i1, i2⟩
      flag := update s.flag c.b true
      pcs := update s.pcs p (.filled ⟨c, i0, i1, i2⟩)
      lock := .proc p }
  | .ok (_, d) => { s with disk := d }
  | .error e => { s with halt := some e }

/-- virtio_disk_rw from the test of b->disk to the sleep, or to its end. -/
def Sys.await (s : Sys) (p : ℕ) (k : Chain) : Sys :=
  if s.flag k.call.b = true then
    { s with pcs := update s.pcs p (.asleep k), lock := .free }
  else
    match freeChain (num+1) k.i0 { s.disk with infoB := update s.disk.infoB k.i0 none } with
    | .ok d => { s with
        disk := d
        pcs := update s.pcs p .idle
        lock := .free
        returned := s.returned ++ [k.call] }
    | .error e => { s with halt := some e }

def Sys.publish (s : Sys) (k : Chain) : Sys := { s with
    disk := { s.disk with availIdx := s.disk.availIdx+1 }
    published := s.published ++ [k] }

/-- A turn of the loop of virtio_disk_intr. -/
def Sys.intrTurn (s : Sys) : Sys :=
  if s.disk.seenIdx = s.disk.usedIdx then { s with lock := .free }
  else if s.disk.infoStatus (s.disk.usedRing (Ring.cell num s.disk.seenIdx)) ≠ 0 then
    { s with halt := some .intrStatus }
  else match s.disk.infoB (s.disk.usedRing (Ring.cell num s.disk.seenIdx)) with
    | none => { s with halt := some .nullBuf }
    | some b => { s with
        flag := update s.flag b false
        disk := { s.disk with seenIdx := s.disk.seenIdx+1 }
        cleared := s.cleared ++ [b] }

def Sys.take (s : Sys) : Sys := { s with
    taken := s.taken+1
    work := s.work ++ [⟨s.published[s.work.length+s.completed.length]?,
      s.disk.availRing (Ring.cell num s.taken), readChain s.disk (s.disk.availRing (Ring.cell num s.taken))⟩] }

/-- The device has done the transfer, writes the status 0 and appends to the used ring. -/
def Sys.complete (s : Sys) (n : ℕ) (w : Work) (r : Request) : Sys := { s with
    work := s.work.eraseIdx n
    completed := s.completed ++ [w]
    disk := { s.disk with
      infoStatus := update s.disk.infoStatus r.status 0
      usedRing := update s.disk.usedRing (Ring.cell num s.disk.usedIdx) w.head
      usedIdx := s.disk.usedIdx+1 } }

inductive Event where
  | call (p b : ℕ) (blockno : BitVec 32) (write : Bool)
  | alloc (p : ℕ)
  | publish (p : ℕ)
  | wake (p : ℕ)
  | intr
  | intrTurn
  | take
  | complete (n : ℕ)

def step (s : Sys) (e : Event) : Option Sys :=
  if s.halt ≠ none then none
  else match e with
  | .call p b blockno write =>
    if s.pcs p = .idle then some { s with
      pcs := update s.pcs p (.waiting ⟨s.calls, b, blockno, write⟩)
      calls := s.calls+1 }
    else none
  | .alloc p => match s.pcs p with
    | .waiting c => if s.lock = .free then some (s.alloc p c) else none
    | _ => none
  | .publish p => match s.pcs p with
    | .filled k => if s.lock = .proc p then some ((s.publish k).await p k) else none
    | _ => none
  | .wake p => match s.pcs p with
    | .asleep k => if s.lock = .free then some (s.await p k) else none
    | _ => none
  | .intr => if s.lock = .free then some { s with lock := .intr } else none
  | .intrTurn => if s.lock = .intr then some s.intrTurn else none
  | .take => if s.taken = s.disk.availIdx then none else some s.take
  | .complete n => match s.work[n]? with
    | some ⟨posted, head, some r⟩ => some (s.complete n ⟨posted, head, some r⟩ r)
    | _ => none

end Xv6.Virtio
