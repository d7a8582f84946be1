import Xv6.Bytes
import Xv6.DirModel

/-! The block layer of kernel/fs.c: the bitmap, the inodes packed into blocks, their in-memory
copies, the contents of files and directories as bytes, and the operations of kernel/sysfile.c
on them. A block is what bread returns for it. -/
namespace Xv6.Store
open Bytes Hoare

def bsize : ℕ := 1024
def ndirect : ℕ := 12
def nindirect : ℕ := bsize/4
def maxFile : ℕ := ndirect+nindirect
def ipb : ℕ := bsize/64
def bpb : ℕ := bsize*8
def direntSize : ℕ := 16

abbrev Block := ByteMem

scoped instance neZero13 : NeZero 13 := ⟨by decide⟩

scoped instance neZero256 : NeZero 256 := ⟨by decide⟩

structure Superblock where
  size : ℕ
  nblocks : ℕ
  ninodes : ℕ
  inodestart : ℕ
  bmapstart : ℕ

-- The data blocks are the last nblocks blocks.
def Superblock.datastart (sb : Superblock) : ℕ := sb.size-sb.nblocks

def Superblock.iblock (sb : Superblock) (i : ℕ) : ℕ := i/ipb+sb.inodestart
def Superblock.bblock (sb : Superblock) (b : ℕ) : ℕ := b/bpb+sb.bmapstart

def tDir : Int16 := 1
def tFile : Int16 := 2
def tDevice : Int16 := 3

structure Dinode where
  type : Int16
  major : Int16
  minor : Int16
  nlink : Int16
  size : UInt32
  addrs : Fin 13 → UInt32
  deriving DecidableEq

def shortBytes (x : Int16) : List UInt8 := leBytes 2 x.toUInt16.toNat
def uintBytes (x : UInt32) : List UInt8 := leBytes 4 x.toNat

def shortOf (bs : List UInt8) : Int16 := (UInt16.ofNat (leNat bs)).toInt16
def uintOf (bs : List UInt8) : UInt32 := UInt32.ofNat (leNat bs)

def Dinode.bytes (x : Dinode) : List UInt8 :=
  shortBytes x.type ++ shortBytes x.major ++ shortBytes x.minor ++ shortBytes x.nlink ++
    uintBytes x.size ++ (List.finRange 13).flatMap (fun k => uintBytes (x.addrs k))

def Dinode.ofBytes (bs : List UInt8) : Dinode where
  type := shortOf (bs.take 2)
  major := shortOf ((bs.drop 2).take 2)
  minor := shortOf ((bs.drop 4).take 2)
  nlink := shortOf ((bs.drop 6).take 2)
  size := uintOf ((bs.drop 8).take 4)
  addrs := fun k => uintOf ((bs.drop (12+4*k)).take 4)

def getDinode (blk : Block) (i : ℕ) : Dinode := Dinode.ofBytes (load blk (64*(i%ipb)) 64)

-- The fields of struct dinode fill its 64 bytes.
def putDinode (blk : Block) (i : ℕ) (x : Dinode) : Block := store blk (64*(i%ipb)) x.bytes

def word (blk : Block) (j : ℕ) : UInt32 := uintOf (load blk (4*j) 4)
def setWord (blk : Block) (j : ℕ) (x : UInt32) : Block := store blk (4*j) (uintBytes x)

def bitSet (blk : Block) (bi : ℕ) : Bool := (blk (bi/8)).toNat.testBit (bi%8)

def setBit (blk : Block) (bi : ℕ) : Block := Function.update blk (bi/8) (blk (bi/8) ||| UInt8.ofNat (2^(bi%8)))

def clearBit (blk : Block) (bi : ℕ) : Block := Function.update blk (bi/8) (blk (bi/8) &&& ~~~UInt8.ofNat (2^(bi%8)))

/-- The entry of the inode table for an inode number: ref, valid and the copy of the dinode. -/
structure Incore where
  ref : ℕ
  valid : Bool
  din : Dinode

structure Core where
  blocks : ℕ → Block
  itab : ℕ → Incore

/-- The number of entries of the inode table in use, and for each call of balloc the state that
it found and the block that it returned. -/
structure Fs extends Core where
  nslots : ℕ
  allocs : List (Core × ℕ)

inductive Panic where
  | ballocOutOfBlocks | freeingFreeBlock | bmapOutOfRange | igetNoInodes | ilock | ilockNoType
  | iunlock | iallocNoInodes | dirlookupNotDir | dirlookupRead | dirlinkRead | dirlink
  | unlinkNlink | isdiremptyReadi | unlinkWritei | createDots | createDirlink
  deriving DecidableEq

abbrev M := Prog Fs Panic

def bread (b : ℕ) : M Block := do return (← get).blocks b

/-- The buffer of block `b` gets new contents and goes to the log. -/
def logWrite (b : ℕ) (data : Block) : M Unit :=
  modify fun s => { s with blocks := Function.update s.blocks b data }

def bzero (b : ℕ) : M Unit := logWrite b (fun _ => 0)

-- The two loops of balloc visit the block numbers below sb.size in order.
def firstFree (sb : Superblock) (blocks : ℕ → Block) : Option ℕ :=
  (List.range sb.size).find? (fun b => !bitSet (blocks (sb.bblock b)) (b%bpb))

def balloc (sb : Superblock) : M ℕ := do
  let s ← get
  match firstFree sb s.blocks with
  | none => throw .ballocOutOfBlocks
  | some b => do
    modify fun s => { s with allocs := s.allocs ++ [(s.toCore, b)] }
    logWrite (sb.bblock b) (setBit (s.blocks (sb.bblock b)) (b%bpb))
    bzero b
    return b

def bfree (sb : Superblock) (b : ℕ) : M Unit := do
  let blk ← bread (sb.bblock b)
  if bitSet blk (b%bpb) then logWrite (sb.bblock b) (clearBit blk (b%bpb))
  else throw .freeingFreeBlock

def incore (i : ℕ) : M Dinode := do return ((← get).itab i).din

def setItab (i : ℕ) (f : Incore → Incore) : M Unit :=
  modify fun s => { s with itab := Function.update s.itab i (f (s.itab i)) }

def setIncore (i : ℕ) (f : Dinode → Dinode) : M Unit := setItab i (fun e => { e with din := f e.din })

def setAddr (k : Fin 13) (x : UInt32) (d : Dinode) : Dinode := { d with addrs := Function.update d.addrs k x }

def iupdate (sb : Superblock) (i : ℕ) : M Unit := do
  let blk ← bread (sb.iblock i)
  logWrite (sb.iblock i) (putDinode blk i (← incore i))

def iget (i : ℕ) : M Unit := do
  let s ← get
  if (s.itab i).ref > 0 then setItab i (fun e => { e with ref := e.ref+1 })
  else if s.nslots ≥ Dir.ninode then throw .igetNoInodes
  else do
    modify fun s => { s with nslots := s.nslots+1 }
    setItab i (fun e => { e with ref := 1, valid := false })

def idup (i : ℕ) : M Unit := setItab i (fun e => { e with ref := e.ref+1 })

def dinodeZero (type : Int16) : Dinode := ⟨type, 0, 0, 0, 0, fun _ => 0⟩

def freeInum (sb : Superblock) (blocks : ℕ → Block) : Option ℕ := (List.range' 1 (sb.ninodes-1)).find?
    (fun i => decide ((getDinode (blocks (sb.iblock i)) i).type = 0))

def ialloc (sb : Superblock) (type : Int16) : M ℕ := do
  let s ← get
  match freeInum sb s.blocks with
  | none => throw .iallocNoInodes
  | some i => do
    logWrite (sb.iblock i) (putDinode (s.blocks (sb.iblock i)) i (dinodeZero type))
    iget i
    return i

def loadInode (sb : Superblock) (i : ℕ) : M Unit := do
  let blk ← bread (sb.iblock i)
  setItab i (fun e => { e with valid := true, din := getDinode blk i })
  if (getDinode blk i).type = 0 then throw .ilockNoType else pure ()

def ilock (sb : Superblock) (i : ℕ) : M Unit := do
  let s ← get
  if (s.itab i).ref < 1 then throw .ilock
  else if (s.itab i).valid then pure ()
  else loadInode sb i

def iunlock (i : ℕ) : M Unit := do
  let s ← get
  if (s.itab i).ref < 1 then throw .iunlock else pure ()

def addrSlot (sb : Superblock) (i : ℕ) (k : Fin 13) : M ℕ := do
  let d ← incore i
  if d.addrs k = 0 then do
    let b ← balloc sb
    setIncore i (setAddr k (UInt32.ofNat b))
    return b
  else return (d.addrs k).toNat

def indirectEntry (sb : Superblock) (ind j : ℕ) : M ℕ := do
  let blk ← bread ind
  if word blk j = 0 then do
    let b ← balloc sb
    let blk ← bread ind
    logWrite ind (setWord blk j (UInt32.ofNat b))
    return b
  else return (word blk j).toNat

def bmap (sb : Superblock) (i bn : ℕ) : M ℕ :=
  if bn < ndirect then addrSlot sb i (Fin.ofNat 13 bn)
  else if bn-ndirect < nindirect then do
    let ind ← addrSlot sb i 12
    indirectEntry sb ind (bn-ndirect)
  else throw .bmapOutOfRange

def truncSlot (sb : Superblock) (i : ℕ) (k : Fin 13) : M Unit := do
  let d ← incore i
  if d.addrs k ≠ 0 then do
    bfree sb (d.addrs k).toNat
    setIncore i (setAddr k 0)
  else pure ()

def truncSlots (sb : Superblock) (i : ℕ) : List (Fin 13) → M Unit
  | [] => pure ()
  | k :: ks => do
    truncSlot sb i k
    truncSlots sb i ks

def truncEntry (sb : Superblock) (blk : Block) (j : ℕ) : M Unit :=
  if word blk j ≠ 0 then bfree sb (word blk j).toNat else pure ()

def truncEntries (sb : Superblock) (blk : Block) : List ℕ → M Unit
  | [] => pure ()
  | j :: js => do
    truncEntry sb blk j
    truncEntries sb blk js

def truncIndirect (sb : Superblock) (i : ℕ) : M Unit := do
  let d ← incore i
  if d.addrs 12 ≠ 0 then do
    let blk ← bread (d.addrs 12).toNat
    truncEntries sb blk (List.range nindirect)
    bfree sb (d.addrs 12).toNat
    setIncore i (setAddr 12 0)
  else pure ()

def itrunc (sb : Superblock) (i : ℕ) : M Unit := do
  truncSlots sb i ((List.finRange 13).filter (fun k => decide (k.val < ndirect)))
  truncIndirect sb i
  setIncore i (fun d => { d with size := 0 })
  iupdate sb i

def freeUnlinked (sb : Superblock) (i : ℕ) : M Unit := do
  let s ← get
  if (s.itab i).ref = 1 ∧ (s.itab i).valid = true ∧ (s.itab i).din.nlink = 0 then do
    itrunc sb i
    setIncore i (fun d => { d with type := 0 })
    iupdate sb i
    setItab i (fun e => { e with valid := false })
  else pure ()

def iput (sb : Superblock) (i : ℕ) : M Unit := do
  freeUnlinked sb i
  modify fun s => { s with nslots := if (s.itab i).ref = 1 then s.nslots-1 else s.nslots }
  setItab i (fun e => { e with ref := e.ref-1 })

def iunlockput (sb : Superblock) (i : ℕ) : M Unit := do
  iunlock i
  iput sb i

/-- The loop of readi with `n` bytes left; `ok` tells which addresses can be written to. -/
def readiLoop (sb : Superblock) (i : ℕ) (ok : ℕ → Bool) : ℕ → ℕ → ℕ → ℕ → List UInt8 → M (Option (List UInt8))
  | 0, _, _, _, acc => return some acc
  | fuel+1, dst, off, n, acc =>
    if n = 0 then return some acc
    else do
      let b ← bmap sb i (off/bsize)
      let blk ← bread b
      let m := min n (bsize-off%bsize)
      if (List.range m).all (fun k => ok (dst+k))
      then readiLoop sb i ok fuel (dst+m) (off+m) (n-m) (acc ++ load blk (off%bsize) m)
      else return none

def readi (sb : Superblock) (i : ℕ) (ok : ℕ → Bool) (dst off n : ℕ) : M (Option (List UInt8)) := do
  let d ← incore i
  if off > d.size.toNat ∨ (off+n)%2^32 < off then return some []
  else do
    let n := if off+n > d.size.toNat then d.size.toNat-off else n
    readiLoop sb i ok n dst off n []

/-- either_copyin from memory with unmapped addresses: the bytes before the first of them. -/
def copyin (mem : ℕ → Option UInt8) (src m : ℕ) : List UInt8 :=
  ((List.range m).map (fun k => mem (src+k))).takeWhile Option.isSome |>.filterMap id

/-- The loop of writei with `n` bytes left; it returns the offset that it has reached. After a
failed copy the buffer keeps the bytes that were copied. -/
def writeiLoop (sb : Superblock) (i : ℕ) (mem : ℕ → Option UInt8) : ℕ → ℕ → ℕ → ℕ → M ℕ
  | 0, _, off, _ => return off
  | fuel+1, src, off, n =>
    if n = 0 then return off
    else do
      let b ← bmap sb i (off/bsize)
      let blk ← bread b
      let m := min n (bsize-off%bsize)
      logWrite b (store blk (off%bsize) (copyin mem src m))
      if (copyin mem src m).length = m
      then writeiLoop sb i mem fuel (src+m) (off+m) (n-m)
      else return off

def writei (sb : Superblock) (i : ℕ) (mem : ℕ → Option UInt8) (src off n : ℕ) : M (Option ℕ) := do
  let d ← incore i
  if off > d.size.toNat ∨ (off+n)%2^32 < off then return none
  else if (off+n)%2^32 > maxFile*bsize then return none
  else do
    let fin ← writeiLoop sb i mem n src off n
    setIncore i (fun d => if fin > d.size.toNat then { d with size := UInt32.ofNat fin } else d)
    iupdate sb i
    return some (fin-off)

def kernelMem (bs : List UInt8) : ℕ → Option UInt8 := fun k => some (bs.getD k 0)

def direntInum (bs : List UInt8) : ℕ := leNat (bs.take 2)
def direntName (bs : List UInt8) : Dir.Name := (bs.drop 2).takeWhile (fun c => decide (c ≠ 0))

-- strncpy pads the name with zeros
def direntBytes (inum : ℕ) (name : Dir.Name) : List UInt8 :=
  leBytes 2 inum ++ (name ++ List.replicate Dir.dirSiz 0).take Dir.dirSiz

def readDirent (sb : Superblock) (dp off : ℕ) (p : Panic) : M (List UInt8) := do
  match ← readi sb dp (fun _ => true) 0 off direntSize with
  | none => throw p
  | some de => if de.length ≠ direntSize then throw p else return de

def dirlookupLoop (sb : Superblock) (dp : ℕ) (name : Dir.Name) : ℕ → ℕ → M (Option (ℕ × ℕ))
  | 0, _ => return none
  | fuel+1, off => do
    let de ← readDirent sb dp off .dirlookupRead
    if direntInum de ≠ 0 ∧ direntName de = name then do
      iget (direntInum de)
      return some (direntInum de, off)
    else dirlookupLoop sb dp name fuel (off+direntSize)

def slots (d : Dinode) : ℕ := (d.size.toNat+(direntSize-1))/direntSize

def dirlookup (sb : Superblock) (dp : ℕ) (name : Dir.Name) : M (Option (ℕ × ℕ)) := do
  let d ← incore dp
  if d.type ≠ tDir then throw .dirlookupNotDir
  else dirlookupLoop sb dp name (slots d) 0

def emptySlot (sb : Superblock) (dp : ℕ) : ℕ → ℕ → M ℕ
  | 0, off => return off
  | fuel+1, off => do
    let de ← readDirent sb dp off .dirlinkRead
    if direntInum de = 0 then return off
    else emptySlot sb dp fuel (off+direntSize)

def dirlink (sb : Superblock) (dp : ℕ) (name : Dir.Name) (inum : ℕ) : M Bool := do
  match ← dirlookup sb dp name with
  | some (i, _) => do
    iput sb i
    return false
  | none => do
    let d ← incore dp
    let off ← emptySlot sb dp (slots d) 0
    match ← writei sb dp (kernelMem (direntBytes inum name)) 0 off direntSize with
    | none => throw .dirlink
    | some n => if n ≠ direntSize then throw .dirlink else return true

def namexLoop (sb : Superblock) (parent : Bool) (ip : ℕ) : List Dir.Name → M (Option (ℕ × Dir.Name))
  | [] => if parent then do
      iput sb ip
      return none
    else return some (ip, [])
  | name :: rest => do
    ilock sb ip
    let d ← incore ip
    if d.type ≠ tDir then do
      iunlockput sb ip
      return none
    else if parent ∧ rest = [] then do
      iunlock ip
      return some (ip, name)
    else do
      match ← dirlookup sb ip name with
      | none => do
        iunlockput sb ip
        return none
      | some (next, _) => do
        iunlockput sb ip
        namexLoop sb parent next rest

def namexStart (cwd : ℕ) (path : List UInt8) : M ℕ :=
  if path.head? = some Dir.slash then do
    iget Dir.rootIno
    return Dir.rootIno
  else do
    idup cwd
    return cwd

def namex (sb : Superblock) (parent : Bool) (cwd : ℕ) (path : List UInt8) : M (Option (ℕ × Dir.Name)) := do
  let ip ← namexStart cwd path
  namexLoop sb parent ip (Dir.elems path)

def makeDots (sb : Superblock) (dp ip : ℕ) : M Unit := do
  setIncore dp (fun d => { d with nlink := d.nlink+1 })
  iupdate sb dp
  if ← dirlink sb ip Dir.dot ip then do
    if ← dirlink sb ip Dir.dotdot dp then pure () else throw .createDots
  else throw .createDots

def fillNew (sb : Superblock) (type : Int16) (dp ip : ℕ) : M Unit :=
  if type = tDir then makeDots sb dp ip else pure ()

def createNew (sb : Superblock) (dp : ℕ) (name : Dir.Name) (type major minor : Int16) : M ℕ := do
  let ip ← ialloc sb type
  ilock sb ip
  setIncore ip (fun d => { d with major := major, minor := minor, nlink := 1 })
  iupdate sb ip
  fillNew sb type dp ip
  if ← dirlink sb dp name ip then do
    iunlockput sb dp
    return ip
  else throw .createDirlink

def create (sb : Superblock) (cwd : ℕ) (path : List UInt8) (type major minor : Int16) : M (Option ℕ) := do
  match ← namex sb true cwd path with
  | none => return none
  | some (dp, name) => do
    ilock sb dp
    match ← dirlookup sb dp name with
    | some (ip, _) => do
      iunlockput sb dp
      ilock sb ip
      let d ← incore ip
      if type = tFile ∧ (d.type = tFile ∨ d.type = tDevice) then return some ip
      else do
        iunlockput sb ip
        return none
    | none => do
      let ip ← createNew sb dp name type major minor
      return some ip

def isdiremptyLoop (sb : Superblock) (dp : ℕ) : ℕ → ℕ → M Bool
  | 0, _ => return true
  | fuel+1, off => do
    let de ← readDirent sb dp off .isdiremptyReadi
    if direntInum de ≠ 0 then return false
    else isdiremptyLoop sb dp fuel (off+direntSize)

-- The loop starts behind "." and "..".
def isdirempty (sb : Superblock) (dp : ℕ) : M Bool := do
  let d ← incore dp
  isdiremptyLoop sb dp (slots d-2) (2*direntSize)

-- A removed directory takes the link of its ".." along.
def dropDotdot (sb : Superblock) (type : Int16) (dp : ℕ) : M Unit :=
  if type = tDir then do
    setIncore dp (fun d => { d with nlink := d.nlink-1 })
    iupdate sb dp
  else pure ()

def clearDirent (sb : Superblock) (dp off : ℕ) : M Unit := do
  match ← writei sb dp (kernelMem (List.replicate direntSize 0)) 0 off direntSize with
  | none => throw .unlinkWritei
  | some n => if n ≠ direntSize then throw .unlinkWritei else pure ()

def unlinkEntry (sb : Superblock) (dp ip off : ℕ) : M Unit := do
  clearDirent sb dp off
  let d ← incore ip
  dropDotdot sb d.type dp
  iunlockput sb dp
  setIncore ip (fun d => { d with nlink := d.nlink-1 })
  iupdate sb ip
  iunlockput sb ip

def removable (sb : Superblock) (ip : ℕ) : M Bool := do
  let d ← incore ip
  if d.nlink < 1 then throw .unlinkNlink
  else if d.type = tDir then isdirempty sb ip
  else return true

def unlink (sb : Superblock) (cwd : ℕ) (path : List UInt8) : M Bool := do
  match ← namex sb true cwd path with
  | none => return false
  | some (dp, name) => do
    ilock sb dp
    if name = Dir.dot ∨ name = Dir.dotdot then do
      iunlockput sb dp
      return false
    else do
      match ← dirlookup sb dp name with
      | none => do
        iunlockput sb dp
        return false
      | some (ip, off) => do
        ilock sb ip
        if ← removable sb ip then do
          unlinkEntry sb dp ip off
          return true
        else do
          iunlockput sb ip
          iunlockput sb dp
          return false

/-- An operation on inodes that the caller holds references to. A file is written to only
through a descriptor that is open for writing, which a directory never is; dirlink and unlink
write to directories. -/
inductive Op where
  | readi (i : ℕ) (ok : ℕ → Bool) (dst : ℕ) (off n : UInt32)
  | writei (i : ℕ) (mem : ℕ → Option UInt8) (src : ℕ) (off n : UInt32)
  | itrunc (i : ℕ)
  | dirlink (dp : ℕ) (name : Dir.Name) (inum : ℕ)
  | namei (cwd : ℕ) (path : List UInt8)
  | create (cwd : ℕ) (path : List UInt8) (type major minor : Int16)
  | unlink (cwd : ℕ) (path : List UInt8)
  | iput (i : ℕ)

def Op.enabled (sb : Superblock) (s : Fs) : Op → Bool
  | .readi i _ _ _ _ => decide (0 < (s.itab i).ref)
  | .writei i _ _ _ _ => decide (0 < (s.itab i).ref ∧
      (getDinode (s.blocks (sb.iblock i)) i).type ≠ tDir)
  | .itrunc i => decide (0 < (s.itab i).ref)
  | .dirlink dp _ inum => decide (0 < (s.itab dp).ref ∧ inum < sb.ninodes)
  | .namei cwd _ => decide (0 < (s.itab cwd).ref)
  | .create cwd _ type _ _ => decide (0 < (s.itab cwd).ref ∧
      (type = tDir ∨ type = tFile ∨ type = tDevice))
  | .unlink cwd _ => decide (0 < (s.itab cwd).ref)
  | .iput i => decide (0 < (s.itab i).ref)

def locked {α : Type} (sb : Superblock) (i : ℕ) (x : M α) : M Unit := do
  ilock sb i
  let _ ← x
  iunlock i

def Op.run (sb : Superblock) : Op → M Unit
  | .readi i ok dst off n => locked sb i (Store.readi sb i ok dst off.toNat n.toNat)
  | .writei i mem src off n => locked sb i (Store.writei sb i mem src off.toNat n.toNat)
  | .itrunc i => locked sb i (Store.itrunc sb i)
  | .dirlink dp name inum => locked sb dp (Store.dirlink sb dp name inum)
  | .namei cwd path => do
    let _ ← namex sb false cwd path
    pure ()
  | .create cwd path type major minor => do
    let _ ← Store.create sb cwd path type major minor
    pure ()
  | .unlink cwd path => do
    let _ ← Store.unlink sb cwd path
    pure ()
  | .iput i => Store.iput sb i

def step (sb : Superblock) (s : Fs) (op : Op) : Option Fs :=
  if op.enabled sb s then
    match op.run sb s with
    | .ok (_, t) => some t
    | .error _ => none
  else none

/-- Nothing is cached but the root directory's entry of the inode table, which the first
process refers to. -/
def boot (image : ℕ → Block) : Fs where
  blocks := image
  itab := fun i => ⟨if i = Dir.rootIno then 1 else 0, false, dinodeZero 0⟩
  nslots := 1
  allocs := []

end Xv6.Store
