import Xv6.VmProc
import Xv6.StoreArray

/-! exec of kernel/exec.c and sys_exec of kernel/sysfile.c. The file is the contents of its inode, which
is locked while it is read. -/
namespace Xv6.Exec
open Hoare Vm Bytes

def maxarg : ℕ := 32
def maxpath : ℕ := 128
def elfMagic : ℕ := 0x464C457F
def elfProgLoad : ℕ := 1

def maxsize : ℕ := (Store.ndirect+Store.nindirect)*Store.bsize

structure Inode where
  data : List UInt8
  size_le : data.length ≤ maxsize

/-- What exec calls in the file system. namei takes a reference to the inode that it finds. -/
inductive FsCall where
  | beginOp
  | namei (found : Bool)
  | ilock
  | iunlockput
  | endOp
  deriving DecidableEq

structure Sys where
  ram : Ram
  calls : List FsCall

abbrev Kernel := Prog Sys Panic

def onRam {α : Type} (x : M α) : Kernel α := fun s =>
  match x s.ram with
  | .ok (a, t) => .ok (a, { s with ram := t })
  | .error e => .error e

def call (c : FsCall) : Kernel Unit := modify (fun s => { s with calls := s.calls ++ [c] })

def readi (data : List UInt8) (off n : ℕ) : List UInt8 :=
  if off > data.length ∨ (off+n)%2^32 < off then [] else (data.drop off).take n

def field (bs : List UInt8) (off len : ℕ) : ℕ := leNat ((bs.drop off).take len)

structure ElfHdr where
  magic : ℕ
  entry : ℕ
  phoff : ℕ
  phnum : ℕ

def elfhdrSize : ℕ := 64

def elfhdr (bs : List UInt8) : ElfHdr := ⟨field bs 0 4, field bs 24 8, field bs 32 8, field bs 56 2⟩

def Inode.header (ip : Inode) : ElfHdr := elfhdr (readi ip.data 0 elfhdrSize)

structure ProgHdr where
  type : ℕ
  off : ℕ
  vaddr : ℕ
  filesz : ℕ
  memsz : ℕ
  deriving DecidableEq

def proghdrSize : ℕ := 56

def proghdr (bs : List UInt8) : ProgHdr := ⟨field bs 0 4, field bs 8 8, field bs 16 8, field bs 32 8, field bs 40 8⟩

/-- The loop of loadseg. The index is a uint: if it wraps around, the loop does not end. -/
def loadLoop (pagetable va : ℕ) (data : List UInt8) (offset sz : ℕ) : ℕ → ℕ → M ℤ
  | 0, _ => throw .hang
  | fuel+1, i =>
    if i < sz then do
      let pa ← walkaddr pagetable ((va+i)%2^64)
      if pa = 0 then throw .loadsegAddress
      else do
        let n := if sz-i < pgsize then sz-i else pgsize
        let bs := readi data ((offset+i)%2^32) n
        memmove pa bs
        if bs.length ≠ n then return -1
        else loadLoop pagetable va data offset sz fuel ((i+pgsize)%2^32)
    else return 0

/-- loadseg, which takes the offset and the size as uints. -/
def loadseg (pagetable va : ℕ) (data : List UInt8) (offset sz : ℕ) : M ℤ :=
  if va%pgsize ≠ 0 then throw .loadsegAligned
  else loadLoop pagetable va data (offset%2^32) (sz%2^32) (sz%2^32/pgsize+2) 0

/-- The loop of exec for a program header of type ELF_PROG_LOAD: whether it goes on, and sz. -/
def loadSegment (m : Machine) (pagetable : ℕ) (data : List UInt8) (ph : ProgHdr) (sz : ℕ) : M (Bool × ℕ) :=
  if ph.memsz < ph.filesz then return (false, sz)
  else if (ph.vaddr+ph.memsz)%2^64 < ph.vaddr then return (false, sz)
  else do
    let sz1 ← uvmalloc m pagetable sz ((ph.vaddr+ph.memsz)%2^64)
    if sz1 = 0 then return (false, sz)
    else if ph.vaddr%pgsize ≠ 0 then return (false, sz1)
    else do
      let r ← loadseg pagetable ph.vaddr data ph.off ph.filesz
      return (decide (0 ≤ r), sz1)

/-- The loop of exec with `n` program headers left, the next one at `off`. -/
def loadSegments (m : Machine) (pagetable : ℕ) (data : List UInt8) : ℕ → ℕ → ℕ → M (Bool × ℕ)
  | 0, _, sz => return (true, sz)
  | n+1, off, sz =>
    if (readi data off proghdrSize).length ≠ proghdrSize then return (false, sz)
    else if (proghdr (readi data off proghdrSize)).type ≠ elfProgLoad then
      loadSegments m pagetable data n ((off+proghdrSize)%2^32) sz
    else do
      let r ← loadSegment m pagetable data (proghdr (readi data off proghdrSize)) sz
      if r.1 then loadSegments m pagetable data n ((off+proghdrSize)%2^32) r.2 else return r

def stackPages (m : Machine) (pagetable sz : ℕ) : M (Bool × ℕ) := do
  let sz1 ← uvmalloc m pagetable (pgroundup sz) ((pgroundup sz+2*pgsize)%2^64)
  if sz1 = 0 then return (false, pgroundup sz)
  else do
    uvmclear pagetable ((sz1+(2^64-2*pgsize))%2^64)
    return (true, sz1)

def pushSp (sp n : ℕ) : ℕ := (sp+(2^64-n))%2^64-(sp+(2^64-n))%2^64%16

def pushStrings (pagetable stackbase : ℕ) : List (List UInt8) → ℕ → List ℕ → M (Option (ℕ × List ℕ))
  | [], sp, ustack => return some (sp, ustack)
  | a :: argv, sp, ustack =>
    if ustack.length ≥ maxarg then return none
    else if pushSp sp (a.length+1) < stackbase then return none
    else do
      let r ← copyout pagetable (pushSp sp (a.length+1)) (a ++ [0])
      if r < 0 then return none
      else pushStrings pagetable stackbase argv (pushSp sp (a.length+1)) (ustack ++ [pushSp sp (a.length+1)])

def pushArgv (pagetable sz : ℕ) (argv : List (List UInt8)) : M (Option ℕ) := do
  let r ← pushStrings pagetable ((sz+(2^64-pgsize))%2^64) argv sz []
  match r with
  | none => return none
  | some (sp, ustack) =>
    if pushSp sp (8*(argv.length+1)) < (sz+(2^64-pgsize))%2^64 then return none
    else do
      let r ← copyout pagetable (pushSp sp (8*(argv.length+1))) ((ustack ++ [0]).flatMap (leBytes 8))
      if r < 0 then return none else return some (pushSp sp (8*(argv.length+1)))

def lastPart (last : List UInt8) : List UInt8 → List UInt8
  | [] => last
  | c :: s => lastPart (if c = 47 then s else last) s

def progName (path : List UInt8) : List UInt8 := (lastPart path path).take 15

def resetHandlers (p : Proc) : Proc := { p with
    signalHandlers := fun j =>
      if p.signalHandlers j = sigIgn ∨ p.signalHandlers j = sigDfl then p.signalHandlers j else sigDfl
    sigMaskArray := fun j =>
      if p.signalHandlers j = sigIgn ∨ p.signalHandlers j = sigDfl then p.sigMaskArray j else 0 }

def frameEpc : Fin 512 := 3
def frameSp : Fin 512 := 6
def frameA1 : Fin 512 := 15

structure Bad where
  pagetable : ℕ
  sz : ℕ
  locked : Bool

def bad (m : Machine) (p : Proc) (b : Bad) : Kernel (ℤ × Proc) := do
  onRam (freeTableIf m b.pagetable b.sz)
  if b.locked then do
    call .iunlockput
    call .endOp
    return (-1, p)
  else return (-1, p)

structure Loaded where
  pagetable : ℕ
  sz : ℕ
  entry : ℕ

def load (m : Machine) (p : Proc) (ip : Inode) : Kernel (Except Bad Loaded) := do
  call .ilock
  if (readi ip.data 0 elfhdrSize).length ≠ elfhdrSize then return .error ⟨0, 0, true⟩
  else if ip.header.magic ≠ elfMagic then return .error ⟨0, 0, true⟩
  else do
    let pagetable ← onRam (procPagetable m p.trapframe)
    if pagetable = 0 then return .error ⟨0, 0, true⟩
    else do
      let image ← onRam (loadSegments m pagetable ip.data ip.header.phnum (ip.header.phoff%2^32) 0)
      if image.1 = false then return .error ⟨pagetable, image.2, true⟩
      else do
        call .iunlockput
        call .endOp
        let stack ← onRam (stackPages m pagetable image.2)
        if stack.1 = false then return .error ⟨pagetable, stack.2, false⟩
        else return .ok ⟨pagetable, stack.2, ip.header.entry⟩

def newProc (p : Proc) (path : List UInt8) (im : Loaded) : Proc :=
  { resetHandlers p with name := progName path, pagetable := im.pagetable, sz := im.sz }

def commit (m : Machine) (p : Proc) (path : List UInt8) (im : Loaded) (sp : ℕ) : M Proc := do
  writeWord p.trapframe frameA1 sp
  writeWord p.trapframe frameEpc im.entry
  writeWord p.trapframe frameSp sp
  procFreepagetable m p.pagetable p.sz
  return newProc p path im

def finish (m : Machine) (p : Proc) (path : List UInt8) (argv : List (List UInt8)) (im : Loaded) :
    Kernel (ℤ × Proc) := do
  let r ← onRam (pushArgv im.pagetable im.sz argv)
  match r with
  | none => bad m p ⟨im.pagetable, im.sz, false⟩
  | some sp => do
    let p' ← onRam (commit m p path im sp)
    return (argv.length, p')

def execInode (m : Machine) (p : Proc) (path : List UInt8) (ip : Inode) (argv : List (List UInt8)) :
    Kernel (ℤ × Proc) := do
  let r ← load m p ip
  match r with
  | .error b => bad m p b
  | .ok im => finish m p path argv im

/-- exec by the process `p`: its return value and the process after it. `file` is what namei finds at
the path. -/
def exec (m : Machine) (p : Proc) (path : List UInt8) (file : Option Inode) (argv : List (List UInt8)) :
    Kernel (ℤ × Proc) := do
  call .beginOp
  call (.namei file.isSome)
  match file with
  | none => do
    call .endOp
    return (-1, p)
  | some ip => execInode m p path ip argv

def fetchaddr (p : Proc) (addr : ℕ) : M (Option ℕ) :=
  if addr ≥ p.sz ∨ (addr+8)%2^64 > p.sz then return none
  else do
    let r ← copyin p.pagetable addr 8
    if r.1 ≠ 0 then return none else return some (leNat r.2)

/-- The loop of sys_exec, with `n` entries of argv left: the pages that it took, and the strings in them
if it came to the end of uargv. -/
def fetchArgv (p : Proc) (uargv : ℕ) : ℕ → List ℕ → List (List UInt8) → M (List ℕ × Option (List (List UInt8)))
  | 0, pages, _ => return (pages, none)
  | n+1, pages, argv => do
    let uarg ← fetchaddr p ((uargv+8*pages.length)%2^64)
    match uarg with
    | none => return (pages, none)
    | some uarg =>
      if uarg = 0 then return (pages, some argv)
      else do
        let page ← kalloc
        if page = 0 then return (pages, none)
        else do
          let r ← fetchstr p.pagetable uarg pgsize
          memmove page r.2
          if r.1 < 0 then return (pages ++ [page], none)
          else fetchArgv p uargv n (pages ++ [page]) (argv ++ [r.2.take (strlen r.2)])

/-- sys_exec; `files` is what namei finds at each path. -/
def sysExec (m : Machine) (p : Proc) (files : List UInt8 → Option Inode) : Kernel (ℤ × Proc) := do
  let upath ← onRam (readWord p.trapframe frameA0)
  let uargv ← onRam (readWord p.trapframe frameA1)
  let path ← onRam (fetchstr p.pagetable upath maxpath)
  if path.1 < 0 then return (-1, p)
  else do
    let args ← onRam (fetchArgv p uargv maxarg [] [])
    match args.2 with
    | none => do
      onRam (args.1.forM (kfree m))
      return (-1, p)
    | some argv => do
      let r ← exec m p (path.2.take (strlen path.2)) (files (path.2.take (strlen path.2))) argv
      onRam (args.1.forM (kfree m))
      return r

end Xv6.Exec
