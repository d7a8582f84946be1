import Xv6.Hoare

/-! Directories, link counts and inode references: the inode layer of kernel/fs.c above
block allocation, path lookup, and the system calls of kernel/sysfile.c on names. A
directory is the list of its entries; the contents of files are left out. System calls run
to completion, without locks. -/
namespace Xv6.Dir
open Hoare

def rootIno : ℕ := 1
def ninode : ℕ := 50
def nofile : ℕ := 16
def nfile : ℕ := 100
def ndev : ℤ := 10
def dirSiz : ℕ := 14
def maxPath : ℕ := 128
-- MAXFILE*BSIZE/sizeof(struct dirent)
def maxEntries : ℕ := 268*1024/16

abbrev Name := List UInt8

def slash : UInt8 := 47
def dot : Name := [46]
def dotdot : Name := [46, 46]

/-- A name is kept without its padding: the bytes before the first NUL, at most DIRSIZ. -/
structure Dirent where
  inum : ℕ
  name : Name
  deriving DecidableEq

inductive IType where
  | free | dir | file | device
  deriving DecidableEq

structure Dinode where
  type : IType
  major : ℤ
  minor : ℤ
  nlink : ℤ
  ents : List Dirent
  deriving DecidableEq

structure Proc where
  cwd : Option ℕ
  ofile : List (Option ℕ)
  deriving DecidableEq

/-- The inodes on disk, the inode table (`ref` and `valid` of the entry for an inode number
and the number of entries in use), the size of the file table, and the processes. An entry
of the file table has one descriptor, which holds its inode. -/
structure Fs where
  inodes : ℕ → Dinode
  ref : ℕ → ℕ
  valid : ℕ → Bool
  nslots : ℕ
  nfiles : ℕ
  procs : List Proc

inductive Panic where
  | igetNoInodes | ilock | ilockNoType | iunlock | iallocNoInodes | dirlookupNotDir
  | dirlink | unlinkNlink | createDots | createDirlink
  deriving DecidableEq

abbrev M := Prog Fs Panic

def short (x : ℤ) : ℤ := (x+32768)%65536-32768

def update (i : ℕ) (f : Dinode → Dinode) : M Unit :=
  modify fun s => { s with inodes := Function.update s.inodes i (f (s.inodes i)) }

def dinode (i : ℕ) : M Dinode := do return (← get).inodes i

def addLinks (k : ℤ) (d : Dinode) : Dinode := { d with nlink := short (d.nlink+k) }

def setRef (i n : ℕ) (s : Fs) : Fs := { s with ref := Function.update s.ref i n }

def iget (i : ℕ) : M Unit := do
  let s ← get
  if s.ref i > 0 then modify (setRef i (s.ref i+1))
  else if s.nslots ≥ ninode then throw .igetNoInodes
  else modify fun s =>
    { setRef i 1 s with valid := Function.update s.valid i false, nslots := s.nslots+1 }

def idup (i : ℕ) : M Unit := modify fun s => setRef i (s.ref i+1) s

def ilock (i : ℕ) : M Unit := do
  let s ← get
  if s.ref i < 1 then throw .ilock
  else if s.valid i then pure ()
  else do
    modify fun s => { s with valid := Function.update s.valid i true }
    if (s.inodes i).type = .free then throw .ilockNoType else pure ()

def iunlock (i : ℕ) : M Unit := do
  let s ← get
  if s.ref i < 1 then throw .iunlock else pure ()

-- itrunc and type 0
def freed (d : Dinode) : Dinode := { d with type := .free, ents := [] }

def freeUnlinked (i : ℕ) : M Unit := do
  let s ← get
  if s.ref i = 1 ∧ s.valid i = true ∧ (s.inodes i).nlink = 0 then do
    update i freed
    modify fun s => { s with valid := Function.update s.valid i false }
  else pure ()

def iput (i : ℕ) : M Unit := do
  freeUnlinked i
  modify fun s =>
    { setRef i (s.ref i-1) s with nslots := if s.ref i = 1 then s.nslots-1 else s.nslots }

def iunlockput (i : ℕ) : M Unit := do
  iunlock i
  iput i

def freeInum (ninodes : ℕ) (inodes : ℕ → Dinode) : Option ℕ :=
  (List.range' 1 (ninodes-1)).find? (fun i => decide ((inodes i).type = .free))

def ialloc (ninodes : ℕ) (type : IType) : M ℕ := do
  let s ← get
  match freeInum ninodes s.inodes with
  | none => throw .iallocNoInodes
  | some i => do
    update i (fun _ => ⟨type, 0, 0, 0, []⟩)
    iget i
    return i

def findName (name : Name) (ents : List Dirent) : Option ℕ :=
  ents.findIdx? (fun e => decide (e.inum ≠ 0) && decide (e.name = name))

def slot (ents : List Dirent) (k : ℕ) : Dirent := ents.getD k ⟨0, []⟩

def dirlookup (dp : ℕ) (name : Name) : M (Option (ℕ × ℕ)) := do
  let d ← dinode dp
  if d.type ≠ .dir then throw .dirlookupNotDir
  else match findName name d.ents with
    | none => return none
    | some k => do
      iget (slot d.ents k).inum
      return some ((slot d.ents k).inum, k)

def addEntry (e : Dirent) (ents : List Dirent) : List Dirent :=
  match ents.findIdx? (fun e => decide (e.inum = 0)) with
  | some k => ents.set k e
  | none => ents ++ [e]

def dirlink (dp : ℕ) (name : Name) (inum : ℕ) : M Bool := do
  match ← dirlookup dp name with
  | some (i, _) => do
    iput i
    return false
  | none => do
    let d ← dinode dp
    let ents := addEntry ⟨inum%65536, name⟩ d.ents
    if ents.length > maxEntries then throw .dirlink
    else do
      update dp (fun d => { d with ents := ents })
      return true

-- Path elements as skipelem delivers them, with what is left of the path.
def skipelem (path : List UInt8) : Option (Name × List UInt8) :=
  match path.dropWhile (fun c => decide (c = slash)) with
  | [] => none
  | c :: cs =>
    some (((c :: cs).takeWhile (fun c => decide (c ≠ slash))).take dirSiz,
      ((c :: cs).dropWhile (fun c => decide (c ≠ slash))).dropWhile (fun c => decide (c = slash)))

def elemsLoop : ℕ → List UInt8 → List Name
  | 0, _ => []
  | fuel+1, path => match skipelem path with
    | none => []
    | some (name, rest) => name :: elemsLoop fuel rest

def elems (path : List UInt8) : List Name := elemsLoop (path.length+1) path

/-- The loop of namex over the path elements; it stops one level early for a parent. -/
def namexLoop (parent : Bool) (ip : ℕ) : List Name → M (Option (ℕ × Name))
  | [] => if parent then do
      iput ip
      return none
    else return some (ip, [])
  | name :: rest => do
    ilock ip
    let d ← dinode ip
    if d.type ≠ .dir then do
      iunlockput ip
      return none
    else if parent ∧ rest = [] then do
      iunlock ip
      return some (ip, name)
    else do
      match ← dirlookup ip name with
      | none => do
        iunlockput ip
        return none
      | some (next, _) => do
        iunlockput ip
        namexLoop parent next rest

def cwdOf (procs : List Proc) (p : ℕ) : ℕ := ((procs[p]?).bind Proc.cwd).getD 0

def namexStart (p : ℕ) (path : List UInt8) : M ℕ := do
  if path.head? = some slash then do
    iget rootIno
    return rootIno
  else do
    let s ← get
    idup (cwdOf s.procs p)
    return cwdOf s.procs p

def namex (p : ℕ) (parent : Bool) (path : List UInt8) : M (Option (ℕ × Name)) := do
  let ip ← namexStart p path
  namexLoop parent ip (elems path)

def namei (p : ℕ) (path : List UInt8) : M (Option (ℕ × Name)) := namex p false path

def nameiparent (p : ℕ) (path : List UInt8) : M (Option (ℕ × Name)) := namex p true path

-- The entries "." and ".." of a new directory.
def makeDots (dp ip : ℕ) : M Unit := do
  update dp (addLinks 1)
  if ← dirlink ip dot ip then do
    if ← dirlink ip dotdot dp then pure () else throw .createDots
  else throw .createDots

def fillNew (type : IType) (dp ip : ℕ) : M Unit :=
  if type = .dir then makeDots dp ip else pure ()

def createNew (ninodes dp : ℕ) (name : Name) (type : IType) (major minor : ℤ) : M ℕ := do
  let ip ← ialloc ninodes type
  ilock ip
  update ip (fun d => { d with major := major, minor := minor, nlink := 1 })
  fillNew type dp ip
  if ← dirlink dp name ip then do
    iunlockput dp
    return ip
  else throw .createDirlink

def create (ninodes p : ℕ) (path : List UInt8) (type : IType) (major minor : ℤ) : M (Option ℕ) := do
  match ← nameiparent p path with
  | none => return none
  | some (dp, name) => do
    ilock dp
    match ← dirlookup dp name with
    | some (ip, _) => do
      iunlockput dp
      ilock ip
      let d ← dinode ip
      if type = .file ∧ (d.type = .file ∨ d.type = .device) then return some ip
      else do
        iunlockput ip
        return none
    | none => do
      let ip ← createNew ninodes dp name type major minor
      return some ip

/-- The string that argstr fetches, or `none` if it is too long. -/
def argstr (path : List UInt8) : Option (List UInt8) :=
  let str := path.takeWhile (fun c => decide (c ≠ 0))
  if str.length ≥ maxPath then none else some str

def linkBad (ip : ℕ) : M Bool := do
  ilock ip
  update ip (addLinks (-1))
  iunlockput ip
  return false

def linkInto (p ip : ℕ) (new : List UInt8) : M Bool := do
  match ← nameiparent p new with
  | none => linkBad ip
  | some (dp, name) => do
    ilock dp
    if ← dirlink dp name ip then do
      iunlockput dp
      iput ip
      return true
    else do
      iunlockput dp
      linkBad ip

def sysLink (p : ℕ) (old new : List UInt8) : M Bool := do
  match argstr old, argstr new with
  | some old, some new => do
    match ← namei p old with
    | none => return false
    | some (ip, _) => do
      ilock ip
      let d ← dinode ip
      if d.type = .dir then do
        iunlockput ip
        return false
      else do
        update ip (addLinks 1)
        iunlock ip
        linkInto p ip new
  | _, _ => return false

-- The loop starts behind the two slots where "." and ".." are.
def isdirempty (d : Dinode) : Bool := (d.ents.drop 2).all (fun e => decide (e.inum = 0))

-- A removed directory takes the link of its ".." along.
def dropDotdot (type : IType) (dp : ℕ) : M Unit :=
  if type = .dir then update dp (addLinks (-1)) else pure ()

def unlinkEntry (dp ip k : ℕ) (d : Dinode) : M Unit := do
  update dp (fun d => { d with ents := d.ents.set k ⟨0, []⟩ })
  dropDotdot d.type dp
  iunlockput dp
  update ip (addLinks (-1))
  iunlockput ip

def sysUnlink (p : ℕ) (path : List UInt8) : M Bool := do
  match argstr path with
  | none => return false
  | some path => do
    match ← nameiparent p path with
    | none => return false
    | some (dp, name) => do
      ilock dp
      if name = dot ∨ name = dotdot then do
        iunlockput dp
        return false
      else do
        match ← dirlookup dp name with
        | none => do
          iunlockput dp
          return false
        | some (ip, k) => do
          ilock ip
          let d ← dinode ip
          if d.nlink < 1 then throw .unlinkNlink
          else if d.type = .dir ∧ isdirempty d = false then do
            iunlockput ip
            iunlockput dp
            return false
          else do
            unlinkEntry dp ip k d
            return true

def ofileOf (procs : List Proc) (p : ℕ) : List (Option ℕ) := ((procs[p]?).map Proc.ofile).getD []

def setProc (p : ℕ) (f : Proc → Proc) (s : Fs) : Fs := { s with procs := s.procs.modify p f }

-- sys_open without O_CREATE, up to the locked inode
def openExisting (p : ℕ) (path : List UInt8) (omode : BitVec 32) : M (Option ℕ) := do
  match ← namei p path with
  | none => return none
  | some (ip, _) => do
    ilock ip
    let d ← dinode ip
    if d.type = .dir ∧ omode ≠ 0 then do
      iunlockput ip
      return none
    else return some ip

def openFile (p ip : ℕ) : M Bool := do
  let s ← get
  match (ofileOf s.procs p).findIdx? Option.isNone with
  | some fd =>
    if s.nfiles ≥ nfile then do
      iunlockput ip
      return false
    else do
      modify fun s => { setProc p (fun q => { q with ofile := q.ofile.set fd (some ip) }) s with
        nfiles := s.nfiles+1 }
      iunlock ip
      return true
  | none => do
    iunlockput ip
    return false

def oCreate : BitVec 32 := 0x200

def sysOpen (ninodes p : ℕ) (path : List UInt8) (omode : BitVec 32) : M Bool := do
  match argstr path with
  | none => return false
  | some path => do
    match ← (if omode &&& oCreate ≠ 0 then create ninodes p path .file 0 0
      else openExisting p path omode) with
    | none => return false
    | some ip => do
      let d ← dinode ip
      if d.type = .device ∧ (d.major < 0 ∨ d.major ≥ ndev) then do
        iunlockput ip
        return false
      else openFile p ip

-- sys_mkdir and sys_mknod
def sysCreate (ninodes p : ℕ) (path : List UInt8) (type : IType) (major minor : ℤ) : M Bool := do
  match argstr path with
  | none => return false
  | some path => do
    match ← create ninodes p path type (short major) (short minor) with
    | none => return false
    | some ip => do
      iunlockput ip
      return true

def sysChdir (p : ℕ) (path : List UInt8) : M Bool := do
  match argstr path with
  | none => return false
  | some path => do
    match ← namei p path with
    | none => return false
    | some (ip, _) => do
      ilock ip
      let d ← dinode ip
      if d.type ≠ .dir then do
        iunlockput ip
        return false
      else do
        iunlock ip
        let s ← get
        iput (cwdOf s.procs p)
        modify (setProc p (fun q => { q with cwd := some ip }))
        return true

def fileclose (i : ℕ) : M Unit := do
  modify fun s => { s with nfiles := s.nfiles-1 }
  iput i

def fileAt (procs : List Proc) (p fd : ℕ) : Option ℕ := ((ofileOf procs p)[fd]?).getD none

def clearFd (p fd : ℕ) : Fs → Fs := setProc p (fun q => { q with ofile := q.ofile.set fd none })

def sysClose (p fd : ℕ) : M Bool := do
  let s ← get
  match fileAt s.procs p fd with
  | none => return false
  | some i => do
    modify (clearFd p fd)
    fileclose i
    return true

def exitFd (p fd : ℕ) : M Unit := do
  let s ← get
  match fileAt s.procs p fd with
  | none => pure ()
  | some i => do
    fileclose i
    modify (clearFd p fd)

def exitFiles (p : ℕ) : List ℕ → M Unit
  | [] => pure ()
  | fd :: fds => do
    exitFd p fd
    exitFiles p fds

def exit (p : ℕ) : M Bool := do
  exitFiles p (List.range nofile)
  let s ← get
  iput (cwdOf s.procs p)
  modify (setProc p (fun q => { q with cwd := none }))
  return true

inductive Call where
  | openFile (path : List UInt8) (omode : BitVec 32)
  | mkdir (path : List UInt8)
  | mknod (path : List UInt8) (major minor : ℤ)
  | link (old new : List UInt8)
  | unlink (path : List UInt8)
  | chdir (path : List UInt8)
  | close (fd : ℕ)
  | exit

structure Event where
  proc : ℕ
  call : Call

def syscall (ninodes : ℕ) (e : Event) : M Bool :=
  match e.call with
  | .openFile path omode => sysOpen ninodes e.proc path omode
  | .mkdir path => sysCreate ninodes e.proc path .dir 0 0
  | .mknod path major minor => sysCreate ninodes e.proc path .device major minor
  | .link old new => sysLink e.proc old new
  | .unlink path => sysUnlink e.proc path
  | .chdir path => sysChdir e.proc path
  | .close fd => sysClose e.proc fd
  | .exit => exit e.proc

def alive (procs : List Proc) (p : ℕ) : Bool := ((procs[p]?).bind Proc.cwd).isSome

def step (ninodes : ℕ) (s : Fs) (e : Event) : Option Fs :=
  if alive s.procs e.proc then
    match syscall ninodes e s with
    | .ok (_, t) => some t
    | .error _ => none
  else none

/-- An image with `nproc` processes in its root directory, whose inode the first of them
has locked in its exec. -/
def boot (image : ℕ → Dinode) (nproc : ℕ) : Fs where
  inodes := image
  ref := fun i => if i = rootIno then nproc else 0
  valid := fun i => decide (i = rootIno)
  nslots := min nproc 1
  nfiles := 0
  procs := List.replicate nproc ⟨some rootIno, List.replicate nofile none⟩

end Xv6.Dir
