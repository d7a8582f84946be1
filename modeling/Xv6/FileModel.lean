import Xv6.VmProc
import Xv6.Runs

/-! Open files: the table of kernel/file.c, the descriptors of the processes and the two ends of a
pipe. Pointers are numbers, 0 for a null pointer. What the file system and the memory answer is given
with each call; kalloc does not return a page that holds a pipe. -/
namespace Xv6.Ftable
open Function Hoare Runs
open Vm (Panic ProcState nproc)

abbrev nfile : ℕ := 100
abbrev nofile : ℕ := 16
def ndev : ℤ := 10

inductive FdType where
  | none
  | pipe
  | inode
  | device
  deriving DecidableEq

structure File where
  type : FdType
  ref : ℕ
  readable : Bool
  writable : Bool
  pipe : ℕ
  ip : ℕ
  off : ℕ
  major : ℤ

/-- struct pipe, as far as its ends. -/
structure Pipe where
  readopen : Bool
  writeopen : Bool
  deriving DecidableEq

/-- The open files. Beside the code's own data stand the pages that hold a pipe, and those that
pipealloc has taken and pipeclose has freed so far. -/
structure Files where
  ftable : Fin nfile → File
  ofile : Fin nproc → Fin nofile → ℕ
  pipe : ℕ → Pipe
  pipes : List ℕ
  allocated : List ℕ
  freed : List ℕ

abbrev M := Prog Files Panic

def ptr (k : Fin nfile) : ℕ := k.val+1

def entry (f : ℕ) : Option (Fin nfile) := (List.finRange nfile).find? (fun k => ptr k = f)

def Files.setFile (s : Files) (k : Fin nfile) (f : File) : Files := { s with ftable := update s.ftable k f }

def Files.setFd (s : Files) (p : Fin nproc) (fd : Fin nofile) (f : ℕ) : Files :=
  { s with ofile := update s.ofile p (update (s.ofile p) fd f) }

def filealloc : M ℕ := do
  let s ← get
  match (List.finRange nfile).find? (fun k => (s.ftable k).ref = 0) with
  | none => return 0
  | some k => do
    set (s.setFile k { s.ftable k with ref := 1 })
    return ptr k

def filedup (f : ℕ) : M Unit := do
  let s ← get
  match entry f with
  | none => throw .kerneltrap
  | some k =>
    if (s.ftable k).ref < 1 then throw .filedup
    else set (s.setFile k { s.ftable k with ref := (s.ftable k).ref+1 })

def Pipe.close (pi : Pipe) (writable : Bool) : Pipe :=
  if writable then { pi with writeopen := false } else { pi with readopen := false }

def pipeclose (pi : ℕ) (writable : Bool) : M Unit := do
  let s ← get
  let ends := (s.pipe pi).close writable
  let t := { s with pipe := update s.pipe pi ends }
  if ends.readopen = false ∧ ends.writeopen = false then
    -- kfree
    set { t with pipes := t.pipes.erase pi, freed := t.freed ++ [pi] }
  else set t

/-- fileclose. An inode or a device is given to iput, which is not part of this model. -/
def fileclose (f : ℕ) : M Unit := do
  let s ← get
  match entry f with
  | none => throw .kerneltrap
  | some k =>
    if (s.ftable k).ref < 1 then throw .fileclose
    else if (s.ftable k).ref-1 > 0 then set (s.setFile k { s.ftable k with ref := (s.ftable k).ref-1 })
    else do
      set (s.setFile k { s.ftable k with ref := 0, type := .none })
      if (s.ftable k).type = .pipe then pipeclose (s.ftable k).pipe (s.ftable k).writable
      else return ()

def fdalloc (p : Fin nproc) (f : ℕ) : M (Option (Fin nofile)) := do
  let s ← get
  match (List.finRange nofile).find? (fun fd => s.ofile p fd = 0) with
  | none => return none
  | some fd => do
    set (s.setFd p fd f)
    return some fd

def argfd (s : Files) (p : Fin nproc) (fd : ℤ) : Option (Fin nofile) :=
  (List.finRange nofile).find? (fun i => (i.val : ℤ) = fd ∧ s.ofile p i ≠ 0)

def sysDup (p : Fin nproc) (fd : ℤ) : M ℤ := do
  let s ← get
  match argfd s p fd with
  | none => return -1
  | some i => do
    let r ← fdalloc p (s.ofile p i)
    match r with
    | none => return -1
    | some j => do
      filedup (s.ofile p i)
      return j.val

def sysClose (p : Fin nproc) (fd : ℤ) : M ℤ := do
  let s ← get
  match argfd s p fd with
  | none => return -1
  | some i => do
    set (s.setFd p i 0)
    fileclose (s.ofile p i)
    return 0

/-- pipealloc up to kalloc: the two files, 0 for those that it has not got. -/
def pipeFiles : M (ℕ × ℕ) := do
  let f0 ← filealloc
  if f0 = 0 then return (0, 0)
  else do
    let f1 ← filealloc
    return (f0, f1)

def closeIf (f : ℕ) : M Unit := if f = 0 then return () else fileclose f

def asEnd (f : File) (pi : ℕ) (writable : Bool) : File :=
  { f with type := .pipe, readable := !writable, writable, pipe := pi }

/-- pipealloc from kalloc on, which has returned `pi`; whether it succeeds. -/
def pipeInit (f : ℕ × ℕ) (pi : ℕ) : M Bool := do
  let s ← get
  match entry f.1, entry f.2 with
  | some k0, some k1 =>
    if pi = 0 then do
      fileclose f.1
      fileclose f.2
      return false
    else do
      let t := s.setFile k0 (asEnd (s.ftable k0) pi false)
      let u := t.setFile k1 (asEnd (t.ftable k1) pi true)
      set { u with
        pipe := update u.pipe pi ⟨true, true⟩
        pipes := pi :: u.pipes
        allocated := u.allocated ++ [pi] }
      return true
  | _, _ => do
    closeIf f.1
    closeIf f.2
    return false

def pipeFds (p : Fin nproc) (f : ℕ × ℕ) : M (Option (Fin nofile × Fin nofile)) := do
  let fd0 ← fdalloc p f.1
  match fd0 with
  | none => do
    fileclose f.1
    fileclose f.2
    return none
  | some fd0 => do
    let fd1 ← fdalloc p f.2
    match fd1 with
    | none => do
      modify (fun s => s.setFd p fd0 0)
      fileclose f.1
      fileclose f.2
      return none
    | some fd1 => return some (fd0, fd1)

def pipeUndo (p : Fin nproc) (f : ℕ × ℕ) (fds : Fin nofile × Fin nofile) : M Unit := do
  modify (fun s => (s.setFd p fds.1 0).setFd p fds.2 0)
  fileclose f.1
  fileclose f.2

/-- sys_pipe. The page that kalloc returns is `pi`, and `copied` says whether both copyouts succeed. -/
def sysPipe (p : Fin nproc) (pi : ℕ) (copied : Bool) : M ℤ := do
  let f ← pipeFiles
  let ok ← pipeInit f pi
  if ok = false then return -1
  else do
    let fds ← pipeFds p f
    match fds with
    | none => return -1
    | some fds =>
      if copied then return 0
      else do
        pipeUndo p f fds
        return -1

def oRdonly : BitVec 32 := 0
def oWronly : BitVec 32 := 1
def oRdwr : BitVec 32 := 2
def oCreate : BitVec 32 := 0x200

inductive InodeType where
  | dir
  | file
  | device
  deriving DecidableEq

structure Inode where
  addr : ℕ
  type : InodeType
  major : ℤ

def asOpen (f : File) (ip : Inode) (omode : BitVec 32) : File := { f with
    type := if ip.type = .device then .device else .inode
    major := if ip.type = .device then ip.major else f.major
    off := if ip.type = .device then f.off else 0
    ip := ip.addr
    readable := decide (omode &&& oWronly = 0)
    writable := decide (omode &&& oWronly ≠ 0 ∨ omode &&& oRdwr ≠ 0) }

/-- sys_open; there is no inode if the path cannot be read, found or created. -/
def sysOpen (p : Fin nproc) (omode : BitVec 32) (ip : Option Inode) : M ℤ :=
  match ip with
  | none => return -1
  | some ip =>
    if omode &&& oCreate = 0 ∧ ip.type = .dir ∧ omode ≠ oRdonly then return -1
    else if ip.type = .device ∧ (ip.major < 0 ∨ ip.major ≥ ndev) then return -1
    else do
      let f ← filealloc
      match entry f with
      | none => return -1
      | some k => do
        let fd ← fdalloc p f
        match fd with
        | none => do
          fileclose f
          return -1
        | some fd => do
          modify (fun s => s.setFile k (asOpen (s.ftable k) ip omode))
          return fd.val

def forkFd (p c : Fin nproc) (fd : Fin nofile) : M Unit := do
  let s ← get
  if s.ofile p fd = 0 then return ()
  else do
    filedup (s.ofile p fd)
    modify (fun t => t.setFd c fd (s.ofile p fd))

def forkFiles (p c : Fin nproc) : M Unit := (List.finRange nofile).forM (forkFd p c)

def exitFd (p : Fin nproc) (fd : Fin nofile) : M Unit := do
  let s ← get
  if s.ofile p fd = 0 then return ()
  else do
    fileclose (s.ofile p fd)
    modify (fun t => t.setFd p fd 0)

def exitFiles (p : Fin nproc) : M Unit := (List.finRange nofile).forM (exitFd p)

structure Sys where
  files : Files
  state : Fin nproc → ProcState
  initproc : Fin nproc

/-- The calls, with the answers of the rest of the kernel: `ip` is what the path leads to, `pi` what
kalloc returns, `copied` whether copyout succeeds, and `ok` whether fork gets its memory. -/
inductive Event where
  | open (p : Fin nproc) (omode : BitVec 32) (ip : Option Inode)
  | dup (p : Fin nproc) (fd : ℤ)
  | pipe (p : Fin nproc) (pi : ℕ) (copied : Bool)
  | close (p : Fin nproc) (fd : ℤ)
  | fork (p : Fin nproc) (ok : Bool)
  | exec (p : Fin nproc)
  | exit (p : Fin nproc)
  | wait (p c : Fin nproc)

def Event.proc : Event → Fin nproc
  | .open p _ _ => p
  | .dup p _ => p
  | .pipe p _ _ => p
  | .close p _ => p
  | .fork p _ => p
  | .exec p => p
  | .exit p => p
  | .wait p _ => p

def Running (st : ProcState) : Prop := st ≠ .unused ∧ st ≠ .zombie

instance (st : ProcState) : Decidable (Running st) := inferInstanceAs (Decidable (_ ∧ _))

def Sys.apply {α : Type} (s : Sys) (x : M α) : Except Panic Sys := (x s.files).map (fun r => { s with files := r.2 })

def Sys.setState (s : Sys) (p : Fin nproc) (st : ProcState) : Sys := { s with state := update s.state p st }

/-- fork with its memory: the child is in the first unused slot. -/
def fork (s : Sys) (p : Fin nproc) : Except Panic Sys :=
  match (List.finRange nproc).find? (fun c => s.state c = .unused) with
  | none => .ok s
  | some c => (s.apply (forkFiles p c)).map (fun t => t.setState c .runnable)

def exit (s : Sys) (p : Fin nproc) : Except Panic Sys :=
  if p = s.initproc then .error .initExiting
  else (s.apply (exitFiles p)).map (fun t => t.setState p .zombie)

/-- A call, or nothing if it cannot be made. After a panic there are no calls. -/
def step (x : Except Panic Sys) (e : Event) : Option (Except Panic Sys) :=
  match x with
  | .error _ => none
  | .ok s =>
    if ¬Running (s.state e.proc) then none
    else match e with
    | .open p omode ip => some (s.apply (sysOpen p omode ip))
    | .dup p fd => some (s.apply (sysDup p fd))
    | .pipe p pi copied => if pi ∈ s.files.pipes then none else some (s.apply (sysPipe p pi copied))
    | .close p fd => some (s.apply (sysClose p fd))
    | .fork p ok => some (if ok then fork s p else .ok s)
    | .exec _ => some (.ok s)
    | .exit p => some (exit s p)
    | .wait _ c => if s.state c = .zombie then some (.ok (s.setState c .unused)) else none

def Files.init : Files :=
  { ftable := fun _ => ⟨.none, 0, false, false, 0, 0, 0, 0⟩
    ofile := fun _ _ => 0, pipe := fun _ => ⟨false, false⟩, pipes := [], allocated := [], freed := [] }

def Sys.init (p : Fin nproc) : Sys :=
  { files := Files.init, state := fun q => if q = p then .runnable else .unused, initproc := p }

end Xv6.Ftable
