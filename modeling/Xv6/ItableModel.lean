import Xv6.StoreTrunc
import Xv6.Runs

/-! The inode table of kernel/fs.c under concurrent calls. Each step is a section that holds
itable.lock, or a piece of work on the fields that ip->lock protects; iput gives itable.lock up
while it frees an inode. The on-disk inodes are what bread returns for them. -/
namespace Xv6.Itable

open Function
open Store (Dinode)

abbrev Slot := Fin Dir.ninode

instance : NeZero Dir.ninode := ⟨by decide⟩

abbrev Key := ℕ × ℕ

/-- How far iput has got with an inode without links: itrunc empties the copy and writes it
back, then the type is cleared and written back. -/
inductive Stage where
  | trunc | truncated | emptied | typed | released
  deriving DecidableEq

/-- ip->lock and what its holder is about: ilock reading the inode, a caller of ilock that has or
has not changed fields since its last iupdate, or iput freeing the inode. -/
inductive Lock where
  | free
  | loading (p : ℕ)
  | held (p : ℕ) (dirty : Bool)
  | freeing (p : ℕ) (stage : Stage)
  deriving DecidableEq

structure Entry where
  key : Key
  ref : ℕ
  valid : Bool
  din : Dinode
  lock : Lock

/-- Beside the table and the disk: the references that processes have to each entry, the calls of
iput that have yet to take itable.lock again, and how often each inode was allocated by ialloc and
freed by iput. -/
structure Sys where
  tab : Slot → Entry
  disk : Key → Dinode
  refs : Slot → ℕ
  finishing : Slot → ℕ
  allocs : Key → ℕ
  frees : Key → ℕ

inductive Event where
  | ialloc (key : Key) (type : Int16)
  | iget (key : Key)
  | idup (k : Slot)
  | ilock (p : ℕ) (k : Slot)
  | load (k : Slot)
  | setFields (k : Slot) (x : Dinode)
  | iupdate (k : Slot)
  | iunlock (p : ℕ) (k : Slot)
  | iput (p : ℕ) (k : Slot)
  | advance (k : Slot)
  | finish (k : Slot)

def Sys.set (s : Sys) (k : Slot) (e : Entry) : Sys := { s with tab := update s.tab k e }

def Sys.find (s : Sys) (key : Key) : Option Slot :=
  (List.finRange Dir.ninode).find? (fun k => decide (0 < (s.tab k).ref ∧ (s.tab k).key = key))

def Sys.empty (s : Sys) : Option Slot := (List.finRange Dir.ninode).find? (fun k => decide ((s.tab k).ref = 0))

def Sys.addRef (s : Sys) (k : Slot) : Sys := { s with refs := update s.refs k (s.refs k+1) }

def iget (s : Sys) (key : Key) : Option Sys :=
  match s.find key with
  | some k => some ((s.set k { s.tab k with ref := (s.tab k).ref+1 }).addRef k)
  | none => match s.empty with
    | some k => some ((s.set k { s.tab k with key := key, ref := 1, valid := false }).addRef k)
    | none => none

/-- The turn of the loop of ialloc that finds a free inode; its call of iget is a step of its
own. -/
def ialloc (s : Sys) (key : Key) (type : Int16) : Option Sys :=
  if type ≠ 0 ∧ (s.disk key).type = 0 then
    some { s with
      disk := update s.disk key (Store.dinodeZero type)
      allocs := update s.allocs key (s.allocs key+1) }
  else none

def idup (s : Sys) (k : Slot) : Option Sys :=
  if 0 < s.refs k then some ((s.set k { s.tab k with ref := (s.tab k).ref+1 }).addRef k) else none

def ilock (s : Sys) (p : ℕ) (k : Slot) : Option Sys :=
  if 0 < s.refs k ∧ 1 ≤ (s.tab k).ref ∧ (s.tab k).lock = .free then
    some (s.set k { s.tab k with lock := if (s.tab k).valid then .held p false else .loading p })
  else none

def load (s : Sys) (k : Slot) : Option Sys :=
  match (s.tab k).lock with
  | .loading p =>
    if (s.disk (s.tab k).key).type = 0 then none
    else some (s.set k { s.tab k with
      valid := true, din := s.disk (s.tab k).key, lock := .held p false })
  | _ => none

def setFields (s : Sys) (k : Slot) (x : Dinode) : Option Sys :=
  match (s.tab k).lock with
  | .held p _ => some (s.set k { s.tab k with
      din := { x with type := (s.tab k).din.type }, lock := .held p true })
  | _ => none

def Sys.writeBack (s : Sys) (k : Slot) : Sys := { s with disk := update s.disk (s.tab k).key (s.tab k).din }

def iupdate (s : Sys) (k : Slot) : Option Sys :=
  match (s.tab k).lock with
  | .held p _ => some ((s.writeBack k).set k { s.tab k with lock := .held p false })
  | _ => none

def iunlock (s : Sys) (p : ℕ) (k : Slot) : Option Sys :=
  match (s.tab k).lock with
  | .held q _ =>
    if p = q ∧ 1 ≤ (s.tab k).ref then some (s.set k { s.tab k with lock := .free }) else none
  | _ => none

def Lock.users : Lock → ℕ
  | .loading _ => 1
  | .held _ _ => 1
  | _ => 0

def Sys.dropRef (s : Sys) (k : Slot) : Sys := { s with refs := update s.refs k (s.refs k-1) }

def Entry.last (e : Entry) : Prop := e.ref = 1 ∧ e.valid = true ∧ e.din.nlink = 0

instance (e : Entry) : Decidable e.last := inferInstanceAs (Decidable (_ ∧ _ ∧ _))

/-- iput of a reference that nobody needs any more, up to where it gives itable.lock up. -/
def iput (s : Sys) (p : ℕ) (k : Slot) : Option Sys :=
  if s.refs k ≤ (s.tab k).lock.users then none
  else if (s.tab k).last then
    -- acquiresleep
    if (s.tab k).lock = .free then
      some ((s.set k { s.tab k with lock := .freeing p .trunc }).dropRef k)
    else none
  else some ((s.set k { s.tab k with ref := (s.tab k).ref-1 }).dropRef k)

/-- The next statement of iput while it holds ip->lock; itrunc is one, and its iupdate another. -/
def advance (s : Sys) (k : Slot) : Option Sys :=
  match (s.tab k).lock with
  | .freeing p .trunc => some (s.set k { s.tab k with
      din := (s.tab k).din.empty, lock := .freeing p .truncated })
  | .freeing p .truncated => some ((s.writeBack k).set k { s.tab k with lock := .freeing p .emptied })
  | .freeing p .emptied => some (s.set k { s.tab k with
      din := { (s.tab k).din with type := 0 }, lock := .freeing p .typed })
  | .freeing p .typed => some { (s.writeBack k).set k { s.tab k with lock := .freeing p .released } with
      frees := update s.frees (s.tab k).key (s.frees (s.tab k).key+1) }
  | .freeing _ .released => some { s.set k { s.tab k with valid := false, lock := .free } with
      finishing := update s.finishing k (s.finishing k+1) }
  | _ => none

def finish (s : Sys) (k : Slot) : Option Sys :=
  if s.finishing k = 0 then none
  else some { s.set k { s.tab k with ref := (s.tab k).ref-1 } with
    finishing := update s.finishing k (s.finishing k-1) }

def step (s : Sys) : Event → Option Sys
  | .ialloc key type => ialloc s key type
  | .iget key => iget s key
  | .idup k => idup s k
  | .ilock p k => ilock s p k
  | .load k => load s k
  | .setFields k x => setFields s k x
  | .iupdate k => iupdate s k
  | .iunlock p k => iunlock s p k
  | .iput p k => iput s p k
  | .advance k => advance s k
  | .finish k => finish s k

/-- Fields that live on disk are written back before the inode is unlocked. -/
def writesBack (s : Sys) : Event → Bool
  | .iunlock p k => decide ((s.tab k).lock ≠ .held p true)
  | _ => true

def init (disk : Key → Dinode) : Sys where
  tab := fun _ => ⟨(0, 0), 0, false, Store.dinodeZero 0, .free⟩
  disk := disk
  refs := fun _ => 0
  finishing := fun _ => 0
  allocs := fun _ => 0
  frees := fun _ => 0

end Xv6.Itable
