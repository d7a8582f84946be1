import Xv6.VmKalloc

/-! The user page tables of kernel/vm.c and kernel/proc.c. Addresses and page table entries are
numbers below 2^64, and a pointer to an entry is its page and its index. -/
namespace Xv6.Vm
open Hoare

def pteV : ℕ := 1
def pteR : ℕ := 2
def pteW : ℕ := 4
def pteX : ℕ := 8
def pteU : ℕ := 16

def pa2pte (pa : ℕ) : ℕ := pa/2^12*2^10
def pte2pa (pte : ℕ) : ℕ := pte/2^10*2^12%2^64
def pteFlags (pte : ℕ) : ℕ := pte%2^10

def px (level va : ℕ) : Fin 512 := ⟨va/2^(12+9*level)%512, Nat.mod_lt _ (by decide)⟩

def maxva : ℕ := 2^38
def trampoline : ℕ := maxva-pgsize
def trapframe : ℕ := trampoline-pgsize

def signExtend (n : ℕ) : ℕ := if n%2^32 < 2^31 then n%2^32 else n%2^32+(2^64-2^32)

/-- The loop of walk, from a table of the given level down. -/
def walkFrom (va : ℕ) (alloc : Bool) : ℕ → ℕ → M (Option (ℕ × Fin 512))
  | 0, pagetable => return some (pagetable, px 0 va)
  | level+1, pagetable => do
    let pte ← readWord pagetable (px (level+1) va)
    if pte &&& pteV ≠ 0 then walkFrom va alloc level (pte2pa pte)
    else if alloc = false then return none
    else do
      let page ← kalloc
      if page = 0 then return none
      else do
        memset page 0
        writeWord pagetable (px (level+1) va) (pa2pte page ||| pteV)
        walkFrom va alloc level page

def walk (pagetable va : ℕ) (alloc : Bool) : M (Option (ℕ × Fin 512)) :=
  if va ≥ maxva then throw .walk else walkFrom va alloc 2 pagetable

def walkaddr (pagetable va : ℕ) : M ℕ :=
  if va ≥ maxva then return 0
  else do
    match ← walk pagetable va false with
    | none => return 0
    | some (page, i) => do
      let pte ← readWord page i
      if pte &&& pteV = 0 then return 0
      else if pte &&& pteU = 0 then return 0
      else return pte2pa pte

/-- One turn of the loop of mappages. -/
def mapPage (pagetable perm a pa : ℕ) : M Bool := do
  match ← walk pagetable a true with
  | none => return false
  | some (page, i) => do
    let pte ← readWord page i
    if pte &&& pteV ≠ 0 then throw .remap
    else do
      writeWord page i (pa2pte pa ||| perm ||| pteV)
      return true

/-- The loop of mappages with `n` pages after this one. -/
def mapLoop (pagetable perm : ℕ) : ℕ → ℕ → ℕ → M ℤ
  | 0, a, pa => do
    if ← mapPage pagetable perm a pa then return 0 else return -1
  | n+1, a, pa => do
    if ← mapPage pagetable perm a pa
    then mapLoop pagetable perm n ((a+pgsize)%2^64) ((pa+pgsize)%2^64)
    else return -1

def mappages (pagetable va size pa perm : ℕ) : M ℤ := mapLoop pagetable perm
    ((pgrounddown ((va+size+(2^64-1))%2^64)+(2^64-pgrounddown va))%2^64/pgsize) (pgrounddown va) pa

/-- One turn of the loop of uvmunmap. -/
def unmapPage (m : Machine) (pagetable : ℕ) (doFree : Bool) (a : ℕ) : M Unit := do
  match ← walk pagetable a false with
  | none => throw .unmapWalk
  | some (page, i) => do
    let pte ← readWord page i
    if pte &&& pteV = 0 then throw .unmapMapped
    else if pteFlags pte = pteV then throw .unmapLeaf
    else do
      if doFree then kfree m (pte2pa pte)
      writeWord page i 0

def unmapLoop (m : Machine) (pagetable : ℕ) (doFree : Bool) : ℕ → ℕ → M Unit
  | 0, _ => return ()
  | n+1, a => do
    unmapPage m pagetable doFree a
    unmapLoop m pagetable doFree n (a+pgsize)

def uvmunmap (m : Machine) (pagetable va npages : ℕ) (doFree : Bool) : M Unit :=
  if va%pgsize ≠ 0 then throw .unmapAligned
  else unmapLoop m pagetable doFree (((va+npages*pgsize)%2^64-va)/pgsize) va

def uvmcreate : M ℕ := do
  let pagetable ← kalloc
  if pagetable = 0 then return 0
  else do
    memset pagetable 0
    return pagetable

def uvmdealloc (m : Machine) (pagetable oldsz newsz : ℕ) : M ℕ :=
  if newsz ≥ oldsz then return oldsz
  else do
    if pgroundup newsz < pgroundup oldsz then
      uvmunmap m pagetable (pgroundup newsz) (signExtend ((pgroundup oldsz-pgroundup newsz)/pgsize)) true
    return newsz

/-- One turn of the loop of uvmalloc, which started at `oldsz`. -/
def allocPage (m : Machine) (pagetable oldsz a : ℕ) : M Bool := do
  let mem ← kalloc
  if mem = 0 then do
    let _ ← uvmdealloc m pagetable a oldsz
    return false
  else do
    memset mem 0
    if (← mappages pagetable a pgsize mem (pteW ||| pteX ||| pteR ||| pteU)) ≠ 0 then do
      kfree m mem
      let _ ← uvmdealloc m pagetable a oldsz
      return false
    else return true

def allocLoop (m : Machine) (pagetable oldsz : ℕ) : ℕ → ℕ → M Bool
  | 0, _ => return true
  | n+1, a => do
    if ← allocPage m pagetable oldsz a then allocLoop m pagetable oldsz n (a+pgsize) else return false

def uvmalloc (m : Machine) (pagetable oldsz newsz : ℕ) : M ℕ :=
  if newsz < oldsz then return oldsz
  else do
    if ← allocLoop m pagetable (pgroundup oldsz) ((newsz-pgroundup oldsz+(pgsize-1))/pgsize) (pgroundup oldsz)
    then return newsz else return 0

/-- One entry of a table in freewalk; `free` frees the table below it. -/
def freeEntry (free : ℕ → M Unit) (pagetable : ℕ) (i : Fin 512) : M Unit := do
  let pte ← readWord pagetable i
  if pte &&& pteV ≠ 0 ∧ pte &&& (pteR ||| pteW ||| pteX) = 0 then do
    free (pte2pa pte)
    writeWord pagetable i 0
  else if pte &&& pteV ≠ 0 then throw .freewalkLeaf

/-- freewalk with a bound on the depth of the recursion, past which the stack would run out. -/
def freewalk (m : Machine) : ℕ → ℕ → M Unit
  | 0, _ => throw .kerneltrap
  | depth+1, pagetable => do
    (List.finRange 512).forM (freeEntry (freewalk m depth) pagetable)
    kfree m pagetable

def uvmfree (m : Machine) (pagetable sz : ℕ) : M Unit := do
  if sz > 0 then uvmunmap m pagetable 0 (pgroundup sz/pgsize) true
  freewalk m 3 pagetable

/-- proc_pagetable for a process with the given trapframe. -/
def procPagetable (m : Machine) (tf : ℕ) : M ℕ := do
  let pagetable ← uvmcreate
  if pagetable = 0 then return 0
  else if (← mappages pagetable trampoline pgsize m.trampoline (pteR ||| pteX)) < 0 then do
    uvmfree m pagetable 0
    return 0
  else if (← mappages pagetable trapframe pgsize tf (pteR ||| pteW)) < 0 then do
    uvmunmap m pagetable trampoline 1 false
    uvmfree m pagetable 0
    return 0
  else return pagetable

def procFreepagetable (m : Machine) (pagetable sz : ℕ) : M Unit := do
  uvmunmap m pagetable trampoline 1 false
  uvmunmap m pagetable trapframe 1 false
  uvmfree m pagetable sz

def copyPage (dst src : ℕ) : M Unit := modify (fun s => s.setPage dst (s.word src))

/-- One turn of the loop of uvmcopy. -/
def copyTurn (m : Machine) (old new i : ℕ) : M Bool := do
  match ← walk old i false with
  | none => throw .copyPte
  | some (page, j) => do
    let pte ← readWord page j
    if pte &&& pteV = 0 then throw .copyPresent
    else do
      let mem ← kalloc
      if mem = 0 then do
        uvmunmap m new 0 (i/pgsize) true
        return false
      else do
        copyPage mem (pte2pa pte)
        if (← mappages new i pgsize mem (pteFlags pte)) ≠ 0 then do
          kfree m mem
          uvmunmap m new 0 (i/pgsize) true
          return false
        else return true

def copyLoop (m : Machine) (old new : ℕ) : ℕ → ℕ → M ℤ
  | 0, _ => return 0
  | n+1, i => do
    if ← copyTurn m old new i then copyLoop m old new n (i+pgsize) else return -1

def uvmcopy (m : Machine) (old new sz : ℕ) : M ℤ := copyLoop m old new ((sz+(pgsize-1))/pgsize) 0

def uvmclear (pagetable va : ℕ) : M Unit := do
  match ← walk pagetable va false with
  | none => throw .uvmclear
  | some (page, i) => do
    let pte ← readWord page i
    writeWord page i (pte &&& (2^64-1-pteU))

theorem wordIndex_lt (pa : ℕ) : pa%pgsize/8 < 512 := by
  have := Nat.mod_lt pa pgsize_pos
  rw [pgsize] at *
  omega

def wordIndex (pa : ℕ) : Fin 512 := ⟨pa%pgsize/8, wordIndex_lt pa⟩

def Ram.byte (s : Ram) (pa : ℕ) : UInt8 := UInt8.ofNat (s.word (pgrounddown pa) (wordIndex pa)/256^(pa%8))

def setByteOf (w k : ℕ) (b : UInt8) : ℕ := w%256^k+b.toNat*256^k+w/256^(k+1)*256^(k+1)

def Ram.setByte (s : Ram) (pa : ℕ) (b : UInt8) : Ram := s.setWord (pgrounddown pa) (wordIndex pa)
    (setByteOf (s.word (pgrounddown pa) (wordIndex pa)) (pa%8) b)

def Ram.setBytes (s : Ram) : ℕ → List UInt8 → Ram
  | _, [] => s
  | pa, b :: bs => (s.setByte pa b).setBytes (pa+1) bs

def memmove (pa : ℕ) (bs : List UInt8) : M Unit := modify (fun s => s.setBytes pa bs)

def readBytes (pa n : ℕ) : M (List UInt8) := do
  let s ← get
  return (List.range n).map (fun k => s.byte (pa+k))

/-- The first process's memory; a failed kalloc is not noticed, and writing to address 0 traps. -/
def uvminit (pagetable : ℕ) (src : List UInt8) : M Unit := do
  if src.length ≥ pgsize then throw .inituvm
  else do
    let mem ← kalloc
    if mem = 0 then throw .kerneltrap
    else do
      memset mem 0
      let _ ← mappages pagetable 0 pgsize mem (pteW ||| pteR ||| pteX ||| pteU)
      memmove mem src

/-- The loop of copyout; `src` are the bytes that are left. -/
def copyoutLoop (pagetable : ℕ) : ℕ → ℕ → List UInt8 → M ℤ
  | 0, _, _ => return 0
  | fuel+1, dstva, src =>
    if src = [] then return 0
    else do
      let pa0 ← walkaddr pagetable (pgrounddown dstva)
      if pa0 = 0 then return -1
      else do
        memmove (pa0+dstva%pgsize) (src.take (pgsize-dstva%pgsize))
        copyoutLoop pagetable fuel ((pgrounddown dstva+pgsize)%2^64) (src.drop (pgsize-dstva%pgsize))

def copyout (pagetable dstva : ℕ) (src : List UInt8) : M ℤ := copyoutLoop pagetable src.length dstva src

/-- The loop of copyin, with `len` bytes to go: the return value and the bytes stored to dst. -/
def copyinLoop (pagetable : ℕ) : ℕ → ℕ → ℕ → M (ℤ × List UInt8)
  | 0, _, _ => return (0, [])
  | fuel+1, srcva, len =>
    if len = 0 then return (0, [])
    else do
      let pa0 ← walkaddr pagetable (pgrounddown srcva)
      if pa0 = 0 then return (-1, [])
      else do
        let bs ← readBytes (pa0+srcva%pgsize) (min (pgsize-srcva%pgsize) len)
        let r ← copyinLoop pagetable fuel ((pgrounddown srcva+pgsize)%2^64) (len-bs.length)
        return (r.1, bs ++ r.2)

def copyin (pagetable srcva len : ℕ) : M (ℤ × List UInt8) := copyinLoop pagetable len srcva len

/-- The inner loop of copyinstr, with `n` bytes of the page to go: the bytes stored to dst and
got_null. -/
def strLoop : ℕ → ℕ → M (List UInt8 × Bool)
  | 0, _ => return ([], false)
  | n+1, p => do
    let s ← get
    if s.byte p = 0 then return ([0], true)
    else do
      let r ← strLoop n (p+1)
      return (s.byte p :: r.1, r.2)

/-- The outer loop of copyinstr, with room for `max` bytes: the return value and the bytes stored to
dst. -/
def copyinstrLoop (pagetable : ℕ) : ℕ → ℕ → ℕ → M (ℤ × List UInt8)
  | 0, _, _ => return (-1, [])
  | fuel+1, srcva, max =>
    if max = 0 then return (-1, [])
    else do
      let pa0 ← walkaddr pagetable (pgrounddown srcva)
      if pa0 = 0 then return (-1, [])
      else do
        let line ← strLoop (min (pgsize-srcva%pgsize) max) (pa0+srcva%pgsize)
        if line.2 then return (0, line.1)
        else do
          let r ← copyinstrLoop pagetable fuel ((pgrounddown srcva+pgsize)%2^64) (max-line.1.length)
          return (r.1, line.1 ++ r.2)

def copyinstr (pagetable srcva max : ℕ) : M (ℤ × List UInt8) := copyinstrLoop pagetable max srcva max

def strlen (bs : List UInt8) : ℕ := (bs.takeWhile (· ≠ 0)).length

/-- fetchstr with the bytes stored to buf; the int `max` becomes a uint64. -/
def fetchstr (pagetable addr : ℕ) (max : ℤ) : M (ℤ × List UInt8) := do
  let r ← copyinstr pagetable addr (max%2^64).toNat
  if r.1 < 0 then return r
  else return ((strlen r.2 : ℤ), r.2)

end Xv6.Vm
