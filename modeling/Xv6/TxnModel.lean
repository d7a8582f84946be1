import Xv6.FileShare

/-! The write path of kernel/fs.c and kernel/file.c down to log_write: the blocks that a call passes
to the log, and what a block holds when its buffer has been recycled. -/
namespace Xv6.Txn
open Function Bytes Hoare Store

def maxOpBlocks : ℕ := 10

/-- The file system in a transaction. `logged` lists the blocks that were passed to log_write;
`home b` is what bread returns for `b` when the transaction has been committed and no buffer holds
the block any more. -/
structure State extends Fs where
  logged : List ℕ
  home : ℕ → Block

abbrev T := Prog State Panic

def lift {α : Type} (x : M α) : T α := fun s =>
  (x s.toFs).map (fun r => (r.1, { s with toFs := r.2 }))

/-- New bytes in the buffer of block `b`. The buffers of the blocks in the log are not recycled,
and the commit writes out what they hold then. -/
def State.fill (s : State) (b : ℕ) (data : Block) : State := { s with
    blocks := update s.blocks b data
    home := if b ∈ s.logged then update s.home b data else s.home }

def State.log (s : State) (b : ℕ) : State := { s with logged := s.logged ++ [b], home := update s.home b (s.blocks b) }

def setBuf (b : ℕ) (data : Block) : T Unit := modify (·.fill b data)
def logWrite (b : ℕ) : T Unit := modify (·.log b)

def bzero (b : ℕ) : T Unit := do
  setBuf b (fun _ => 0)
  logWrite b

def balloc (sb : Superblock) : T ℕ := do
  let s ← get
  match firstFree sb s.blocks with
  | none => throw .ballocOutOfBlocks
  | some b => do
    modify fun s => { s with allocs := s.allocs ++ [(s.toCore, b)] }
    setBuf (sb.bblock b) (setBit (s.blocks (sb.bblock b)) (b%bpb))
    logWrite (sb.bblock b)
    bzero b
    return b

def iupdate (sb : Superblock) (i : ℕ) : T Unit := do
  let blk ← lift (bread (sb.iblock i))
  let d ← lift (incore i)
  setBuf (sb.iblock i) (putDinode blk i d)
  logWrite (sb.iblock i)

def addrSlot (sb : Superblock) (i : ℕ) (k : Fin 13) : T ℕ := do
  let d ← lift (incore i)
  if d.addrs k = 0 then do
    let b ← balloc sb
    lift (setIncore i (setAddr k (UInt32.ofNat b)))
    return b
  else return (d.addrs k).toNat

def indirectEntry (sb : Superblock) (ind j : ℕ) : T ℕ := do
  let blk ← lift (bread ind)
  if word blk j = 0 then do
    let b ← balloc sb
    let blk ← lift (bread ind)
    setBuf ind (setWord blk j (UInt32.ofNat b))
    logWrite ind
    return b
  else return (word blk j).toNat

def bmap (sb : Superblock) (i bn : ℕ) : T ℕ :=
  if bn < ndirect then addrSlot sb i (Fin.ofNat 13 bn)
  else if bn-ndirect < nindirect then do
    let ind ← addrSlot sb i 12
    indirectEntry sb ind (bn-ndirect)
  else throw .bmapOutOfRange

-- either_copyin writes to the buffer; only a copy that is complete is followed by log_write
def writeiLoop (sb : Superblock) (i : ℕ) (mem : ℕ → Option UInt8) : ℕ → ℕ → ℕ → ℕ → T ℕ
  | 0, _, off, _ => return off
  | fuel+1, src, off, n =>
    if n = 0 then return off
    else do
      let b ← bmap sb i (off/bsize)
      let blk ← lift (bread b)
      setBuf b (store blk (off%bsize) (copyin mem src (min n (bsize-off%bsize))))
      if (copyin mem src (min n (bsize-off%bsize))).length = min n (bsize-off%bsize) then do
        logWrite b
        writeiLoop sb i mem fuel (src+min n (bsize-off%bsize)) (off+min n (bsize-off%bsize)) (n-min n (bsize-off%bsize))
      else return off

def writei (sb : Superblock) (i : ℕ) (mem : ℕ → Option UInt8) (src off n : ℕ) : T (Option ℕ) := do
  let d ← lift (incore i)
  if off > d.size.toNat ∨ (off+n)%2^32 < off then return none
  else if (off+n)%2^32 > maxFile*bsize then return none
  else do
    let fin ← writeiLoop sb i mem n src off n
    lift (setIncore i (fun d => if fin > d.size.toNat then { d with size := UInt32.ofNat fin } else d))
    iupdate sb i
    return some (fin-off)

structure Piece where
  src : ℕ
  off : ℕ
  n : ℕ
  ret : Option ℕ
  logged : List ℕ

def writeSection (sb : Superblock) (ip : ℕ) (mem : ℕ → Option UInt8) (src off n : ℕ) : T (Option ℕ) := do
  lift (ilock sb ip)
  let r ← writei sb ip mem src off n
  lift (iunlock ip)
  return r

variable {sb : Superblock} {i b : ℕ} {s t u : State}

/-! Without the log these are the functions of the file system. -/

theorem erases_lift {α : Type} (x : M α) : Erases State.toFs (lift x) x := by
  intro s
  unfold lift
  cases x s.toFs <;> rfl

section
variable (sb)

theorem erases_balloc : Erases State.toFs (balloc sb) (Store.balloc sb) := by
  intro s
  change ((match firstFree sb s.blocks with
    | none => throw .ballocOutOfBlocks
    | some b => do
      modify fun s => { s with allocs := s.allocs ++ [(s.toCore, b)] }
      setBuf (sb.bblock b) (setBit (s.blocks (sb.bblock b)) (b%bpb))
      logWrite (sb.bblock b)
      bzero b
      return b : T ℕ) s).map _ = (match firstFree sb s.blocks with
    | none => throw .ballocOutOfBlocks
    | some b => do
      modify fun s => { s with allocs := s.allocs ++ [(s.toCore, b)] }
      Store.logWrite (sb.bblock b) (setBit (s.blocks (sb.bblock b)) (b%bpb))
      Store.bzero b
      return b : M ℕ) s.toFs
  cases firstFree sb s.blocks <;> rfl

theorem erases_addrSlot (i : ℕ) (k : Fin 13) : Erases State.toFs (addrSlot sb i k) (Store.addrSlot sb i k) := by
  apply (erases_lift _).bind
  intro d
  apply Erases.ite
  · exact (erases_balloc sb).bind (fun b => (erases_lift _).bind (fun _ => .pure b))
  · exact .pure _

theorem erases_indirectEntry (ind j : ℕ) :
    Erases State.toFs (indirectEntry sb ind j) (Store.indirectEntry sb ind j) := by
  apply (erases_lift _).bind
  intro blk
  apply Erases.ite
  · exact (erases_balloc sb).bind (fun b => fun _ => rfl)
  · exact .pure _

theorem erases_bmap (i bn : ℕ) : Erases State.toFs (bmap sb i bn) (Store.bmap sb i bn) := .ite (erases_addrSlot sb i _)
    (.ite ((erases_addrSlot sb i 12).bind (fun ind => erases_indirectEntry sb ind _)) (.throw _))

theorem erases_writeiLoop (i : ℕ) (mem : ℕ → Option UInt8) (fuel src off n : ℕ) :
    Erases State.toFs (writeiLoop sb i mem fuel src off n) (Store.writeiLoop sb i mem fuel src off n) := by
  induction fuel generalizing src off n with
  | zero => exact .pure off
  | succ fuel ih =>
    apply Erases.ite (.pure off)
    apply (erases_bmap sb i _).bind
    intro b
    apply (erases_lift _).bind
    intro blk
    apply Erases.bind (y := Store.logWrite b (store blk (off%bsize)
      (copyin mem src (min n (bsize-off%bsize))))) (fun _ => rfl)
    intro _
    apply Erases.ite
    · -- log_write leaves the bytes alone
      exact fun s => ih _ _ _ _
    · exact .pure off

end

/-- No buffer differs from what would be read if it were recycled. -/
def Coherent (s : State) : Prop := s.home = s.blocks

theorem Coherent.write (hs : Coherent s) (b : ℕ) (data : Block) : Coherent ((s.fill b data).log b) := by
  unfold Coherent at hs ⊢
  change update (if b ∈ s.logged then update s.home b data else s.home) b
    (update s.blocks b data b) = update s.blocks b data
  rw [hs, update_self]
  split_ifs
  · rw [update_idem]
  · rfl

/-! What a call that returns has done. -/

theorem lift_ok {α : Type} {x : M α} {a : α} (h : lift x s = .ok (a, u)) :
    x s.toFs = .ok (a, u.toFs) ∧ u = { s with toFs := u.toFs } := by
  unfold lift at h
  cases hx : x s.toFs with
  | error =>
    rw [hx] at h
    cases h
  | ok =>
    rw [hx] at h
    cases h
    exact ⟨rfl, rfl⟩

theorem balloc_ok (h : balloc sb s = .ok (b, u)) :
    u.logged = s.logged ++ [sb.bblock b, b] ∧ u.itab = s.itab ∧ (Coherent s → Coherent u) := by
  change (match firstFree sb s.blocks with
    | none => throw .ballocOutOfBlocks
    | some b => do
      modify fun s => { s with allocs := s.allocs ++ [(s.toCore, b)] }
      setBuf (sb.bblock b) (setBit (s.blocks (sb.bblock b)) (b%bpb))
      logWrite (sb.bblock b)
      bzero b
      return b : T ℕ) s = _ at h
  cases hf : firstFree sb s.blocks with
  | none =>
    rw [hf] at h
    cases h
  | some =>
    rw [hf] at h
    cases h
    exact ⟨List.append_assoc .., rfl, fun hs => (hs.write _ _).write b _⟩

theorem addrSlot_ok {k : Fin 13} (h : addrSlot sb i k s = .ok (b, u)) :
    ((s.itab i).din.addrs k ≠ 0 ∧ b = ((s.itab i).din.addrs k).toNat ∧ u = s) ∨
    ((s.itab i).din.addrs k = 0 ∧ u.logged = s.logged ++ [sb.bblock b, b] ∧
      (∀ m, m ≠ k → (u.itab i).din.addrs m = (s.itab i).din.addrs m) ∧ (Coherent s → Coherent u)) := by
  change (if (s.itab i).din.addrs k = 0 then do
      let b ← balloc sb
      lift (setIncore i (setAddr k (UInt32.ofNat b)))
      return b
    else return ((s.itab i).din.addrs k).toNat : T ℕ) s = _ at h
  by_cases h0 : (s.itab i).din.addrs k = 0
  · rw [if_pos h0] at h
    obtain ⟨c, v, hc, hv⟩ := run_bind_ok h
    obtain ⟨hlog, hitab, hhome⟩ := balloc_ok hc
    cases hv
    refine Or.inr ⟨h0, hlog, fun m hm => ?_, hhome⟩
    change (update v.itab i _ i).din.addrs m = _
    rw [update_self, hitab]
    exact update_of_ne hm ..
  · rw [if_neg h0] at h
    cases h
    exact Or.inl ⟨h0, rfl, rfl⟩

theorem indirectEntry_ok {ind j : ℕ} (h : indirectEntry sb ind j s = .ok (b, u)) : (word (s.blocks ind) j ≠ 0 ∧ u = s) ∨
      (word (s.blocks ind) j = 0 ∧ u.logged = s.logged ++ [sb.bblock b, b, ind] ∧ u.itab = s.itab ∧
        (Coherent s → Coherent u)) := by
  change (if word (s.blocks ind) j = 0 then do
      let b ← balloc sb
      let blk ← lift (bread ind)
      setBuf ind (setWord blk j (UInt32.ofNat b))
      logWrite ind
      return b
    else return (word (s.blocks ind) j).toNat : T ℕ) s = _ at h
  by_cases h0 : word (s.blocks ind) j = 0
  · rw [if_pos h0] at h
    obtain ⟨c, v, hc, hv⟩ := run_bind_ok h
    obtain ⟨hlog, hitab, hhome⟩ := balloc_ok hc
    cases hv
    refine Or.inr ⟨h0, ?_, hitab, fun hs => (hhome hs).write ind _⟩
    change v.logged ++ [ind] = _
    rw [hlog, List.append_assoc]
    rfl
  · rw [if_neg h0] at h
    cases h
    exact Or.inl ⟨h0, rfl⟩

theorem Coherent.bmap (hs : Coherent s) {bn : ℕ} (h : bmap sb i bn s = .ok (b, u)) : Coherent u := by
  have haddr {s u : State} {k : Fin 13} {b : ℕ} (hs : Coherent s) (h : addrSlot sb i k s = .ok (b, u)) :
      Coherent u := by
    rcases addrSlot_ok h with ⟨-, -, rfl⟩ | ⟨-, -, -, hu⟩
    · exact hs
    · exact hu hs
  unfold Txn.bmap at h
  split_ifs at h
  · exact haddr hs h
  · obtain ⟨c, v, hc, hv⟩ := run_bind_ok h
    rcases indirectEntry_ok hv with ⟨-, rfl⟩ | ⟨-, -, -, hu⟩
    · exact haddr hs hc
    · exact hu (haddr hs hc)
  · cases h

theorem writeiLoop_succ {mem : ℕ → Option UInt8} {fuel src off n m : ℕ} (hn : n ≠ 0)
    (hm : m = min n (bsize-off%bsize)) (hv : bmap sb i (off/bsize) s = .ok (b, t)) :
    writeiLoop sb i mem (fuel+1) src off n s =
      if (copyin mem src m).length = m then writeiLoop sb i mem fuel (src+m) (off+m) (n-m)
        ((t.fill b (store (t.blocks b) (off%bsize) (copyin mem src m))).log b)
      else .ok (off, t.fill b (store (t.blocks b) (off%bsize) (copyin mem src m))) := by
  subst hm
  rw [writeiLoop, if_neg hn, run_bind hv]
  change (if (copyin mem src (min n (bsize-off%bsize))).length = min n (bsize-off%bsize) then do
      logWrite b
      writeiLoop sb i mem fuel (src+min n (bsize-off%bsize)) (off+min n (bsize-off%bsize)) (n-min n (bsize-off%bsize))
    else return off : T ℕ) (t.fill b (store (t.blocks b) (off%bsize) (copyin mem src (min n (bsize-off%bsize))))) = _
  split_ifs <;> rfl

theorem writeiLoop_succ_ok {mem : ℕ → Option UInt8} {fuel src off n fin m : ℕ} (hn : n ≠ 0)
    (hm : m = min n (bsize-off%bsize)) (h : writeiLoop sb i mem (fuel+1) src off n s = .ok (fin, u)) :
    ∃ b v, bmap sb i (off/bsize) s = .ok (b, v) ∧
      (((copyin mem src m).length = m ∧ writeiLoop sb i mem fuel (src+m) (off+m) (n-m)
        ((v.fill b (store (v.blocks b) (off%bsize) (copyin mem src m))).log b) = .ok (fin, u)) ∨
      ((copyin mem src m).length ≠ m ∧ fin = off ∧
        u = v.fill b (store (v.blocks b) (off%bsize) (copyin mem src m)))) := by
  have hturn := h
  rw [writeiLoop, if_neg hn] at hturn
  obtain ⟨b, v, hv, -⟩ := run_bind_ok hturn
  refine ⟨b, v, hv, ?_⟩
  rw [writeiLoop_succ hn hm hv] at h
  by_cases hfull : (copyin mem src m).length = m
  · rw [if_pos hfull] at h
    exact Or.inl ⟨hfull, h⟩
  · rw [if_neg hfull] at h
    cases h
    exact Or.inr ⟨hfull, rfl, rfl⟩

end Xv6.Txn
