import Xv6.ConsoleModel
import Xv6.FileShare
import Xv6.PipeModel

/-! One call of fileread of kernel/file.c, with the memory of the process that makes it: piperead,
consoleread and readi up to their copies to user memory. -/
namespace Xv6.Store
open Function Bytes Hoare

/-- The memory of a process; there is nothing at addresses that are not mapped. -/
abbrev UserMem := ℕ → Option UInt8

def copyout : UserMem → ℕ → List UInt8 → UserMem × Bool
  | mem, _, [] => (mem, true)
  | mem, dst, b :: bs =>
    if (mem dst).isSome then copyout (update mem dst (some b)) (dst+1) bs else (mem, false)

def int (x : ℤ) : ℤ := Int.bmod x (2^32)

/-- The loop of readi with `n` bytes left after `tot`, with the memory that it stores to. -/
def readiUserLoop (sb : Superblock) (i : ℕ) : ℕ → UserMem → ℕ → ℕ → ℕ → ℕ → M (ℤ × UserMem)
  | 0, mem, _, _, _, tot => return (int tot, mem)
  | fuel+1, mem, dst, off, n, tot =>
    if n = 0 then return (int tot, mem)
    else do
      let b ← bmap sb i (off/bsize)
      let blk ← bread b
      let m := min n (bsize-off%bsize)
      let copied := copyout mem dst (load blk (off%bsize) m)
      if copied.2 then readiUserLoop sb i fuel copied.1 (dst+m) (off+m) (n-m) (tot+m)
      else return (-1, copied.1)

def readiUser (sb : Superblock) (i : ℕ) (mem : UserMem) (dst off n : ℕ) : M (ℤ × UserMem) := do
  let d ← incore i
  if off > d.size.toNat ∨ (off+n)%2^32 < off then return (0, mem)
  else do
    let n := if off+n > d.size.toNat then d.size.toNat-off else n
    readiUserLoop sb i n mem dst off n 0

/-- The second loop of piperead; pi->lock is held throughout. -/
def pipereadLoop (addr : ℕ) (n : ℤ) : ℕ → Pipes.Pipe → UserMem → ℕ → ℤ × UserMem × Pipes.Pipe
  | 0, pi, mem, i => (i, mem, pi)
  | fuel+1, pi, mem, i =>
    if (i : ℤ) < n ∧ ¬ pi.isEmpty then
      let copied := copyout mem (addr+i) [pi.next]
      let pi := { pi with nread := pi.nread+1 }
      if copied.2 then pipereadLoop addr n fuel pi copied.1 (i+1) else (i, copied.1, pi)
    else (i, mem, pi)

/-- The loop of consoleread with `n` bytes to go. Turn `k` finds the console that the keyboard and
other readers have made of it, with a character in it, or that the process has been killed. -/
def consolereadLoop (turns : ℕ → Option Console.Cons) (target : ℤ) : ℕ → ℕ → UserMem → ℕ → ℤ → ℤ × UserMem
  | 0, _, mem, _, n => (int (target-n), mem)
  | fuel+1, k, mem, dst, n =>
    if n > 0 then
      match turns k with
      | none => (-1, mem)
      | some c =>
        let copied := copyout mem dst [c.at c.r]
        if c.at c.r = Console.ctrlD then (int (target-n), mem)
        else if copied.2 = false then (int (target-n), copied.1)
        else if c.at c.r = Console.newline then (int (target-(n-1)), copied.1)
        else consolereadLoop turns target fuel (k+1) copied.1 (dst+1) (n-1)
    else (int (target-n), mem)

-- consoleinit sets the only entry of devsw that can read
def devswRead (major : Int16) : Bool := major = 1

inductive FileKind where
  | pipe
  | device (major : Int16)
  | inode (ip : ℕ) (off : UInt32)

structure OpenFile where
  readable : Bool
  kind : FileKind

/-- What a call that waits finds when it goes on: the pipe, if the process was not killed before
there was something to read or no writer left, and the console at each turn. -/
structure Waits where
  pipe : Option Pipes.Pipe
  cons : ℕ → Option Console.Cons

def filereadKind (sb : Superblock) (w : Waits) (mem : UserMem) (addr : ℕ) (n : ℤ) :
    FileKind → M (ℤ × UserMem × FileKind)
  | .pipe => match w.pipe with
    | none => return (-1, mem, .pipe)
    | some pi =>
      let r := pipereadLoop addr n n.toNat pi mem 0
      return (r.1, r.2.1, .pipe)
  | .device major =>
    if devswRead major then
      let r := consolereadLoop w.cons (uint n) n.toNat 0 mem addr n
      return (r.1, r.2, .device major)
    else return (-1, mem, .device major)
  | .inode ip off => do
    ilock sb ip
    let r ← readiUser sb ip mem addr off.toNat (uint n)
    iunlock ip
    return (r.1, r.2, .inode ip (if r.1 > 0 then off+UInt32.ofNat r.1.toNat else off))

def fileread (sb : Superblock) (f : OpenFile) (w : Waits) (mem : UserMem) (addr : ℕ) (n : Int32) :
    M (ℤ × UserMem × FileKind) :=
  if f.readable = false then return (-1, mem, f.kind) else filereadKind sb w mem addr n.toInt f.kind

def Changed (lo hi : ℕ) (mem mem' : UserMem) : Prop := ∀ a, ¬(lo ≤ a ∧ a < hi) → mem' a = mem a

variable {sb : Superblock} {i : ℕ} {mem mem' mem'' : UserMem} {lo hi : ℕ}

theorem Changed.refl (lo hi : ℕ) (mem : UserMem) : Changed lo hi mem mem := fun _ _ => rfl

theorem Changed.trans (h : Changed lo hi mem mem') (h' : Changed lo hi mem' mem'') :
    Changed lo hi mem mem'' := fun a ha => (h' a ha).trans (h a ha)

theorem Changed.mono (h : Changed lo hi mem mem') {lo' hi' : ℕ} (hlo : lo' ≤ lo) (hhi : hi ≤ hi') :
    Changed lo' hi' mem mem' := fun a ha => h a (by omega)

theorem copyout_changed (mem : UserMem) (dst : ℕ) (bs : List UInt8) :
    Changed dst (dst+bs.length) mem (copyout mem dst bs).1 := by
  induction bs generalizing mem dst with
  | nil => exact Changed.refl _ _ mem
  | cons b bs ih =>
    unfold copyout
    split
    · rw [List.length_cons]
      refine Changed.trans (fun a ha => ?_) ((ih _ (dst+1)).mono (by omega) (by omega))
      exact update_of_ne (by omega) _ _
    · exact Changed.refl _ _ mem

theorem copyout_append (mem : UserMem) (dst : ℕ) (bs cs : List UInt8) :
    copyout mem dst (bs ++ cs) = if (copyout mem dst bs).2
      then copyout (copyout mem dst bs).1 (dst+bs.length) cs else copyout mem dst bs := by
  induction bs generalizing mem dst with
  | nil => rfl
  | cons b bs ih =>
    rw [List.cons_append, copyout, copyout]
    split
    · rw [ih, List.length_cons, Nat.add_right_comm dst 1, ← Nat.add_assoc]
    · rfl

theorem int_of_lt {x : ℤ} (h : -2^31 ≤ x) (h' : x < 2^31) : int x = x := Int.bmod_eq_of_le (by omega) (by omega)

theorem pipereadLoop_bound (addr : ℕ) (n : ℤ) {fuel i : ℕ} (h : i+fuel = n.toNat) (pi : Pipes.Pipe) (mem : UserMem) :
    (pipereadLoop addr n fuel pi mem i).1 ≤ n.toNat ∧
      Changed addr (addr+n.toNat) mem (pipereadLoop addr n fuel pi mem i).2.1 := by
  induction fuel generalizing i pi mem with
  | zero => exact ⟨by rw [pipereadLoop]; omega, Changed.refl _ _ mem⟩
  | succ fuel ih =>
    have hone := (copyout_changed mem (addr+i) [pi.next]).mono (Nat.le_add_right addr i)
      (show addr+i+1 ≤ addr+n.toNat by omega)
    rw [pipereadLoop]
    dsimp only
    split_ifs
    · obtain ⟨hr, hmem⟩ := ih (i := i+1) (by omega) { pi with nread := pi.nread+1 } (copyout mem (addr+i) [pi.next]).1
      exact ⟨hr, hone.trans hmem⟩
    · exact ⟨by dsimp only; omega, hone⟩
    · exact ⟨by dsimp only; omega, Changed.refl _ _ mem⟩

theorem uint_of_nonneg {n : ℤ} (h : 0 ≤ n) (h' : n < 2^31) : (uint n : ℤ) = n := by
  unfold uint
  omega

theorem consoleread_result {n k : ℤ} (hk : 0 ≤ k) (hkn : k ≤ n) (hn : n < 2^31) : int (uint n-k) = n-k := by
  rw [uint_of_nonneg (hk.trans hkn) hn]
  exact int_of_lt (by omega) (by omega)

theorem consolereadLoop_bound (turns : ℕ → Option Console.Cons) {n : ℤ} (hn : n < 2^31) {fuel : ℕ}
    {k : ℤ} (hk : k = fuel) (hkn : k ≤ n) (turn : ℕ) (mem : UserMem) (dst : ℕ) :
    (consolereadLoop turns (uint n) fuel turn mem dst k).1 ≤ n.toNat ∧
      Changed dst (dst+fuel) mem (consolereadLoop turns (uint n) fuel turn mem dst k).2 := by
  induction fuel generalizing k turn mem dst with
  | zero =>
    rw [consolereadLoop, consoleread_result (by omega) hkn hn]
    exact ⟨by dsimp only; omega, Changed.refl _ _ mem⟩
  | succ fuel ih =>
    have hres : int (uint n-k) = n-k := consoleread_result (by omega) hkn hn
    have hres' : int (uint n-(k-1)) = n-(k-1) := consoleread_result (by omega) (by omega) hn
    rw [consolereadLoop, if_pos (by omega)]
    cases turns turn with
    | none => exact ⟨by dsimp only; omega, Changed.refl _ _ mem⟩
    | some c =>
      have hone := (copyout_changed mem dst [c.at c.r]).mono (le_refl dst) (show dst+1 ≤ dst+(fuel+1) by omega)
      dsimp only
      split_ifs
      · exact ⟨by rw [hres]; omega, Changed.refl _ _ mem⟩
      · exact ⟨by rw [hres]; omega, hone⟩
      · exact ⟨by rw [hres']; omega, hone⟩
      · obtain ⟨hr, hmem⟩ := ih (k := k-1) (by omega) (by omega) (turn+1) (copyout mem dst [c.at c.r]).1 (dst+1)
        exact ⟨hr, hone.trans (hmem.mono (by omega) (by omega))⟩

theorem readiUserLoop_bound {fuel n : ℕ} (hfuel : n ≤ fuel) (mem : UserMem) (dst off tot : ℕ) (hmax : tot+n < 2^31) :
    Returns (readiUserLoop sb i fuel mem dst off n tot) (fun r => r.1 ≤ (tot+n : ℕ) ∧ Changed dst (dst+n) mem r.2) := by
  induction fuel generalizing mem dst off n tot with
  | zero => exact Returns.pure ⟨by rw [int_of_lt (by omega) (by omega)]; omega, Changed.refl _ _ mem⟩
  | succ fuel ih =>
    apply Returns.ite
    · exact fun _ => Returns.pure ⟨by rw [int_of_lt (by omega) (by omega)]; omega, Changed.refl _ _ mem⟩
    intro hn
    have hmod : off%bsize < bsize := Nat.mod_lt _ (by decide)
    refine Returns.skip (fun b => Returns.skip (fun blk => ?_))
    have hpart := (copyout_changed mem dst (load blk (off%bsize) (min n (bsize-off%bsize)))).mono
      (le_refl dst) (show _ ≤ dst+n by rw [length_load]; omega)
    apply Returns.ite
    · intro _
      refine (ih (by omega) _ _ _ _ (by omega)).mono (fun r hr => ?_)
      exact ⟨hr.1.trans (by omega), hpart.trans (hr.2.mono (by omega) (by omega))⟩
    · exact fun _ => Returns.pure ⟨by dsimp only; omega, hpart⟩

def span (size off n : ℕ) : ℕ :=
  if off > size ∨ (off+n)%2^32 < off then 0 else if off+n > size then size-off else n

variable {s t : Fs} {ip : ℕ}

theorem readiUser_eq (mem : UserMem) (dst off n : ℕ) :
    readiUser sb i mem dst off n s = readiUserLoop sb i (span (s.itab i).din.size.toNat off n) mem
      dst off (span (s.itab i).din.size.toNat off n) 0 s := by
  have hd : incore i s = .ok ((s.itab i).din, s) := rfl
  rw [readiUser, run_bind hd, span]
  split_ifs <;> rfl

theorem ilock_din (h : ilock sb ip s = .ok ((), t)) : (t.itab ip).din = (coreParts sb s.toCore).view ip := by
  obtain ⟨hl, -, -, hv⟩ := ilock_ok h
  exact hl.view.symm.trans (congrFun hv ip)

theorem readiUserLoop_unmapped {fuel n : ℕ} (hn : 0 < n) {dst : ℕ} (hdst : mem dst = none) (off tot : ℕ) :
    Returns (readiUserLoop sb i (fuel+1) mem dst off n tot) (fun r => r = (-1, mem)) := by
  apply Returns.ite
  · intro h0
    omega
  intro _
  have hmod : off%bsize < bsize := Nat.mod_lt _ (by decide)
  refine Returns.skip (fun b => Returns.skip (fun blk => ?_))
  obtain ⟨m, hm⟩ : ∃ m, min n (bsize-off%bsize) = m+1 := ⟨min n (bsize-off%bsize)-1, by omega⟩
  have hcopy : copyout mem dst (load blk (off%bsize) (min n (bsize-off%bsize))) = (mem, false) := by
    rw [hm, Nat.add_comm, load_append]
    change copyout mem dst (blk (off%bsize+0) :: _) = _
    rw [copyout, hdst]
    rfl
  dsimp only
  rw [hcopy]
  exact Returns.ite nofun (fun _ => Returns.pure rfl)

theorem readiUserLoop_run (hl : (coreParts sb s.toCore).Locked sb i) {fuel n : ℕ} (hfuel : n ≤ fuel)
    (mem : UserMem) (dst off tot : ℕ)
    (hfull : ∀ k, off ≤ k → k < off+n → (coreParts sb s.toCore).block i (k/bsize) ≠ 0) :
    readiUserLoop sb i fuel mem dst off n tot s =
      .ok ((if (copyout mem dst (load ((coreParts sb s.toCore).byte i) off n)).2 then int (tot+n : ℕ) else -1,
        (copyout mem dst (load ((coreParts sb s.toCore).byte i) off n)).1), s) := by
  have hnone (off : ℕ) : load ((coreParts sb s.toCore).byte i) off 0 = [] := rfl
  induction fuel generalizing mem dst off n tot with
  | zero =>
    obtain rfl : n = 0 := by omega
    rw [hnone, copyout, if_pos rfl, Nat.add_zero]
    rfl
  | succ fuel ih =>
    rw [readiUserLoop]
    by_cases hn : n = 0
    · rw [if_pos hn, hn, hnone, copyout, if_pos rfl, Nat.add_zero]
      rfl
    have hmod : off%bsize < bsize := Nat.mod_lt _ (by decide)
    have hle : off%bsize+min n (bsize-off%bsize) ≤ bsize := by omega
    have hmin : min n (bsize-off%bsize) ≤ n := Nat.min_le_left ..
    have hblk : bread ((coreParts sb s.toCore).block i (off/bsize)) s =
        .ok ((coreParts sb s.toCore).data ((coreParts sb s.toCore).block i (off/bsize)), s) := rfl
    have hbytes : load ((coreParts sb s.toCore).byte i) off n =
        load ((coreParts sb s.toCore).byte i) off (min n (bsize-off%bsize)) ++
        load ((coreParts sb s.toCore).byte i) (off+min n (bsize-off%bsize)) (n-min n (bsize-off%bsize)) := by
      rw [← load_append, Nat.add_sub_cancel' hmin]
    rw [if_neg hn, run_bind (bmap_run hl (hfull off (by omega) (by omega))), run_bind hblk,
      load_block hle, hbytes, copyout_append, length_load]
    split
    · rw [ih (by omega) _ _ _ _ (fun k hk hk' => hfull k (by omega) (by omega)), Nat.add_assoc,
        Nat.add_sub_cancel' hmin]
    · rfl

/-- Whatever bytes the process has in its memory, fileread returns at most max(n, 0) and stores
only to the max(n, 0) bytes from `addr` on. -/
def Bounded (sb : Superblock) (f : OpenFile) (w : Waits) (mem : UserMem) (addr : ℕ) (n : Int32) (s : Fs) : Prop :=
  ∀ mem', (∀ a, (mem' a).isSome = (mem a).isSome) → ∀ r out k t, fileread sb f w mem' addr n s = .ok ((r, out, k), t) →
      r ≤ n.toInt.toNat ∧ Changed addr (addr+n.toInt.toNat) mem' out

/-- A read of a negative number of bytes from an inode that has some bytes behind the offset, at
most as many as fit below 2^32 from there, to mapped memory. -/
def Exposed (sb : Superblock) (f : OpenFile) (mem : UserMem) (addr : ℕ) (n : Int32) (s : Fs) : Prop :=
  ∃ ip off, f.kind = .inode ip off ∧ f.readable = true ∧ n.toInt < 0 ∧
    off.toNat < ((coreParts sb s.toCore).view ip).size.toNat ∧ off.toNat+uint n.toInt < 2^32 ∧
    (mem addr).isSome

def Opened (sb : Superblock) (f : OpenFile) (s : Fs) : Prop :=
  ∀ ip off, f.kind = .inode ip off → 0 < (s.itab ip).ref ∧ (coreParts sb s.toCore).Live sb ip ∧
    (coreParts sb s.toCore).HoleFree ip

theorem uint_of_neg {n : Int32} (h : n.toInt < 0) : (uint n.toInt : ℤ) = n.toInt+2^32 := by
  have h1 := n.le_toInt
  unfold uint
  omega

theorem span_le (size off n : ℕ) : span size off n ≤ n := by
  unfold span
  split_ifs <;> omega

theorem span_pos {size off : ℕ} {n : ℕ} (hoff : off < 2^32) (hn : n < 2^32)
    (h : span size off n ≠ 0) : off < size ∧ off+n < 2^32 := by
  unfold span at h
  split_ifs at h <;> omega

theorem read_inode_bounded {off : UInt32} {n : Int32} {addr : ℕ} {r : ℤ} {out : UserMem}
    (hsafe : ¬(n.toInt < 0 ∧ off.toNat < (s.itab ip).din.size.toNat ∧
      off.toNat+uint n.toInt < 2^32 ∧ (mem addr).isSome))
    (hrun : readiUser sb ip mem addr off.toNat (uint n.toInt) s = .ok ((r, out), t)) :
    r ≤ n.toInt.toNat ∧ Changed addr (addr+n.toInt.toNat) mem out := by
  have hlt := n.toInt_lt
  rw [readiUser_eq] at hrun
  have hle := span_le (s.itab ip).din.size.toNat off.toNat (uint n.toInt)
  have hspan := @span_pos (s.itab ip).din.size.toNat off.toNat (uint n.toInt) off.toNat_lt (by unfold uint; omega)
  generalize span (s.itab ip).din.size.toNat off.toNat (uint n.toInt) = c at hrun hle hspan
  by_cases hneg : n.toInt < 0
  · by_cases hc : c = 0
    · subst hc
      obtain ⟨hr, hmem⟩ := readiUserLoop_bound le_rfl mem addr off.toNat 0 (by omega) s _ t hrun
      exact ⟨hr.trans (by omega), hmem.mono (le_refl _) (by omega)⟩
    -- some bytes would be read, so the address is not mapped
    obtain ⟨h1, h2⟩ := hspan hc
    have hnone : mem addr = none := by
      by_contra hm
      exact hsafe ⟨hneg, h1, h2, Option.isSome_iff_ne_none.mpr hm⟩
    obtain ⟨c, rfl⟩ : ∃ c', c = c'+1 := ⟨c-1, by omega⟩
    have hres := readiUserLoop_unmapped (Nat.succ_pos c) hnone off.toNat 0 s _ t hrun
    obtain ⟨rfl, rfl⟩ := Prod.mk.inj hres
    exact ⟨by omega, Changed.refl _ _ _⟩
  · have hu := uint_of_nonneg (not_lt.mp hneg) hlt
    obtain ⟨hr, hmem⟩ := readiUserLoop_bound le_rfl mem addr off.toNat 0 (by omega) s _ t hrun
    exact ⟨hr.trans (by omega), hmem.mono (le_refl _) (by omega)⟩

theorem consoleread_bounded (turns : ℕ → Option Console.Cons) (n : Int32) (mem : UserMem) (addr : ℕ) :
    (consolereadLoop turns (uint n.toInt) n.toInt.toNat 0 mem addr n.toInt).1 ≤ n.toInt.toNat ∧
      Changed addr (addr+n.toInt.toNat) mem
        (consolereadLoop turns (uint n.toInt) n.toInt.toNat 0 mem addr n.toInt).2 := by
  by_cases hneg : n.toInt < 0
  · have hz : n.toInt.toNat = 0 := by omega
    have hint : int (uint n.toInt-n.toInt) = 0 := by
      rw [uint_of_neg hneg, add_sub_cancel_left]
      rfl
    rw [hz, consolereadLoop, hint]
    exact ⟨le_refl 0, Changed.refl _ _ mem⟩
  · exact consolereadLoop_bound turns n.toInt_lt (by omega) (le_refl _) 0 mem addr

theorem returned {a : ℤ × UserMem × FileKind} {r : ℤ} {out : UserMem} {k : FileKind}
    (h : (pure a : M (ℤ × UserMem × FileKind)) s = .ok ((r, out, k), t)) : a.1 = r ∧ a.2.1 = out := by
  obtain rfl : a = (r, out, k) := congrArg Prod.fst (Except.ok.inj h)
  exact ⟨rfl, rfl⟩

theorem bounded_of_not_exposed {f : OpenFile} {w : Waits} {addr : ℕ} {n : Int32}
    (h : ¬ Exposed sb f mem addr n s) : Bounded sb f w mem addr n s := by
  intro mem' hsame r out k t hrun
  have hfail : (-1 : ℤ) ≤ n.toInt.toNat := by omega
  unfold fileread at hrun
  split_ifs at hrun with hread
  · obtain ⟨rfl, rfl⟩ := returned hrun
    exact ⟨hfail, Changed.refl _ _ _⟩
  cases hk : f.kind with
  | pipe =>
    rw [hk] at hrun
    cases hp : w.pipe with
    | none =>
      simp only [filereadKind, hp] at hrun
      obtain ⟨rfl, rfl⟩ := returned hrun
      exact ⟨hfail, Changed.refl _ _ _⟩
    | some pi =>
      simp only [filereadKind, hp] at hrun
      obtain ⟨rfl, rfl⟩ := returned hrun
      exact pipereadLoop_bound addr n.toInt (Nat.zero_add _) pi mem'
  | device =>
    rw [hk] at hrun
    simp only [filereadKind] at hrun
    split_ifs at hrun
    · obtain ⟨rfl, rfl⟩ := returned hrun
      exact consoleread_bounded w.cons n mem' addr
    · obtain ⟨rfl, rfl⟩ := returned hrun
      exact ⟨hfail, Changed.refl _ _ _⟩
  | inode ip off =>
    rw [hk] at hrun
    obtain ⟨_, u, hlock, hrun⟩ := run_bind_ok hrun
    obtain ⟨a, v, hr, hrun⟩ := run_bind_ok hrun
    obtain ⟨_, _, -, hrun⟩ := run_bind_ok hrun
    obtain ⟨rfl, rfl⟩ := returned hrun
    refine read_inode_bounded ?_ hr
    rw [ilock_din hlock, hsame]
    rintro ⟨h1, h2, h3, h4⟩
    exact h ⟨ip, off, hk, Bool.eq_true_of_not_eq_false hread, h1, h2, h3, h4⟩

theorem copyout_first {dst : ℕ} (hdst : (mem dst).isSome) (b : UInt8) (bs : List UInt8) :
    (copyout mem dst (b :: bs)).1 dst = some b := by
  rw [copyout, if_pos hdst, copyout_changed _ (dst+1) bs dst (by omega), update_self]

theorem ilock_run (href : 0 < (s.itab ip).ref) (hlive : (coreParts sb s.toCore).Live sb ip) :
    ∃ t, ilock sb ip s = .ok ((), t) ∧ (coreParts sb t.toCore).Locked sb ip ∧
      (coreParts sb s.toCore).Same (coreParts sb t.toCore) ip := by
  have hrun : ∃ t, ilock sb ip s = .ok ((), t) := by
    rw [ilock_eq, if_neg (by omega)]
    by_cases hvalid : (s.itab ip).valid = true
    · exact ⟨s, if_pos hvalid⟩
    have hview : (coreParts sb s.toCore).view ip = getDinode (s.blocks (sb.iblock ip)) ip :=
      if_neg (fun h => hvalid h.2)
    have htype := hlive.2
    rw [hview] at htype
    exact ⟨_, by rw [if_neg hvalid, if_neg htype]⟩
  obtain ⟨t, ht⟩ := hrun
  obtain ⟨hl, hb, -, hv⟩ := ilock_ok ht
  exact ⟨t, ht, ⟨hl, hlive.1, by rw [← hl.view, hv]; exact hlive.2⟩, same_of_view hb hv⟩

theorem iunlock_run (href : 0 < (s.itab ip).ref) : iunlock ip s = .ok ((), s) := by
  have hdef : iunlock ip s = (if (s.itab ip).ref < 1 then throw .iunlock else pure () : M Unit) s := rfl
  rw [hdef, if_neg (by omega)]
  rfl

/-- fileread of an open inode returns, and copies the bytes of its range out. -/
theorem fileread_inode_run (w : Waits) (off : UInt32) (addr : ℕ) (n : Int32)
    (href : 0 < (s.itab ip).ref) (hlive : (coreParts sb s.toCore).Live sb ip)
    (hfull : (coreParts sb s.toCore).HoleFree ip) :
    ∃ bs : List UInt8, bs.length = span ((coreParts sb s.toCore).view ip).size.toNat off.toNat (uint n.toInt) ∧
      ∀ mem, ∃ r k t, fileread sb ⟨true, .inode ip off⟩ w mem addr n s = .ok ((r, (copyout mem addr bs).1, k), t) := by
  obtain ⟨t, hlock, hl, hsame⟩ := ilock_run href hlive
  have hsize : (t.itab ip).din = (coreParts sb s.toCore).view ip := ilock_din hlock
  have hfull' := hsame.holeFree hfull
  refine ⟨_, length_load ((coreParts sb t.toCore).byte ip) off.toNat _, fun mem => ?_⟩
  have hrun := readiUserLoop_run hl (n := span ((coreParts sb s.toCore).view ip).size.toNat off.toNat
    (uint n.toInt)) le_rfl mem addr off.toNat 0 (fun k _ hk => hfull'.block_ne ?_)
  · rw [← hsize, ← readiUser_eq, hsize] at hrun
    exact ⟨_, _, t, (run_bind hlock _).trans ((run_bind hrun _).trans (run_bind (iunlock_run hl.loaded.1) _))⟩
  · rw [hsame.view]
    unfold span at hk
    split_ifs at hk <;> omega

theorem Exposed.not_bounded {f : OpenFile} {w : Waits} {addr : ℕ} {n : Int32}
    (hx : Exposed sb f mem addr n s) (hopen : Opened sb f s) : ¬ Bounded sb f w mem addr n s := by
  intro hb
  obtain ⟨ip, off, hk, hread, hneg, hoff, hwrap, hmap⟩ := hx
  obtain ⟨href, hlive, hfull⟩ := hopen ip off hk
  obtain rfl : f = ⟨true, .inode ip off⟩ := by
    cases f
    simp only at hk hread
    rw [hk, hread]
  obtain ⟨bs, hlen, hrun⟩ := fileread_inode_run w off addr n href hlive hfull
  have hpos : bs.length ≠ 0 := by
    have hu := uint_of_neg hneg
    have h1 := n.le_toInt
    rw [hlen]
    unfold span
    split_ifs <;> omega
  -- in a memory that has another byte at addr, the first byte of the file shows
  cases bs with
  | nil => exact hpos rfl
  | cons b =>
    obtain ⟨r, k, t, ht⟩ := hrun (update mem addr (some (b+1)))
    have hmap' : (update mem addr (some (b+1)) addr).isSome := by
      rw [update_self]
      rfl
    have hch := (hb _ (fun a => ?_) r _ k t ht).2 addr (by omega)
    · rw [copyout_first hmap', update_self, Option.some_inj] at hch
      have hne : b ≠ b+1 := by
        intro h
        have := congrArg UInt8.toNat h
        simp at this
        omega
      exact hne hch
    · by_cases ha : a = addr
      · rw [ha, hmap', hmap]
      · rw [update_of_ne ha]

/-- fileread keeps to what was asked for exactly when no negative count gets through to readi. -/
theorem fileread_bounded_iff (sb : Superblock) (f : OpenFile) (w : Waits) (mem : UserMem) (addr : ℕ)
    (n : Int32) (s : Fs) :
    (¬ Exposed sb f mem addr n s → Bounded sb f w mem addr n s) ∧
      (Opened sb f s → (Bounded sb f w mem addr n s ↔ ¬ Exposed sb f mem addr n s)) :=
  ⟨bounded_of_not_exposed, fun hopen => ⟨fun hb hx => hx.not_bounded hopen hb, bounded_of_not_exposed⟩⟩

def noWaits : Waits := ⟨none, fun _ => none⟩

def rootOpen : Fs := { boot oneFile with itab := update (boot oneFile).itab 1 ⟨1, true, rootDinode 32⟩ }

theorem fileread_empty_bounded : Opened smallDisk ⟨true, .inode 2 0⟩ opened ∧
    Bounded smallDisk ⟨true, .inode 2 0⟩ noWaits (fun _ => some 7) 64 4 opened := by
  have hopen : Opened smallDisk ⟨true, .inode 2 0⟩ opened := by
    rintro ip off hk
    obtain ⟨rfl, rfl⟩ := FileKind.inode.inj hk
    exact ⟨Nat.one_pos, (opened_locked (by decide)).live, opened_holeFree smallDisk⟩
  refine ⟨hopen, ((fileread_bounded_iff _ _ _ _ _ _ _).2 hopen).mpr ?_⟩
  rintro ⟨ip, off, -, -, hneg, -⟩
  exact absurd hneg (by decide)

theorem rootOpen_opened : Opened smallDisk ⟨true, .inode 1 0⟩ rootOpen := by
  rintro ip off hk
  obtain ⟨rfl, rfl⟩ := FileKind.inode.inj hk
  refine ⟨Nat.one_pos, ⟨by decide, by decide⟩, fun bn hbn => ?_⟩
  have hsize : ((coreParts smallDisk rootOpen.toCore).view 1).size.toNat = 32 := rfl
  have hb : bsize = 1024 := rfl
  obtain rfl : bn = 0 := by
    rw [hsize, hb] at hbn
    omega
  decide

/-- read(fd, addr, -1) on the root directory stores its entries to memory. -/
theorem fileread_minus_one_unbounded :
    ¬ Bounded smallDisk ⟨true, .inode 1 0⟩ noWaits (fun _ => some 7) 0 (-1) rootOpen :=
  Exposed.not_bounded ⟨1, 0, rfl, rfl, by decide, by decide, by decide, rfl⟩ rootOpen_opened

end Xv6.Store
