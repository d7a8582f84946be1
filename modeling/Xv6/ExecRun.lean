import Xv6.ExecArgs
import Xv6.VmFork

/-! exec as a whole: it replaces the image of the process, or it leaves the process as it was. -/
namespace Xv6.Exec
open Function Hoare Vm Bytes List

def Inode.segments (ip : Inode) : List ProgHdr := Exec.segments ip.data ip.header.phnum (ip.header.phoff%2^32)

/-- The memory that the segments describe: each over the ones before it, and zeros elsewhere. -/
def Inode.image (ip : Inode) : ℕ → UInt8 := ip.segments.foldl (ProgHdr.overlay ip.data) (fun _ => 0)

def Inode.pages (ip : Inode) : ℕ := pageNum (endOf 0 ip.segments)

structure Inode.Loadable (ip : Inode) : Prop where
  length : (readi ip.data 0 elfhdrSize).length = elfhdrSize
  magic : ip.header.magic = elfMagic
  headers : HeadersIn ip.data ip.header.phnum (ip.header.phoff%2^32)
  segments : ∀ ph ∈ ip.segments, ph.Loadable ip.data

structure Loads (u : Ram) (ip : Inode) (im : Loaded) : Prop where
  sz : im.sz = pgsize*(ip.pages+2)
  memory : Stacked u im.pagetable ip.pages ip.image
  above : ∀ k, pgsize*ip.pages ≤ k → ip.image k = 0
  inFile : ∀ ph ∈ ip.segments, ph.vaddr+ph.filesz%2^32 ≤ pgsize*ip.pages ∧ ph.InFile ip.data
  entry : im.entry = ip.header.entry

variable {m : Machine} {R Q : Multiset ℕ} {s t u : Ram} {p p' : Proc} {ip : Inode} {path : List UInt8}
  {argv : List (List UInt8)} {calls : List FsCall} {pt n : ℕ}

theorem onRam_run {α : Type} {x : M α} {a : α} (h : x s = .ok (a, t)) : onRam x ⟨s, calls⟩ = .ok (a, ⟨t, calls⟩) := by
  rw [onRam]
  dsimp only
  rw [h]

theorem call_run (c : FsCall) (s : Ram) (calls : List FsCall) : call c ⟨s, calls⟩ = .ok ((), ⟨s, calls ++ [c]⟩) := rfl

def AtBad (m : Machine) (Q : Multiset ℕ) (tf : ℕ) (u : Ram) (b : Bad) : Prop :=
  (b.pagetable = 0 ∧ Heap m u Q) ∨ (b.pagetable ≠ 0 ∧ Space m (procMap m tf) Q u b.pagetable (pageNum b.sz))

def loadCalls : Except Bad Loaded → List FsCall
  | .error b => if b.locked then [.ilock] else [.ilock, .iunlockput, .endOp]
  | .ok _ => [.ilock, .iunlockput, .endOp]

theorem load_spec (h : Heap m s Q) (hm : m.pageCount < 2^26) (p : Proc) (ip : Inode) (calls : List FsCall) :
    ∃ r u, load m p ip ⟨s, calls⟩ = .ok (r, ⟨u, calls ++ loadCalls r⟩) ∧ Keeps Q s u ∧
      ((∃ b, r = .error b ∧ AtBad m Q p.trapframe u b ∧ (ip.Loadable → s.refuse = [] →
          m.pageCount ≤ Radix.size 512 2+(ip.pages+2+Q.card))) ∨
        ∃ im, r = .ok im ∧ im.pagetable ≠ 0 ∧
          Space m (procMap m p.trapframe) Q u im.pagetable (pageNum im.sz) ∧ Loads u ip im) := by
  rw [load, run_bind (call_run _ s calls)]
  have hnull {x : Ram} (hx : Heap m x Q) : AtBad m Q p.trapframe x ⟨0, 0, true⟩ := Or.inl ⟨rfl, hx⟩
  by_cases h1 : (readi ip.data 0 elfhdrSize).length = elfhdrSize
  case neg =>
    exact ⟨_, s, by rw [if_pos h1]; rfl, Keeps.refl Q s, Or.inl ⟨_, rfl, hnull h, fun hok => absurd hok.length h1⟩⟩
  by_cases h2 : ip.header.magic = elfMagic
  case neg =>
    exact ⟨_, s, by rw [if_neg (fun h => h h1), if_pos h2]; rfl, Keeps.refl Q s,
      Or.inl ⟨_, rfl, hnull h, fun hok => absurd hok.magic h2⟩⟩
  rw [if_neg (fun h => h h1), if_neg (fun h => h h2)]
  obtain ⟨pt, v, hrun, hkv, hpt⟩ := procPagetable_spec h p.trapframe
  rw [run_bind (onRam_run hrun)]
  rcases hpt with ⟨rfl, hv, hno⟩ | ⟨h0, hv, -⟩
  · refine ⟨_, v, by rw [if_pos rfl]; rfl, hkv, Or.inl ⟨_, rfl, hnull hv, fun _ hr => ?_⟩⟩
    by_contra hlt
    exact hno (grants_of_nil hr (by omega))
  have hlen : ip.data.length ≤ 2^32-pgsize := ip.size_le.trans maxsize_le
  obtain ⟨b, sz, w, hrun, hkw, hw, hb⟩ := @loadSegments_spec m Q v pt ip.header.phnum 0 (ip.header.phoff%2^32)
    p.trapframe ip.data (fun _ => 0) nofun hv (fun _ _ => rfl) hm hlen
  have hkw' := hkv.trans hkw
  rw [if_neg h0, run_bind (onRam_run hrun)]
  rcases hb with ⟨rfl, himg, hzero, rfl, hsegs⟩ | ⟨rfl, hall⟩
  · obtain ⟨b, sz', u, hrun, hku, hu, hb⟩ := stackPages_spec himg hw hzero hm
    rw [if_neg Bool.false_ne_true.symm, run_bind (call_run _ w _), run_bind (call_run _ w _), run_bind (onRam_run hrun)]
    rcases hb with ⟨rfl, rfl, hst⟩ | ⟨rfl, hall⟩
    · refine ⟨.ok ⟨pt, pgsize*(ip.pages+2), ip.header.entry⟩, u, ?_, hkw'.trans hku,
        Or.inr ⟨_, rfl, h0, hu, rfl, hst, hzero, fun ph hph => ?_, rfl⟩⟩
      · rw [if_neg Bool.false_ne_true.symm]
        simp only [loadCalls, append_assoc]
        rfl
      · exact ⟨(hsegs ph hph).1.trans (le_pageNum _), (hsegs ph hph).2⟩
    · refine ⟨.error ⟨pt, sz', false⟩, u, ?_, hkw'.trans hku,
        Or.inl ⟨_, rfl, Or.inr ⟨h0, hu⟩, fun _ hr => hall (hkw'.refuse hr)⟩⟩
      rw [if_pos rfl]
      simp only [loadCalls, append_assoc]
      rfl
  · refine ⟨_, w, rfl, hkw', Or.inl ⟨_, rfl, Or.inr ⟨h0, hw⟩, fun hok hr => ?_⟩⟩
    obtain ⟨ph, hph, hcard⟩ := hall hok.headers hok.segments (hkv.refuse hr)
    have hpages : pageNum (ph.vaddr+ph.memsz) ≤ ip.pages := pageNum_mono (seg_le_endOf hph 0)
    omega

theorem bad_spec {b : Bad} (h : AtBad m Q p.trapframe u b) (calls : List FsCall) : ∃ t, bad m p b ⟨u, calls⟩ =
        .ok ((-1, p), ⟨t, calls ++ if b.locked then [.iunlockput, .endOp] else []⟩) ∧
      Keeps Q u t ∧ Heap m t Q := by
  obtain ⟨t, hrun, hk, ht⟩ : ∃ t, freeTableIf m b.pagetable b.sz u = .ok ((), t) ∧ Keeps Q u t ∧ Heap m t Q := by
    rcases h with ⟨h0, hu⟩ | ⟨h0, hu⟩
    · exact ⟨u, by rw [freeTableIf, if_pos h0]; rfl, Keeps.refl Q u, hu⟩
    · obtain ⟨t, hrun, hk, ht⟩ := procFreepagetable_spec hu
      exact ⟨t, by rw [freeTableIf, if_neg h0, hrun], hk, ht⟩
  refine ⟨t, ?_, hk, ht⟩
  rw [bad, run_bind (onRam_run hrun)]
  cases b.locked with
  | false =>
    rw [if_neg Bool.false_ne_true, if_neg Bool.false_ne_true, append_nil]
    rfl
  | true =>
    rw [if_pos rfl, if_pos rfl, run_bind (call_run _ t _), run_bind (call_run _ t _), append_assoc]
    rfl

def execFrame (frame : Fin 512 → ℕ) (entry sp : ℕ) : Fin 512 → ℕ :=
  update (update (update frame frameA1 sp) frameEpc entry) frameSp sp

variable {im : Loaded}

theorem commit_spec {sp : ℕ} (path : List UInt8)
    (h : Space m (procMap m p.trapframe) (p.trapframe ::ₘ Q) u p.pagetable (pageNum p.sz)) :
    ∃ t, commit m p path im sp u = .ok (newProc p path im, t) ∧ Keeps Q u t ∧
      Heap m t (p.trapframe ::ₘ Q) ∧ t.word p.trapframe = execFrame (u.word p.trapframe) im.entry sp := by
  obtain ⟨h1, hk1, -⟩ := h.setPage (execFrame (u.word p.trapframe) im.entry sp)
  obtain ⟨t, hfree, hkt, ht⟩ := procFreepagetable_spec h1
  refine ⟨t, ?_, hk1.keeps.right.trans (hkt.mono (fun q hq => Multiset.mem_cons_of_mem hq)), ht, ?_⟩
  · have hwrite (i : Fin 512) (v : ℕ) (x : Ram) : writeWord p.trapframe i v x =
      .ok ((), x.setPage p.trapframe (update (x.word p.trapframe) i v)) := rfl
    rw [commit, run_bind (hwrite _ _ _), run_bind (hwrite _ _ _), run_bind (hwrite _ _ _)]
    simp only [Ram.setPage_self, Ram.setPage_setPage]
    exact run_bind hfree _
  · rw [hkt.word _ (Multiset.mem_cons_self _ _), Ram.setPage_self]

theorem userByte_keeps (h : Space m (procMap m p.trapframe) R s pt n)
    (hk : Keeps (tables s pt+frames s pt 0 n) s t) (va : ℕ) : userByte t pt va = userByte s pt va := by
  rw [userByte, userByte, userFrame_congr hk.left.word]
  cases hf : userFrame s pt va with
  | none => rfl
  | some f =>
    rw [Option.map_some, Option.map_some, byte_of_word (userFrame_aligned hf) (Nat.mod_lt _ (by decide))
      (hk.right.word f (h.userFrame hf).2.2)]

/-- The process has the new image, as it was in `v` before commit, and the old one is freed. -/
structure Replaced (m : Machine) (R : Multiset ℕ) (s v t : Ram) (p : Proc) (im : Loaded) (sp : ℕ) : Prop where
  space : Space m (procMap m p.trapframe) R t im.pagetable (pageNum im.sz)
  memory : ∀ k < pgsize*pageNum im.sz, memAt t im.pagetable k = memAt v im.pagetable k
  bytes : ∀ va, userByte t im.pagetable va = userByte v im.pagetable va
  frame : t.word p.trapframe = execFrame (s.word p.trapframe) im.entry sp
  rest : ∀ q ∈ R, q ≠ p.trapframe → t.word q = s.word q

def procPages (R : Multiset ℕ) (s : Ram) (p : Proc) : Multiset ℕ :=
  tables s p.pagetable+(frames s p.pagetable 0 (pageNum p.sz)+R)

theorem commit_replaces {sp : ℕ} (path : List UInt8)
    (h : Space m (procMap m p.trapframe) R s p.pagetable (pageNum p.sz)) (htf : p.trapframe ∈ R)
    (hk : Keeps (procPages R s p) s u)
    (hnew : Space m (procMap m p.trapframe) (procPages R s p) u im.pagetable (pageNum im.sz)) :
    ∃ t, commit m p path im sp u = .ok (newProc p path im, t) ∧ Replaced m R s u t p im sp := by
  obtain ⟨R, hR⟩ := Multiset.exists_cons_of_mem htf
  rw [hR] at h hk hnew ⊢
  have hheap := hnew.heap
  have hold : Space m (procMap m p.trapframe) (p.trapframe ::ₘ (tables u im.pagetable+
      (frames u im.pagetable 0 (pageNum im.sz)+R))) u p.pagetable (pageNum p.sz) := by
    refine h.congr hk.left ?_
    convert hheap using 1
    simp only [procPages, ← Multiset.singleton_add]
    abel
  obtain ⟨t, hrun, hkt, ht, hframe⟩ := @commit_spec m _ u p im sp path hold
  refine ⟨t, hrun, hnew.congr hkt.left ?_, fun k hkn => ?_, userByte_keeps hnew (hkt.mono ?_), ?_, fun q hq hne => ?_⟩
  · rwa [Multiset.add_cons, Multiset.add_cons]
  · have hkept : Kept R u t im.pagetable (pageNum im.sz) := ⟨fun k _ => hkt.left.pteOf k, hkt.right⟩
    exact hkept.memAt (hnew.lt hkn) hkn
  · intro q hq
    rw [← add_assoc]
    exact Multiset.mem_add.mpr (Or.inl hq)
  · rw [hframe, hk.right.right.word _ (Multiset.mem_cons_self _ _)]
  · have hqR : q ∈ R := (Multiset.mem_cons.mp hq).resolve_left hne
    rw [hkt.right.right.word q hqR, hk.right.right.word q hq]

def fsCalls : Option Inode → List FsCall
  | none => [.beginOp, .namei false, .endOp]
  | some _ => [.beginOp, .namei true, .ilock, .iunlockput, .endOp]

/-- What exec of a file is to do: the memory up to the stack is what the segments say, and the program
starts at its entry. -/
structure Executed (m : Machine) (R : Multiset ℕ) (s t : Ram) (p p' : Proc) (ip : Inode) : Prop where
  space : Space m (procMap m p.trapframe) R t p'.pagetable (pageNum p'.sz)
  image : ∀ k < p'.sz-pgsize, (memAt t p'.pagetable k).map Prod.snd = some (ip.image k)
  sz : p'.sz = pgsize*(ip.pages+2)
  inFile : ∀ ph ∈ ip.segments, ph.vaddr+ph.filesz%2^32 ≤ pgsize*ip.pages ∧ ph.InFile ip.data
  epc : t.word p.trapframe frameEpc = ip.header.entry
  trapframe : p'.trapframe = p.trapframe
  rest : ∀ q ∈ R, q ≠ p.trapframe → t.word q = s.word q

theorem finish_spec (h : Space m (procMap m p.trapframe) R s p.pagetable (pageNum p.sz))
    (htf : p.trapframe ∈ R) (hk : Keeps (procPages R s p) s u) (h0 : im.pagetable ≠ 0)
    (hnew : Space m (procMap m p.trapframe) (procPages R s p) u im.pagetable (pageNum im.sz))
    (hl : Loads u ip im) (path : List UInt8) (argv : List (List UInt8)) (calls : List FsCall) :
    ∃ r v, pushArgv im.pagetable im.sz argv u = .ok (r, v) ∧
      ((r = none ∧ ∃ t, finish m p path argv im ⟨u, calls⟩ = .ok ((-1, p), ⟨t, calls⟩) ∧
          Keeps (procPages R s p) s t ∧ Heap m t (procPages R s p)) ∨
        ∃ sp t, r = some sp ∧
          finish m p path argv im ⟨u, calls⟩ = .ok (((argv.length : ℤ), newProc p path im), ⟨t, calls⟩) ∧
          Replaced m R s v t p im sp ∧ Executed m R s t p (newProc p path im) ip) := by
  obtain ⟨n, hn⟩ : ∃ n, n = ip.pages := ⟨_, rfl⟩
  obtain ⟨hsz, hmem, habove, hfile, hentry⟩ := hl
  rw [← hn] at hsz hmem habove hfile
  have hnum : pageNum im.sz = n+2 := by rw [hsz, pageNum_mul]
  have hone : pgsize*(n+2) = pgsize*(n+1)+pgsize := Nat.mul_succ _ _
  have hzero : pgsize*(n+1) = pgsize*n+pgsize := Nat.mul_succ _ _
  have hbound := hnew.bound
  have hbase : pgsize*(n+1) ≤ (im.sz+(2^64-pgsize))%2^64 := by
    rw [hnum] at hbound
    rw [hsz]
    rw [trapframe, trampoline, maxva, pgsize] at *
    omega
  obtain ⟨r, v, hrun, hv, hkept⟩ := @pushArgv_safe m _ u im.pagetable _ p.trapframe argv (n+1) im.sz hnew (by omega)
    hbase
  have hkv := hk.trans hkept.keeps.right
  refine ⟨r, v, hrun, ?_⟩
  rw [finish, run_bind (onRam_run hrun)]
  cases r with
  | none =>
    obtain ⟨t, hbad, hkt, ht⟩ := @bad_spec m _ v p ⟨im.pagetable, im.sz, false⟩ (Or.inr ⟨h0, hv⟩) calls
    rw [if_neg Bool.false_ne_true, append_nil] at hbad
    exact Or.inl ⟨rfl, t, hbad, hkv.trans hkt, ht⟩
  | some sp =>
    obtain ⟨t, hcommit, hrep⟩ := @commit_replaces m R s v p im sp path h htf hkv hv
    refine Or.inr ⟨sp, t, rfl, run_bind (onRam_run hcommit) _, hrep, hrep.space, fun k hk' => ?_, ?_,
      fun ph hph => ?_, ?_, rfl, hrep.rest⟩
    · have hk' : k < im.sz-pgsize := hk'
      rw [hsz] at hk'
      have hlt : k < pgsize*pageNum im.sz := by
        rw [hnum]
        omega
      change (memAt t im.pagetable k).map Prod.snd = _
      rw [hrep.memory k hlt, hkept.memAt (hnew.lt hlt) (by omega)]
      by_cases hin : k < pgsize*n
      · rw [hmem.image k hin]
        rfl
      · rw [hmem.guard k (by omega) (by omega), habove k (by omega)]
        rfl
    · exact hsz.trans (by rw [hn])
    · rw [← hn]
      exact hfile ph hph
    · rw [hrep.frame, execFrame, update_of_ne (by decide), update_self, hentry]

structure Failed (m : Machine) (R : Multiset ℕ) (s t : Ram) (p : Proc) (r : ℤ) (p' : Proc) : Prop where
  result : r = -1
  proc : p' = p
  keeps : Keeps (procPages R s p) s t
  heap : Heap m t (procPages R s p)

theorem execInode_spec (hm : m.pageCount < 2^26)
    (h : Space m (procMap m p.trapframe) R s p.pagetable (pageNum p.sz)) (htf : p.trapframe ∈ R)
    (path : List UInt8) (ip : Inode) (argv : List (List UInt8)) (calls : List FsCall) :
    ∃ x u r p' t, load m p ip ⟨s, calls⟩ = .ok (x, u) ∧
      execInode m p path ip argv ⟨s, calls⟩ = .ok ((r, p'), ⟨t, calls ++ [.ilock, .iunlockput, .endOp]⟩) ∧
      ((∃ b, x = .error b ∧ Failed m R s t p r p' ∧ (ip.Loadable → s.refuse = [] →
          m.pageCount ≤ Radix.size 512 2+(ip.pages+2+(procPages R s p).card))) ∨
        ∃ im y v, x = .ok im ∧ pushArgv im.pagetable im.sz argv u.ram = .ok (y, v) ∧ Loads u.ram ip im ∧
          Space m (procMap m p.trapframe) (procPages R s p) u.ram im.pagetable (pageNum im.sz) ∧
          ((y = none ∧ Failed m R s t p r p') ∨
            ∃ sp, y = some sp ∧ r = argv.length ∧ p' = newProc p path im ∧ Replaced m R s v t p im sp ∧
              Executed m R s t p p' ip)) := by
  obtain ⟨x, u, hload, hku, hx⟩ := load_spec h.heap hm p ip calls
  refine ⟨x, ⟨u, calls ++ loadCalls x⟩, ?_⟩
  rw [execInode, run_bind hload]
  rcases hx with ⟨b, rfl, hb, hall⟩ | ⟨im, rfl, h0, hu, hl⟩
  · obtain ⟨t, hbad, hkt, ht⟩ := bad_spec hb (calls ++ loadCalls (.error b))
    refine ⟨-1, p, t, hload, ?_, Or.inl ⟨b, rfl, ⟨rfl, rfl, hku.trans hkt, ht⟩, hall⟩⟩
    rw [append_assoc] at hbad
    dsimp only
    rw [hbad]
    cases hlocked : b.locked with
    | false => simp only [loadCalls, hlocked, Bool.false_eq_true, ↓reduceIte, append_nil]
    | true => simp only [loadCalls, hlocked, ↓reduceIte, singleton_append]
  · obtain ⟨y, v, hpush, hy⟩ := finish_spec h htf hku h0 hu hl path argv (calls ++ loadCalls (.ok im))
    rcases hy with ⟨rfl, t, hfin, hkt, ht⟩ | ⟨sp, t, rfl, hfin, hrep, hex⟩
    · exact ⟨-1, p, t, hload, hfin, Or.inr ⟨im, none, v, rfl, hpush, hl, hu, Or.inl ⟨rfl, rfl, rfl, hkt, ht⟩⟩⟩
    · exact ⟨_, _, t, hload, hfin, Or.inr ⟨im, some sp, v, rfl, hpush, hl, hu, Or.inr ⟨sp, rfl, rfl, rfl, hrep, hex⟩⟩⟩

theorem exec_none (m : Machine) (p : Proc) (path : List UInt8) (argv : List (List UInt8)) (s : Ram)
    (calls : List FsCall) : exec m p path none argv ⟨s, calls⟩ = .ok ((-1, p), ⟨s, calls ++ fsCalls none⟩) := by
  unfold exec
  rw [run_bind (call_run _ s _), run_bind (call_run _ s _), append_assoc]
  dsimp only
  rw [run_bind (call_run _ s _), append_assoc]
  rfl

theorem exec_some (m : Machine) (p : Proc) (path : List UInt8) (ip : Inode) (argv : List (List UInt8)) (s : Ram)
    (calls : List FsCall) : exec m p path (some ip) argv ⟨s, calls⟩ =
      execInode m p path ip argv ⟨s, calls ++ [.beginOp, .namei true]⟩ := by
  unfold exec
  rw [run_bind (call_run _ s _), run_bind (call_run _ s _), append_assoc]
  rfl

theorem Loads.pushArgv (hl : Loads u ip im)
    (hu : Space m (procMap m p.trapframe) Q u im.pagetable (pageNum im.sz)) (hargv : Accepted argv) :
    ∃ r v, pushArgv im.pagetable im.sz argv u = .ok (r, v) ∧ ((r = none ∧ pgsize < total (pushes argv)) ∨
        ∃ sp ptrs, r = some sp ∧ total (pushes argv) ≤ pgsize ∧ Passed v im.pagetable im.sz sp argv ptrs) := by
  have hone : pgsize*(ip.pages+2) = pgsize*(ip.pages+1)+pgsize := Nat.mul_succ _ _
  have hbound := hu.bound
  have hsz := hl.sz
  rw [hsz, pageNum_mul] at hbound
  refine pushArgv_spec hu.userSpace (fun k hlo hhi => ?_) ?_ ?_ ?_ hargv
  · refine userMapped_of_byte (userByte_of_memAt ?_ (hl.memory.stack k (by omega) (by omega)) userFlags_user)
    exact (hhi.trans_le (hsz.le.trans hbound)).trans_le (by decide)
  · rw [hsz, pgsize]
    omega
  · exact (hsz.le.trans hbound).trans_lt (by decide)
  · rw [hsz, Nat.mul_mod_right]

/-- With enough pages, and kalloc not made to fail, exec of a file in order succeeds if its arguments
fit on the stack. -/
theorem exec_succeeds (hm : m.pageCount < 2^26)
    (h : Space m (procMap m p.trapframe) R s p.pagetable (pageNum p.sz)) (htf : p.trapframe ∈ R)
    (hok : ip.Loadable) (hr : s.refuse = [])
    (hroom : Radix.size 512 2+(ip.pages+2+(procPages R s p).card) < m.pageCount) (hargv : Accepted argv)
    (hfit : total (pushes argv) ≤ pgsize) (path : List UInt8) (calls : List FsCall) :
    ∃ im t, exec m p path (some ip) argv ⟨s, calls⟩ =
        .ok (((argv.length : ℤ), newProc p path im), ⟨t, calls ++ fsCalls (some ip)⟩) ∧
      Executed m R s t p (newProc p path im) ip := by
  obtain ⟨x, u, r, p', t, -, hrun, hx⟩ := execInode_spec hm h htf path ip argv (calls ++ [.beginOp, .namei true])
  rw [append_assoc] at hrun
  rcases hx with ⟨b, -, -, hall⟩ | ⟨im, y, v, -, hpush, hl, hu, hy⟩
  · exact absurd (hall hok hr) (by omega)
  obtain ⟨y', v', hpush', hy'⟩ := hl.pushArgv hu hargv
  rw [hpush] at hpush'
  cases hpush'
  rcases hy' with ⟨-, hno⟩ | ⟨sp, ptrs, rfl, -, -⟩
  · omega
  · rcases hy with ⟨hnone, -⟩ | ⟨sp', -, rfl, rfl, -, hex⟩
    · cases hnone
    · exact ⟨im, t, by rw [exec_some, hrun]; rfl, hex⟩

/-- Without a panic, exec returns -1 and leaves the process as it was, or the process has the image
that the file describes. -/
theorem exec_all_or_nothing (m : Machine) (hm : m.pageCount < 2^26) (R : Multiset ℕ) (s : Ram) (p : Proc)
    (path : List UInt8) (file : Option Inode) (argv : List (List UInt8)) (calls : List FsCall)
    (h : Space m (procMap m p.trapframe) R s p.pagetable (pageNum p.sz)) (htf : p.trapframe ∈ R) :
    ∃ r p' t, exec m p path file argv ⟨s, calls⟩ = .ok ((r, p'), ⟨t, calls ++ fsCalls file⟩) ∧
      ((r = -1 ∧ p' = p ∧ Unchanged R s t p) ∨ ∃ ip, file = some ip ∧ r = argv.length ∧ Executed m R s t p p' ip) := by
  cases file with
  | none => exact ⟨-1, p, s, exec_none m p path argv s calls, Or.inl ⟨rfl, rfl, h.unchanged (Keeps.refl _ s)⟩⟩
  | some ip =>
    obtain ⟨x, u, r, p', t, -, hrun, hx⟩ := execInode_spec hm h htf path ip argv (calls ++ [.beginOp, .namei true])
    refine ⟨r, p', t, ?_, ?_⟩
    · rw [exec_some, hrun, append_assoc]
      rfl
    rcases hx with ⟨b, -, hf, -⟩ | ⟨im, y, v, -, -, -, -, ⟨-, hf⟩ | ⟨sp, -, hr, -, -, hex⟩⟩
    · exact Or.inl ⟨hf.result, hf.proc, h.unchanged hf.keeps⟩
    · exact Or.inl ⟨hf.result, hf.proc, h.unchanged hf.keeps⟩
    · exact Or.inr ⟨ip, rfl, hr, hex⟩

def elfFile (entry : ℕ) (phs : List ProgHdr) : List UInt8 :=
  leBytes 4 elfMagic ++ List.replicate 20 0 ++ leBytes 8 entry ++ leBytes 8 elfhdrSize ++ List.replicate 16 0 ++
    leBytes 2 phs.length ++ List.replicate 6 0 ++ phs.flatMap (fun ph =>
      leBytes 4 ph.type ++ List.replicate 4 0 ++ leBytes 8 ph.off ++ leBytes 8 ph.vaddr ++ List.replicate 8 0 ++
        leBytes 8 ph.filesz ++ leBytes 8 ph.memsz ++ List.replicate 8 0)

def smallFile : Inode := ⟨elfFile 16 [⟨elfProgLoad, 0, 0, 120, 4096⟩], by decide⟩

def bigFile : Inode := ⟨elfFile 16 [⟨elfProgLoad, 0, 0, 2^32, 2^32⟩], by decide⟩

set_option maxRecDepth 4000 in
theorem smallFile_segments : smallFile.segments = [⟨elfProgLoad, 0, 0, 120, 4096⟩] := by decide

set_option maxRecDepth 4000 in
theorem bigFile_segments : bigFile.segments = [⟨elfProgLoad, 0, 0, 2^32, 2^32⟩] := by decide

set_option maxRecDepth 4000 in
theorem smallFile_loadable : smallFile.Loadable := by
  refine ⟨by decide, by decide, ⟨by decide, trivial⟩, fun ph hph => ?_⟩
  rw [smallFile_segments, mem_singleton] at hph
  subst hph
  refine ⟨by decide, by decide, by decide, by decide, fun k hk => ?_⟩
  have hlen : smallFile.data.length = 120 := by decide
  change k < 120%2^32 at hk
  change (0+k)%2^32 < _
  omega

set_option maxRecDepth 4000 in
theorem bigFile_loadable : bigFile.Loadable := by
  refine ⟨by decide, by decide, ⟨by decide, trivial⟩, fun ph hph => ?_⟩
  rw [bigFile_segments, mem_singleton] at hph
  subst hph
  exact ⟨by decide, by decide, by decide, by decide, fun k hk => absurd hk (Nat.not_lt_zero k)⟩

theorem nil_accepted : Accepted [] := ⟨by decide, nofun, nofun⟩

/-- There is a process of one page, with room on the machine for a program of 2^20 pages. -/
theorem roomy_process : ∃ s p, p.sz = 4096 ∧ s.refuse = [] ∧
    Space roomy (procMap roomy p.trapframe) {p.trapframe} s p.pagetable (pageNum p.sz) ∧
    ∀ n ≤ 2^20, Radix.size 512 2+(n+2+(procPages {p.trapframe} s p).card) < roomy.pageCount := by
  obtain ⟨s, pt, tf, -, hs, hr⟩ := one_page_exists
  refine ⟨s, procWith pt tf 4096, rfl, hr, hs, fun n hn => ?_⟩
  have hsize : Radix.size 512 2 = 262657 := by decide
  have hnum : pageNum 4096 = 1 := by decide
  have htables : (tables s pt).card ≤ Radix.size 512 2 := Radix.card_nodes_le
  have hcard : (procPages {tf} s (procWith pt tf 4096)).card = (tables s pt).card+2 := by
    change (tables s pt+(frames s pt 0 (pageNum 4096)+{tf})).card = _
    rw [Multiset.card_add, Multiset.card_add, card_frames, hnum, Multiset.card_singleton]
  change _+(n+2+(procPages {tf} s (procWith pt tf 4096)).card) < _
  rw [hcard, roomy_pageCount]
  omega

theorem small_program_all_or_nothing : ∃ s p, p.sz = 4096 ∧
    ∃ r p' t, exec roomy p [115, 104] (some smallFile) [[115, 104]] ⟨s, []⟩ =
        .ok ((r, p'), ⟨t, [] ++ fsCalls (some smallFile)⟩) ∧
      ((r = -1 ∧ p' = p ∧ Unchanged {p.trapframe} s t p) ∨ ∃ ip, some smallFile = some ip ∧ r = [[115, 104]].length ∧
          Executed roomy {p.trapframe} s t p p' ip) := by
  obtain ⟨s, p, hsz, -, hs, -⟩ := roomy_process
  exact ⟨s, p, hsz, exec_all_or_nothing roomy (by rw [roomy_pageCount]; decide) {p.trapframe} s p _ _ _ _ hs
    (Multiset.mem_singleton_self _)⟩

/-- exec takes the file size modulo 2^32 too: a segment of 2^32 bytes is accepted, although the file is
shorter, and none of its bytes is loaded. -/
theorem big_segment_not_loaded : ∃ s p p' t, p.sz = 4096 ∧
    Space roomy (procMap roomy p.trapframe) {p.trapframe} s p.pagetable (pageNum p.sz) ∧
    exec roomy p [] (some bigFile) [] ⟨s, []⟩ = .ok ((0, p'), ⟨t, fsCalls (some bigFile)⟩) ∧
    bigFile.segments = [⟨elfProgLoad, 0, 0, 2^32, 2^32⟩] ∧ bigFile.data[0]? = some 127 ∧
    (memAt t p'.pagetable 0).map Prod.snd = some 0 := by
  obtain ⟨s, p, hsz, hr, hs, hroom⟩ := roomy_process
  have hpages : bigFile.pages = 2^20 := by
    rw [Inode.pages, bigFile_segments]
    decide
  obtain ⟨im, t, hrun, hex⟩ := exec_succeeds (by rw [roomy_pageCount]; decide) hs (Multiset.mem_singleton_self _)
    bigFile_loadable hr (hroom bigFile.pages hpages.le) nil_accepted (by decide) [] []
  refine ⟨s, p, newProc p [] im, t, hsz, hs, hrun, bigFile_segments, by decide, ?_⟩
  have hzero : bigFile.image 0 = 0 := by
    rw [Inode.image, bigFile_segments]
    rfl
  rw [hex.image 0 ?_, hzero]
  rw [hex.sz, hpages]
  decide

end Xv6.Exec
