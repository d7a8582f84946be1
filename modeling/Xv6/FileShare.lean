import Xv6.StoreArray

/-! An open file that several processes share: fileread and filewrite of kernel/file.c on an inode.
A call of filewrite is a sequence of sections, each of which holds the lock of the inode, and other
calls run between them. -/
namespace Xv6.Store
open Bytes Hoare Runs List

-- ((MAXOPBLOCKS-1-1-2)/2)*BSIZE
def opMax : ℕ := (10-1-1-2)/2*bsize

def uint (n : ℤ) : ℕ := (n%2^32).toNat

def readSection (sb : Superblock) (ip : ℕ) (ok : ℕ → Bool) (addr off n : ℕ) : M (Option (List UInt8)) := do
  ilock sb ip
  let r ← readi sb ip ok addr off n
  iunlock ip
  return r

def writeSection (sb : Superblock) (ip : ℕ) (mem : ℕ → Option UInt8) (src off n : ℕ) : M (Option ℕ) := do
  ilock sb ip
  let r ← writei sb ip mem src off n
  iunlock ip
  return r

/-- What a process is doing with the file: `i` bytes of its filewrite of `n` are done. -/
inductive Call where
  | idle
  | writing (addr : ℕ) (n i : ℤ)
  | returned (r : ℤ)

/-- A section that has moved the offset, the offset that it found and the bytes that it has read
or written there. -/
structure Chunk where
  isWrite : Bool
  start : ℕ
  bytes : List UInt8
  deriving DecidableEq

/-- The shared `struct file`, with the file system under it, the calls of the processes, and the
chunks in the order in which they had the lock. -/
structure Shared where
  fs : Fs
  readable : Bool
  writable : Bool
  off : ℕ
  calls : ℕ → Call
  chunks : List Chunk

def Shared.setCall (s : Shared) (pid : ℕ) (c : Call) : Shared := { s with calls := Function.update s.calls pid c }

-- if((r = ...) > 0) f->off += r
def Shared.advance (s : Shared) (isWrite : Bool) (bs : List UInt8) : Shared :=
  if 0 < bs.length then
    { s with
      off := (s.off+bs.length)%2^32
      chunks := s.chunks ++ [⟨isWrite, s.off, bs⟩] }
  else s

def userBytes (mem : ℕ → Option UInt8) (src m : ℕ) : List UInt8 := (List.range m).map (fun k => (mem (src+k)).getD 0)

def filereadInode (sb : Superblock) (ip : ℕ) (s : Shared) (pid : ℕ) (ok : ℕ → Bool) (addr : ℕ) (n : ℤ) :
    Option Shared :=
  if s.readable = false then some (s.setCall pid (.returned (-1)))
  else match readSection sb ip ok addr s.off (uint n) s.fs with
    | .error _ => none
    | .ok (none, t) => some ({ s with fs := t }.setCall pid (.returned (-1)))
    | .ok (some bs, t) => some (({ s with fs := t }.advance false bs).setCall pid (.returned bs.length))

def filewriteTurn (sb : Superblock) (ip : ℕ) (s : Shared) (pid : ℕ) (mem : ℕ → Option UInt8)
    (addr : ℕ) (n i : ℤ) : Option Shared :=
  if i < n then
    match writeSection sb ip mem (addr+i.toNat) s.off (min (n-i).toNat opMax) s.fs with
    | .error _ => none
    | .ok (r, t) => some (({ s with fs := t }.advance true
        (userBytes mem (addr+i.toNat) (r.getD 0))).setCall pid
          (if r = some (min (n-i).toNat opMax) then .writing addr n (i+min (n-i).toNat opMax)
            else .returned (-1)))
  else some (s.setCall pid (.returned (if i = n then n else -1)))

inductive FileEvent where
  | read (pid : ℕ) (ok : ℕ → Bool) (addr : ℕ) (n : ℤ)
  | write (pid : ℕ) (addr : ℕ) (n : ℤ)
  | turn (pid : ℕ) (mem : ℕ → Option UInt8)
  | other (t : Fs)

/-- A fileread, the entry of a filewrite, a turn of its loop, or anything that happens to the file
system otherwise. There is no next state after a panic. -/
def shareStep (sb : Superblock) (ip : ℕ) (s : Shared) : FileEvent → Option Shared
  | .read pid ok addr n => match s.calls pid with
    | .writing _ _ _ => none
    | _ => filereadInode sb ip s pid ok addr n
  | .write pid addr n => match s.calls pid with
    | .writing _ _ _ => none
    | _ => some (s.setCall pid (if s.writable = false then .returned (-1) else .writing addr n 0))
  | .turn pid mem => match s.calls pid with
    | .writing addr n i => filewriteTurn sb ip s pid mem addr n i
    | _ => none
  | .other t => some { s with fs := t }

variable {sb : Superblock} {ip : ℕ} {s t : Fs}

/-! The offset: whatever happens to the file system, a section that reads or writes bytes has
found the offset below the largest size. -/

variable {n off src off0 : ℕ} {mem : ℕ → Option UInt8} {u v : Shared} {e : FileEvent}

theorem readiLoop_length (ok : ℕ → Bool) {fuel : ℕ} (hfuel : n ≤ fuel) (dst off : ℕ) (acc : List UInt8) :
    Returns (readiLoop sb ip ok fuel dst off n acc) (fun r => ∀ bs, r = some bs → bs.length = acc.length+n) := by
  induction fuel generalizing dst off n acc with
  | zero =>
    apply Returns.pure
    rintro _ ⟨⟩
    omega
  | succ fuel ih =>
    apply Returns.ite
    · intro hn
      apply Returns.pure
      rintro _ ⟨⟩
      omega
    intro hn
    have hmod : off%bsize < bsize := Nat.mod_lt _ (by decide)
    refine Returns.skip (fun b => Returns.skip (fun blk => ?_))
    apply Returns.ite
    · intro _
      refine (ih (n := n-min n (bsize-off%bsize)) (by omega) _ _ _).mono (fun r hr bs hbs => ?_)
      rw [hr bs hbs, length_append, length_load]
      omega
    · exact fun _ => Returns.pure nofun

theorem readi_bound (ok : ℕ → Bool) (dst off n : ℕ) : Returns (readi sb ip ok dst off n)
    (fun r => 0 < (r.getD []).length → off+(r.getD []).length < 2^32) := by
  refine Returns.skip (fun d => ?_)
  have hsize := d.size.toNat_lt
  apply Returns.ite
  · exact fun _ => Returns.pure (fun hpos => absurd hpos (lt_irrefl 0))
  intro hbad
  refine (readiLoop_length ok le_rfl dst off []).mono (fun r hr hpos => ?_)
  cases r with
  | none => exact absurd hpos (lt_irrefl 0)
  | some bs =>
    have hlen := hr bs rfl
    rw [length_nil] at hlen
    rw [Option.getD_some]
    split_ifs at hlen <;> omega

theorem writeiLoop_bound (mem : ℕ → Option UInt8) {fuel : ℕ} (hfuel : n ≤ fuel) (src off : ℕ) :
    Returns (writeiLoop sb ip mem fuel src off n) (fun fin => off ≤ fin ∧ fin ≤ off+n) := by
  induction fuel generalizing src off n with
  | zero => exact Returns.pure (by omega)
  | succ fuel ih =>
    apply Returns.ite
    · exact fun _ => Returns.pure (by omega)
    intro hn
    have hmod : off%bsize < bsize := Nat.mod_lt _ (by decide)
    refine Returns.skip (fun b => Returns.skip (fun blk => Returns.skip (fun _ => ?_)))
    apply Returns.ite
    · intro _
      refine (ih (n := n-min n (bsize-off%bsize)) (by omega) _ _).mono (fun fin hfin => ?_)
      omega
    · exact fun _ => Returns.pure (by omega)

theorem writei_bound (mem : ℕ → Option UInt8) (src : ℕ) (hoff : off < 2^32) (hn : n < 2^32) :
    Returns (writei sb ip mem src off n) (fun r => off+r.getD 0 < 2^32) := by
  refine Returns.skip (fun d => ?_)
  apply Returns.ite
  · exact fun _ => Returns.pure hoff
  intro hbad
  apply Returns.ite
  · exact fun _ => Returns.pure hoff
  intro hmax
  refine (writeiLoop_bound mem le_rfl src off).bind (fun fin hfin => ?_)
  refine Returns.skip (fun _ => Returns.skip (fun _ => Returns.pure ?_))
  rw [Option.getD_some]
  omega

theorem section_returns {α : Type} {x : M α} {A : α → Prop} (h : Returns x A) :
    Returns (do ilock sb ip; let r ← x; iunlock ip; return r) A :=
  Returns.skip (fun _ => h.bind (fun _ hr => Returns.skip (fun _ => Returns.pure hr)))

structure Consecutive (off0 : ℕ) (s : Shared) : Prop where
  off : s.off = off0+(s.chunks.map (fun c => c.bytes.length)).sum
  start : ∀ pre c post, s.chunks = pre ++ c :: post → c.start = off0+(pre.map (fun c => c.bytes.length)).sum
  lt : s.off < 2^32

theorem Consecutive.advance {s : Shared} (h : Consecutive off0 s) (isWrite : Bool)
    (bs : List UInt8) (hbs : 0 < bs.length → s.off+bs.length < 2^32) :
    Consecutive off0 (s.advance isWrite bs) := by
  unfold Shared.advance
  split_ifs with hpos
  · have hlt := hbs hpos
    refine ⟨?_, fun pre c post heq => ?_, Nat.mod_lt _ (by decide)⟩
    · simp only [map_append, map_cons, map_nil, sum_append, sum_cons, sum_nil]
      rw [Nat.mod_eq_of_lt hlt, h.off]
      omega
    rcases eq_nil_or_concat' post with rfl | ⟨post, d, rfl⟩
    · obtain ⟨rfl, hc⟩ := append_inj' heq rfl
      rw [← (List.cons.inj hc).1]
      exact h.off
    · have heq' : s.chunks ++ [⟨isWrite, s.off, bs⟩] = (pre ++ c :: post) ++ [d] :=
        heq.trans (by rw [append_assoc, cons_append])
      exact h.start pre c post (append_inj' heq' rfl).1
  · exact h

theorem shareStep_cases (h : shareStep sb ip u e = some v) : (∃ w, e = .other w ∧ v = { u with fs := w }) ∨
    (∃ pid c, v = u.setCall pid c) ∨
    (∃ pid c ok addr n r w, readSection sb ip ok addr u.off (uint n) u.fs = .ok (r, w) ∧
      v = ({ u with fs := w }.advance false (r.getD [])).setCall pid c) ∨
    (∃ pid c mem src n r w, n < 2^32 ∧ writeSection sb ip mem src u.off n u.fs = .ok (r, w) ∧
      v = ({ u with fs := w }.advance true (userBytes mem src (r.getD 0))).setCall pid c) := by
  have hread (pid : ℕ) (ok : ℕ → Bool) (addr : ℕ) (n : ℤ) (h : filereadInode sb ip u pid ok addr n = some v) :
      (∃ pid c, v = u.setCall pid c) ∨
      (∃ pid c ok addr n r w, readSection sb ip ok addr u.off (uint n) u.fs = .ok (r, w) ∧
        v = ({ u with fs := w }.advance false (r.getD [])).setCall pid c) := by
    unfold filereadInode at h
    split_ifs at h
    · exact Or.inl ⟨pid, _, (Option.some.inj h).symm⟩
    right
    split at h
    · cases h
    · rename_i w hw
      exact ⟨pid, _, ok, addr, n, none, w, hw, (Option.some.inj h).symm⟩
    · rename_i bs w hw
      exact ⟨pid, _, ok, addr, n, some bs, w, hw, (Option.some.inj h).symm⟩
  have hwrite (pid : ℕ) (mem : ℕ → Option UInt8) (addr : ℕ) (n i : ℤ)
      (h : filewriteTurn sb ip u pid mem addr n i = some v) :
      (∃ pid c, v = u.setCall pid c) ∨
      (∃ pid c mem src n r w, n < 2^32 ∧ writeSection sb ip mem src u.off n u.fs = .ok (r, w) ∧
        v = ({ u with fs := w }.advance true (userBytes mem src (r.getD 0))).setCall pid c) := by
    unfold filewriteTurn at h
    by_cases hin : i < n
    · rw [if_pos hin] at h
      right
      split at h
      · cases h
      · rename_i r w hw
        have hmax : min (n-i).toNat opMax < 2^32 := (Nat.min_le_right ..).trans_lt (by decide)
        exact ⟨pid, _, mem, _, _, r, w, hmax, hw, (Option.some.inj h).symm⟩
    · rw [if_neg hin] at h
      exact Or.inl ⟨pid, _, (Option.some.inj h).symm⟩
  cases e with
  | read pid ok addr n =>
    simp only [shareStep] at h
    split at h
    · cases h
    · exact Or.inr ((hread pid ok addr n h).imp id Or.inl)
  | write pid =>
    simp only [shareStep] at h
    split at h
    · cases h
    · exact Or.inr (Or.inl ⟨pid, _, (Option.some.inj h).symm⟩)
  | turn pid mem =>
    simp only [shareStep] at h
    split at h
    · rename_i addr n i _
      exact Or.inr ((hwrite pid mem addr n i h).imp id Or.inr)
    · cases h
  | other w => exact Or.inl ⟨w, rfl, (Option.some.inj h).symm⟩

theorem length_userBytes (mem : ℕ → Option UInt8) (src m : ℕ) : (userBytes mem src m).length = m := by
  rw [userBytes, length_map, length_range]

theorem Consecutive.step (h : Consecutive off0 u) (hstep : shareStep sb ip u e = some v) : Consecutive off0 v := by
  obtain ⟨w, -, rfl⟩ | ⟨pid, c, rfl⟩ | ⟨pid, c, ok, addr, n, r, w, hw, rfl⟩ |
    ⟨pid, c, mem, src, n, r, w, hn, hw, rfl⟩ := shareStep_cases hstep
  · exact ⟨h.off, h.start, h.lt⟩
  · exact ⟨h.off, h.start, h.lt⟩
  · have hfs : Consecutive off0 { u with fs := w } := ⟨h.off, h.start, h.lt⟩
    have hadv := hfs.advance false (r.getD []) (section_returns (readi_bound ok addr u.off _) u.fs r w hw)
    exact ⟨hadv.off, hadv.start, hadv.lt⟩
  have hfs : Consecutive off0 { u with fs := w } := ⟨h.off, h.start, h.lt⟩
  have hadv := hfs.advance true (userBytes mem src (r.getD 0)) (fun _ => by
    rw [length_userBytes]
    exact section_returns (writei_bound mem src h.lt hn) u.fs r w hw)
  exact ⟨hadv.off, hadv.start, hadv.lt⟩

/-! The contents: on a disk whose blocks have one owner each, sections leave what is below the
offset alone. -/

def fileBytes (sb : Superblock) (ip : ℕ) (s : Fs) : List UInt8 := (coreParts sb s.toCore).contents ip

structure FileOk (sb : Superblock) (ip : ℕ) (s : Fs) : Prop where
  owned : Owned sb s.toCore
  allocs : ∀ r ∈ s.allocs, Unused sb r.1 r.2
  live : (coreParts sb s.toCore).Live sb ip
  full : (coreParts sb s.toCore).HoleFree ip

theorem same_of_view (hb : t.blocks = s.blocks) (hv : (coreParts sb t.toCore).view = (coreParts sb s.toCore).view) :
    (coreParts sb s.toCore).Same (coreParts sb t.toCore) ip := by
  have hdata : (coreParts sb t.toCore).data = (coreParts sb s.toCore).data := hb
  exact ⟨by rw [hv], fun bn => by rw [Parts.block, hv, hdata, Parts.block], fun bn _ => by rw [hdata]⟩

theorem FileOk.of_view (h : FileOk sb ip s) (hb : t.blocks = s.blocks) (ha : t.allocs = s.allocs)
    (hv : (coreParts sb t.toCore).view = (coreParts sb s.toCore).view) :
    FileOk sb ip t ∧ fileBytes sb ip t = fileBytes sb ip s := by
  have hdata : (coreParts sb t.toCore).data = (coreParts sb s.toCore).data := hb
  have hbit : (coreParts sb t.toCore).bit = (coreParts sb s.toCore).bit := by simp only [coreParts, hb]
  have hsame : (coreParts sb s.toCore).Same (coreParts sb t.toCore) ip := same_of_view hb hv
  refine ⟨⟨?_, ha ▸ h.allocs, ⟨h.live.1, by rw [hv]; exact h.live.2⟩, hsame.holeFree h.full⟩, hsame.contents⟩
  have ho := h.owned
  unfold Owned Parts.Owned Parts.use at ho ⊢
  rwa [hv, hdata, hbit]

def readIn (sb : Superblock) (ip : ℕ) (s : Fs) : Fs := { s with
    itab := Function.update s.itab ip { s.itab ip with valid := true, din := getDinode (s.blocks (sb.iblock ip)) ip } }

theorem view_readIn (hvalid : ¬(s.itab ip).valid = true) :
    (coreParts sb (readIn sb ip s).toCore).view = (coreParts sb s.toCore).view := by
  funext j
  by_cases hj : j = ip
  · subst hj
    simp [Parts.view, coreParts, readIn, hvalid]
  · exact Parts.view_congr (Function.update_of_ne hj ..) rfl

theorem ilock_eq (sb : Superblock) (ip : ℕ) (s : Fs) : ilock sb ip s =
    if (s.itab ip).ref < 1 then .error .ilock else if (s.itab ip).valid then .ok ((), s)
    else if (getDinode (s.blocks (sb.iblock ip)) ip).type = 0 then .error .ilockNoType
    else .ok ((), readIn sb ip s) := by
  have hdef : ilock sb ip s = (if (s.itab ip).ref < 1 then throw .ilock
    else if (s.itab ip).valid then pure () else loadInode sb ip : M Unit) s := rfl
  have hload : loadInode sb ip s = (if (getDinode (s.blocks (sb.iblock ip)) ip).type = 0
    then throw .ilockNoType else pure () : M Unit) (readIn sb ip s) := rfl
  rw [hdef]
  split_ifs with href hvalid htype
  · rfl
  · rfl
  · rw [hload, if_pos htype]
    rfl
  · rw [hload, if_neg htype]
    rfl

theorem ilock_ok (h : ilock sb ip s = .ok ((), t)) : (coreParts sb t.toCore).Loaded ip ∧ t.blocks = s.blocks ∧
    t.allocs = s.allocs ∧ (coreParts sb t.toCore).view = (coreParts sb s.toCore).view := by
  rw [ilock_eq] at h
  split_ifs at h with href hvalid
  · cases h
    exact ⟨⟨Nat.pos_of_ne_zero (by simpa [coreParts] using href), hvalid⟩, rfl, rfl, rfl⟩
  cases h
  refine ⟨?_, rfl, rfl, view_readIn hvalid⟩
  simp only [Parts.Loaded, coreParts, readIn, Function.update_self, and_true]
  omega

theorem FileOk.ilock (h : FileOk sb ip s) (hrun : ilock sb ip s = .ok ((), t)) :
    FileOk sb ip t ∧ fileBytes sb ip t = fileBytes sb ip s ∧ (coreParts sb t.toCore).Locked sb ip := by
  obtain ⟨hl, hb, ha, hv⟩ := ilock_ok hrun
  obtain ⟨hok, hbytes⟩ := h.of_view hb ha hv
  exact ⟨hok, hbytes, hl, h.live.1, by rw [← hl.view]; exact hok.live.2⟩

theorem FileOk.iunlock {r : Unit} (hrun : iunlock ip s = .ok (r, t)) : t = s := by
  have hdef : Store.iunlock ip s = (if (s.itab ip).ref < 1 then throw .iunlock else pure () : M Unit) s := rfl
  rw [hdef] at hrun
  split_ifs at hrun
  · cases hrun
  · exact (congrArg Prod.snd (Except.ok.inj hrun)).symm

/-- A read section returns the bytes from the offset on and changes nothing of the file. -/
theorem FileOk.readSection (h : FileOk sb ip s) {ok : ℕ → Bool} {addr : ℕ} {r : Option (List UInt8)}
    (hn : n < 2^32) (hrun : readSection sb ip ok addr off n s = .ok (r, t)) :
    FileOk sb ip t ∧ fileBytes sb ip t = fileBytes sb ip s ∧
      ∀ bs, r = some bs → bs = ((fileBytes sb ip s).drop off).take bs.length := by
  obtain ⟨_, u, hu, hrun⟩ := run_bind_ok hrun
  obtain ⟨hok, hbytes, hl⟩ := h.ilock hu
  rw [run_bind (readi_run hl hok.full hn)] at hrun
  obtain ⟨_, v, hv, hrun⟩ := run_bind_ok hrun
  obtain rfl := FileOk.iunlock hv
  cases hrun
  refine ⟨hok, hbytes, fun bs hbs => ?_⟩
  have htake (l : List UInt8) : l.take n = l.take (l.take n).length := by rw [length_take, ← take_eq_take_min]
  change (coreParts sb t.toCore).contents ip = (coreParts sb s.toCore).contents ip at hbytes
  rw [hbytes] at hbs
  split_ifs at hbs
  · cases hbs
    exact htake _
  · cases hbs
    rfl

theorem Wrote.contents_take {p p' : Parts} {i : ℕ} {fin : ℕ} {x : Dinode}
    (hf : p.HoleFree i) (hl : p.Locked sb i) (hw : Wrote sb i mem src off n fin p p')
    (hoff : off ≤ (p.view i).size.toNat) (hx : Grown sb i fin p p' x) :
    (p'.update i x).HoleFree i ∧ ((p'.update i x).contents i).take fin =
      (p.contents i).take off ++ userBytes mem src (fin-off) := by
  have hfull : (p'.update i x).HoleFree i := by
    intro bn hbn
    rw [hx.view] at hbn
    exact hw.full hf hl hoff hx.view hx.addrs hx.size hbn
  have hle := hw.le
  have htake (q : Parts) {k : ℕ} (hk : k ≤ (q.view i).size.toNat) : (q.contents i).take k = load (q.content i) 0 k := by
    have h := load_drop_take (q.content i) (q.view i).size.toNat 0 k
    rwa [drop_zero, Nat.sub_zero, Nat.min_eq_left hk] at h
  refine ⟨hfull, ?_⟩
  rw [htake _ (by rw [hx.view, hx.size]; exact Nat.le_max_left ..), htake p hoff,
    show fin = off+(fin-off) by omega, load_append, Nat.add_sub_cancel_left, Nat.zero_add]
  congr 1
  · apply load_congr
    intro k hk
    have hold : k < (p.view i).size.toNat := by omega
    rw [Nat.zero_add, hfull.content (by rw [hx.view, hx.size]; omega), update_byte hx.view hx.addrs, hf.content hold]
    exact hw.writes.byte k (hf.block_ne hold) (Or.inl hk)
  apply map_congr_left
  intro k hk
  have hk' := mem_range.mp hk
  rw [hfull.content (by rw [hx.view, hx.size]; omega), update_byte hx.view hx.addrs,
    (hw.copied k (by omega)).2, Option.getD_some]

/-- A write section keeps what is below the offset and puts its bytes behind it. -/
theorem FileOk.writeSection (hg : Geometry sb) (h : FileOk sb ip s)
    {r : Option ℕ} (hn : n < 2^32) (hrun : writeSection sb ip mem src off n s = .ok (r, t)) :
    FileOk sb ip t ∧ (r = none → fileBytes sb ip t = fileBytes sb ip s) ∧
      ∀ m, r = some m → off ≤ (fileBytes sb ip s).length ∧
        (fileBytes sb ip t).take (off+m) = (fileBytes sb ip s).take off ++ userBytes mem src m := by
  obtain ⟨_, u, hu, hrun1⟩ := run_bind_ok hrun
  obtain ⟨hok, hbytes, hl⟩ := h.ilock hu
  obtain ⟨r', v, hwrite, hrun2⟩ := run_bind_ok hrun1
  obtain ⟨_, w, hw, hrun3⟩ := run_bind_ok hrun2
  obtain rfl := FileOk.iunlock hw
  cases hrun3
  have hs : At sb (coreParts sb u.toCore) u := ⟨fun _ _ => rfl, rfl, fun _ _ => rfl, fun _ _ _ => rfl, hok.allocs⟩
  have hd : incore ip u = .ok ((u.itab ip).din, u) := rfl
  have hv : (coreParts sb u.toCore).view ip = (u.itab ip).din := hl.loaded.view
  have hlen : (fileBytes sb ip u).length = ((coreParts sb u.toCore).view ip).size.toNat := length_load ..
  have hsize := ((coreParts sb u.toCore).view ip).size.toNat_lt
  rw [← hbytes]
  rw [writei, run_bind hd, ← hv] at hwrite
  split_ifs at hwrite with hbad hmax
  · cases hwrite
    exact ⟨hok, fun _ => rfl, by rintro _ ⟨⟩⟩
  · cases hwrite
    exact ⟨hok, fun _ => rfl, by rintro _ ⟨⟩⟩
  obtain ⟨fin, x, hloop, hend⟩ := run_bind_ok hwrite
  obtain ⟨q, hq, hx⟩ := (writeiLoop_room (E := fun _ => True) hg mem le_rfl (Or.inl (fun _ _ => trivial))
    hok.owned hl).run_ok hs hloop
  have hle := hq.le
  have hgrown := hq.grown hl (by omega)
  have hspec : Triple (fun _ => True) (At sb q) (do
      setIncore ip (grow fin)
      iupdate sb ip
      return some (fin-off) : M (Option ℕ))
      (fun r s => r = some (fin-off) ∧ At sb (q.update ip (grow fin (q.view ip))) s) := by
    rw [(hq.writes.locked hl).loaded.view]
    exact .bind (setIncore_spec ip _) (fun _ => Triple.bind (iupdate_spec hg hl.lt)
      (fun _ => Triple.pure (fun s hs => ⟨rfl, hs⟩)))
  obtain ⟨rfl, ht⟩ := hspec.run_ok hx hend
  obtain ⟨hfull, hcontents⟩ := hq.contents_take hok.full hl (by omega) hgrown
  have hlive : (q.update ip (grow fin (q.view ip))).Live sb ip :=
    ⟨hl.lt, by rw [hgrown.view, hgrown.type]; exact hl.live.2⟩
  have hsame := ht.same hgrown.owned hlive
  refine ⟨⟨ht.owned hgrown.owned, ht.allocs, ⟨hl.lt, by rw [hsame.view]; exact hlive.2⟩, hsame.holeFree hfull⟩,
    by rintro ⟨⟩, fun m hm => ⟨by omega, ?_⟩⟩
  cases hm
  rw [Nat.add_sub_cancel' hle.1, fileBytes, hsame.contents, hcontents, fileBytes]

/-- Nobody else writes to the inode or truncates it. -/
def Undisturbed (sb : Superblock) (ip : ℕ) (s : Shared) : FileEvent → Prop
  | .other t => FileOk sb ip t ∧ fileBytes sb ip t = fileBytes sb ip s.fs
  | _ => True

structure Kept (sb : Superblock) (ip off0 : ℕ) (s : Shared) : Prop extends Consecutive off0 s where
  ok : FileOk sb ip s.fs
  span : ((fileBytes sb ip s.fs).take s.off).drop off0 = s.chunks.flatMap (fun c => c.bytes)

theorem Consecutive.le {s : Shared} (h : Consecutive off0 s) : off0 ≤ s.off := by
  rw [h.off]
  exact Nat.le_add_right ..

theorem Kept.advance (h : Kept sb ip off0 u) {w : Fs} (hw : FileOk sb ip w)
    (isWrite : Bool) (bs : List UInt8) (hbound : 0 < bs.length → u.off+bs.length < 2^32)
    (hbs : (fileBytes sb ip w).take (u.off+bs.length) = (fileBytes sb ip u.fs).take u.off ++ bs)
    (hlen : 0 < bs.length → u.off ≤ (fileBytes sb ip u.fs).length) :
    Kept sb ip off0 ({ u with fs := w }.advance isWrite bs) := by
  have hcons : Consecutive off0 { u with fs := w } := ⟨h.off, h.start, h.lt⟩
  refine ⟨hcons.advance isWrite bs hbound, ?_, ?_⟩
  · unfold Shared.advance
    split_ifs <;> exact hw
  unfold Shared.advance
  split_ifs with hpos
  · simp only [flatMap_append, flatMap_cons, flatMap_nil, append_nil, Nat.mod_eq_of_lt (hbound hpos)]
    rw [hbs, drop_append_of_le_length, h.span]
    rw [length_take, Nat.min_eq_left (hlen hpos)]
    exact h.le
  obtain rfl := eq_nil_of_length_eq_zero (Nat.eq_zero_of_not_pos hpos)
  rw [length_nil, Nat.add_zero, append_nil] at hbs
  change ((fileBytes sb ip w).take u.off).drop off0 = _
  rw [hbs]
  exact h.span

theorem Kept.setCall (h : Kept sb ip off0 u) (pid : ℕ) (c : Call) : Kept sb ip off0 (u.setCall pid c) :=
  ⟨⟨h.off, h.start, h.lt⟩, h.ok, h.span⟩

theorem Kept.step (hg : Geometry sb) (h : Kept sb ip off0 u)
    (he : Undisturbed sb ip u e) (hstep : shareStep sb ip u e = some v) : Kept sb ip off0 v := by
  obtain ⟨w, rfl, rfl⟩ | ⟨pid, c, rfl⟩ | ⟨pid, c, ok, addr, n, r, w, hw, rfl⟩ |
    ⟨pid, c, mem, src, n, r, w, hn, hw, rfl⟩ := shareStep_cases hstep
  · exact ⟨⟨h.off, h.start, h.lt⟩, he.1, by rw [he.2]; exact h.span⟩
  · exact h.setCall pid c
  · have hn : uint n < 2^32 := by
      unfold uint
      omega
    obtain ⟨hok, hbytes, hres⟩ := h.ok.readSection hn hw
    refine (h.advance hok false _ (section_returns (readi_bound ok addr u.off _) u.fs r w hw) ?_
      (fun hpos => ?_)).setCall pid c
    · rw [hbytes]
      cases r with
      | none => rw [Option.getD_none, length_nil, Nat.add_zero, append_nil]
      | some bs =>
        rw [Option.getD_some, take_add]
        congr 1
        exact (hres bs rfl).symm
    cases r with
    | none => exact absurd hpos (lt_irrefl 0)
    | some bs =>
      have hlen := congrArg List.length (hres bs rfl)
      rw [Option.getD_some] at hpos
      rw [length_take, length_drop] at hlen
      omega
  · obtain ⟨hok, hnone, hsome⟩ := h.ok.writeSection hg hn hw
    refine (h.advance hok true _ (fun _ => ?_) ?_ (fun hpos => ?_)).setCall pid c
    · rw [length_userBytes]
      exact section_returns (writei_bound mem src h.lt hn) u.fs r w hw
    · rw [length_userBytes]
      cases r with
      | none => exact congrArg (List.take u.off) (hnone rfl) |>.trans (append_nil _).symm
      | some m => exact (hsome m rfl).2
    rw [length_userBytes] at hpos
    cases r with
    | none => exact absurd hpos (lt_irrefl 0)
    | some m => exact (hsome m rfl).1

theorem disjoint_of_consecutive {l : List Chunk}
    (h : ∀ pre c post, l = pre ++ c :: post → c.start = off0+(pre.map (fun c => c.bytes.length)).sum) :
    l.Pairwise (fun c d => c.start+c.bytes.length ≤ d.start) := by
  induction l generalizing off0 with
  | nil => exact List.Pairwise.nil
  | cons c l ih =>
    have hhead : c.start = off0 := h [] c l rfl
    refine pairwise_cons.mpr ⟨fun d hd => ?_, @ih (off0+c.bytes.length) (fun pre d post heq => ?_)⟩
    · obtain ⟨pre, post, rfl⟩ := append_of_mem hd
      rw [h (c :: pre) d post rfl, hhead, map_cons, sum_cons]
      omega
    · rw [h (c :: pre) d post (by rw [heq]; rfl), map_cons, sum_cons, Nat.add_assoc]

/-- Processes that share an open file use ranges of it that follow one another in the order of their
sections. As long as nobody else writes to the file or truncates it, these ranges hold what was
written and read there. -/
theorem shared_file_chunks_kept (hg : Geometry sb) {s0 s : Shared} (hchunks : s0.chunks = []) (hoff : s0.off < 2^32) :
    (Reach (shareStep sb ip) (fun _ _ => True) s0 s → s.off = s0.off+(s.chunks.map (fun c => c.bytes.length)).sum ∧
      (∀ pre c post, s.chunks = pre ++ c :: post → c.start = s0.off+(pre.map (fun c => c.bytes.length)).sum) ∧
      s.chunks.Pairwise (fun c d => c.start+c.bytes.length ≤ d.start)) ∧
    (FileOk sb ip s0.fs → Reach (shareStep sb ip) (Undisturbed sb ip) s0 s →
      ((fileBytes sb ip s.fs).take s.off).drop s0.off = s.chunks.flatMap (fun c => c.bytes) ∧
      ∀ c ∈ s.chunks, ((fileBytes sb ip s.fs).drop c.start).take c.bytes.length = c.bytes) := by
  have h0 : Consecutive s0.off s0 := by
    refine ⟨by rw [hchunks]; rfl, fun pre c post heq => ?_, hoff⟩
    rw [hchunks] at heq
    exact absurd heq.symm (by simp)
  refine ⟨fun hreach => ?_, fun hok hreach => ?_⟩
  · have h := hreach.invariant h0 (fun u e v hu _ hv => hu.step hv)
    exact ⟨h.off, h.start, disjoint_of_consecutive h.start⟩
  have hkept : Kept sb ip s0.off s0 := by
    refine ⟨h0, hok, ?_⟩
    rw [hchunks, flatMap_nil, drop_eq_nil_iff]
    exact length_take_le ..
  have h := hreach.invariant hkept (fun u e v hu he hv => hu.step hg he hv)
  refine ⟨h.span, fun c hc => ?_⟩
  -- the chunk is where the lengths of those before it say
  obtain ⟨pre, post, heq⟩ := append_of_mem hc
  have hstart := h.start pre c post heq
  have hspan := h.span
  have hend := h.off
  rw [heq, map_append, map_cons, sum_append, sum_cons] at hend
  rw [heq, flatMap_append, flatMap_cons] at hspan
  have hdrop := congrArg (fun l => (l.drop (pre.map (fun c => c.bytes.length)).sum).take c.bytes.length) hspan
  have hpre : (pre.flatMap (fun c => c.bytes)).length = (pre.map (fun c => c.bytes.length)).sum := length_flatMap
  simp only [drop_drop, ← hpre, drop_left, take_left, drop_take, take_take] at hdrop
  rwa [Nat.min_eq_left (by omega), hpre, ← hstart] at hdrop

def sharedFile : Shared := ⟨opened, true, true, 0, fun _ => .idle, []⟩

theorem sharedFile_ok : FileOk smallDisk 2 sharedFile.fs where
  owned := opened_owned
  allocs := fun _ hr => absurd hr not_mem_nil
  live := (opened_locked (by decide)).live
  full := opened_holeFree smallDisk

def FileEvent.isOwn : FileEvent → Bool
  | .other _ => false
  | _ => true

theorem undisturbed_of_isOwn (s : Shared) (e : FileEvent) (h : e.isOwn = true) : Undisturbed sb ip s e := by
  cases e with
  | other => cases h
  | _ => trivial

/-- The second writer gets in between the entry of the first one and its turn. -/
theorem shared_file_two_writers : ∃ s, Reach (shareStep smallDisk 2) (Undisturbed smallDisk 2) sharedFile s ∧
    s.chunks = [⟨true, 0, [7]⟩, ⟨true, 1, [8, 9]⟩] ∧ s.off = 3 ∧
    ((fileBytes smallDisk 2 s.fs).take s.off).drop 0 = [7, 8, 9] := by
  have hrun : (run (fun u e => if FileEvent.isOwn e = true then shareStep smallDisk 2 u e else none)
      sharedFile [.write 0 0 2, .write 1 0 1, .turn 1 (kernelMem [7]), .turn 0 (kernelMem [8, 9])]).map
        (fun s => s.chunks) = some [⟨true, 0, [7]⟩, ⟨true, 1, [8, 9]⟩] := by
    decide
  obtain ⟨s, hs, hchunks⟩ := Option.map_eq_some_iff.mp hrun
  have hreach : Reach (shareStep smallDisk 2) (Undisturbed smallDisk 2) sharedFile s :=
    (Reach.of_run (C := fun _ e => FileEvent.isOwn e = true) hs).mono undisturbed_of_isOwn
  obtain ⟨hoff, hspan⟩ := @shared_file_chunks_kept smallDisk 2 smallDisk_geometry sharedFile s rfl (by decide)
  refine ⟨s, hreach, hchunks, ?_, ?_⟩
  · rw [(hoff (hreach.mono (fun _ _ _ => trivial))).1, hchunks]
    rfl
  · have hbytes := (hspan sharedFile_ok hreach).1
    rw [hchunks] at hbytes
    exact hbytes

end Xv6.Store
