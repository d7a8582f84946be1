import Xv6.StoreFinish
import Xv6.TxnModel

/-! A write whose source cannot be read to its end: the bytes that either_copyin has copied into the
buffer stay there without log_write. -/
namespace Xv6.Txn
open Function Bytes Hoare Store List
variable {sb : Superblock} {i b : ℕ} {s t u v w : State}

/-- What the loop of writei has done when it stops at `fin` before the end: the turns up to there
were complete, and the copy of the next one was not. -/
structure Torn (sb : Superblock) (i : ℕ) (mem : ℕ → Option UInt8) (src off n fin : ℕ) (s u : State) : Prop where
  le : off ≤ fin
  lt : fin < off+n
  aligned : off < fin → fin%bsize = 0
  readable : ∀ k < fin-off, (mem (src+k)).isSome = true
  stopped : ∃ w b v, (∀ fuel, fin-off ≤ fuel → writeiLoop sb i mem fuel src off (fin-off) s = .ok (fin, w)) ∧
    bmap sb i (fin/bsize) w = .ok (b, v) ∧ Coherent v ∧
    (copyin mem (src+(fin-off)) (min (off+n-fin) (bsize-fin%bsize))).length ≠ min (off+n-fin) (bsize-fin%bsize) ∧
    u = v.fill b (store (v.blocks b) (fin%bsize) (copyin mem (src+(fin-off)) (min (off+n-fin) (bsize-fin%bsize))))

theorem readable_append {mem : ℕ → Option UInt8} {src m n : ℕ} (hfull : (copyin mem src m).length = m)
    (h : ∀ k < n, (mem (src+m+k)).isSome = true) (k : ℕ) (hk : k < m+n) : (mem (src+k)).isSome = true := by
  by_cases hkm : k < m
  · have hk' : k < (copyin mem src m).length := by rw [hfull]; exact hkm
    rw [(copyin_get hk').2]
    rfl
  · have hk' := h (k-m) (by omega)
    rwa [Nat.add_assoc, Nat.add_sub_cancel' (not_lt.mp hkm)] at hk'

theorem Torn.cons {mem : ℕ → Option UInt8} {src off n fin m : ℕ}
    (hm : m = min n (bsize-off%bsize)) (hv : bmap sb i (off/bsize) s = .ok (b, v))
    (hfull : (copyin mem src m).length = m)
    (h : Torn sb i mem (src+m) (off+m) (n-m) fin
      ((v.fill b (store (v.blocks b) (off%bsize) (copyin mem src m))).log b) u) :
    Torn sb i mem src off n fin s u := by
  have hb : bsize = 1024 := rfl
  have hmod : off%bsize < bsize := Nat.mod_lt _ (by decide)
  have hle := h.le
  have hlt := h.lt
  have hm' : m = bsize-off%bsize := by omega
  have hsrc : src+m+(fin-(off+m)) = src+(fin-off) := by omega
  have hend : off+m+(n-m)-fin = off+n-fin := by omega
  obtain ⟨w, b', v', hrun, hv', hco, hshort, hu⟩ := h.stopped
  rw [hsrc, hend] at hshort hu
  refine ⟨by omega, by omega, fun _ => ?_, fun k hk => ?_, w, b', v', fun fuel hfuel => ?_, hv', hco, hshort, hu⟩
  · by_cases hfin : off+m < fin
    · exact h.aligned hfin
    · rw [show fin = off+(bsize-off%bsize) by omega, hb]
      omega
  · exact readable_append hfull h.readable k (by omega)
  cases fuel with
  | zero => omega
  | succ fuel =>
    have hmin : m = min (fin-off) (bsize-off%bsize) := by omega
    rw [writeiLoop_succ (by omega) hmin hv, if_pos hfull, show fin-off-m = fin-(off+m) by omega]
    exact hrun fuel (by omega)

theorem writeiLoop_torn {mem : ℕ → Option UInt8} {fuel src off n fin : ℕ} (hfuel : n ≤ fuel)
    (hs : Coherent s) (h : writeiLoop sb i mem fuel src off n s = .ok (fin, u)) :
    (fin = off+n ∧ Coherent u ∧ ∀ k < n, (mem (src+k)).isSome = true) ∨ Torn sb i mem src off n fin s u := by
  have hb : bsize = 1024 := rfl
  induction fuel generalizing src off n s with
  | zero =>
    cases h
    exact Or.inl ⟨by omega, hs, fun k hk => by omega⟩
  | succ fuel ih =>
    by_cases hn : n = 0
    · rw [writeiLoop, if_pos hn] at h
      cases h
      exact Or.inl ⟨by omega, hs, fun k hk => by omega⟩
    obtain ⟨m, hm⟩ : ∃ m, m = min n (bsize-off%bsize) := ⟨_, rfl⟩
    have hmod : off%bsize < bsize := Nat.mod_lt _ (by decide)
    obtain ⟨b, v, hv, ⟨hfull, hrest⟩ | ⟨hshort, rfl, rfl⟩⟩ := writeiLoop_succ_ok hn hm h
    · rcases ih (by omega) ((hs.bmap hv).write b _) hrest with ⟨hfin, hu, hread⟩ | htorn
      · exact Or.inl ⟨by omega, hu, fun k hk => readable_append hfull hread k (by omega)⟩
      · exact Or.inr (htorn.cons hm hv hfull)
    refine Or.inr ⟨le_rfl, by omega, fun hlt => absurd hlt (lt_irrefl _), fun k hk => by omega, s, b, v,
      fun f _ => ?_, hv, hs.bmap hv, ?_⟩
    · rw [Nat.sub_self]
      cases f <;> rfl
    · rw [Nat.sub_self, Nat.add_zero, Nat.add_sub_cancel_left, ← hm]
      exact ⟨hshort, rfl⟩

section Parts
variable {p q r : Parts} {mem : ℕ → Option UInt8} {src off n fin : ℕ}

variable {cs : List UInt8} {f : Fs}

theorem wrote_torn {c : ℕ} (hl : p.Locked sb i) (hw : Wrote sb i mem src off (fin-off) fin p q) (hq : Filled sb i q r c)
    (h0 : r.block i (fin/bsize) ≠ 0) (hlt : fin < off+n)
    (hcs : cs.length ≤ min (off+n-fin) (bsize-fin%bsize))
    (hstop : ¬∀ k < n, (mem (src+k)).isSome = true) :
    Wrote sb i mem src off n fin p (r.setData (r.block i (fin/bsize))
      (store (r.data (r.block i (fin/bsize))) (fin%bsize) cs)) ∧
    ∀ j, p.block i (j/bsize) ≠ 0 → ¬(off ≤ j ∧ j < fin) →
      (r.setData (r.block i (fin/bsize)) (store (r.data (r.block i (fin/bsize))) (fin%bsize) cs)).byte i j =
        if fin ≤ j ∧ j < fin+cs.length then cs.getD (j-fin) 0 else p.byte i j := by
  have hle := hw.le
  have hql := hw.writes.locked hl
  have hrl := hq.fills.locked hql
  have hcs' : cs.length ≤ min cs.length (bsize-fin%bsize) := by omega
  have hfill : Writes sb i fin (fin+cs.length) q r := hq.fills.writes hql.live
  have hchunk := writes_chunk hq.owned hrl h0 hcs'
  -- what the turn does behind `fin`
  have hturn := hfill.trans hchunk hql.live
  refine ⟨⟨hq.owned.setData hrl h0 _, ?_, by omega, fun k hk => ?_, fun hall => absurd hall hstop⟩, fun j hj hout => ?_⟩
  · exact (hw.writes.mono (by omega) (by omega)).trans (hturn.mono (by omega) (by omega)) hl.live
  · obtain ⟨hne, hmem⟩ := hw.copied k hk
    rw [hturn.block i _ hql.live (fun _ => hne), hturn.byte _ hne (by omega)]
    exact ⟨hne, hmem⟩
  have hqj : q.block i (j/bsize) ≠ 0 := by
    rw [hw.writes.block i _ hl.live (fun _ => hj)]
    exact hj
  split_ifs with hin
  · have hbyte := (byte_chunk hq.owned hrl h0 hcs' (k := j-fin) (by omega)).1
    rwa [Nat.add_sub_cancel' hin.1] at hbyte
  · rw [hturn.byte j hqj (by omega), hw.writes.byte j hj (by omega)]

end Parts

def Evicted (u : State) (f : Fs) : Prop := ∃ blocks : ℕ → Block, (∀ b, blocks b = u.blocks b ∨ blocks b = u.home b) ∧
    f = { u.toFs with blocks := blocks }

def Reads (sb : Superblock) (i : ℕ) (f : Fs) (bs : List UInt8) : Prop :=
  ∀ (ok : ℕ → Bool) (dst off n : ℕ), off < 2^32 → n < 2^32 → (∀ k < n, ok (dst+k) = true) →
    readi sb i ok dst off n f = .ok (some (if off+n < 2^32 then (bs.drop off).take n else []), f)

theorem reads_iff (hl : (coreParts sb f.toCore).Locked sb i)
    (hf : (coreParts sb f.toCore).HoleFree i) {bs : List UInt8} (hbs : bs.length < 2^32) :
    Reads sb i f bs ↔ fileBytes sb i f = bs := by
  constructor
  · intro h
    have hlen : ((coreParts sb f.toCore).contents i).length < 2^32 := by
      rw [Parts.contents, length_load]
      exact UInt32.toNat_lt _
    have hall := h (fun _ => true) 0 0 (2^32-1) (by omega) (by omega) (fun _ _ => rfl)
    rw [readi_run hl hf (by omega), if_pos (by omega), if_pos (fun _ _ => rfl), if_pos (by omega),
      drop_zero, drop_zero, take_of_length_le (by omega),
      take_of_length_le (by omega)] at hall
    exact Option.some.inj (Prod.mk.inj (Except.ok.inj hall)).1
  · rintro rfl ok dst off n _ hn hok
    rw [readi_run hl hf hn, if_pos (fun k hk => hok k (hk.trans_le (Nat.min_le_left ..)))]
    split_ifs <;> rfl

theorem evicted_finish {x : State} {g : Dinode → Dinode} {r r' : Option ℕ}
    (hx : ∀ c, c ≠ b → x.home c = x.blocks c) (hb : b ≠ sb.iblock i)
    (h : (do lift (setIncore i g); iupdate sb i; return r' : T (Option ℕ)) x = .ok (r, u))
    (hf : Evicted u f) : (f.blocks b = x.blocks b ∨ f.blocks b = x.home b) ∧ u.blocks b = x.blocks b ∧
      (do setIncore i g; Store.iupdate sb i : M Unit)
        { x.toFs with blocks := update x.blocks b (f.blocks b) } = .ok ((), f) := by
  cases h
  obtain ⟨blocks, hblocks, rfl⟩ := hf
  -- the two contents of the inode's block are the same
  have hbuf (c : ℕ) : blocks c = update x.blocks (sb.iblock i) (putDinode
      (x.blocks (sb.iblock i)) i (g (x.itab i).din)) c ∨ blocks c = update x.home (sb.iblock i)
        (putDinode (x.blocks (sb.iblock i)) i (g (x.itab i).din)) c := by
    have hdin : (update x.itab i { x.itab i with din := g (x.itab i).din } i).din =
        g (x.itab i).din := by rw [update_self]
    rw [← hdin]
    refine (hblocks c).imp id (fun h => h.trans ?_)
    change update (if sb.iblock i ∈ x.logged then update x.home (sb.iblock i) _ else x.home)
      (sb.iblock i) (update x.blocks (sb.iblock i) _ (sb.iblock i)) c = _
    rw [update_self]
    split_ifs
    · rw [update_idem]
    · rfl
  refine ⟨?_, update_of_ne hb .., ?_⟩
  · have h := hbuf b
    rwa [update_of_ne hb, update_of_ne hb] at h
  have heq : update (update x.blocks b (blocks b)) (sb.iblock i) (putDinode
      (update x.blocks b (blocks b) (sb.iblock i)) i (g (x.itab i).din)) = blocks := by
    funext c
    have h := hbuf c
    rw [update_of_ne hb.symm]
    by_cases hc : c = sb.iblock i
    · rw [hc, update_self, update_self, or_self] at h
      rw [hc, update_self, h]
    rw [update_of_ne hc, update_of_ne hc] at h
    rw [update_of_ne hc]
    by_cases hcb : c = b
    · rw [hcb, update_self]
    · rw [hx c hcb, or_self] at h
      rw [update_of_ne hcb, h]
  have hrun : (do setIncore i g; Store.iupdate sb i : M Unit)
      { x.toFs with blocks := update x.blocks b (blocks b) } = .ok ((),
        { x.toFs with
          itab := update x.itab i { x.itab i with din := g (x.itab i).din }
          blocks := update (update x.blocks b (blocks b)) (sb.iblock i) (putDinode
            (update x.blocks b (blocks b) (sb.iblock i)) i
              (update x.itab i { x.itab i with din := g (x.itab i).din } i).din) }) := rfl
  rw [hrun, update_self, heq]
  rfl

theorem copyin_succ (mem : ℕ → Option UInt8) (src m : ℕ) : copyin mem src (m+1) =
    match mem src with
    | none => []
    | some x => x :: copyin mem (src+1) m := by
  have hsucc : (fun k => mem (src+k)) ∘ Nat.succ = fun k => mem (src+1+k) :=
    funext (fun k => congrArg mem (by simp only [Nat.succ_eq_add_one]; omega))
  rw [copyin, range_succ_eq_map, map_cons, map_map, hsucc, Nat.add_zero]
  cases mem src <;> rfl

theorem copyin_stops {mem : ℕ → Option UInt8} {src m : ℕ} (h : (copyin mem src m).length ≠ m) :
    (copyin mem src m).length < m ∧ mem (src+(copyin mem src m).length) = none := by
  induction m generalizing src with
  | zero => exact absurd rfl h
  | succ m ih =>
    rw [copyin_succ] at h ⊢
    cases hx : mem src with
    | none => exact ⟨Nat.succ_pos m, hx⟩
    | some =>
      rw [hx] at h
      have hne : (copyin mem (src+1) m).length ≠ m := fun heq => h (congrArg Nat.succ heq)
      obtain ⟨hlt, hnone⟩ := ih hne
      refine ⟨Nat.succ_lt_succ hlt, ?_⟩
      rwa [Nat.add_assoc, Nat.add_comm 1] at hnone

/-- Where the source stops being readable, what has been copied to the last block before is what
the file has there. -/
def Harmless (mem : ℕ → Option UInt8) (src off n : ℕ) (old : List UInt8) : Prop :=
  ∀ k < n, (∀ j < k, (mem (src+j)).isSome = true) → mem (src+k) = none →
    ∀ j, off ≤ j → (off+k)/bsize*bsize ≤ j → j < off+k → j < old.length → mem (src+(j-off)) = old[j]?

/-- For a copy that stops after `cs` the condition is about the bytes of `cs`. -/
theorem harmless_iff {mem : ℕ → Option UInt8} {src off n fin m : ℕ} {old : List UInt8} (hle : off ≤ fin)
    (hlt : fin < off+n) (haligned : off < fin → fin%bsize = 0)
    (hread : ∀ k < fin-off, (mem (src+k)).isSome = true) (hm : m = min (off+n-fin) (bsize-fin%bsize))
    (hshort : (copyin mem (src+(fin-off)) m).length ≠ m) : Harmless mem src off n old ↔
      ∀ j, fin ≤ j → j < fin+(copyin mem (src+(fin-off)) m).length → j < old.length →
        some ((copyin mem (src+(fin-off)) m).getD (j-fin) 0) = old[j]? := by
  have hb : bsize = 1024 := rfl
  have hmod : fin%bsize < bsize := Nat.mod_lt _ (by decide)
  obtain ⟨hlen, hnone⟩ := copyin_stops hshort
  obtain ⟨l, hl⟩ : ∃ l, l = (copyin mem (src+(fin-off)) m).length := ⟨_, rfl⟩
  have hget {j : ℕ} (hj : fin ≤ j) (hjl : j < fin+l) :
      mem (src+(j-off)) = some ((copyin mem (src+(fin-off)) m).getD (j-fin) 0) := by
    have hk : j-fin < (copyin mem (src+(fin-off)) m).length := by omega
    have h := (copyin_get hk).2
    rwa [show src+(fin-off)+(j-fin) = src+(j-off) by omega] at h
  rw [← hl] at hlen hnone ⊢
  -- the byte at which the source stops lies in the block of `fin`
  have hblock : (fin+l)/bsize*bsize ≤ fin ∧ (off < fin → fin ≤ (fin+l)/bsize*bsize) := by
    rw [hb] at hm haligned ⊢
    refine ⟨by omega, fun h => ?_⟩
    have := haligned h
    omega
  have hsome {j : ℕ} (hj : j < fin-off+l) : (mem (src+j)).isSome = true := by
    by_cases hjf : j < fin-off
    · exact hread j hjf
    have h := hget (j := off+j) (by omega) (by omega)
    rw [Nat.add_sub_cancel_left] at h
    rw [h]
    rfl
  have hnone' : mem (src+(fin-off+l)) = none := by rwa [← Nat.add_assoc]
  constructor
  · intro h j hj hjl hold
    rw [← hget hj hjl]
    exact h (fin-off+l) (by omega) (fun j hj => hsome hj) hnone' j (by omega)
      (by rw [show off+(fin-off+l) = fin+l by omega]; omega) (by omega) hold
  intro h k hk hall hstop j hj hjb hjk hold
  obtain rfl : k = fin-off+l := by
    rcases Nat.lt_trichotomy k (fin-off+l) with hlt' | heq | hgt
    · have := hsome hlt'
      rw [hstop] at this
      cases this
    · exact heq
    · have := hall _ hgt
      rw [hnone'] at this
      cases this
  rw [show off+(fin-off+l) = fin+l by omega] at hjb hjk
  have hfj : fin ≤ j := by omega
  rw [hget hfj hjk]
  exact h j hfj hjk hold

def tornBytes (mem : ℕ → Option UInt8) (src off fin : ℕ) (cs : List UInt8) (old : ByteMem) (size : ℕ) : List UInt8 :=
  load (mixed mem src off fin (store old fin cs)) 0 (max fin size)

theorem Coherent.fill_other (hv : Coherent v) {data : Block} {c : ℕ} (hc : c ≠ b) :
    (v.fill b data).home c = (v.fill b data).blocks c := by
  change (if _ then update v.home _ _ else v.home) c = update v.blocks _ _ c
  rw [hv]
  split_ifs
  · rfl
  · rw [update_of_ne hc]

theorem Coherent.fill_evicted (hv : Coherent v) {a : ℕ} {blk : Block}
    (h : blk = (v.fill b (store (v.blocks b) a cs)).blocks b ∨ blk = (v.fill b (store (v.blocks b) a cs)).home b) :
    ∃ cs', (cs' = cs ∨ cs' = [] ∧ blk ≠ (v.fill b (store (v.blocks b) a cs)).blocks b) ∧
      blk = store (v.blocks b) a cs' := by
  have hblocks : (v.fill b (store (v.blocks b) a cs)).blocks b = store (v.blocks b) a cs := update_self ..
  by_cases heq : blk = (v.fill b (store (v.blocks b) a cs)).blocks b
  · exact ⟨cs, Or.inl rfl, heq.trans hblocks⟩
  refine ⟨[], Or.inr ⟨rfl, heq⟩, ?_⟩
  have hnil : store (v.blocks b) a [] = v.blocks b := by
    funext k
    rw [store, length_nil, if_neg (by omega)]
  have hhome := h.resolve_left heq
  change blk = (if b ∈ v.logged then update v.home b _ else v.home) b at hhome
  by_cases hin : b ∈ v.logged
  · rw [if_pos hin, update_self, ← hblocks] at hhome
    exact absurd hhome heq
  · rw [if_neg hin, hv] at hhome
    rw [hnil, hhome]

theorem copyin_le (mem : ℕ → Option UInt8) (src m : ℕ) : (copyin mem src m).length ≤ m := by
  by_contra hlt
  exact absurd (copyin_get (not_le.mp hlt)).1 (lt_irrefl m)

section Write
variable (hg : Geometry sb) {mem : ℕ → Option UInt8} {src off n fin : ℕ} {r r' : Option ℕ} {x : State}
  (hok : FileOk sb i s.toFs) (hl : (coreParts sb s.toCore).Locked sb i)
  (hoff : off ≤ ((coreParts sb s.toCore).view i).size.toNat) (hmax : off+n ≤ maxFile*bsize)
  (hend : (do lift (setIncore i (grow fin)); iupdate sb i; return r' : T (Option ℕ)) x = .ok (r, u))
include hg hok hl hoff hmax hend

/-- A write that is complete: nothing is lost when buffers are recycled. -/
theorem complete_bytes (hx : Coherent x) (hfin : fin = off+n)
    (hloop : writeiLoop sb i mem n src off n s = .ok (fin, x)) (hf : Evicted u f) :
    (coreParts sb f.toCore).Locked sb i ∧ (coreParts sb f.toCore).HoleFree i ∧
      fileBytes sb i f = tornBytes mem src off fin [] ((coreParts sb s.toCore).content i)
        ((coreParts sb s.toCore).view i).size.toNat := by
  have h32 : maxFile*bsize < 2^32 := by decide
  have hs : At sb (coreParts sb s.toCore) s.toFs := ⟨fun _ _ => rfl, rfl, fun _ _ => rfl, fun _ _ _ => rfl, hok.allocs⟩
  obtain ⟨q, hw, hq⟩ := (writeiLoop_room (E := fun _ => True) hg mem le_rfl (Or.inl (fun _ _ => trivial))
    hok.owned hl).run_ok hs ((erases_writeiLoop sb i mem n src off n).run_ok hloop)
  obtain ⟨hblock, -, hrun⟩ := evicted_finish (b := sb.iblock i+1) (fun c _ => congrFun hx c)
    (Nat.succ_ne_self _) hend hf
  rw [congrFun hx, or_self] at hblock
  rw [hblock, update_eq_self] at hrun
  have hfile := finish_file hg hok.full hl hw hoff (by omega) hq hrun
    (g := store ((coreParts sb s.toCore).content i) fin []) (fun j hj hout => by
      rw [store, length_nil, if_neg (by omega), hok.full.content hj]
      exact hw.writes.byte j (hok.full.block_ne hj) (by omega))
  exact ⟨hfile.locked, hfile.ok.full, hfile.bytes⟩

/-- A write that stops: the bytes copied last are in the buffer, and gone when it is recycled before
anyone logs it. -/
theorem torn_bytes (h : Torn sb i mem src off n fin s x)
    (hcs : cs = copyin mem (src+(fin-off)) (min (off+n-fin) (bsize-fin%bsize))) (hf : Evicted u f) :
    (coreParts sb f.toCore).Locked sb i ∧ (coreParts sb f.toCore).HoleFree i ∧
      ∃ cs', (cs' = cs ∨ cs' = [] ∧ f.blocks ≠ u.blocks) ∧
        fileBytes sb i f = tornBytes mem src off fin cs' ((coreParts sb s.toCore).content i)
          ((coreParts sb s.toCore).view i).size.toNat := by
  have h32 : maxFile*bsize < 2^32 := by decide
  have hle := h.le
  have hlt := h.lt
  have hs : At sb (coreParts sb s.toCore) s.toFs := ⟨fun _ _ => rfl, rfl, fun _ _ => rfl, fun _ _ _ => rfl, hok.allocs⟩
  obtain ⟨w, b, v, hloop, hv, hco, hshort, rfl⟩ := h.stopped
  rw [← hcs] at hshort hend
  -- the turns before this one, and the block that bmap returns
  obtain ⟨q, hw, hq⟩ := (writeiLoop_room (E := fun _ => True) hg mem le_rfl (Or.inl (fun _ _ => trivial))
    hok.owned hl).run_ok hs ((erases_writeiLoop sb i mem _ src off _).run_ok (hloop _ le_rfl))
  obtain ⟨p, ⟨hp, hb, h0, -⟩, hpv⟩ := (bmap_room (E := fun _ => True) (Or.inl (fun _ _ => trivial)) hg hw.owned
    (hw.writes.locked hl)).run_ok hq ((erases_bmap sb i _).run_ok hv)
  obtain ⟨hlo, hhi⟩ := hp.owned.block_range (hp.fills.locked (hw.writes.locked hl)).live (by rwa [hb])
  rw [hb] at hlo hhi
  have hstop : ¬∀ k < n, (mem (src+k)).isSome = true := by
    intro hall
    apply hshort
    rw [hcs]
    exact length_copyin (fun k hk => by rw [Nat.add_assoc]; exact hall _ (by omega))
  obtain ⟨hblock, hsame, hrun⟩ := evicted_finish (fun c hc => hco.fill_other hc)
    (hg.inode_ne_data hl.lt hlo hhi).symm hend hf
  obtain ⟨cs', hcs', hdata⟩ := hco.fill_evicted hblock
  have hlen : cs'.length ≤ min (off+n-fin) (bsize-fin%bsize) := by
    have hcopy := copyin_le mem (src+(fin-off)) (min (off+n-fin) (bsize-fin%bsize))
    rw [← hcs] at hcopy
    rcases hcs' with rfl | ⟨rfl, -⟩
    · exact hcopy
    · exact Nat.zero_le _
  obtain ⟨hw', hbyte⟩ := wrote_torn hl hw hp (by rwa [hb]) hlt hlen hstop
  rw [hb] at hw' hbyte
  have hfill : At sb (p.setData b (store (p.data b) (fin%bsize) cs'))
      { v.toFs with blocks := (update v.blocks b (store (v.blocks b) (fin%bsize) cs')) } := by
    rw [← hpv.data _ hlo hhi]
    exact (logWrite_data (E := fun _ => True) hg hlo hhi _).run_ok hpv rfl
  rw [hdata] at hrun
  change (do setIncore i (grow fin); Store.iupdate sb i : M Unit) { v.toFs with blocks :=
    (update (update v.blocks b _) b (store (v.blocks b) (fin%bsize) cs')) } = _ at hrun
  rw [update_idem] at hrun
  have hfile := finish_file hg hok.full hl hw' hoff (by omega) hfill hrun
    (g := store ((coreParts sb s.toCore).content i) fin cs') (fun j hj hout => by
      rw [hbyte j (hok.full.block_ne hj) hout, store, hok.full.content hj])
  refine ⟨hfile.locked, hfile.ok.full, cs', hcs'.imp id (fun h => ⟨h.1, fun heq => h.2 ?_⟩), hfile.bytes⟩
  rw [heq, hsame]

end Write

/-- Where the bytes in the buffer do not show: below the old size they are those of the file. -/
theorem tornBytes_eq_iff {mem : ℕ → Option UInt8} {src off fin size : ℕ} {old : ByteMem}
    (hoff : off ≤ size) (hle : off ≤ fin) : tornBytes mem src off fin cs old size =
      (load old 0 size).take off ++ userBytes mem src (fin-off) ++ (load old 0 size).drop fin ↔
      ∀ j, fin ≤ j → j < fin+cs.length → j < size → cs.getD (j-fin) 0 = old j := by
  rw [splice_eq mem src old hoff hle, tornBytes, load_mixed_eq_iff]
  constructor
  · intro h j hj hjl hsize
    have h' := h j (by omega) (by omega)
    rwa [store, if_pos ⟨hj, hjl⟩] at h'
  intro h j hj hout
  rw [store]
  split_ifs with hin
  · exact h j hin.1 hin.2 (by omega)
  · rfl

/-- A write that returns `tot` has put `tot` bytes of the source into the file. Whatever buffers are
recycled later, the other bytes are the old ones if and only if what was copied before the source
could not be read any more is what the file had there. -/
theorem failed_write_iff (hg : Geometry sb) {mem : ℕ → Option UInt8} {src off n : ℕ} {r : Option ℕ}
    (hok : FileOk sb i s.toFs) (hl : (coreParts sb s.toCore).Locked sb i) (hs : Coherent s)
    (hoff : off ≤ (fileBytes sb i s.toFs).length) (hmax : off+n ≤ maxFile*bsize)
    (h : writei sb i mem src off n s = .ok (r, u)) :
    ∃ tot, r = some tot ∧ tot ≤ n ∧ (∀ k < tot, (mem (src+k)).isSome = true) ∧
      ((∀ f, Evicted u f → Reads sb i f ((fileBytes sb i s.toFs).take off ++ userBytes mem src tot ++
        (fileBytes sb i s.toFs).drop (off+tot))) ↔ Harmless mem src off n (fileBytes sb i s.toFs)) := by
  have h32 : maxFile*bsize < 2^32 := by decide
  have hd : lift (incore i) s = .ok ((s.itab i).din, s) := rfl
  have hview : (coreParts sb s.toCore).view i = (s.itab i).din := hl.loaded.view
  obtain ⟨size, hsize⟩ : ∃ size, size = ((coreParts sb s.toCore).view i).size.toNat := ⟨_, rfl⟩
  obtain ⟨old, hold⟩ : ∃ old, old = (coreParts sb s.toCore).content i := ⟨_, rfl⟩
  have hlen : (fileBytes sb i s.toFs).length = size := by rw [fileBytes, Parts.contents, length_load, hsize]
  rw [hlen] at hoff
  have hbytes : fileBytes sb i s.toFs = load old 0 size := by rw [fileBytes, Parts.contents, hsize, hold]
  rw [writei, run_bind hd, ← hview, ← hsize, if_neg (by omega), if_neg (by omega)] at h
  obtain ⟨fin, x, hloop, hend⟩ := run_bind_ok h
  have hr : r = some (fin-off) := (Prod.mk.inj (Except.ok.inj hend)).1.symm
  -- the bytes that reads should give
  have hshort (hle : off ≤ fin) (hfin : fin < 2^32) : ((load old 0 size).take off ++ userBytes mem src (fin-off) ++
      (load old 0 size).drop fin).length < 2^32 := by
    rw [splice_eq mem src old hoff hle, length_load, hsize]
    exact max_lt hfin (UInt32.toNat_lt _)
  rw [hbytes]
  rcases writeiLoop_torn le_rfl hs hloop with ⟨hfin, hx, hread⟩ | htorn
  · refine ⟨fin-off, hr, by omega, fun k hk => hread k (by omega), iff_of_true (fun f hf => ?_) ?_⟩
    · obtain ⟨hfl, hff, hfb⟩ := complete_bytes hg hok hl (hsize ▸ hoff) hmax hend hx hfin hloop hf
      rw [Nat.add_sub_cancel' (by omega)]
      rw [← hsize, ← hold] at hfb
      exact (reads_iff hfl hff (hshort (by omega) (by omega))).mpr (hfb.trans
        ((tornBytes_eq_iff hoff (by omega)).mpr (fun j hj hjl => absurd hjl (not_lt.mpr hj))))
    · intro k hk _ hnone
      have := hread k hk
      rw [hnone] at this
      cases this
  · have hle := htorn.le
    have hlt := htorn.lt
    obtain ⟨-, -, -, -, -, -, hstop, -⟩ := htorn.stopped
    refine ⟨fin-off, hr, by omega, htorn.readable, ?_⟩
    rw [Nat.add_sub_cancel' hle, harmless_iff hle hlt htorn.aligned htorn.readable rfl hstop, length_load]
    have hget {j : ℕ} (hj : j < size) : (load old 0 size)[j]? = some (old j) := by
      rw [load, List.getElem?_map, List.getElem?_range hj, Option.map_some, Nat.zero_add]
    have hview (f : Fs) (hf : Evicted u f) := torn_bytes hg hok hl (hsize ▸ hoff) hmax hend htorn rfl hf
    simp only [← hsize, ← hold] at hview
    constructor
    · -- the buffer is still there
      intro h j hj hjl hjs
      have hnow : Evicted u u.toFs := ⟨u.blocks, fun _ => Or.inl rfl, rfl⟩
      obtain ⟨hfl, hff, cs', hcs', hfb⟩ := hview u.toFs hnow
      obtain rfl := hcs'.resolve_right (fun h => h.2 rfl)
      have heq := (reads_iff hfl hff (hshort hle (by omega))).mp (h _ hnow)
      rw [hget hjs, (tornBytes_eq_iff hoff hle).mp (hfb.symm.trans heq) j hj hjl hjs]
    intro h f hf
    obtain ⟨hfl, hff, cs', hcs', hfb⟩ := hview f hf
    refine (reads_iff hfl hff (hshort hle (by omega))).mpr (hfb.trans ((tornBytes_eq_iff hoff hle).mpr ?_))
    intro j hj hjl hjs
    rcases hcs' with rfl | ⟨rfl, -⟩
    · have heq := h j hj hjl hjs
      rw [hget hjs] at heq
      exact Option.some.inj heq
    · exact absurd hjl (not_lt.mpr hj)

def sevenFile : Dinode := ⟨tFile, 0, 0, 1, 2, fun k => if k = 0 then 5 else 0⟩

def sevens : State where
  blocks := fun b => if b = 5 then store (fun _ => 0) 0 [7, 7] else if b = 3 then setBit (oneFile 3) 5
    else if b = 2 then putDinode (oneFile 2) 2 sevenFile else oneFile b
  itab := update opened.itab 2 ⟨1, true, sevenFile⟩
  nslots := 1
  allocs := []
  logged := []
  home := fun b => if b = 5 then store (fun _ => 0) 0 [7, 7] else if b = 3 then setBit (oneFile 3) 5
    else if b = 2 then putDinode (oneFile 2) 2 sevenFile else oneFile b

def onePage (x : UInt8) (a : ℕ) : Option UInt8 := if a < 4096 then some x else none

theorem sevens_locked : (coreParts smallDisk sevens.toCore).Locked smallDisk 2 :=
  ⟨⟨Nat.one_pos, rfl⟩, by decide, show tFile ≠ 0 by decide⟩

theorem sevens_ok : FileOk smallDisk 2 sevens.toFs where
  owned := owned_of_slots (l := [(.addr 1 0, 4), (.addr 2 0, 5)]) smallDisk_geometry (by decide)
  allocs := fun _ hr => absurd hr not_mem_nil
  live := sevens_locked.live
  full := fun bn hbn => by
    have hb : bsize = 1024 := rfl
    rw [sevens_locked.loaded.view, show ((coreParts smallDisk sevens.toCore).itab 2).din.size.toNat = 2 from rfl,
      hb] at hbn
    obtain rfl : bn = 0 := by omega
    decide

/-- A write of two bytes of which the second cannot be read returns 0, and the first byte of the
file reads as 1. -/
theorem torn_write_shows : FileOk smallDisk 2 sevens.toFs ∧
    (coreParts smallDisk sevens.toCore).Locked smallDisk 2 ∧ Coherent sevens ∧
    fileBytes smallDisk 2 sevens.toFs = [7, 7] ∧
    ∃ u, writei smallDisk 2 (onePage 1) 4095 0 2 sevens = .ok (some 0, u) ∧
      readi smallDisk 2 (fun _ => true) 0 0 2 u.toFs = .ok (some [1, 7], u.toFs) := by
  refine ⟨sevens_ok, sevens_locked, rfl, by decide, _, rfl, rfl⟩

theorem torn_write_harmless : ∃ u, writei smallDisk 2 (onePage 7) 4095 0 2 sevens = .ok (some 0, u) ∧
    ∀ f, Evicted u f → Reads smallDisk 2 f [7, 7] := by
  have hold : fileBytes smallDisk 2 sevens.toFs = [7, 7] := by decide
  have hrun : ∃ u, writei smallDisk 2 (onePage 7) 4095 0 2 sevens = .ok (some 0, u) := ⟨_, rfl⟩
  obtain ⟨u, hu⟩ := hrun
  obtain ⟨tot, htot, -, -, hiff⟩ := failed_write_iff smallDisk_geometry sevens_ok sevens_locked rfl
    (Nat.zero_le _) (by decide) hu
  cases htot
  rw [hold] at hiff
  refine ⟨u, hu, hiff.mpr (fun k hk _ hnone j _ _ hj _ => ?_)⟩
  have hk1 : k = 1 := by
    by_contra hne
    obtain rfl : k = 0 := by omega
    cases hnone
  obtain rfl : j = 0 := by omega
  rfl

end Xv6.Txn
