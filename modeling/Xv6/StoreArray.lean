import Xv6.StoreOwn

/-! An inode as a byte array: what readi, writei and itrunc do to the contents of a file whose
blocks are its own. -/
namespace Xv6.Store
open Bytes Hoare List

def Parts.content (p : Parts) (i k : ℕ) : UInt8 :=
  if p.block i (k/bsize) = 0 then 0 else p.byte i k

def Parts.contents (p : Parts) (i : ℕ) : List UInt8 := load (p.content i) 0 (p.view i).size.toNat

def Parts.HoleFree (p : Parts) (i : ℕ) : Prop := ∀ bn, bn*bsize < (p.view i).size.toNat → p.block i bn ≠ 0

structure Parts.Same (p p' : Parts) (j : ℕ) : Prop where
  view : p'.view j = p.view j
  block : ∀ bn, p'.block j bn = p.block j bn
  data : ∀ bn, p.block j bn ≠ 0 → p'.data (p.block j bn) = p.data (p.block j bn)

variable {sb : Superblock} {p p' p'' : Parts} {i j : ℕ} {s t : Fs}

theorem Parts.Same.trans (h : p.Same p' j) (h' : p'.Same p'' j) : p.Same p'' j := by
  refine ⟨h'.view.trans h.view, fun bn => (h'.block bn).trans (h.block bn), fun bn h0 => ?_⟩
  have hd := h'.data bn (by rw [h.block]; exact h0)
  rw [h.block] at hd
  exact hd.trans (h.data bn h0)

theorem Parts.Same.content (h : p.Same p' j) (k : ℕ) : p'.content j k = p.content j k := by
  unfold Parts.content
  rw [h.block]
  split_ifs with h0
  · rfl
  · exact Parts.byte_congr (h.block _) (h.data _ h0)

theorem Parts.Same.contents (h : p.Same p' j) : p'.contents j = p.contents j := by
  rw [Parts.contents, Parts.contents, h.view]
  exact load_congr (fun k _ => h.content _)

theorem Parts.Same.holeFree (h : p.Same p' j) (hf : p.HoleFree j) : p'.HoleFree j := by
  intro bn hbn
  rw [h.view] at hbn
  rw [h.block]
  exact hf bn hbn

theorem At.same (hs : At sb p s) (ho : p.Owned sb ∅ ∅) (hj : p.Live sb j) : p.Same (coreParts sb s.toCore) j := by
  refine ⟨hs.view hj.1, fun bn => ?_, fun bn h0 => ?_⟩
  · rw [Parts.block, hs.view hj.1]
    apply blockAt_congr
    intro h12
    obtain ⟨hlo, hhi⟩ := ho.indirect (Set.notMem_empty _) hj.1 hj.2 h12
    exact hs.data _ hlo hhi
  · obtain ⟨hlo, hhi⟩ := ho.block_range hj h0
    exact hs.data _ hlo hhi

theorem Parts.HoleFree.block_ne (h : p.HoleFree i) {k : ℕ} (hk : k < (p.view i).size.toNat) : p.block i (k/bsize) ≠ 0 :=
  h _ ((Nat.div_mul_le_self k bsize).trans_lt hk)

theorem Parts.HoleFree.content (h : p.HoleFree i) {k : ℕ} (hk : k < (p.view i).size.toNat) :
    p.content i k = p.byte i k :=
  if_neg (h.block_ne hk)

section Read
variable (hl : (coreParts sb s.toCore).Locked sb i)
include hl

theorem bmap_run {bn : ℕ} (h0 : (coreParts sb s.toCore).block i bn ≠ 0) :
    bmap sb i bn s = .ok ((coreParts sb s.toCore).block i bn, s) := by
  have hslot {k : Fin 13} (hk : (s.itab i).din.addrs k ≠ 0) :
      addrSlot sb i k s = .ok (((s.itab i).din.addrs k).toNat, s) := by
    have hrun : addrSlot sb i k s = (if (s.itab i).din.addrs k = 0 then do
        let b ← balloc sb
        setIncore i (setAddr k (UInt32.ofNat b))
        return b
      else return ((s.itab i).din.addrs k).toNat : M ℕ) s := rfl
    rw [hrun, if_neg hk]
    rfl
  rw [Parts.block, hl.loaded.view] at h0 ⊢
  unfold blockAt at h0 ⊢
  unfold bmap
  by_cases h1 : bn < ndirect
  · simp only [if_pos h1] at h0 ⊢
    exact hslot (fun hz => h0 (congrArg UInt32.toNat hz))
  simp only [if_neg h1] at h0 ⊢
  by_cases h2 : bn-ndirect < nindirect ∧ ((coreParts sb s.toCore).itab i).din.addrs 12 ≠ 0
  · simp only [if_pos h2, if_pos h2.1] at h0 ⊢
    rw [run_bind (hslot h2.2)]
    have hw : word (s.blocks ((s.itab i).din.addrs 12).toNat) (bn-ndirect) ≠ 0 :=
      fun hz => h0 (congrArg UInt32.toNat hz)
    have hrun : indirectEntry sb ((s.itab i).din.addrs 12).toNat (bn-ndirect) s =
        (if word (s.blocks ((s.itab i).din.addrs 12).toNat) (bn-ndirect) = 0 then do
          let b ← balloc sb
          let blk ← bread ((s.itab i).din.addrs 12).toNat
          logWrite ((s.itab i).din.addrs 12).toNat (setWord blk (bn-ndirect) (UInt32.ofNat b))
          return b
        else return (word (s.blocks ((s.itab i).din.addrs 12).toNat) (bn-ndirect)).toNat : M ℕ) s := rfl
    rw [hrun, if_neg hw]
    rfl
  · exact absurd (if_neg h2) h0

theorem readiLoop_run {ok : ℕ → Bool} {fuel n dst off : ℕ} (hfuel : n ≤ fuel) (acc : List UInt8)
    (hfull : ∀ k, off ≤ k → k < off+n → (coreParts sb s.toCore).block i (k/bsize) ≠ 0) :
    readiLoop sb i ok fuel dst off n acc s = .ok (if ∀ k < n, ok (dst+k) = true
        then some (acc ++ load ((coreParts sb s.toCore).byte i) off n) else none, s) := by
  induction fuel generalizing dst off n acc with
  | zero =>
    obtain rfl : n = 0 := by omega
    rw [if_pos (fun k hk => absurd hk (Nat.not_lt_zero k)),
      show load ((coreParts sb s.toCore).byte i) off 0 = [] from rfl, append_nil]
    rfl
  | succ fuel ih =>
    rw [readiLoop]
    by_cases hn : n = 0
    · rw [if_pos hn, hn, if_pos (fun k hk => absurd hk (Nat.not_lt_zero k)),
        show load ((coreParts sb s.toCore).byte i) off 0 = [] from rfl, append_nil]
      rfl
    have hmod : off%bsize < bsize := Nat.mod_lt _ (by decide)
    have hle : off%bsize+min n (bsize-off%bsize) ≤ bsize := by omega
    have hall : (List.range (min n (bsize-off%bsize))).all (fun k => ok (dst+k)) = true ↔
        ∀ k < min n (bsize-off%bsize), ok (dst+k) = true := by
      simp only [all_eq_true, mem_range]
    have hblk : bread ((coreParts sb s.toCore).block i (off/bsize)) s =
        .ok ((coreParts sb s.toCore).data ((coreParts sb s.toCore).block i (off/bsize)), s) := rfl
    rw [if_neg hn, run_bind (bmap_run hl (hfull off (by omega) (by omega))), run_bind hblk]
    by_cases hok : ∀ k < min n (bsize-off%bsize), ok (dst+k) = true
    · have hrest : (∀ k < n-min n (bsize-off%bsize), ok (dst+min n (bsize-off%bsize)+k) = true) ↔
          ∀ k < n, ok (dst+k) = true := by
        constructor
        · intro h k hk
          by_cases hkm : k < min n (bsize-off%bsize)
          · exact hok k hkm
          · have h' := h (k-min n (bsize-off%bsize)) (by omega)
            rwa [Nat.add_assoc, Nat.add_sub_cancel' (not_lt.mp hkm)] at h'
        · intro h k hk
          rw [Nat.add_assoc]
          exact h _ (by omega)
      rw [if_pos (hall.mpr hok), ih (by omega) _ (fun k hk hk' => hfull k (by omega) (by omega)),
        load_block hle, append_assoc, ← load_append, Nat.add_sub_cancel' (Nat.min_le_left ..)]
      simp only [hrest]
    · rw [if_neg (fun h => hok (hall.mp h)), if_neg (fun h => hok (fun k hk => h k (by omega)))]
      rfl

theorem readi_run (hf : (coreParts sb s.toCore).HoleFree i) {ok : ℕ → Bool} {dst off n : ℕ} (hn : n < 2^32) :
    readi sb i ok dst off n s = .ok (if off+n < 2^32
      then (if ∀ k < min n (((coreParts sb s.toCore).contents i).length-off), ok (dst+k) = true
        then some ((((coreParts sb s.toCore).contents i).drop off).take n) else none)
      else some [], s) := by
  have hd : incore i s = .ok ((s.itab i).din, s) := rfl
  have hv : (coreParts sb s.toCore).view i = (s.itab i).din := hl.loaded.view
  have hlt := (s.itab i).din.size.toNat_lt
  rw [readi, run_bind hd, Parts.contents, load_drop_take, length_load, hv]
  by_cases hbad : off > (s.itab i).din.size.toNat ∨ (off+n)%2^32 < off
  · rw [if_pos hbad]
    by_cases hwrap : off+n < 2^32
    · rw [Nat.mod_eq_of_lt hwrap] at hbad
      have hmin : min n ((s.itab i).din.size.toNat-off) = 0 := by omega
      rw [if_pos hwrap, hmin, if_pos (fun k hk => absurd hk (Nat.not_lt_zero k))]
      rfl
    · rw [if_neg hwrap]
      rfl
  have hwrap : off+n < 2^32 := by omega
  have hmin : (if off+n > (s.itab i).din.size.toNat then (s.itab i).din.size.toNat-off else n) =
      min n ((s.itab i).din.size.toNat-off) := by
    split_ifs <;> omega
  have hload : load ((coreParts sb s.toCore).byte i) off (min n ((s.itab i).din.size.toNat-off)) =
      load ((coreParts sb s.toCore).content i) off (min n ((s.itab i).din.size.toNat-off)) := by
    apply load_congr
    intro k hk
    exact (hf.content (by rw [hv]; omega)).symm
  rw [if_neg hbad, if_pos hwrap, hmin, readiLoop_run hl le_rfl []
    (fun k hk hk' => hf.block_ne (by rw [hv]; omega)), nil_append, hload]

end Read

theorem Writes.same {lo hi : ℕ} (h : Writes sb i lo hi p p') (hj : p.Live sb j) (hji : j ≠ i) : p.Same p' j :=
  ⟨Parts.view_congr (h.other j hji) (by rw [h.disk]),
    fun bn => h.block j bn hj (fun hij => absurd hij hji), fun bn => h.data j bn hji hj⟩

theorem Parts.Loaded.same_update (hl : p.Loaded i) (x : Dinode) (bit : ℕ → Bool) (hji : j ≠ i) :
    p.Same { p.update i x with bit := bit } j := by
  have hview : ({ p.update i x with bit := bit } : Parts).view j = p.view j := by
    have hv := congrFun (hl.view_update x) j
    rw [Function.update_of_ne hji] at hv
    exact hv
  exact ⟨hview, fun bn => by rw [Parts.block, hview]; rfl, fun _ _ => rfl⟩

structure Becomes (sb : Superblock) (i : ℕ) (bs : List UInt8) (s t : Fs) : Prop where
  contents : (coreParts sb t.toCore).contents i = bs
  holeFree : (coreParts sb t.toCore).HoleFree i
  owned : Owned sb t.toCore
  others : ∀ j, j ≠ i → (coreParts sb s.toCore).Live sb j →
    (coreParts sb t.toCore).contents j = (coreParts sb s.toCore).contents j ∧
      ((coreParts sb s.toCore).HoleFree j → (coreParts sb t.toCore).HoleFree j)

variable {bs : List UInt8}

theorem Becomes.of_same (hs : At sb p' t) (ho : p'.Owned sb ∅ ∅)
    (hlive : p'.Live sb i) (hbs : p'.contents i = bs) (hf : p'.HoleFree i)
    (hsame : ∀ j, j ≠ i → (coreParts sb s.toCore).Live sb j → (coreParts sb s.toCore).Same p' j) :
    Becomes sb i bs s t := by
  have hi := hs.same ho hlive
  refine ⟨hi.contents.trans hbs, hi.holeFree hf, hs.owned ho, fun j hji hj => ?_⟩
  have hj' : p'.Live sb j := ⟨hj.1, by rw [(hsame j hji hj).view]; exact hj.2⟩
  have hall := (hsame j hji hj).trans (hs.same ho hj')
  exact ⟨hall.contents, hall.holeFree⟩

theorem Wrote.contents {mem : ℕ → Option UInt8} {src off : ℕ} {x : Dinode} (hf : p.HoleFree i) (hl : p.Locked sb i)
    (hw : Wrote sb i mem src off bs.length (off+bs.length) p p')
    (hmem : ∀ k < bs.length, mem (src+k) = some (bs.getD k 0))
    (hoff : off ≤ (p.view i).size.toNat) (hx : Grown sb i (off+bs.length) p p' x) :
    (p'.update i x).HoleFree i ∧ (p'.update i x).contents i =
      (p.contents i).take off ++ bs ++ (p.contents i).drop (off+bs.length) := by
  have hfull : (p'.update i x).HoleFree i := by
    intro bn hbn
    rw [hx.view] at hbn
    exact hw.full hf hl hoff hx.view hx.addrs hx.size hbn
  refine ⟨hfull, ?_⟩
  rw [Parts.contents, hx.view, hx.size, Parts.contents, ← load_store_splice _ _ hoff]
  apply load_congr
  intro k hk
  rw [Nat.zero_add, hfull.content (by rw [hx.view, hx.size]; exact hk), update_byte hx.view hx.addrs]
  by_cases hin : off ≤ k ∧ k < off+bs.length
  · have hcop := (hw.copied (k-off) (by omega)).2
    rw [hmem (k-off) (by omega), show off+(k-off) = k by omega] at hcop
    rw [store, if_pos hin]
    exact (Option.some.inj hcop).symm
  · have hold : k < (p.view i).size.toNat := by omega
    rw [store, if_neg hin, hf.content hold]
    exact hw.writes.byte k (hf.block_ne hold) (by omega)

theorem writeBack_update (hg : Geometry sb) (hl : p.Locked sb i) (f : Dinode → Dinode) :
    Triple (fun _ => False) (At sb p) (do
      setIncore i f
      iupdate sb i : M Unit) (fun _ => At sb (p.update i (f (p.view i)))) := by
  rw [hl.loaded.view]
  exact .bind (setIncore_spec i _) (fun _ => iupdate_spec hg hl.lt)

section
variable (hg : Geometry sb) (hs : At sb (coreParts sb s.toCore) s) (ho : Owned sb s.toCore)
  (hl : (coreParts sb s.toCore).Locked sb i)
include hg hs ho hl

theorem writei_run (hf : (coreParts sb s.toCore).HoleFree i) {mem : ℕ → Option UInt8} {src off : ℕ}
    (hmem : ∀ k < bs.length, mem (src+k) = some (bs.getD k 0))
    (hoff : off ≤ ((coreParts sb s.toCore).view i).size.toNat)
    (hmax : off+bs.length ≤ maxFile*bsize)
    (hroom : (coreParts sb s.toCore).need i off bs.length ≤ (coreParts sb s.toCore).free sb) :
    ∃ t, writei sb i mem src off bs.length s = .ok (some bs.length, t) ∧
      Becomes sb i (((coreParts sb s.toCore).contents i).take off ++ bs ++
        ((coreParts sb s.toCore).contents i).drop (off+bs.length)) s t := by
  have hwrap : (off+bs.length)%2^32 = off+bs.length := Nat.mod_eq_of_lt (hmax.trans_lt (by decide))
  have hd : incore i s = .ok ((s.itab i).din, s) := rfl
  have hv : (coreParts sb s.toCore).view i = (s.itab i).din := hl.loaded.view
  obtain ⟨fin, u, hrun, q, hw, hu⟩ :=
    (writeiLoop_room (E := fun _ => False) hg mem le_rfl (Or.inr ⟨hmax, hroom⟩) ho hl).run_total hs
  obtain rfl : fin = off+bs.length := hw.all (fun k hk => by rw [hmem k hk]; rfl)
  have hx := hw.grown hl (hmax.trans_lt (by decide))
  obtain ⟨_, t, hfin, ht⟩ := (writeBack_update hg (hw.writes.locked hl) (grow (off+bs.length))).run_total hu
  refine ⟨t, ?_, ?_⟩
  · rw [hv] at hoff
    rw [writei, run_bind hd, if_neg (by omega), if_neg (by omega), run_bind hrun, ← bind_assoc]
    refine (run_bind hfin _).trans ?_
    rw [Nat.add_sub_cancel_left]
    rfl
  obtain ⟨hfull, hbs⟩ := hw.contents hf hl hmem hoff hx
  apply Becomes.of_same ht hx.owned ?_ hbs hfull
  · intro j hji hj
    exact (hw.writes.same hj hji).trans ((hw.writes.locked hl).loaded.same_update _ q.bit hji)
  · refine ⟨hl.lt, ?_⟩
    rw [hx.view, hx.type]
    exact hl.live.2

end

def emptyFile : Dinode := ⟨tFile, 0, 0, 1, 0, fun _ => 0⟩

def oneFile (b : ℕ) : Block :=
  if b = 2 then putDinode (rootOnly 2) 2 emptyFile else rootOnly b

def opened : Fs := { boot oneFile with itab := Function.update (boot oneFile).itab 2 ⟨1, true, emptyFile⟩ }

theorem opened_locked {sb : Superblock} (h : 2 < sb.ninodes) : (coreParts sb opened.toCore).Locked sb 2 :=
  ⟨⟨Nat.one_pos, rfl⟩, h, show tFile ≠ 0 by decide⟩

theorem opened_holeFree (sb : Superblock) : (coreParts sb opened.toCore).HoleFree 2 :=
  fun _ hbn => absurd hbn (Nat.not_lt_zero _)

theorem opened_owned : Owned smallDisk opened.toCore :=
  owned_of_slots (l := [(.addr 1 0, 4)]) smallDisk_geometry (by decide)

end Xv6.Store
