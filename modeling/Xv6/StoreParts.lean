import Xv6.StoreBytes
import Xv6.Ownership

/-! A disk as its parts: the dinodes, the bitmap and the data blocks, with the inode table.
Each primitive of the block layer changes one of them. -/
namespace Xv6.Store
open Function (update_of_ne update_self)
open Bytes Hoare Ownership Finset

/-- The inode blocks, the bitmap blocks and the data blocks follow one another. -/
structure Geometry (sb : Superblock) : Prop where
  inodes : ∀ i < sb.ninodes, sb.iblock i < sb.bmapstart
  bitmap : ∀ b < sb.size, sb.bblock b < sb.datastart
  size : sb.size < 2^32
  data : 0 < sb.datastart
  root : Dir.rootIno < sb.ninodes

structure Parts where
  disk : ℕ → Dinode
  itab : ℕ → Incore
  bit : ℕ → Bool
  data : ℕ → Block

def Parts.view (p : Parts) (i : ℕ) : Dinode :=
  if 0 < (p.itab i).ref ∧ (p.itab i).valid = true then (p.itab i).din else p.disk i

/-- A place for a block number: a slot of ip->addrs or an entry of the indirect block. -/
inductive Slot where
  | addr (i : ℕ) (k : Fin 13)
  | entry (i : ℕ) (j : Fin 256)
  deriving DecidableEq

def use (n : ℕ) (view : ℕ → Dinode) (data : ℕ → Block) : Slot → ℕ
  | .addr i k => if i < n ∧ (view i).type ≠ 0 then ((view i).addrs k).toNat else 0
  | .entry i j => if i < n ∧ (view i).type ≠ 0 ∧ (view i).addrs 12 ≠ 0
      then (word (data ((view i).addrs 12).toNat) j).toNat else 0

def Parts.use (n : ℕ) (p : Parts) : Slot → ℕ := Store.use n p.view p.data

def coreParts (sb : Superblock) (c : Core) : Parts where
  disk := fun i => getDinode (c.blocks (sb.iblock i)) i
  itab := c.itab
  bit := fun b => bitSet (c.blocks (sb.bblock b)) (b%bpb)
  data := c.blocks

def Unused (sb : Superblock) (c : Core) (b : ℕ) : Prop :=
  sb.datastart ≤ b ∧ b < sb.size ∧ ∀ a, (coreParts sb c).use sb.ninodes a ≠ b

structure At (sb : Superblock) (p : Parts) (s : Fs) : Prop where
  disk : ∀ i < sb.ninodes, getDinode (s.blocks (sb.iblock i)) i = p.disk i
  itab : s.itab = p.itab
  bit : ∀ b < sb.size, bitSet (s.blocks (sb.bblock b)) (b%bpb) = p.bit b
  data : ∀ b, sb.datastart ≤ b → b < sb.size → s.blocks b = p.data b
  allocs : ∀ r ∈ s.allocs, Unused sb r.1 r.2

def Parts.Owned (sb : Superblock) (X : Set Slot) (P : Set ℕ) (p : Parts) : Prop :=
  Owns sb.datastart sb.size (p.use sb.ninodes) p.bit X P

def Parts.grant (p : Parts) (b : ℕ) : Parts :=
  { p with bit := Function.update p.bit b true, data := Function.update p.data b (fun _ => 0) }

def Parts.release (p : Parts) (b : ℕ) : Parts := { p with bit := Function.update p.bit b false }

def Parts.setData (p : Parts) (b : ℕ) (blk : Block) : Parts := { p with data := Function.update p.data b blk }

def Parts.setItab (p : Parts) (i : ℕ) (e : Incore) : Parts := { p with itab := Function.update p.itab i e }

def Parts.setDin (p : Parts) (i : ℕ) (x : Dinode) : Parts := p.setItab i { p.itab i with din := x }

def Parts.writeBack (p : Parts) (i : ℕ) : Parts := { p with disk := Function.update p.disk i (p.itab i).din }

variable {sb : Superblock} {p : Parts} {E : Panic → Prop} {α : Type} {Q : α → Fs → Prop}

def Calm (E : Panic → Prop) : Prop := ∀ e, e ≠ .freeingFreeBlock → E e

variable {i b : ℕ} {s : Fs}

theorem Geometry.inode_ne_bitmap (hg : Geometry sb) (hi : i < sb.ninodes) (b : ℕ) : sb.iblock i ≠ sb.bblock b := by
  have h1 := hg.inodes i hi
  have h2 : sb.bmapstart ≤ sb.bblock b := Nat.le_add_left ..
  omega

theorem Geometry.bitmap_ne_data (hg : Geometry sb) {b' : ℕ} (hb : b < sb.size)
    (hb' : sb.datastart ≤ b') : sb.bblock b ≠ b' := by
  have := hg.bitmap b hb
  omega

theorem Geometry.inode_ne_data (hg : Geometry sb) (hi : i < sb.ninodes)
    (hb : sb.datastart ≤ b) (hlt : b < sb.size) : sb.iblock i ≠ b := by
  have h1 := hg.inodes i hi
  have h2 := hg.bitmap b hlt
  have h3 : sb.bmapstart ≤ sb.bblock b := Nat.le_add_left ..
  omega

theorem bblock_eq {c : ℕ} (h : sb.bblock b = sb.bblock c) (hm : b%bpb = c%bpb) : b = c := by
  unfold Superblock.bblock at h
  have h1 := Nat.div_add_mod b bpb
  have h2 := Nat.div_add_mod c bpb
  have h3 : b/bpb = c/bpb := by omega
  rw [← h1, ← h2, h3, hm]

theorem iblock_eq {j : ℕ} (h : sb.iblock i = sb.iblock j) (hm : i%ipb = j%ipb) : i = j := by
  unfold Superblock.iblock at h
  have h1 := Nat.div_add_mod i ipb
  have h2 := Nat.div_add_mod j ipb
  have h3 : i/ipb = j/ipb := by omega
  rw [← h1, ← h2, h3, hm]

theorem incore_bind {f : Dinode → M α} (h : Triple E (At sb p) (f (p.itab i).din) Q) :
    Triple E (At sb p) (incore i >>= f) Q := by
  intro s hs
  have hf : (incore i >>= f) s = f (s.itab i).din s := rfl
  rw [hf, hs.itab]
  exact h s hs

theorem bread_data {f : Block → M α} (hlo : sb.datastart ≤ b) (hhi : b < sb.size)
    (h : Triple E (At sb p) (f (p.data b)) Q) : Triple E (At sb p) (bread b >>= f) Q := by
  intro s hs
  have hf : (bread b >>= f) s = f (s.blocks b) s := rfl
  rw [hf, hs.data b hlo hhi]
  exact h s hs

theorem bread_inode {f : Block → M α} (hi : i < sb.ninodes)
    (h : ∀ blk, getDinode blk i = p.disk i → Triple E (At sb p) (f blk) Q) :
    Triple E (At sb p) (bread (sb.iblock i) >>= f) Q :=
  fun s hs => h (s.blocks (sb.iblock i)) (hs.disk i hi) s hs

theorem setItab_spec (i : ℕ) (f : Incore → Incore) :
    Triple E (At sb p) (setItab i f) (fun _ => At sb (p.setItab i (f (p.itab i)))) := by
  apply Triple.modify
  intro s hs
  refine ⟨hs.disk, ?_, hs.bit, hs.data, hs.allocs⟩
  simp only [Parts.setItab, hs.itab]

theorem setIncore_spec (i : ℕ) (f : Dinode → Dinode) :
    Triple E (At sb p) (setIncore i f) (fun _ => At sb (p.setDin i (f (p.itab i).din))) :=
  setItab_spec i _

theorem logWrite_data (hg : Geometry sb) (hlo : sb.datastart ≤ b) (hhi : b < sb.size) (blk : Block) :
    Triple E (At sb p) (logWrite b blk) (fun _ => At sb (p.setData b blk)) := by
  apply Triple.modify
  intro s hs
  refine ⟨fun i hi => ?_, hs.itab, fun c hc => ?_, fun c hc hch => ?_, hs.allocs⟩
  · simp only [update_of_ne (hg.inode_ne_data hi hlo hhi)]
    exact hs.disk i hi
  · simp only [update_of_ne (hg.bitmap_ne_data hc hlo)]
    exact hs.bit c hc
  simp only [Parts.setData]
  by_cases hcb : c = b
  · rw [hcb, update_self, update_self]
  · rw [update_of_ne hcb, update_of_ne hcb]
    exact hs.data c hc hch

theorem At.bitmap (hg : Geometry sb) (hs : At sb p s) (hb : b < sb.size) {B : Block} {v : Bool}
    (hblk : ∀ c, bitSet B c = if c = b%bpb then v else bitSet (s.blocks (sb.bblock b)) c) :
    At sb { p with bit := Function.update p.bit b v }
      { s with blocks := Function.update s.blocks (sb.bblock b) B } := by
  refine ⟨fun i hi => ?_, hs.itab, fun c hc => ?_, fun c hc hch => ?_, hs.allocs⟩
  · simp only [update_of_ne (hg.inode_ne_bitmap hi b)]
    exact hs.disk i hi
  · dsimp only
    by_cases hcb : c = b
    · subst hcb
      simp only [update_self, hblk, if_true]
    rw [update_of_ne hcb]
    by_cases hblock : sb.bblock c = sb.bblock b
    · have hmod : c%bpb ≠ b%bpb := fun hm => hcb (bblock_eq hblock hm)
      simp only [hblock, update_self, hblk, if_neg hmod]
      rw [← hblock]
      exact hs.bit c hc
    · simp only [update_of_ne hblock]
      exact hs.bit c hc
  · simp only [update_of_ne (hg.bitmap_ne_data hb hc).symm]
    exact hs.data c hc hch

theorem bfree_spec (hg : Geometry sb) (hb : b < sb.size) (hbit : p.bit b = true) :
    Triple E (At sb p) (bfree sb b) (fun _ => At sb (p.release b)) := by
  intro s hs
  have hset : bitSet (s.blocks (sb.bblock b)) (b%bpb) = true := (hs.bit b hb).trans hbit
  have hrun : bfree sb b s = logWrite (sb.bblock b) (clearBit (s.blocks (sb.bblock b)) (b%bpb)) s := by
    change (if bitSet (s.blocks (sb.bblock b)) (b%bpb) = true then logWrite (sb.bblock b)
      (clearBit (s.blocks (sb.bblock b)) (b%bpb)) else throw .freeingFreeBlock) s = _
    rw [if_pos hset]
  rw [hrun]
  apply hs.bitmap hg hb
  intro c
  rw [bitSet_clearBit]
  by_cases hc : c = b%bpb
  · simp [hc]
  · simp [hc]

theorem At.inode (hg : Geometry sb) (hs : At sb p s) (hi : i < sb.ninodes) (x : Dinode) :
    At sb { p with disk := Function.update p.disk i x } { s with
        blocks := Function.update s.blocks (sb.iblock i) (putDinode (s.blocks (sb.iblock i)) i x) } := by
  refine ⟨fun j hj => ?_, hs.itab, fun c hc => ?_, fun c hc hch => ?_, hs.allocs⟩
  · dsimp only
    by_cases hji : j = i
    · subst hji
      rw [update_self, update_self, getDinode_putDinode]
    rw [update_of_ne hji]
    by_cases hblock : sb.iblock j = sb.iblock i
    · have hmod : i%ipb ≠ j%ipb := fun hm => hji (iblock_eq hblock hm.symm)
      rw [hblock, update_self, getDinode_putDinode_ne _ _ hmod, ← hblock]
      exact hs.disk j hj
    · rw [update_of_ne hblock]
      exact hs.disk j hj
  · simp only [update_of_ne (hg.inode_ne_bitmap hi c).symm]
    exact hs.bit c hc
  · simp only [update_of_ne (hg.inode_ne_data hi hc hch).symm]
    exact hs.data c hc hch

theorem iupdate_spec (hg : Geometry sb) (hi : i < sb.ninodes) :
    Triple E (At sb p) (iupdate sb i) (fun _ => At sb (p.writeBack i)) := by
  intro s hs
  have hrun : iupdate sb i s = logWrite (sb.iblock i) (putDinode (s.blocks (sb.iblock i)) i (s.itab i).din) s := rfl
  rw [hrun, hs.itab]
  exact hs.inode hg hi _

theorem use_congr {n : ℕ} {v v' : ℕ → Dinode} {data data' : ℕ → Block} (hview : ∀ i < n, v' i = v i)
    (hdata : ∀ i < n, (v i).type ≠ 0 → (v i).addrs 12 ≠ 0 →
      data' ((v i).addrs 12).toNat = data ((v i).addrs 12).toNat) :
    use n v' data' = use n v data := by
  funext a
  cases a with
  | addr i =>
    by_cases hi : i < n
    · simp only [use, hview i hi]
    · simp only [use, hi, false_and, if_false]
  | entry i =>
    by_cases hi : i < n
    · simp only [use, hview i hi]
      split_ifs with h
      · rw [hdata i hi h.2.1 h.2.2]
      · rfl
    · simp only [use, hi, false_and, if_false]

theorem toNat_ne_zero {x : UInt32} (h : x ≠ 0) : x.toNat ≠ 0 := fun h0 => h (UInt32.toNat_inj.mp h0)

theorem Parts.Owned.indirect {X : Set Slot} {P : Set ℕ} (ho : p.Owned sb X P) {k : Fin 13}
    (hX : .addr i k ∉ X) (hi : i < sb.ninodes) (ht : (p.view i).type ≠ 0)
    (hk : (p.view i).addrs k ≠ 0) :
    sb.datastart ≤ ((p.view i).addrs k).toNat ∧ ((p.view i).addrs k).toNat < sb.size := by
  have huse : p.use sb.ninodes (.addr i k) = ((p.view i).addrs k).toNat := if_pos ⟨hi, ht⟩
  have hr := ho.range (.addr i k) hX (by rw [huse]; exact toNat_ne_zero hk)
  rwa [huse] at hr

theorem At.view (hs : At sb p s) (hi : i < sb.ninodes) : (coreParts sb s.toCore).view i = p.view i := by
  unfold Parts.view coreParts
  dsimp only
  rw [hs.itab, hs.disk i hi]

theorem At.use_eq (hs : At sb p s) {P : Set ℕ} (ho : p.Owned sb ∅ P) :
    (coreParts sb s.toCore).use sb.ninodes = p.use sb.ninodes := by
  apply use_congr
  · exact fun i hi => hs.view hi
  · intro i hi ht hk
    obtain ⟨hlo, hhi⟩ := ho.indirect (Set.notMem_empty _) hi ht hk
    exact hs.data _ hlo hhi

def Parts.free (sb : Superblock) (p : Parts) : ℕ := ((Finset.range sb.size).filter (fun b => p.bit b = false)).card

theorem Parts.free_grant (hb : b < sb.size) (hbit : p.bit b = false) : p.free sb = (p.grant b).free sb + 1 := by
  have hrest : (Finset.range sb.size).filter (fun c => (p.grant b).bit c = false) =
      ((Finset.range sb.size).filter (fun c => p.bit c = false)).erase b := by
    ext c
    rw [mem_erase, mem_filter, mem_filter]
    by_cases hc : c = b
    · simp [Parts.grant, hc]
    · simp [Parts.grant, hc]
  have hmem : b ∈ (Finset.range sb.size).filter (fun c => p.bit c = false) := mem_filter.mpr ⟨mem_range.mpr hb, hbit⟩
  rw [Parts.free, Parts.free, hrest, card_erase_add_one hmem]

theorem balloc_room (hE : E .ballocOutOfBlocks ∨ 0 < p.free sb) (hg : Geometry sb) (ho : p.Owned sb ∅ ∅) :
    Triple E (At sb p) (balloc sb) (fun b s => (b < sb.size ∧ p.bit b = false) ∧ At sb (p.grant b) s) := by
  apply Triple.get
  rintro s hs
  cases hf : firstFree sb s.blocks with
  | none =>
    apply Triple.throw
    intro _ _
    refine hE.resolve_right fun hpos => ?_
    obtain ⟨b, hb⟩ := card_pos.mp hpos
    obtain ⟨hlt, hbit⟩ := mem_filter.mp hb
    have hset := List.find?_eq_none.mp hf b (List.mem_range.mpr (mem_range.mp hlt))
    rw [hs.bit b (mem_range.mp hlt), hbit] at hset
    exact hset rfl
  | some b =>
    have hlt : b < sb.size := List.mem_range.mp (List.mem_of_find?_eq_some hf)
    have hclear : bitSet (s.blocks (sb.bblock b)) (b%bpb) = false := by simpa using List.find?_some hf
    have hbit : p.bit b = false := (hs.bit b hlt).symm.trans hclear
    obtain ⟨hlo, hun, -⟩ := ho.unused hlt hbit
    have hunused : Unused sb s.toCore b := by
      refine ⟨hlo, hlt, fun a => ?_⟩
      rw [hs.use_eq ho]
      exact hun a (Set.notMem_empty a)
    rintro t rfl
    change (b < sb.size ∧ p.bit b = false) ∧ At sb (p.grant b) { t with
        blocks := Function.update (Function.update t.blocks (sb.bblock b)
          (setBit (t.blocks (sb.bblock b)) (b%bpb))) b (fun _ => 0)
        allocs := t.allocs ++ [(t.toCore, b)] }
    refine ⟨⟨hlt, hbit⟩, ?_⟩
    have hmark := hs.bitmap hg hlt (B := setBit (t.blocks (sb.bblock b)) (b%bpb)) (v := true) (fun c => by
        rw [bitSet_setBit]
        by_cases hc : c = b%bpb <;> simp [hc])
    have hzero := logWrite_data (E := E) hg hlo hlt (fun _ => 0) _ hmark
    refine ⟨hzero.disk, hzero.itab, hzero.bit, hzero.data, fun r hr => ?_⟩
    rcases List.mem_append.mp hr with hr | hr
    · exact hs.allocs r hr
    · rw [List.mem_singleton.mp hr]
      exact hunused

def Incore.get (e : Incore) : Incore :=
  if 0 < e.ref then { e with ref := e.ref+1 } else { e with ref := 1, valid := false }

def Parts.get (p : Parts) (i : ℕ) : Parts := p.setItab i (p.itab i).get

theorem iget_spec (hE : Calm E) (i : ℕ) : Triple E (At sb p) (iget i) (fun _ => At sb (p.get i)) := by
  apply Triple.get
  intro s hs
  rw [hs.itab]
  apply Triple.ite
  · intro hpos
    have hget : (p.itab i).get = { p.itab i with ref := (p.itab i).ref+1 } := if_pos hpos
    rw [Parts.get, hget]
    exact (setItab_spec i _).pre (fun t ht => ht ▸ hs)
  intro hpos
  refine .ite_throw (hE _ (by decide)) (fun _ => ?_)
  have hget : (p.itab i).get = { p.itab i with ref := 1, valid := false } := if_neg hpos
  rw [Parts.get, hget]
  refine .bind (R := fun _ => At sb p) ?_ (fun _ => setItab_spec i _)
  apply Triple.modify
  rintro t rfl
  exact ⟨hs.disk, hs.itab, hs.bit, hs.data, hs.allocs⟩

end Xv6.Store
