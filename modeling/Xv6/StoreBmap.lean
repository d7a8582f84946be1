import Xv6.StoreMap

/-! bmap fills a hole of one inode with a new block and leaves the other blocks as they are. -/
namespace Xv6.Store
open Function (update_of_ne update_self)
open Hoare Ownership

variable {sb : Superblock} {p p' p'' : Parts} {E : Panic → Prop} {i : ℕ}

structure Grows (sb : Superblock) (i : ℕ) (p p' : Parts) : Prop where
  disk : p'.disk = p.disk
  other : ∀ j, j ≠ i → p'.itab j = p.itab j
  self : ∃ addrs, p'.itab i = { p.itab i with din := { (p.itab i).din with addrs := addrs } }
  block : ∀ j bn, p.Live sb j → (j = i → p.block i bn ≠ 0) → p'.block j bn = p.block j bn

structure Fills (sb : Superblock) (i : ℕ) (p p' : Parts) : Prop extends Grows sb i p p' where
  data : ∀ j bn, p.Live sb j → p.block j bn ≠ 0 → p'.data (p.block j bn) = p.data (p.block j bn)

theorem Grows.refl (p : Parts) : Grows sb i p p := ⟨rfl, fun _ _ => rfl, ⟨_, rfl⟩, fun _ _ _ _ => rfl⟩

section
variable (h : Grows sb i p p')
include h

theorem Grows.ref_eq (j : ℕ) : (p'.itab j).ref = (p.itab j).ref ∧ (p'.itab j).valid = (p.itab j).valid := by
  by_cases hj : j = i
  · obtain ⟨addrs, hself⟩ := h.self
    rw [hj, hself]
    exact ⟨rfl, rfl⟩
  · rw [h.other j hj]
    exact ⟨rfl, rfl⟩

theorem Grows.loaded {j : ℕ} (hl : p.Loaded j) : p'.Loaded j := by
  unfold Parts.Loaded
  rw [(h.ref_eq j).1, (h.ref_eq j).2]
  exact hl

theorem Grows.type_eq (j : ℕ) : (p'.itab j).din.type = (p.itab j).din.type := by
  by_cases hj : j = i
  · obtain ⟨addrs, hself⟩ := h.self
    rw [hj, hself]
  · rw [h.other j hj]

theorem Grows.locked {j : ℕ} (hl : p.Locked sb j) : p'.Locked sb j :=
  ⟨h.loaded hl.loaded, hl.lt, (h.type_eq j).symm ▸ hl.typed⟩

theorem Grows.live {j : ℕ} (hl : p.Live sb j) : p'.Live sb j := by
  refine ⟨hl.1, ?_⟩
  have hv := hl.2
  unfold Parts.view at hv ⊢
  rw [(h.ref_eq j).1, (h.ref_eq j).2]
  split_ifs at hv ⊢ with hc
  · rw [h.type_eq j]
    exact hv
  · rw [h.disk]
    exact hv

theorem Grows.trans (h' : Grows sb i p' p'') : Grows sb i p p'' := by
  refine ⟨h'.disk.trans h.disk, fun j hj => (h'.other j hj).trans (h.other j hj), ?_, fun j bn hj h0 => ?_⟩
  · obtain ⟨a, ha⟩ := h.self
    obtain ⟨b, hb⟩ := h'.self
    exact ⟨b, by rw [hb, ha]⟩
  have heq := h.block j bn hj h0
  rw [h'.block j bn (h.live hj) (fun hji => ?_), heq]
  subst hji
  rw [heq]
  exact h0 rfl

end

theorem Fills.refl (p : Parts) : Fills sb i p p := ⟨Grows.refl p, fun _ _ _ _ => rfl⟩

theorem Fills.trans (h : Fills sb i p p') (h' : Fills sb i p' p'') : Fills sb i p p'' := by
  refine ⟨h.toGrows.trans h'.toGrows, fun j bn hj h0 => ?_⟩
  have heq := h.block j bn hj (fun hji => hji ▸ h0)
  have hd := h'.data j bn (h.live hj) (by rw [heq]; exact h0)
  rw [heq] at hd
  exact hd.trans (h.data j bn hj h0)

theorem blockAt_congr {x : Dinode} {data data' : ℕ → Block}
    (h : x.addrs 12 ≠ 0 → data' (x.addrs 12).toNat = data (x.addrs 12).toNat) (bn : ℕ) :
    blockAt x data' bn = blockAt x data bn := by
  unfold blockAt
  split_ifs with h1 h2
  · rfl
  · rw [h h2.2]
  · rfl

variable {k : Fin 13} {bn : ℕ}

theorem blockAt_setAddr {x : Dinode} {data : ℕ → Block} {y : UInt32} (hk : x.addrs k = 0) (h0 : blockAt x data bn ≠ 0) :
    blockAt (setAddr k y x) data bn = blockAt x data bn := by
  unfold blockAt at h0 ⊢
  have hne {m : Fin 13} (hm : x.addrs m ≠ 0) : (setAddr k y x).addrs m = x.addrs m := by
    apply update_of_ne
    rintro rfl
    exact hm hk
  split_ifs at h0 with h1 h2
  · rw [if_pos h1, if_pos h1, hne (fun hz => h0 (by rw [hz]; rfl))]
  · rw [if_neg h1, if_neg h1, hne h2.2]
  · exact absurd rfl h0

theorem Geometry.toNat_block (hg : Geometry sb) {b : ℕ} (hb : b < sb.size) : (UInt32.ofNat b).toNat = b := by
  rw [UInt32.toNat_ofNat', Nat.mod_eq_of_lt (hb.trans hg.size)]

theorem Parts.grant_data (p : Parts) (b : ℕ) : (p.grant b).data b = fun _ => 0 := update_self ..

theorem Parts.Owned.indirect_inj {P : Set ℕ} (ho : p.Owned sb ∅ P) {j : ℕ} (hi : p.Live sb i)
    (hj : p.Live sb j) (h0 : (p.view i).addrs 12 ≠ 0)
    (heq : (p.view j).addrs 12 = (p.view i).addrs 12) : j = i := by
  have hslot := ho.inj (.addr i 12) (Set.notMem_empty _) (.addr j 12) (Set.notMem_empty _)
    (by rw [hi.use_addr]; exact toNat_ne_zero h0) (by rw [hi.use_addr, hj.use_addr, heq])
  exact (Slot.addr.inj hslot).1.symm

def Parts.setEntry (p : Parts) (i j b : ℕ) : Parts := (p.grant b).setData ((p.itab i).din.addrs 12).toNat
    (setWord ((p.grant b).data ((p.itab i).din.addrs 12).toNat) j (UInt32.ofNat b))

section Fill
variable (ho : p.Owned sb ∅ ∅) {b : ℕ} (hb : b < sb.size) (hbit : p.bit b = false)
include ho hb hbit

theorem Parts.Owned.free_ne {a : Slot} : p.use sb.ninodes a ≠ b := (Owns.unused ho hb hbit).2.1 a (Set.notMem_empty a)

theorem Parts.Owned.free_pos : 0 < b := ho.pos.trans_le (Owns.unused ho hb hbit).1

theorem Parts.Owned.grant_indirect {j : ℕ} (hj : p.Live sb j) :
    (p.grant b).data ((p.view j).addrs 12).toNat = p.data ((p.view j).addrs 12).toNat := by
  apply update_of_ne
  rw [← hj.use_addr 12]
  exact ho.free_ne hb hbit

theorem Parts.Owned.grant_data {j : ℕ} (hj : p.Live sb j) (h0 : p.block j bn ≠ 0) :
    (p.grant b).data (p.block j bn) = p.data (p.block j bn) := by
  apply update_of_ne
  rw [← hj.use_dataSlot (blockAt_lt h0)]
  exact ho.free_ne hb hbit

theorem Parts.Owned.grant_block {j : ℕ} (hj : p.Live sb j) (bn : ℕ) : (p.grant b).block j bn = p.block j bn :=
  blockAt_congr (fun _ => ho.grant_indirect hb hbit hj) bn

theorem Parts.Owned.grant_use : (p.grant b).use sb.ninodes = p.use sb.ninodes := by
  apply use_congr
  · exact fun _ _ => rfl
  · exact fun j hj ht _ => ho.grant_indirect hb hbit ⟨hj, ht⟩

theorem Parts.Owned.grant : (p.grant b).Owned sb ∅ {b} := by
  have h := Owns.alloc ho hb hbit
  rw [insert_empty_eq] at h
  unfold Parts.Owned
  rw [ho.grant_use hb hbit]
  exact h

theorem Parts.Owned.grant_assign {a : Slot} (ha : p.use sb.ninodes a = 0)
    (huse : p'.use sb.ninodes = Function.update ((p.grant b).use sb.ninodes) a b)
    (hbits : p'.bit = (p.grant b).bit) : p'.Owned sb ∅ ∅ := by
  have h := (ho.grant hb hbit).assign (a := a) (b := b) (by rw [ho.grant_use hb hbit, ha]) (Set.notMem_empty _) rfl
  rw [Set.sdiff_self] at h
  unfold Parts.Owned
  rw [huse, hbits]
  exact h

variable (hl : p.Locked sb i)
include hl

theorem Parts.Owned.fill_addr (hg : Geometry sb) (hk : (p.itab i).din.addrs k = 0) :
    ((p.grant b).setDin i (setAddr k (UInt32.ofNat b) (p.itab i).din)).Owned sb ∅ ∅ := by
  have hgl : (p.grant b).Loaded i := hl.loaded
  have hview := hgl.view_setDin (setAddr k (UInt32.ofNat b) (p.itab i).din)
  rw [← hl.loaded.view] at hk hview ⊢
  apply ho.grant_assign hb hbit (a := .addr i k)
  · rw [hl.live.use_addr, hk]
    rfl
  · rw [Parts.use, hview]
    have hset := use_setAddr (v := (p.grant b).view) (D := (p.grant b).data) (k := k)
      (x := UInt32.ofNat b) hl.lt hl.live.2 (fun hk12 => ⟨hk12 ▸ hk, fun j => by
        rw [hg.toNat_block hb, Parts.grant_data, word_zero]⟩)
    rw [hg.toNat_block hb] at hset
    exact hset
  · rfl

theorem Parts.Owned.fills_addr (hk : (p.itab i).din.addrs k = 0) (x : UInt32) :
    Fills sb i p ((p.grant b).setDin i (setAddr k x (p.itab i).din)) := by
  have hgl : (p.grant b).Loaded i := hl.loaded
  refine ⟨⟨rfl, fun j hj => update_of_ne hj .., ⟨_, update_self ..⟩,
    fun j bn hj h0 => ?_⟩, fun j bn hj h0 => ho.grant_data hb hbit hj h0⟩
  rw [← ho.grant_block hb hbit hj bn, Parts.block, hgl.view_setDin]
  by_cases hji : j = i
  · subst hji
    rw [update_self]
    have hsame : (p.grant b).view j = (p.itab j).din := hgl.view
    rw [Parts.block, hsame]
    apply blockAt_setAddr hk
    rw [← hsame]
    exact fun hz => h0 rfl ((ho.grant_block hb hbit hj bn).symm.trans hz)
  · rw [update_of_ne hji]
    rfl

theorem Parts.Owned.fill_entry (hg : Geometry sb) (h0 : (p.itab i).din.addrs 12 ≠ 0) (j : Fin 256)
    (hj : word (p.data ((p.itab i).din.addrs 12).toNat) j = 0) :
    (p.setEntry i j b).Owned sb ∅ ∅ := by
  unfold Parts.setEntry
  rw [← hl.loaded.view] at h0 hj ⊢
  apply ho.grant_assign hb hbit (a := .entry i j)
  · simp only [Parts.use, Store.use, hj]
    split_ifs <;> rfl
  · have hset := use_setWord (v := p.view) (D := (p.grant b).data) (j := j) (x := UInt32.ofNat b) hl.lt hl.live.2 h0
      (fun i' hi' ht heq => ho.indirect_inj hl.live ⟨hi', ht⟩ h0 heq)
    rw [hg.toNat_block hb] at hset
    exact hset
  · rfl

theorem Parts.Owned.fills_entry (h0 : (p.itab i).din.addrs 12 ≠ 0) (j : Fin 256)
    (hj : word (p.data ((p.itab i).din.addrs 12).toNat) j = 0) :
    Fills sb i p (p.setEntry i j b) := by
  unfold Parts.setEntry
  rw [← hl.loaded.view] at h0 hj ⊢
  refine ⟨⟨rfl, fun _ _ => rfl, ⟨_, rfl⟩, fun i' bn hi' hblk => ?_⟩, fun i' bn hi' hblk => ?_⟩
  · rw [← ho.grant_block hb hbit hi' bn]
    by_cases hii : i' = i
    · subst hii
      -- the entries of the indirect block other than `j` are as before
      have hblk' : (p.grant b).block i' bn ≠ 0 := by
        rw [ho.grant_block hb hbit hi' bn]
        exact hblk rfl
      change blockAt (p.view i') _ bn = blockAt (p.view i') _ bn
      change blockAt (p.view i') _ bn ≠ 0 at hblk'
      unfold blockAt at hblk' ⊢
      split_ifs at hblk' ⊢ with h1 h2
      · rfl
      · have hne : j.val ≠ bn-ndirect := by
          intro heq
          rw [ho.grant_indirect hb hbit hi', ← heq, hj] at hblk'
          exact hblk' rfl
        simp only [Parts.setData, update_self, word_setWord_ne _ _ hne]
      · rfl
    · apply blockAt_congr
      intro _
      apply update_of_ne
      exact fun heq => hii (ho.indirect_inj hl.live hi' h0 (UInt32.toNat_inj.mp heq))
  · rw [← ho.grant_data hb hbit hi' hblk]
    exact update_of_ne (ho.block_ne_indirect hi' hl.live hblk) ..

end Fill

theorem addrSlot_present (h0 : (p.itab i).din.addrs k ≠ 0) : Triple E (At sb p) (addrSlot sb i k)
      (fun b s => b = ((p.itab i).din.addrs k).toNat ∧ At sb p s) := by
  apply incore_bind
  rw [if_neg h0]
  apply Triple.pure
  exact fun _ hs => ⟨rfl, hs⟩

structure Filled (sb : Superblock) (i : ℕ) (p p' : Parts) (cost : ℕ) : Prop where
  owned : p'.Owned sb ∅ ∅
  fills : Fills sb i p p'
  addrs : ∀ k, (p.itab i).din.addrs k ≠ 0 → (p'.itab i).din.addrs k ≠ 0
  free : p.free sb ≤ p'.free sb + cost

theorem Filled.refl (ho : p.Owned sb ∅ ∅) (cost : ℕ) : Filled sb i p p cost :=
  ⟨ho, Fills.refl p, fun _ h => h, Nat.le_add_right ..⟩

theorem Filled.trans {c c' : ℕ} (h : Filled sb i p p' c) (h' : Filled sb i p' p'' c') : Filled sb i p p'' (c+c') := by
  refine ⟨h'.owned, h.fills.trans h'.fills, fun k hk => h'.addrs k (h.addrs k hk), ?_⟩
  have h1 := h.free
  have h2 := h'.free
  omega

theorem Filled.mono {c c' : ℕ} (h : Filled sb i p p' c) (hc : c ≤ c') : Filled sb i p p' c' :=
  ⟨h.owned, h.fills, h.addrs, h.free.trans (Nat.add_le_add_left hc _)⟩

theorem addrSlot_room (hE : E .ballocOutOfBlocks ∨ ((p.itab i).din.addrs k = 0 → 0 < p.free sb)) (hg : Geometry sb)
    (ho : p.Owned sb ∅ ∅) (hl : p.Locked sb i) :
    Triple E (At sb p) (addrSlot sb i k)
      (fun b s => ∃ p', (Filled sb i p p' (if (p.itab i).din.addrs k = 0 then 1 else 0) ∧
        (p'.itab i).din.addrs k ≠ 0 ∧ b = ((p'.itab i).din.addrs k).toNat) ∧ At sb p' s) := by
  by_cases h0 : (p.itab i).din.addrs k = 0
  · apply incore_bind
    rw [if_pos h0]
    refine .bind_and (balloc_room (hE.imp id (fun h => h h0)) hg ho) ?_
    rintro b ⟨hb, hbit⟩
    refine .bind (setIncore_spec i _) (fun _ => ?_)
    apply Triple.pure
    intro s hs
    have hne : UInt32.ofNat b ≠ 0 := by
      intro hz
      have hb0 := hg.toNat_block hb
      rw [hz] at hb0
      exact (ho.free_pos hb hbit).ne hb0
    refine ⟨_, ⟨⟨ho.fill_addr hb hbit hl hg h0, ho.fills_addr hb hbit hl h0 _, fun m hm => ?_, ?_⟩, ?_, ?_⟩, hs⟩
    · have hmk : m ≠ k := fun h => hm (h ▸ h0)
      simpa [Parts.setDin, Parts.setItab, setAddr, Parts.grant, hmk] using hm
    · rw [if_pos h0]
      exact (Parts.free_grant hb hbit).le
    · simpa [Parts.setDin, Parts.setItab, setAddr] using hne
    · simp [Parts.setDin, Parts.setItab, setAddr, hg.toNat_block hb]
  · apply (addrSlot_present h0).post
    rintro b s ⟨rfl, hs⟩
    exact ⟨p, ⟨Filled.refl ho _, h0, rfl⟩, hs⟩

section Entry
variable (hg : Geometry sb) (ho : p.Owned sb ∅ ∅) (hl : p.Locked sb i)
  (h0 : (p.itab i).din.addrs 12 ≠ 0) {j : ℕ}
include ho hl h0

theorem Parts.Owned.indirect_range : sb.datastart ≤ ((p.itab i).din.addrs 12).toNat ∧
      ((p.itab i).din.addrs 12).toNat < sb.size := by
  rw [← hl.loaded.view] at h0 ⊢
  exact ho.indirect (Set.notMem_empty _) hl.lt hl.live.2 h0

theorem indirectEntry_present (hj : word (p.data ((p.itab i).din.addrs 12).toNat) j ≠ 0) :
    Triple E (At sb p) (indirectEntry sb ((p.itab i).din.addrs 12).toNat j)
      (fun b s => b = (word (p.data ((p.itab i).din.addrs 12).toNat) j).toNat ∧ At sb p s) := by
  obtain ⟨hlo, hhi⟩ := ho.indirect_range hl h0
  apply bread_data hlo hhi
  rw [if_neg hj]
  apply Triple.pure
  exact fun _ hs => ⟨rfl, hs⟩

theorem indirectEntry_room (hE : E .ballocOutOfBlocks ∨
      (word (p.data ((p.itab i).din.addrs 12).toNat) j = 0 → 0 < p.free sb))
    (hg : Geometry sb) (hj : j < nindirect) :
    Triple E (At sb p) (indirectEntry sb ((p.itab i).din.addrs 12).toNat j) (fun b s => ∃ p', (Filled sb i p p'
          (if word (p.data ((p.itab i).din.addrs 12).toNat) j = 0 then 1 else 0) ∧
        p'.itab i = p.itab i ∧
        b = (word (p'.data ((p.itab i).din.addrs 12).toNat) j).toNat ∧ b ≠ 0) ∧ At sb p' s) := by
  obtain ⟨hlo, hhi⟩ := ho.indirect_range hl h0
  by_cases hw : word (p.data ((p.itab i).din.addrs 12).toNat) j = 0
  · apply bread_data hlo hhi
    rw [if_pos hw]
    refine .bind_and (balloc_room (hE.imp id (fun h => h hw)) hg ho) ?_
    rintro b ⟨hb, hbit⟩
    apply bread_data hlo hhi
    refine .bind (logWrite_data hg hlo hhi _) (fun _ => ?_)
    apply Triple.pure
    intro s hs
    refine ⟨p.setEntry i j b, ⟨⟨ho.fill_entry hb hbit hl hg h0 ⟨j, hj⟩ hw,
      ho.fills_entry hb hbit hl h0 ⟨j, hj⟩ hw, fun _ h => h, ?_⟩, rfl, ?_,
      (ho.free_pos hb hbit).ne'⟩, hs⟩
    · rw [if_pos hw]
      exact (Parts.free_grant hb hbit).le
    · simp [Parts.setEntry, Parts.setData, hg.toNat_block hb]
  · apply (indirectEntry_present ho hl h0 hw).post
    rintro b s ⟨rfl, hs⟩
    exact ⟨p, ⟨Filled.refl ho _, rfl, rfl, toNat_ne_zero hw⟩, hs⟩

end Entry

def Parts.cost (p : Parts) (i bn : ℕ) : ℕ := (if ndirect ≤ bn ∧ (p.itab i).din.addrs 12 = 0 then 1 else 0) +
    if p.block i bn = 0 then 1 else 0

theorem Parts.Locked.block_direct (hl : p.Locked sb i) (hbn : bn < ndirect) :
    p.block i bn = ((p.itab i).din.addrs (Fin.ofNat 13 bn)).toNat := by
  rw [Parts.block, hl.loaded.view, blockAt, if_pos hbn]

theorem Parts.Locked.block_indirect (hl : p.Locked sb i) (hbn : ¬ bn < ndirect)
    (hj : bn-ndirect < nindirect) (h0 : (p.itab i).din.addrs 12 ≠ 0) :
    p.block i bn = (word (p.data ((p.itab i).din.addrs 12).toNat) (bn-ndirect)).toNat := by
  rw [Parts.block, hl.loaded.view, blockAt, if_neg hbn, if_pos ⟨hj, h0⟩]

theorem toNat_eq_zero_iff {x : UInt32} : x.toNat = 0 ↔ x = 0 :=
  ⟨fun h => UInt32.toNat_inj.mp h, fun h => by rw [h]; rfl⟩

/-- bmap returns the block of the file, after it has filled a hole there. It panics only if the
file cannot have the block or the disk has no room for it. -/
theorem bmap_room (hE : Calm E ∨ (bn < maxFile ∧ p.cost i bn ≤ p.free sb))
    (hg : Geometry sb) (ho : p.Owned sb ∅ ∅) (hl : p.Locked sb i) :
    Triple E (At sb p) (bmap sb i bn) (fun b s => ∃ p', (Filled sb i p p' (p.cost i bn) ∧ p'.block i bn = b ∧ b ≠ 0 ∧
        (ndirect ≤ bn → (p'.itab i).din.addrs 12 ≠ 0)) ∧ At sb p' s) := by
  apply Triple.ite
  · intro hbn
    have hblk := hl.block_direct hbn
    have hcost : p.cost i bn = if (p.itab i).din.addrs (Fin.ofNat 13 bn) = 0 then 1 else 0 := by
      rw [Parts.cost, if_neg (fun h => absurd h.1 (not_le.mpr hbn)), Nat.zero_add, hblk]
      simp only [toNat_eq_zero_iff]
    rw [hcost]
    rw [hcost] at hE
    have hroom : E .ballocOutOfBlocks ∨ ((p.itab i).din.addrs (Fin.ofNat 13 bn) = 0 → 0 < p.free sb) := by
      rcases hE with hE | ⟨-, hfree⟩
      · exact Or.inl (hE _ (by decide))
      · exact Or.inr (fun h0 => by rwa [if_pos h0] at hfree)
    apply (addrSlot_room hroom hg ho hl).post
    rintro b s ⟨q, ⟨hq, hk, rfl⟩, hs⟩
    refine ⟨q, ⟨hq, (hq.fills.locked hl).block_direct hbn, toNat_ne_zero hk, ?_⟩, hs⟩
    exact fun h => absurd h (not_le.mpr hbn)
  · intro hbn
    apply Triple.ite
    · intro hj
      have hroom : E .ballocOutOfBlocks ∨ p.cost i bn ≤ p.free sb := hE.imp (fun h => h _ (by decide)) (fun h => h.2)
      have hle : ndirect ≤ bn := not_lt.mp hbn
      refine .bind (addrSlot_room (hroom.imp id (fun h h0 => ?_)) hg ho hl) (fun ind => ?_)
      · simp only [Parts.cost, hle, h0, true_and, if_true] at h
        omega
      apply Triple.exists_pre
      rintro q ⟨hq, hk, rfl⟩
      have hql := hq.fills.locked hl
      -- an entry that is empty now was a hole before
      have hcost : (if (p.itab i).din.addrs 12 = 0 then 1 else 0) +
          (if word (q.data ((q.itab i).din.addrs 12).toNat) (bn-ndirect) = 0 then 1 else 0) ≤ p.cost i bn := by
        simp only [Parts.cost, hle, true_and]
        apply Nat.add_le_add_left
        by_cases hhole : p.block i bn = 0
        · rw [if_pos hhole]
          split_ifs <;> omega
        have hsame := hq.fills.block i bn hl.live (fun _ => hhole)
        rw [hql.block_indirect hbn hj hk] at hsame
        rw [if_neg (fun hw => hhole (by rw [← hsame, hw]; rfl))]
        exact Nat.zero_le _
      have hroom' : E .ballocOutOfBlocks ∨
          (word (q.data ((q.itab i).din.addrs 12).toNat) (bn-ndirect) = 0 → 0 < q.free sb) := by
        refine hroom.imp id (fun h hw => ?_)
        have hfree := hq.free
        rw [if_pos hw] at hcost
        omega
      apply (indirectEntry_room hq.owned hql hk hroom' hg hj).post
      rintro b s ⟨r, ⟨hr, hsame, rfl, hb0⟩, hs⟩
      have hrl := hr.fills.locked hql
      refine ⟨r, ⟨(hq.trans hr).mono hcost, ?_, hb0, fun _ => by rw [hsame]; exact hk⟩, hs⟩
      rw [hrl.block_indirect hbn hj (by rw [hsame]; exact hk), hsame]
    · intro hj
      apply Triple.throw
      intro _ _
      rcases hE with hE | ⟨hlt, -⟩
      · exact hE _ (by decide)
      · have hmax : maxFile = ndirect+nindirect := rfl
        exact absurd hlt (by omega)

theorem bmap_present (ho : p.Owned sb ∅ ∅) (hl : p.Locked sb i) (h0 : p.block i bn ≠ 0) :
    Triple E (At sb p) (bmap sb i bn) (fun b s => b = p.block i bn ∧ At sb p s) := by
  unfold bmap
  rw [Parts.block, hl.loaded.view] at h0 ⊢
  unfold blockAt at h0 ⊢
  by_cases h1 : bn < ndirect
  · simp only [if_pos h1] at h0 ⊢
    exact addrSlot_present (fun hz => h0 (by rw [hz]; rfl))
  simp only [if_neg h1] at h0 ⊢
  by_cases h2 : bn-ndirect < nindirect ∧ (p.itab i).din.addrs 12 ≠ 0
  · simp only [if_pos h2, if_pos h2.1] at h0 ⊢
    refine .bind_and (addrSlot_present h2.2) ?_
    rintro ind rfl
    exact indirectEntry_present ho hl h2.2 (fun hz => h0 (by rw [hz]; rfl))
  · exact absurd (if_neg h2) h0

end Xv6.Store
