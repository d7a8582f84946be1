import Xv6.StoreRead

/-! writei: a copy that fails midway leaves blocks behind the end of the file, which stay the
inode's. -/
namespace Xv6.Store
open Bytes Hoare List

variable {sb : Superblock} {p p' p'' : Parts} {E : Panic → Prop} {i lo hi : ℕ}

structure Writes (sb : Superblock) (i lo hi : ℕ) (p p' : Parts) : Prop extends Grows sb i p p' where
  data : ∀ j bn, j ≠ i → p.Live sb j → p.block j bn ≠ 0 → p'.data (p.block j bn) = p.data (p.block j bn)
  byte : ∀ k, p.block i (k/bsize) ≠ 0 → k < lo ∨ hi ≤ k → p'.byte i k = p.byte i k

theorem Writes.refl (p : Parts) : Writes sb i lo hi p p := ⟨Grows.refl p, fun _ _ _ _ _ => rfl, fun _ _ _ => rfl⟩

theorem Fills.writes (h : Fills sb i p p') (hl : p.Live sb i) : Writes sb i lo hi p p' := by
  refine ⟨h.toGrows, fun j bn _ => h.data j bn, fun k h0 _ => ?_⟩
  exact Parts.byte_congr (h.block i _ hl (fun _ => h0)) (h.data i _ hl h0)

theorem Writes.mono (h : Writes sb i lo hi p p') {a b : ℕ} (hlo : a ≤ lo) (hhi : hi ≤ b) : Writes sb i a b p p' :=
  ⟨h.toGrows, h.data, fun k h0 hk => h.byte k h0 (by omega)⟩

theorem Writes.trans (h : Writes sb i lo hi p p') (h' : Writes sb i lo hi p' p'')
    (hl : p.Live sb i) : Writes sb i lo hi p p'' := by
  refine ⟨h.toGrows.trans h'.toGrows, fun j bn hj hlive h0 => ?_, fun k h0 hk => ?_⟩
  · have heq := h.block j bn hlive (fun hji => absurd hji hj)
    have hd := h'.data j bn hj (h.live hlive) (by rw [heq]; exact h0)
    rw [heq] at hd
    exact hd.trans (h.data j bn hj hlive h0)
  · have heq := h.block i _ hl (fun _ => h0)
    exact (h'.byte k (by rw [heq]; exact h0) hk).trans (h.byte k h0 hk)

section SetData
variable (ho : p.Owned sb ∅ ∅) (hl : p.Locked sb i) {bn : ℕ} (h0 : p.block i bn ≠ 0)
include ho hl h0

theorem Parts.Owned.setData_indirect {j : ℕ} (hj : p.Live sb j) (blk : Block) :
    (p.setData (p.block i bn) blk).data ((p.view j).addrs 12).toNat = p.data ((p.view j).addrs 12).toNat :=
  Function.update_of_ne (ho.block_ne_indirect hl.live hj h0).symm ..

theorem Parts.Owned.setData_block {j : ℕ} (hj : p.Live sb j) (blk : Block) (m : ℕ) :
    (p.setData (p.block i bn) blk).block j m = p.block j m :=
  blockAt_congr (fun _ => ho.setData_indirect hl h0 hj blk) m

theorem Parts.Owned.setData (blk : Block) : (p.setData (p.block i bn) blk).Owned sb ∅ ∅ := by
  have huse : (p.setData (p.block i bn) blk).use sb.ninodes = p.use sb.ninodes := by
    apply use_congr
    · exact fun _ _ => rfl
    · exact fun j hj ht _ => ho.setData_indirect hl h0 ⟨hj, ht⟩ blk
  have ho' := ho
  unfold Parts.Owned at ho' ⊢
  rw [huse]
  exact ho'

theorem Parts.Owned.writes_setData {blk : Block} (hblk : ∀ c, c < bsize → bn*bsize+c < lo ∨ hi ≤ bn*bsize+c →
      blk c = p.data (p.block i bn) c) :
    Writes sb i lo hi p (p.setData (p.block i bn) blk) := by
  refine ⟨⟨rfl, fun _ _ => rfl, ⟨_, rfl⟩, fun j m hj _ => ho.setData_block hl h0 hj blk m⟩,
    fun j m hji hj hm => ?_, fun k hk hout => ?_⟩
  · apply Function.update_of_ne
    exact fun heq => hji (ho.block_inj hj hl.live hm heq).1
  rw [Parts.byte, ho.setData_block hl h0 hl.live]
  by_cases hbn : k/bsize = bn
  · rw [Parts.byte, hbn]
    have hk' : bn*bsize+k%bsize = k := by
      rw [← hbn, mul_comm]
      exact Nat.div_add_mod k bsize
    simp only [Parts.setData, Function.update_self]
    exact hblk _ (Nat.mod_lt _ (by decide)) (by rw [hk']; exact hout)
  · simp only [Parts.setData]
    rw [Function.update_of_ne (fun heq => hbn (ho.block_inj hl.live hl.live hk heq).2)]
    rfl

end SetData

theorem copyin_get {mem : ℕ → Option UInt8} {src m k : ℕ} (hk : k < (copyin mem src m).length) :
    k < m ∧ mem (src+k) = some ((copyin mem src m).getD k 0) := by
  have hsome : (copyin mem src m).map some = ((List.range m).map (fun k => mem (src+k))).takeWhile Option.isSome := by
    unfold copyin
    generalize (List.range m).map (fun k => mem (src+k)) = l
    induction l with
    | nil => rfl
    | cons o l ih =>
      cases o with
      | none => rfl
      | some => simpa using ih
  have hpre : (copyin mem src m).map some <+: (List.range m).map (fun k => mem (src+k)) := hsome ▸ takeWhile_prefix _
  have hlen := hpre.length_le
  rw [length_map, length_map, length_range] at hlen
  have hget := hpre.getElem (i := k) (by rw [length_map]; exact hk)
  simp only [getElem_map, getElem_range] at hget
  refine ⟨hk.trans_le hlen, ?_⟩
  rw [← hget, getD_eq_getElem?_getD, List.getElem?_eq_getElem hk, Option.getD_some]

theorem length_copyin {mem : ℕ → Option UInt8} {src m : ℕ}
    (h : ∀ k < m, (mem (src+k)).isSome = true) : (copyin mem src m).length = m := by
  have hsome : ∀ o ∈ (List.range m).map (fun k => mem (src+k)), o.isSome = true := by
    intro o ho
    obtain ⟨k, hk, rfl⟩ := mem_map.mp ho
    exact h k (mem_range.mp hk)
  have hlen : (copyin mem src m).length = ((List.range m).map (fun k => mem (src+k))).length := by
    unfold copyin
    generalize (List.range m).map (fun k => mem (src+k)) = l at hsome ⊢
    induction l with
    | nil => rfl
    | cons o l ih =>
      obtain ⟨x, rfl⟩ := Option.isSome_iff_exists.mp (hsome o mem_cons_self)
      simpa using ih (fun o ho => hsome o (mem_cons_of_mem _ ho))
  rw [hlen, length_map, length_range]

section Chunk
variable (ho : p.Owned sb ∅ ∅) (hl : p.Locked sb i) {off n : ℕ} {cs : List UInt8}
  (h0 : p.block i (off/bsize) ≠ 0) (hcs : cs.length ≤ min n (bsize-off%bsize))
include ho hl h0 hcs

theorem writes_chunk : Writes sb i off (off+n) p (p.setData (p.block i (off/bsize))
    (store (p.data (p.block i (off/bsize))) (off%bsize) cs)) := by
  apply ho.writes_setData hl h0
  intro c _ hout
  have hdiv := Nat.div_add_mod off bsize
  rw [mul_comm] at hdiv
  apply if_neg
  omega

theorem byte_chunk {k : ℕ} (hk : k < cs.length) : (p.setData (p.block i (off/bsize))
      (store (p.data (p.block i (off/bsize))) (off%bsize) cs)).byte i (off+k) = cs.getD k 0 ∧
        (off+k)/bsize = off/bsize := by
  have hb : bsize = 1024 := rfl
  have hdiv : (off+k)/bsize = off/bsize := by
    rw [hb] at hcs ⊢
    omega
  have hmod : (off+k)%bsize = off%bsize+k := by
    rw [hb] at hcs ⊢
    omega
  have hin : off%bsize ≤ off%bsize+k ∧ off%bsize+k < off%bsize+cs.length := by omega
  refine ⟨?_, hdiv⟩
  rw [Parts.byte, ho.setData_block hl h0 hl.live, hdiv, hmod]
  simp only [Parts.setData, Function.update_self, store, hin, and_self, if_true, Nat.add_sub_cancel_left]

end Chunk

structure Wrote (sb : Superblock) (i : ℕ) (mem : ℕ → Option UInt8) (src off n fin : ℕ) (p p' : Parts) : Prop where
  owned : p'.Owned sb ∅ ∅
  writes : Writes sb i off (off+n) p p'
  le : off ≤ fin ∧ fin ≤ off+n
  copied : ∀ k, off+k < fin → p'.block i ((off+k)/bsize) ≠ 0 ∧ mem (src+k) = some (p'.byte i (off+k))
  all : (∀ k < n, (mem (src+k)).isSome = true) → fin = off+n

def Parts.holes (p : Parts) (i lo hi : ℕ) : ℕ := ∑ bn ∈ Finset.Ico lo hi, if p.block i bn = 0 then 1 else 0

def Parts.need (p : Parts) (i off n : ℕ) : ℕ :=
  if n = 0 then 0
  else (if ndirect ≤ (off+n-1)/bsize ∧ (p.itab i).din.addrs 12 = 0 then 1 else 0) +
    p.holes i (off/bsize) ((off+n-1)/bsize+1)

theorem ite_mono {P Q : Prop} [Decidable P] [Decidable Q] (h : P → Q) : (if P then 1 else 0) ≤ if Q then 1 else 0 := by
  by_cases hp : P
  · rw [if_pos hp, if_pos (h hp)]
  · rw [if_neg hp]
    exact Nat.zero_le _

theorem Parts.need_cost {off n : ℕ} (hn : n ≠ 0) : p.cost i (off/bsize) ≤ p.need i off n := by
  have hle : off/bsize ≤ (off+n-1)/bsize := Nat.div_le_div_right (by omega)
  rw [Parts.need, if_neg hn, Parts.holes, Finset.sum_eq_sum_Ico_succ_bot (by omega), Parts.cost]
  have hind : (if ndirect ≤ off/bsize ∧ (p.itab i).din.addrs 12 = 0 then 1 else 0) ≤
      if ndirect ≤ (off+n-1)/bsize ∧ (p.itab i).din.addrs 12 = 0 then 1 else 0 :=
    ite_mono (fun h => ⟨h.1.trans hle, h.2⟩)
  omega

theorem Parts.need_chunk {off n : ℕ} (hn : n ≠ 0) (hblock : ∀ bn, p'.block i bn = 0 → p.block i bn = 0)
    (haddrs : (p'.itab i).din.addrs 12 = 0 → (p.itab i).din.addrs 12 = 0 ∧ off/bsize < ndirect) :
    p'.need i (off+min n (bsize-off%bsize)) (n-min n (bsize-off%bsize)) + p.cost i (off/bsize) ≤ p.need i off n := by
  have hb : bsize = 1024 := rfl
  by_cases hlast : n ≤ bsize-off%bsize
  · rw [Nat.min_eq_left hlast, Nat.sub_self, Parts.need, if_pos rfl, Nat.zero_add]
    exact Parts.need_cost hn
  rw [Nat.min_eq_right (by omega)]
  have hfirst : (off+(bsize-off%bsize))/bsize = off/bsize+1 := by
    rw [hb] at hlast ⊢
    omega
  have hend : off+(bsize-off%bsize)+(n-(bsize-off%bsize))-1 = off+n-1 := by omega
  have hlt : off/bsize < (off+n-1)/bsize+1 := Nat.lt_succ_of_le (Nat.div_le_div_right (by omega))
  have hholes : p'.holes i (off/bsize+1) ((off+n-1)/bsize+1) ≤ p.holes i (off/bsize+1) ((off+n-1)/bsize+1) := by
    apply Finset.sum_le_sum
    intro bn _
    by_cases h0 : p'.block i bn = 0
    · rw [if_pos h0, if_pos (hblock bn h0)]
    · rw [if_neg h0]
      exact Nat.zero_le _
  have hsplit : p.holes i (off/bsize) ((off+n-1)/bsize+1) =
      (if p.block i (off/bsize) = 0 then 1 else 0) + p.holes i (off/bsize+1) ((off+n-1)/bsize+1) :=
    Finset.sum_eq_sum_Ico_succ_bot hlt _
  have hind : (if ndirect ≤ (off+n-1)/bsize ∧ (p'.itab i).din.addrs 12 = 0 then 1 else 0) +
      (if ndirect ≤ off/bsize ∧ (p.itab i).din.addrs 12 = 0 then 1 else 0) ≤
        if ndirect ≤ (off+n-1)/bsize ∧ (p.itab i).din.addrs 12 = 0 then 1 else 0 := by
    by_cases h12 : (p'.itab i).din.addrs 12 = 0
    · obtain ⟨hp12, hlt⟩ := haddrs h12
      simp only [h12, hp12, and_true, if_neg (not_le.mpr hlt), Nat.add_zero, le_refl]
    · simp only [h12, and_false, if_false, Nat.zero_add]
      exact ite_mono (fun h => ⟨h.1.trans (Nat.le_of_lt_succ hlt), h.2⟩)
  rw [Parts.need, if_neg (by omega), Parts.need, if_neg hn, hend, hfirst, hsplit, Parts.cost]
  omega

/-- The loop of writei panics only if the file would get too long or the disk has no room. -/
theorem writeiLoop_room (hg : Geometry sb) (mem : ℕ → Option UInt8) {fuel n : ℕ} (hfuel : n ≤ fuel) {src off : ℕ}
    (hE : Calm E ∨ (off+n ≤ maxFile*bsize ∧ p.need i off n ≤ p.free sb))
    (ho : p.Owned sb ∅ ∅) (hl : p.Locked sb i) :
    Triple E (At sb p) (writeiLoop sb i mem fuel src off n)
      (fun fin s => ∃ p', Wrote sb i mem src off n fin p p' ∧ At sb p' s) := by
  induction fuel generalizing p src off n with
  | zero =>
    apply Triple.pure
    intro s hs
    exact ⟨p, ⟨ho, Writes.refl p, by omega, fun k hk => by omega, fun _ => by omega⟩, hs⟩
  | succ fuel ih =>
    apply Triple.ite
    · intro hn
      apply Triple.pure
      intro s hs
      exact ⟨p, ⟨ho, Writes.refl p, by omega, fun k hk => by omega, fun _ => by omega⟩, hs⟩
    intro hn
    have hroom : Calm E ∨ (off/bsize < maxFile ∧ p.cost i (off/bsize) ≤ p.free sb) := by
      refine hE.imp id (fun h => ⟨?_, (Parts.need_cost hn).trans h.2⟩)
      exact (Nat.div_lt_iff_lt_mul (by decide)).mpr (by omega)
    refine .bind_exists (bmap_room hroom hg ho hl) ?_
    rintro b q ⟨hfill, rfl, h0, hind⟩
    obtain ⟨hqo, hq, haddrs, hfree⟩ := hfill
    have hql := hq.locked hl
    obtain ⟨hlo, hhi⟩ := hqo.block_range hql.live h0
    apply bread_data hlo hhi
    refine .bind (logWrite_data hg hlo hhi _) (fun _ => ?_)
    have hlen : (copyin mem src (min n (bsize-off%bsize))).length ≤ min n (bsize-off%bsize) := by
      by_contra hlt
      have := (copyin_get (not_le.mp hlt)).1
      omega
    have hchunk := writes_chunk hqo hql h0 hlen
    have hro := hqo.setData hql h0 (store (q.data (q.block i (off/bsize))) (off%bsize)
      (copyin mem src (min n (bsize-off%bsize))))
    have hpr : Writes sb i off (off+n) p _ := (hq.writes hl.live).trans hchunk hl.live
    apply Triple.ite
    · intro hfull
      have hmod : off%bsize < bsize := Nat.mod_lt _ (by decide)
      have hmpos : 0 < min n (bsize-off%bsize) := by omega
      have hrl := hpr.locked hl
      have hnext : Calm E ∨ (off+min n (bsize-off%bsize)+(n-min n (bsize-off%bsize)) ≤
          maxFile*bsize ∧ (q.setData (q.block i (off/bsize)) (store (q.data (q.block i (off/bsize))) (off%bsize)
              (copyin mem src (min n (bsize-off%bsize))))).need i
            (off+min n (bsize-off%bsize)) (n-min n (bsize-off%bsize)) ≤ q.free sb) := by
        refine hE.imp id (fun h => ⟨by omega, ?_⟩)
        have hchunks := @Parts.need_chunk p (q.setData (q.block i (off/bsize))
          (store (q.data (q.block i (off/bsize))) (off%bsize) (copyin mem src (min n (bsize-off%bsize))))) i off n hn
          (fun bn hz => by
            by_contra hne
            rw [hpr.block i bn hl.live (fun _ => hne)] at hz
            exact hne hz)
          (fun hz => ⟨by
            by_contra hne
            exact haddrs 12 hne hz, by
            by_contra hle
            exact hind (not_lt.mp hle) hz⟩)
        omega
      apply (ih (n := n-min n (bsize-off%bsize)) (by omega) hnext hro hrl).post
      rintro fin s ⟨t, ht, hs⟩
      have hrest := ht.writes.mono (a := off) (b := off+n) (by omega) (by omega)
      refine ⟨t, ⟨ht.owned, hpr.trans hrest hl.live, ?_, fun k hk => ?_, fun hall => ?_⟩, hs⟩
      · have := ht.le
        omega
      · by_cases hkm : k < min n (bsize-off%bsize)
        · -- a byte of this chunk, which the rest of the loop leaves alone
          have hkl : k < (copyin mem src (min n (bsize-off%bsize))).length := by omega
          obtain ⟨hbyte, hdiv⟩ := byte_chunk hqo hql h0 hlen hkl
          have hblk := hqo.setData_block hql h0 hql.live (store (q.data (q.block i (off/bsize)))
            (off%bsize) (copyin mem src (min n (bsize-off%bsize)))) ((off+k)/bsize)
          have hne := h0
          rw [← hdiv, ← hblk] at hne
          rw [ht.writes.block i _ hrl.live (fun _ => hne), ht.writes.byte _ hne (by omega), hbyte]
          exact ⟨hne, (copyin_get hkl).2⟩
        · have hcop := ht.copied (k-min n (bsize-off%bsize)) (by omega)
          have heq1 : off+min n (bsize-off%bsize)+(k-min n (bsize-off%bsize)) = off+k := by omega
          have heq2 : src+min n (bsize-off%bsize)+(k-min n (bsize-off%bsize)) = src+k := by omega
          rw [heq1, heq2] at hcop
          exact hcop
      · have hfin := ht.all (fun k hk => by
          have := hall (min n (bsize-off%bsize)+k) (by omega)
          rwa [← Nat.add_assoc] at this)
        omega
    · intro hshort
      apply Triple.pure
      intro s hs
      refine ⟨_, ⟨hro, hpr, by omega, fun k hk => by omega, fun hall => ?_⟩, hs⟩
      exact absurd (length_copyin (fun k hk => hall k (by omega))) hshort

theorem Parts.Sound.writes (h : p.Sound sb) (hw : Writes sb i lo hi p p') : p'.Others sb i := by
  have hview {j : ℕ} (hj : j ≠ i) : p'.view j = p.view j := Parts.view_congr (hw.other j hj) (by rw [hw.disk])
  refine ⟨fun j hj hr => ?_, fun j hj hl => ?_, fun j hj => ?_, fun j hj hlive => ?_⟩
  · rw [hw.other j hj] at hr
    exact h.ranged j hr
  · unfold Parts.Loaded at hl
    rw [hw.other j hj] at hl
    rw [hview hj]
    exact h.typed j hl
  · rw [hview hj, hw.disk]
    exact h.clean j
  have hold : p.Live sb j := ⟨hlive.1, by rw [← hview hj]; exact hlive.2⟩
  apply (h.files j hold).congr
  · rw [hview hj]
  · rw [hview hj]
  · exact fun bn _ => hw.block j bn hold (fun hji => absurd hji hj)
  · exact fun bn h0 => hw.data j bn hj hold h0

def EntryWrite (sb : Superblock) (mem : ℕ → Option UInt8) (src off n : ℕ) : Prop :=
  off%direntSize = 0 ∧ n = direntSize ∧ (∀ k < n, (mem (src+k)).isSome = true) ∧
    ∀ a b, mem src = some a → mem (src+1) = some b → leNat [a, b] < sb.ninodes

section Finish
variable {mem : ℕ → Option UInt8} {src off n fin : ℕ} {x : Dinode}
  (hfull : ∀ bn, bn*bsize < (p.view i).size.toNat → p.block i bn ≠ 0) (h : p.File sb i)
  (hl : p.Locked sb i) (hw : Wrote sb i mem src off n fin p p')
  (hoff : off ≤ (p.view i).size.toNat) (hx : (p'.update i x).view i = x)
  (hxt : x.type = (p.view i).type) (hxa : x.addrs = (p'.view i).addrs)
  (hxs : x.size.toNat = max fin (p.view i).size.toNat)
include hx hxa

theorem update_block (bn : ℕ) : (p'.update i x).block i bn = p'.block i bn := by
  rw [Parts.block, hx]
  simp only [blockAt, hxa]
  rfl

theorem update_byte (k : ℕ) : (p'.update i x).byte i k = p'.byte i k := by
  rw [Parts.byte, update_block hx hxa]
  rfl

include hw

section Full
include hfull hl hoff hxs

theorem Wrote.full {bn : ℕ} (hbn : bn*bsize < x.size.toNat) : (p'.update i x).block i bn ≠ 0 := by
  rw [update_block hx hxa]
  by_cases hold : bn*bsize < (p.view i).size.toNat
  · have h0 := hfull bn hold
    rw [hw.writes.block i bn hl.live (fun _ => h0)]
    exact h0
  · have hk := (hw.copied (bn*bsize-off) (by omega)).1
    have heq : off+(bn*bsize-off) = bn*bsize := by omega
    rwa [heq, Nat.mul_div_cancel _ (by decide)] at hk

end Full

include h hoff hxs hxt

theorem Wrote.inums (hdir : x.type = tDir) (hentry : EntryWrite sb mem src off n) {o : ℕ}
    (ho : o%direntSize = 0) (hle : o+direntSize ≤ x.size.toNat) :
    (p'.update i x).inumAt i o < sb.ninodes := by
  obtain ⟨hoff16, rfl, hsome, hinum⟩ := hentry
  have h16 : direntSize = 16 := rfl
  have hfin := hw.all hsome
  rw [Parts.inumAt, update_byte hx hxa, update_byte hx hxa]
  by_cases hoo : o = off
  · subst hoo
    have ha := (hw.copied 0 (by omega)).2
    have hb := (hw.copied 1 (by omega)).2
    exact hinum _ _ ha hb
  -- another entry, which was there before
  have hold : o+direntSize ≤ (p.view i).size.toNat := by
    rw [h16] at ho hoff16 hle hfin ⊢
    omega
  have hbyte {k : ℕ} (hk : k < direntSize) : p'.byte i (o+k) = p.byte i (o+k) := by
    apply hw.writes.byte
    · exact h.block_ne (by omega)
    · rw [h16] at ho hoff16 hk ⊢
      omega
  have h1 := hbyte (k := 1) (by decide)
  have h0 := hbyte (k := 0) (by decide)
  rw [Nat.add_zero] at h0
  rw [h0, h1]
  exact h.inums (hxt ▸ hdir) o ho hold

end Finish

def grow (fin : ℕ) (d : Dinode) : Dinode :=
  if fin > d.size.toNat then { d with size := UInt32.ofNat fin } else d

theorem grow_type (fin : ℕ) (d : Dinode) : (grow fin d).type = d.type := by
  unfold grow
  split_ifs <;> rfl

theorem grow_addrs (fin : ℕ) (d : Dinode) : (grow fin d).addrs = d.addrs := by
  unfold grow
  split_ifs <;> rfl

theorem grow_size {fin : ℕ} (h : fin < 2^32) (d : Dinode) : (grow fin d).size.toNat = max fin d.size.toNat := by
  unfold grow
  split_ifs with hc
  · rw [UInt32.toNat_ofNat', Nat.mod_eq_of_lt h]
    omega
  · omega

structure Grown (sb : Superblock) (i fin : ℕ) (p p' : Parts) (x : Dinode) : Prop where
  view : (p'.update i x).view i = x
  type : x.type = (p.view i).type
  addrs : x.addrs = (p'.view i).addrs
  size : x.size.toNat = max fin (p.view i).size.toNat
  owned : (p'.update i x).Owned sb ∅ ∅

theorem Wrote.grown {mem : ℕ → Option UInt8} {src off n fin : ℕ} (hl : p.Locked sb i)
    (hw : Wrote sb i mem src off n fin p p') (hn : fin < 2^32) :
    Grown sb i fin p p' (grow fin (p'.view i)) := by
  have hql := hw.writes.locked hl
  have hsize : (p'.view i).size = (p.view i).size := by
    obtain ⟨a, ha⟩ := hw.writes.self
    rw [hql.loaded.view, ha, hl.loaded.view]
  have hqt : (p'.view i).type = (p.view i).type := by rw [hql.loaded.view, hl.loaded.view, hw.writes.type_eq]
  refine ⟨?_, (grow_type ..).trans hqt, grow_addrs .., ?_, ?_⟩
  · rw [hql.loaded.view_update, Function.update_self]
  · rw [grow_size hn, hsize]
  · have hown := (hw.owned.setDin hql.loaded (x := grow fin (p'.itab i).din) (grow_type ..)
      (grow_addrs ..)).writeBack (hql.loaded.setDin _)
    rwa [hql.loaded.view]

/-- Writing the inode back after the loop: the file system is sound again. -/
theorem Wrote.finish {mem : ℕ → Option UInt8} {src off n fin : ℕ} (h : p.Sound sb) (hl : p.Locked sb i)
    (hw : Wrote sb i mem src off n fin p p') (hoff : off ≤ (p.view i).size.toNat) (hn : fin < 2^32)
    (hentry : (p.view i).type = tDir → EntryWrite sb mem src off n) :
    (p'.update i (grow fin (p'.view i))).Sound sb ∧ Keeps sb p (p'.update i (grow fin (p'.view i))) := by
  have hx := hw.grown hl hn
  generalize grow fin (p'.view i) = x at hx ⊢
  have htype : x.type ≠ 0 := by
    rw [hx.type]
    exact hl.live.2
  refine ⟨(h.writes hw.writes).update (hw.writes.locked hl) htype hx.owned
    ⟨fun bn hbn => ?_, fun hdir o ho hle => ?_⟩, ?_⟩
  · rw [hx.view] at hbn
    exact hw.full (h.file hl).full hl hoff hx.view hx.addrs hx.size hbn
  · rw [hx.view] at hdir hle
    have hpdir : (p.view i).type = tDir := by rw [← hx.type, hdir]
    exact hw.inums (h.file hl) hoff hx.view hx.type hx.addrs hx.size hdir (hentry hpdir) ho hle
  · have hgrow : Keeps sb p p' := ⟨fun j => (hw.writes.ref_eq j).1, fun j hj => hw.writes.locked hj⟩
    exact hgrow.trans (Keeps.update htype)

theorem writei_spec (hE : Calm E) (hg : Geometry sb) (h : p.Sound sb) (hl : p.Locked sb i)
    {mem : ℕ → Option UInt8} {src off n : ℕ} (hn : n < 2^32)
    (hentry : (p.view i).type = tDir → EntryWrite sb mem src off n) :
    Triple E (At sb p) (writei sb i mem src off n) (fun _ s => ∃ p', (p'.Sound sb ∧ Keeps sb p p') ∧ At sb p' s) := by
  apply incore_bind
  rw [← hl.loaded.view]
  apply Triple.ite
  · intro _
    apply Triple.pure
    exact fun s hs => ⟨p, ⟨h, Keeps.refl p⟩, hs⟩
  intro hoff
  push Not at hoff
  apply Triple.ite
  · intro _
    apply Triple.pure
    exact fun s hs => ⟨p, ⟨h, Keeps.refl p⟩, hs⟩
  intro _
  refine .bind_exists (writeiLoop_room hg mem le_rfl (Or.inl hE) h.owned hl) ?_
  intro fin q hw
  refine .bind (setIncore_spec i _) (fun _ => ?_)
  refine .bind (iupdate_spec hg hl.lt) (fun _ => ?_)
  apply Triple.pure
  intro s hs
  have hlt : fin < 2^32 := by
    have := hw.le
    have := (p.view i).size.toNat_lt
    omega
  rw [← (hw.writes.locked hl).loaded.view] at hs
  exact ⟨q.update i (grow fin (q.view i)), hw.finish h hl hoff.1 hlt hentry, hs⟩

end Xv6.Store
