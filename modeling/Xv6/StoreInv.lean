import Xv6.StoreTrunc

/-! The invariant between calls: the bitmap agrees with the inodes, the copies in memory with the
disk, no file has a hole below its size, and directories name inodes of the disk. -/
namespace Xv6.Store
open Bytes Hoare Ownership

def Parts.byte (p : Parts) (i k : ℕ) : UInt8 := p.data (p.block i (k/bsize)) (k%bsize)

def Parts.inumAt (p : Parts) (i off : ℕ) : ℕ := leNat [p.byte i off, p.byte i (off+1)]

structure Parts.File (sb : Superblock) (p : Parts) (i : ℕ) : Prop where
  full : ∀ bn, bn*bsize < (p.view i).size.toNat → p.block i bn ≠ 0
  inums : (p.view i).type = tDir → ∀ off, off%direntSize = 0 →
    off+direntSize ≤ (p.view i).size.toNat → p.inumAt i off < sb.ninodes

structure Parts.Sound (sb : Superblock) (p : Parts) : Prop where
  owned : p.Owned sb ∅ ∅
  ranged : ∀ i, 0 < (p.itab i).ref → i < sb.ninodes
  typed : ∀ i, p.Loaded i → (p.view i).type ≠ 0
  clean : ∀ i, p.view i = p.disk i
  files : ∀ i, p.Live sb i → p.File sb i

structure Keeps (sb : Superblock) (p p' : Parts) : Prop where
  ref : ∀ i, (p'.itab i).ref = (p.itab i).ref
  locked : ∀ i, p.Locked sb i → p'.Locked sb i

variable {sb : Superblock} {p p' p'' : Parts} {E : Panic → Prop} {i : ℕ}

theorem Keeps.refl (p : Parts) : Keeps sb p p := ⟨fun _ => rfl, fun _ h => h⟩

theorem Keeps.trans (h : Keeps sb p p') (h' : Keeps sb p' p'') : Keeps sb p p'' :=
  ⟨fun i => (h'.ref i).trans (h.ref i), fun i hi => h'.locked i (h.locked i hi)⟩

theorem Parts.byte_congr {k : ℕ} (hblock : p'.block i (k/bsize) = p.block i (k/bsize))
    (hdata : p'.data (p.block i (k/bsize)) = p.data (p.block i (k/bsize))) :
    p'.byte i k = p.byte i k := by
  rw [Parts.byte, hblock, hdata, Parts.byte]

theorem Parts.File.block_ne (h : p.File sb i) {k : ℕ} (hk : k < (p.view i).size.toNat) : p.block i (k/bsize) ≠ 0 :=
  h.full _ ((Nat.div_mul_le_self k bsize).trans_lt hk)

theorem Parts.File.congr (h : p.File sb i) (htype : (p'.view i).type = (p.view i).type)
    (hsize : (p'.view i).size = (p.view i).size)
    (hblock : ∀ bn, p.block i bn ≠ 0 → p'.block i bn = p.block i bn)
    (hdata : ∀ bn, p.block i bn ≠ 0 → p'.data (p.block i bn) = p.data (p.block i bn)) :
    p'.File sb i := by
  refine ⟨fun bn hbn => ?_, fun hdir off hoff hle => ?_⟩
  · rw [hsize] at hbn
    have h0 := h.full bn hbn
    rw [hblock bn h0]
    exact h0
  rw [hsize] at hle
  rw [htype] at hdir
  have hbyte {k : ℕ} (hk : k < off+direntSize) : p'.byte i k = p.byte i k := by
    have h0 := h.block_ne (hk.trans_le hle)
    exact Parts.byte_congr (hblock _ h0) (hdata _ h0)
  have h16 : direntSize = 16 := rfl
  rw [Parts.inumAt, hbyte (by omega), hbyte (by omega)]
  exact h.inums hdir off hoff hle

theorem Parts.File.of_size_zero (h : (p.view i).size = 0) : p.File sb i := by
  have h16 : direntSize = 16 := rfl
  refine ⟨fun bn hbn => ?_, fun _ off _ hle => ?_⟩
  · rw [h] at hbn
    exact absurd hbn (Nat.not_lt_zero _)
  · have h0 : (p.view i).size.toNat = 0 := by rw [h]; rfl
    omega

theorem Parts.Sound.locked (h : p.Sound sb) (hl : p.Loaded i) : p.Locked sb i :=
  ⟨hl, h.ranged i hl.1, by rw [← hl.view]; exact h.typed i hl⟩

theorem Parts.Sound.file (h : p.Sound sb) (hl : p.Locked sb i) : p.File sb i := h.files i hl.live

structure Parts.Others (sb : Superblock) (i : ℕ) (p : Parts) : Prop where
  ranged : ∀ j, j ≠ i → 0 < (p.itab j).ref → j < sb.ninodes
  typed : ∀ j, j ≠ i → p.Loaded j → (p.view j).type ≠ 0
  clean : ∀ j, j ≠ i → p.view j = p.disk j
  files : ∀ j, j ≠ i → p.Live sb j → p.File sb j

theorem Parts.Sound.others (h : p.Sound sb) : p.Others sb i :=
  ⟨fun j _ => h.ranged j, fun j _ => h.typed j, fun j _ => h.clean j, fun j _ => h.files j⟩

theorem Parts.Others.sound (h : p.Others sb i) (hitab : ∀ j, j ≠ i → p'.itab j = p.itab j)
    (hdisk : ∀ j, j ≠ i → p'.disk j = p.disk j) (hdata : p'.data = p.data)
    (ho : p'.Owned sb ∅ ∅) (hranged : 0 < (p'.itab i).ref → i < sb.ninodes)
    (htyped : p'.Loaded i → (p'.view i).type ≠ 0) (hclean : p'.view i = p'.disk i)
    (hfile : p'.Live sb i → p'.File sb i) : p'.Sound sb := by
  have hview {j : ℕ} (hj : j ≠ i) : p'.view j = p.view j := Parts.view_congr (hitab j hj) (hdisk j hj)
  refine ⟨ho, fun j hr => ?_, fun j hl => ?_, fun j => ?_, fun j hlive => ?_⟩ <;>
    by_cases hj : j = i
  · exact hj ▸ hranged (hj ▸ hr)
  · rw [hitab j hj] at hr
    exact h.ranged j hj hr
  · exact hj ▸ htyped (hj ▸ hl)
  · unfold Parts.Loaded at hl
    rw [hitab j hj] at hl
    rw [hview hj]
    exact h.typed j hj hl
  · exact hj ▸ hclean
  · rw [hview hj, hdisk j hj]
    exact h.clean j hj
  · exact hj ▸ hfile (hj ▸ hlive)
  have hold : p.Live sb j := ⟨hlive.1, by rw [← hview hj]; exact hlive.2⟩
  have hblock (bn : ℕ) : p'.block j bn = p.block j bn := by rw [Parts.block, hview hj, hdata, Parts.block]
  apply (h.files j hj hold).congr
  · rw [hview hj]
  · rw [hview hj]
  · exact fun bn _ => hblock bn
  · exact fun bn _ => by rw [hdata]

theorem Parts.Sound.setItab (h : p.Sound sb) {e : Incore} (hi : 0 < e.ref → i < sb.ninodes)
    (hdin : 0 < e.ref → e.valid = true → e.din = p.disk i ∧ e.din.type ≠ 0) :
    (p.setItab i e).Sound sb := by
  have hself : (p.setItab i e).itab i = e := Function.update_self ..
  have hview : (p.setItab i e).view i = p.disk i := by
    rw [Parts.view, hself]
    split_ifs with hc
    · exact (hdin hc.1 hc.2).1
    · rfl
  have hsame : (p.setItab i e).view = p.view := by
    funext j
    by_cases hj : j = i
    · rw [hj, hview, h.clean]
    · exact Parts.view_congr (Function.update_of_ne hj ..) rfl
  apply Parts.Others.sound (i := i) h.others
  · exact fun j hj => Function.update_of_ne hj ..
  · exact fun _ _ => rfl
  · rfl
  · have ho := h.owned
    unfold Parts.Owned at ho ⊢
    rw [Parts.use, hsame]
    exact ho
  · rw [hself]
    exact hi
  · intro hl
    rw [hl.view]
    unfold Parts.Loaded at hl
    rw [hself] at hl ⊢
    exact (hdin hl.1 hl.2).2
  · exact hview
  intro hlive
  have hold : p.Live sb i := ⟨hlive.1, by rw [← hsame]; exact hlive.2⟩
  apply (h.files i hold).congr
  · rw [hsame]
  · rw [hsame]
  · exact fun bn _ => by rw [Parts.block, hsame]; rfl
  · exact fun _ _ => rfl

theorem Parts.update_self (p : Parts) (i : ℕ) (x : Dinode) :
    (p.update i x).itab i = { p.itab i with din := x } := Function.update_self ..

theorem Parts.update_other (p : Parts) (x : Dinode) {j : ℕ} (hj : j ≠ i) :
    (p.update i x).itab j = p.itab j := Function.update_of_ne hj ..

theorem Parts.update_disk (p : Parts) (i : ℕ) (x : Dinode) : (p.update i x).disk i = x := by
  simp [Parts.update, Parts.writeBack, Parts.setDin, Parts.setItab]

theorem Parts.Loaded.view_update (hl : p.Loaded i) (x : Dinode) : (p.update i x).view = Function.update p.view i x := by
  rw [Parts.update, (hl.setDin x).view_writeBack, hl.view_setDin]

theorem Parts.Others.update (h : p.Others sb i) (hl : p.Locked sb i) {x : Dinode} (ht : x.type ≠ 0)
    (ho : (p.update i x).Owned sb ∅ ∅) (hfile : (p.update i x).File sb i) :
    (p.update i x).Sound sb := by
  have hview : (p.update i x).view i = x := by rw [hl.loaded.view_update, Function.update_self]
  apply h.sound (fun j hj => p.update_other x hj) (fun j hj => Function.update_of_ne hj ..) rfl ho
  · exact fun _ => hl.lt
  · intro _
    rw [hview]
    exact ht
  · rw [hview, p.update_disk]
  · exact fun _ => hfile

theorem Keeps.update {x : Dinode} (ht : x.type ≠ 0) : Keeps sb p (p.update i x) := by
  refine ⟨fun j => ?_, fun j hj => ?_⟩ <;> by_cases hji : j = i
  · rw [hji, p.update_self]
  · rw [p.update_other x hji]
  · subst hji
    refine ⟨?_, hj.lt, ?_⟩
    · unfold Parts.Loaded
      rw [p.update_self]
      exact hj.loaded
    · rw [p.update_self]
      exact ht
  · refine ⟨?_, hj.lt, ?_⟩
    · unfold Parts.Loaded
      rw [p.update_other x hji]
      exact hj.loaded
    · rw [p.update_other x hji]
      exact hj.typed

end Xv6.Store
