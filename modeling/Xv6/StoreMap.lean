import Xv6.StoreParts

/-! The blocks of a file, and the slots that hold their numbers. -/
namespace Xv6.Store
open Function (update_of_ne update_self)
open Ownership

def blockAt (x : Dinode) (data : ℕ → Block) (bn : ℕ) : ℕ :=
  if bn < ndirect then (x.addrs (Fin.ofNat 13 bn)).toNat
  else if bn-ndirect < nindirect ∧ x.addrs 12 ≠ 0 then
    (word (data (x.addrs 12).toNat) (bn-ndirect)).toNat
  else 0

def Parts.block (p : Parts) (i bn : ℕ) : ℕ := blockAt (p.view i) p.data bn

def Parts.Loaded (p : Parts) (i : ℕ) : Prop := 0 < (p.itab i).ref ∧ (p.itab i).valid = true

def Parts.Live (sb : Superblock) (p : Parts) (i : ℕ) : Prop := i < sb.ninodes ∧ (p.view i).type ≠ 0

def dataSlot (i bn : ℕ) : Slot :=
  if bn < ndirect then .addr i (Fin.ofNat 13 bn) else .entry i (Fin.ofNat 256 (bn-ndirect))

variable {sb : Superblock} {p p' : Parts} {i : ℕ}

theorem Parts.Loaded.view (hl : p.Loaded i) : p.view i = (p.itab i).din := if_pos hl

variable {j n bn : ℕ} {P : Set ℕ}

theorem Parts.view_congr (hi : p'.itab j = p.itab j) (hd : p'.disk j = p.disk j) : p'.view j = p.view j := by
  simp only [Parts.view, hi, hd]

theorem Parts.Loaded.view_setDin (hl : p.Loaded i) (x : Dinode) : (p.setDin i x).view = Function.update p.view i x := by
  funext j
  by_cases hj : j = i
  · subst hj
    rw [update_self]
    have hl' : (p.setDin j x).Loaded j := by simpa [Parts.Loaded, Parts.setDin, Parts.setItab] using hl
    rw [hl'.view]
    simp [Parts.setDin, Parts.setItab]
  · rw [update_of_ne hj]
    apply Parts.view_congr
    · simp [Parts.setDin, Parts.setItab, hj]
    · rfl

theorem fin_ofNat_val [NeZero n] {k : ℕ} (hk : k < n) : (Fin.ofNat n k).val = k := Nat.mod_eq_of_lt hk

theorem dataSlot_inj {i m : ℕ} (hbn : bn < maxFile) (hm : m < maxFile)
    (h : dataSlot i bn = dataSlot j m) : i = j ∧ bn = m := by
  have hmax : maxFile = 268 := rfl
  have hnd : ndirect = 12 := rfl
  unfold dataSlot at h
  split_ifs at h with h1 h2 h2
  · obtain ⟨rfl, hk⟩ := Slot.addr.inj h
    have hv := congrArg Fin.val hk
    rw [fin_ofNat_val (by omega), fin_ofNat_val (by omega)] at hv
    exact ⟨rfl, hv⟩
  obtain ⟨rfl, hk⟩ := Slot.entry.inj h
  have hv := congrArg Fin.val hk
  rw [fin_ofNat_val (by omega), fin_ofNat_val (by omega)] at hv
  exact ⟨rfl, by omega⟩

theorem dataSlot_ne_indirect (i j bn : ℕ) : dataSlot i bn ≠ .addr j 12 := by
  have hnd : ndirect = 12 := rfl
  unfold dataSlot
  split_ifs with h
  · intro heq
    have hv := congrArg Fin.val (Slot.addr.inj heq).2
    rw [fin_ofNat_val (by omega)] at hv
    have h12 : ((12 : Fin 13) : ℕ) = 12 := rfl
    omega
  · exact fun heq => by cases heq

theorem blockAt_lt {x : Dinode} {data : ℕ → Block} (h : blockAt x data bn ≠ 0) : bn < maxFile := by
  unfold blockAt at h
  have hmax : maxFile = ndirect+nindirect := rfl
  split_ifs at h with h1 h2
  · omega
  · omega
  · exact absurd rfl h

theorem Parts.Live.use_addr (hl : p.Live sb i) (k : Fin 13) :
    p.use sb.ninodes (.addr i k) = ((p.view i).addrs k).toNat :=
  if_pos hl

theorem Parts.Live.use_dataSlot (hl : p.Live sb i) (hbn : bn < maxFile) :
    p.use sb.ninodes (dataSlot i bn) = p.block i bn := by
  have hmax : maxFile = ndirect+nindirect := rfl
  have hni : nindirect = 256 := rfl
  unfold dataSlot Parts.block blockAt
  by_cases h : bn < ndirect
  · rw [if_pos h, if_pos h]
    exact hl.use_addr _
  have hlt : bn-ndirect < nindirect := by omega
  rw [if_neg h, if_neg h]
  simp only [Parts.use, Store.use, hl.1, hl.2, hlt, true_and, ne_eq, not_false_eq_true,
    fin_ofNat_val (show bn-ndirect < 256 by omega)]

theorem Parts.Owned.block_inj (ho : p.Owned sb ∅ P) {m : ℕ} (hi : p.Live sb i)
    (hj : p.Live sb j) (h0 : p.block i bn ≠ 0) (heq : p.block i bn = p.block j m) :
    i = j ∧ bn = m := by
  have hbn := blockAt_lt h0
  have hm := blockAt_lt (heq ▸ h0)
  rw [← hi.use_dataSlot hbn] at h0 heq
  rw [← hj.use_dataSlot hm] at heq
  exact dataSlot_inj hbn hm (ho.inj _ (Set.notMem_empty _) _ (Set.notMem_empty _) h0 heq)

theorem Parts.Owned.block_range (ho : p.Owned sb ∅ P) (hi : p.Live sb i)
    (h0 : p.block i bn ≠ 0) : sb.datastart ≤ p.block i bn ∧ p.block i bn < sb.size := by
  have hbn := blockAt_lt h0
  rw [← hi.use_dataSlot hbn] at h0 ⊢
  exact ho.range _ (Set.notMem_empty _) h0

theorem Parts.Owned.block_ne_indirect (ho : p.Owned sb ∅ P)
    (hi : p.Live sb i) (hj : p.Live sb j) (h0 : p.block i bn ≠ 0) :
    p.block i bn ≠ ((p.view j).addrs 12).toNat := by
  intro heq
  have hbn := blockAt_lt h0
  rw [← hi.use_dataSlot hbn] at h0 heq
  rw [← hj.use_addr 12] at heq
  exact dataSlot_ne_indirect i j bn (ho.inj _ (Set.notMem_empty _) _ (Set.notMem_empty _) h0 heq)

structure Parts.Locked (sb : Superblock) (p : Parts) (i : ℕ) : Prop where
  loaded : p.Loaded i
  lt : i < sb.ninodes
  typed : (p.itab i).din.type ≠ 0

theorem Parts.Locked.live (hl : p.Locked sb i) : p.Live sb i := by
  refine ⟨hl.lt, ?_⟩
  rw [hl.loaded.view]
  exact hl.typed

theorem use_setAddr {v : ℕ → Dinode} {D : ℕ → Block} {k : Fin 13} {x : UInt32} (hi : i < n) (ht : (v i).type ≠ 0)
    (hind : k = 12 → (v i).addrs 12 = 0 ∧ ∀ j : Fin 256, word (D x.toNat) j = 0) :
    use n (Function.update v i (setAddr k x (v i))) D = Function.update (use n v D) (.addr i k) x.toNat := by
  funext a
  cases a with
  | addr i' m =>
    by_cases hii : i' = i
    · subst hii
      by_cases hm : m = k
      · simp [use, setAddr, hm, hi, ht]
      · simp [use, setAddr, hm, hi, ht]
    · simp [use, hii]
  | entry i' =>
    by_cases hii : i' = i
    · subst hii
      rw [update_of_ne (by simp)]
      by_cases hk : k = 12
      · subst hk
        obtain ⟨h0, hz⟩ := hind rfl
        simp [use, setAddr, h0, hz]
      · simp [use, setAddr, update_of_ne (Ne.symm hk)]
    · simp [use, hii]

theorem use_setWord {v : ℕ → Dinode} {D : ℕ → Block} {j : Fin 256} {x : UInt32}
    (hi : i < n) (ht : (v i).type ≠ 0) (h0 : (v i).addrs 12 ≠ 0)
    (honly : ∀ i' < n, (v i').type ≠ 0 → (v i').addrs 12 = (v i).addrs 12 → i' = i) :
    use n v (Function.update D ((v i).addrs 12).toNat (setWord (D ((v i).addrs 12).toNat) j x)) =
      Function.update (use n v D) (.entry i j) x.toNat := by
  funext a
  cases a with
  | addr => simp [use]
  | entry i' m =>
    by_cases hii : i' = i
    · subst hii
      by_cases hm : m = j
      · subst hm
        simp [use, hi, ht, h0]
      · have hne : j.val ≠ m.val := fun hv => hm (Fin.ext hv.symm)
        simp [use, hm, word_setWord_ne _ _ hne]
    rw [update_of_ne (by simp [hii])]
    simp only [use]
    split_ifs with hc
    · have hne : (v i').addrs 12 ≠ (v i).addrs 12 := fun heq => hii (honly i' hc.1 hc.2.1 heq)
      rw [update_of_ne (fun heq => hne (UInt32.toNat_inj.mp heq))]
    · rfl

end Xv6.Store
