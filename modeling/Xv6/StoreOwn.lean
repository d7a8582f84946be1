import Xv6.StoreDir
import Xv6.Runs

/-! Block ownership in every state that the file system reaches from an image. -/
namespace Xv6.Store
open Bytes Hoare Ownership Runs

def Owned (sb : Superblock) (c : Core) : Prop := (coreParts sb c).Owned sb ∅ ∅

def NoHoles (sb : Superblock) (c : Core) : Prop := ∀ i, (coreParts sb c).Live sb i →
    ∀ bn, bn*bsize < ((coreParts sb c).view i).size.toNat → (coreParts sb c).block i bn ≠ 0

/-- The entries of directories hold numbers of inodes. -/
def InodeNumbers (sb : Superblock) (c : Core) : Prop :=
  ∀ i, (coreParts sb c).Live sb i → ((coreParts sb c).view i).type = tDir →
    ∀ off, off%direntSize = 0 → off+direntSize ≤ ((coreParts sb c).view i).size.toNat →
      (coreParts sb c).inumAt i off < sb.ninodes

variable {sb : Superblock} {p : Parts} {s t : Fs} {image : ℕ → Block}

theorem At.owned (hs : At sb p s) (ho : p.Owned sb ∅ ∅) : Owned sb s.toCore := by
  have huse := hs.use_eq ho
  unfold Owned Parts.Owned
  rw [huse]
  refine ⟨ho.pos, ho.range, ho.inj, fun b hb hbh => ?_, fun b hb hbh => ?_, fun b hb => absurd hb (Set.notMem_empty b)⟩
  · exact (hs.bit b hbh).trans (ho.reserved b hb hbh)
  · have hbits := ho.bits b hb hbh
    rw [← hs.bit b hbh] at hbits
    exact hbits

theorem At.clean (hs : At sb p s) (h : p.Sound sb) {i : ℕ} (hi : i < sb.ninodes) :
    (coreParts sb s.toCore).view i = (coreParts sb s.toCore).disk i := by
  rw [hs.view hi, h.clean i]
  exact (hs.disk i hi).symm

theorem sane_boot (hg : Geometry sb) (ho : Owned sb (boot image).toCore)
    (hfull : NoHoles sb (boot image).toCore) (hinums : InodeNumbers sb (boot image).toCore) :
    Sane sb (boot image) := by
  have hnl (i : ℕ) : ¬ (coreParts sb (boot image).toCore).Loaded i := fun hl => Bool.false_ne_true hl.2
  refine ⟨coreParts sb (boot image).toCore, ⟨ho, fun i hi => ?_, fun i hl => absurd hl (hnl i),
    fun i => if_neg (hnl i), fun i hlive => ⟨hfull i hlive, hinums i hlive⟩⟩, ?_⟩
  · have hroot : i = Dir.rootIno := by
      by_contra hne
      have h0 : ((coreParts sb (boot image).toCore).itab i).ref = 0 := if_neg hne
      omega
    rw [hroot]
    exact hg.root
  · exact ⟨fun _ _ => rfl, rfl, fun _ _ => rfl, fun _ _ _ => rfl, fun r hr => absurd hr List.not_mem_nil⟩

theorem Sane.step (hg : Geometry sb) {op : Op} (hs : Sane sb s) (hstep : step sb s op = some t) : Sane sb t := by
  unfold Store.step at hstep
  split_ifs at hstep with hen
  cases hrun : op.run sb s with
  | error =>
    rw [hrun] at hstep
    cases hstep
  | ok r =>
    rw [hrun] at hstep
    have ht : r.2 = t := Option.some.inj hstep
    rw [← ht]
    exact (run_spec (E := fun _ => True) (fun _ _ => trivial) hg op).run_ok ⟨hs, hen⟩ hrun

theorem Sane.no_panic (hg : Geometry sb) (hs : Sane sb s) {op : Op}
    (hen : op.enabled sb s = true) : op.run sb s ≠ .error .freeingFreeBlock := by
  intro hrun
  exact (run_spec (E := fun e => e ≠ .freeingFreeBlock) (fun _ he => he) hg op).run_error ⟨hs, hen⟩ hrun rfl

/-- The slots in use are those of `l`, all of them in ip->addrs, with data blocks of their own in
them, and the bitmap has the bits of these blocks and of those before the data set. -/
abbrev SlotsAre (sb : Superblock) (c : Core) (l : List (Slot × ℕ)) : Prop :=
  (∀ i < sb.ninodes, ((coreParts sb c).view i).addrs 12 = 0) ∧
  (∀ x ∈ l, (coreParts sb c).use sb.ninodes x.1 = x.2) ∧
  (∀ i < sb.ninodes, ∀ k : Fin 13, (coreParts sb c).use sb.ninodes (.addr i k) ≠ 0 →
    (Slot.addr i k, (coreParts sb c).use sb.ninodes (.addr i k)) ∈ l) ∧
  (∀ x ∈ l, sb.datastart ≤ x.2 ∧ x.2 < sb.size) ∧ (l.map Prod.snd).Nodup ∧
  ∀ b < sb.size, (coreParts sb c).bit b = decide (b < sb.datastart ∨ b ∈ l.map Prod.snd)

theorem owned_of_slots {c : Core} (hg : Geometry sb) {l : List (Slot × ℕ)} (h : SlotsAre sb c l) : Owned sb c := by
  obtain ⟨h12, hin, hout, hrange, hvals, hbit⟩ := h
  apply Owns.of_list l hg.data hin ?_ hrange hvals hbit
  intro a h0
  cases a with
  | addr i k =>
    by_cases hi : i < sb.ninodes
    · exact hout i hi k h0
    · exact absurd (if_neg (fun hc => hi hc.1)) h0
  | entry i j =>
    have hz : (coreParts sb c).use sb.ninodes (.entry i j) = 0 := if_neg (fun hc => hc.2.2 (h12 i hc.1))
    exact absurd hz h0

def smallDisk : Superblock := ⟨20, 16, 16, 2, 3⟩

theorem smallDisk_geometry : Geometry smallDisk := by
  refine ⟨fun i hi => ?_, fun b hb => ?_, by decide, by decide, by decide⟩
  · have hlt : i < 16 := hi
    have hdiv : i/16 = 0 := Nat.div_eq_of_lt hlt
    change i/16+2 < 3
    omega
  have hlt : b < 20 := hb
  have hdiv : b/8192 = 0 := Nat.div_eq_of_lt (by omega)
  change b/8192+3 < 4
  omega

def rootDinode (size : UInt32) : Dinode := ⟨tDir, 0, 0, 1, size, fun k => if k = 0 then 4 else 0⟩

def rootBlock : Block := store (store (fun _ => 0) 0 (direntBytes 1 Dir.dot)) 16 (direntBytes 1 Dir.dotdot)

def rootOnly (b : ℕ) : Block :=
  if b = 2 then putDinode (fun _ => 0) 1 (rootDinode 32)
  else if b = 3 then Function.update (fun _ => 0) 0 0x1f
  else if b = 4 then rootBlock
  else fun _ => 0

theorem rootOnly_evaluated : SlotsAre smallDisk (boot rootOnly).toCore [(.addr 1 0, 4)] ∧
    (∀ j < 16, ((coreParts smallDisk (boot rootOnly).toCore).view j).type ≠ 0 → j = 1) ∧
    ((coreParts smallDisk (boot rootOnly).toCore).view 1).size.toNat = 32 ∧
    (coreParts smallDisk (boot rootOnly).toCore).block 1 0 ≠ 0 ∧
    (coreParts smallDisk (boot rootOnly).toCore).inumAt 1 0 < 16 ∧
    (coreParts smallDisk (boot rootOnly).toCore).inumAt 1 16 < 16 := by decide +kernel

theorem rootOnly_owned : Owned smallDisk (boot rootOnly).toCore :=
  owned_of_slots smallDisk_geometry rootOnly_evaluated.1

theorem rootOnly_live {i : ℕ} (hi : (coreParts smallDisk (boot rootOnly).toCore).Live smallDisk i) :
    i = 1 := rootOnly_evaluated.2.1 i hi.1 hi.2

theorem rootOnly_noHoles : NoHoles smallDisk (boot rootOnly).toCore := by
  obtain ⟨-, -, hsize, hblock, -⟩ := rootOnly_evaluated
  intro i hi bn hbn
  obtain rfl := rootOnly_live hi
  have hb : bsize = 1024 := rfl
  rw [hsize, hb] at hbn
  obtain rfl : bn = 0 := by omega
  exact hblock

theorem rootOnly_inodeNumbers : InodeNumbers smallDisk (boot rootOnly).toCore := by
  obtain ⟨-, -, hsize, -, hdot, hdotdot⟩ := rootOnly_evaluated
  intro i hi _ off hoff hle
  obtain rfl := rootOnly_live hi
  have h16 : direntSize = 16 := rfl
  rw [hsize, h16] at hle
  rw [h16] at hoff
  obtain rfl | rfl : off = 0 ∨ off = 16 := by omega
  · exact hdot
  · exact hdotdot

/-- From an image without holes in which directories name inodes: the blocks in use are those with
their bit set and each is in one slot, and bfree does not find a free block. -/
theorem block_ownership (hg : Geometry sb) (ho : Owned sb (boot image).toCore)
    (hfull : NoHoles sb (boot image).toCore) (hinums : InodeNumbers sb (boot image).toCore)
    (hreach : Reach (step sb) (fun _ _ => True) (boot image) t) :
    Owned sb t.toCore ∧ (∀ i < sb.ninodes, (coreParts sb t.toCore).view i = (coreParts sb t.toCore).disk i) ∧
      (∀ r ∈ t.allocs, Unused sb r.1 r.2) ∧
      ∀ op : Op, op.enabled sb t = true → op.run sb t ≠ .error .freeingFreeBlock := by
  have hsane : Sane sb t := hreach.invariant (I := Sane sb) (sane_boot hg ho hfull hinums)
      (fun _ _ _ hs _ hstep => hs.step hg hstep)
  obtain ⟨p, h, hs⟩ := id hsane
  exact ⟨hs.owned h.owned, fun i hi => hs.clean h hi, hs.allocs, fun op hen => hsane.no_panic hg hen⟩

theorem block_ownership_mkdir : ∃ t, step smallDisk (boot rootOnly) (.create 1 [97] tDir 0 0) = some t ∧
    Owned smallDisk t.toCore ∧ ∀ r ∈ t.allocs, Unused smallDisk r.1 r.2 := by
  have hsome : (step smallDisk (boot rootOnly) (.create 1 [97] tDir 0 0)).isSome = true := by decide +kernel
  obtain ⟨t, ht⟩ := Option.isSome_iff_exists.mp hsome
  have h := block_ownership smallDisk_geometry rootOnly_owned rootOnly_noHoles
    rootOnly_inodeNumbers (Reach.next .start trivial ht)
  exact ⟨t, ht, h.1, h.2.2.1⟩

def fileDinode : Dinode := ⟨tFile, 0, 0, 1, 2048, fun k => if k = 0 then 5 else if k = 1 then 6 else 0⟩

/-- An image whose root directory has an entry for inode 48 of 16: its dinode would be in the first
block of that file, and has a block of the file in a slot. -/
def strayEntry (b : ℕ) : Block :=
  if b = 2 then putDinode (putDinode (fun _ => 0) 1 (rootDinode 48)) 2 fileDinode
  else if b = 3 then Function.update (fun _ => 0) 0 0x7f
  else if b = 4 then store rootBlock 32 (direntBytes 48 [120])
  else if b = 5 then putDinode (fun _ => 0) 48 ⟨tFile, 0, 0, 1, 0, fun k => if k = 0 then 6 else 0⟩
  else fun _ => 0

theorem strayEntry_evaluated :
    SlotsAre smallDisk (boot strayEntry).toCore [(.addr 1 0, 4), (.addr 2 0, 5), (.addr 2 1, 6)] ∧
    (∀ j < 16, ((coreParts smallDisk (boot strayEntry).toCore).view j).type ≠ 0 → j = 1 ∨ j = 2) ∧
    ((coreParts smallDisk (boot strayEntry).toCore).view 1).size.toNat = 48 ∧
    ((coreParts smallDisk (boot strayEntry).toCore).view 2).size.toNat = 2048 ∧
    (coreParts smallDisk (boot strayEntry).toCore).block 1 0 ≠ 0 ∧
    (coreParts smallDisk (boot strayEntry).toCore).block 2 0 ≠ 0 ∧
    (coreParts smallDisk (boot strayEntry).toCore).block 2 1 ≠ 0 := by decide

theorem strayEntry_owned : Owned smallDisk (boot strayEntry).toCore :=
  owned_of_slots smallDisk_geometry strayEntry_evaluated.1

theorem strayEntry_noHoles : NoHoles smallDisk (boot strayEntry).toCore := by
  obtain ⟨-, hall, hroot, hfile, hblock, hfirst, hsecond⟩ := strayEntry_evaluated
  have hb : bsize = 1024 := rfl
  intro i hi bn hbn
  rcases hall i hi.1 hi.2 with rfl | rfl
  · rw [hroot, hb] at hbn
    obtain rfl : bn = 0 := by omega
    exact hblock
  rw [hfile, hb] at hbn
  obtain rfl | rfl : bn = 0 ∨ bn = 1 := by omega
  · exact hfirst
  · exact hsecond

/-- unlink of that entry frees the block that the file uses. -/
theorem strayEntry_unlink : Geometry smallDisk ∧ Owned smallDisk (boot strayEntry).toCore ∧
    NoHoles smallDisk (boot strayEntry).toCore ∧
    ∃ t, step smallDisk (boot strayEntry) (.unlink 1 [47, 120]) = some t ∧ ¬ Owned smallDisk t.toCore := by
  have hany : (step smallDisk (boot strayEntry) (.unlink 1 [47, 120])).any (fun t =>
      decide ((coreParts smallDisk t.toCore).use 16 (.addr 2 1) = 6 ∧
        (coreParts smallDisk t.toCore).bit 6 = false)) = true := by decide +kernel
  refine ⟨smallDisk_geometry, strayEntry_owned, strayEntry_noHoles, ?_⟩
  cases ht : step smallDisk (boot strayEntry) (.unlink 1 [47, 120]) with
  | none =>
    rw [ht] at hany
    cases hany
  | some t =>
    rw [ht] at hany
    obtain ⟨huse, hbit⟩ := of_decide_eq_true hany
    refine ⟨t, rfl, fun ho => ?_⟩
    have hset := (ho.bits 6 (by decide) (by decide)).mpr (Or.inl ⟨.addr 2 1, id, huse⟩)
    rw [hbit] at hset
    cases hset

end Xv6.Store
