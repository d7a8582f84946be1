import Mathlib.Data.List.TakeWhile
import Xv6.DirentMap

/-! dirlink binds a name, unlink's writing of an empty entry takes the binding away, and dirlookup
reads the map. -/
namespace Xv6.Dirent
open Function Bytes Hoare Store SlotTable List
variable {sb : Superblock} {dp i : ℕ} {bs : List UInt8} {nm : Dir.Name} {m : Dir.Name → Option ℕ} {s t : Fs}

structure DirIs (sb : Superblock) (dp : ℕ) (bs : List UInt8) (m : Dir.Name → Option ℕ) (s : Fs) : Prop where
  file : FileIs sb dp tDir bs s
  whole : bs.length%direntSize = 0
  distinct : Distinct (decode bs)
  map : Represents (decode bs) m

structure Proper (nm : Dir.Name) : Prop where
  short : nm.length ≤ Dir.dirSiz
  noNul : ∀ c ∈ nm, c ≠ 0

theorem key_proper (name : ByteMem) : Proper (key name) := by
  refine ⟨?_, fun c hc => by simpa using mem_takeWhile_imp hc⟩
  have hlen := (takeWhile_sublist (p := fun c : UInt8 => decide (c ≠ 0)) (l := load name 0 Dir.dirSiz)).length_le
  rwa [length_load] at hlen

theorem length_direntBytes (inum : ℕ) (nm : Dir.Name) : (direntBytes inum nm).length = direntSize := by
  rw [direntBytes, length_append, length_leBytes, length_take, length_append, length_replicate,
    Nat.min_eq_left (Nat.le_add_left ..)]
  rfl

variable {inum v : ℕ}

theorem direntInum_direntBytes (hlt : inum < 65536) : direntInum (direntBytes inum nm) = inum := by
  rw [direntInum, direntBytes, take_left' (length_leBytes 2 inum), leNat_leBytes]
  exact Nat.mod_eq_of_lt hlt

theorem direntName_direntBytes (hnm : Proper nm) : direntName (direntBytes inum nm) = nm := by
  -- the name is padded with NULs up to the length of the field
  have hpad : (nm ++ List.replicate Dir.dirSiz 0).take Dir.dirSiz = nm ++ List.replicate (Dir.dirSiz-nm.length) 0 := by
    rw [take_append, take_of_length_le hnm.short, take_replicate, Nat.min_eq_left (Nat.sub_le ..)]
  rw [direntName, direntBytes, drop_left' (length_leBytes 2 inum), hpad,
    takeWhile_append_of_pos (by simpa using hnm.noNul), takeWhile_replicate]
  exact append_nil nm

theorem slotOf_direntBytes (hpos : 0 < inum) (hlt : inum < 65536) (hnm : Proper nm) :
    slotOf (direntBytes inum nm) = some (nm, inum) := by
  rw [slotOf, direntInum_direntBytes hlt, if_neg hpos.ne', direntName_direntBytes hnm]

theorem kernelMem_get (bs : List UInt8) : ∀ k < bs.length, kernelMem bs (0+k) = some (bs.getD k 0) := by
  intro k hk
  simp only [Nat.zero_add, kernelMem, getD_eq_getElem?_getD, List.getElem?_eq_getElem hk, Option.getD_some]

def RoomAt (sb : Superblock) (dp : ℕ) (bs : List UInt8) (s : Fs) (k : ℕ) : Prop :=
  k < bs.length/direntSize ∨ (k = bs.length/direntSize ∧ bs.length+direntSize ≤ maxFile*bsize ∧
    (coreParts sb s.toCore).need dp bs.length direntSize ≤ (coreParts sb s.toCore).free sb)

theorem need_inside {p : Parts} {off n : ℕ} (hf : p.HoleFree dp) (hl : p.Locked sb dp)
    (hle : off+n ≤ (p.view dp).size.toNat) : p.need dp off n = 0 := by
  have hb : bsize = 1024 := rfl
  by_cases hn : n = 0
  · rw [Parts.need, if_pos hn]
  have hblock (bn : ℕ) (hbn : bn ≤ (off+n-1)/bsize) : p.block dp bn ≠ 0 := by
    apply hf
    rw [hb] at hbn ⊢
    omega
  have hholes : p.holes dp (off/bsize) ((off+n-1)/bsize+1) = 0 := by
    rw [Parts.holes, Finset.sum_eq_zero_iff]
    intro bn hbn
    exact if_neg (hblock bn (by have := (Finset.mem_Ico.mp hbn).2; omega))
  -- the last of the blocks would be missing together with the indirect block
  rw [Parts.need, if_neg hn, hholes, if_neg]
  rintro ⟨hind, h12⟩
  apply hblock _ le_rfl
  rw [Parts.block, blockAt, if_neg (not_lt.mpr hind), if_neg]
  rw [hl.loaded.view]
  exact fun h => h.2 h12

/-! Writing one entry. -/

theorem free_decode_le (bs : List UInt8) : free (decode bs) ≤ bs.length/direntSize := by
  rw [← length_decode]
  exact free_le

def entryWritten (bs : List UInt8) (k : ℕ) (de : List UInt8) : List UInt8 :=
  bs.take (direntSize*k) ++ de ++ bs.drop (direntSize*k+direntSize)

section Entry
variable {k : ℕ} {de : List UInt8} (hde : de.length = direntSize)
include hde

theorem length_entryWritten (hk : k ≤ bs.length/direntSize) :
    (entryWritten bs k de).length = max bs.length (direntSize*(k+1)) := by
  have h16 : direntSize = 16 := rfl
  rw [entryWritten, length_append, length_append, length_take, length_drop, hde]
  rw [h16] at hk ⊢
  omega

theorem entryWritten_whole (hk : k ≤ bs.length/direntSize) (hmod : bs.length%direntSize = 0) :
    (entryWritten bs k de).length%direntSize = 0 := by
  have h16 : direntSize = 16 := rfl
  rw [length_entryWritten hde hk]
  rw [h16] at hmod ⊢
  omega

variable (hg : Geometry sb) (h : FileIs sb dp tDir bs s)
include hg h

theorem entry_ok {r : Option ℕ} (hk : k ≤ bs.length/direntSize)
    (hrun : writei sb dp (kernelMem de) 0 (direntSize*k) direntSize s = .ok (r, t)) :
    r = none ∨ (r = some direntSize ∧ TableKept dp s t ∧ FileIs sb dp tDir (entryWritten bs k de) t) := by
  have hoff : direntSize*k ≤ bs.length := (Nat.mul_le_mul_left _ hk).trans (Nat.mul_div_le ..)
  have hrun' : writei sb dp (kernelMem de) 0 (direntSize*k) de.length s = .ok (r, t) := by rwa [hde]
  rcases h.writei_ok hg (kernelMem_get de) hoff (by rw [hde]; decide) hrun' with ⟨hr, -⟩ | ⟨hr, hkept, hfile⟩
  · exact Or.inl hr
  · rw [hde] at hr hfile
    exact Or.inr ⟨hr, hkept, hfile⟩

theorem entry_run (hmod : bs.length%direntSize = 0) (hroom : RoomAt sb dp bs s k) :
    ∃ t, writei sb dp (kernelMem de) 0 (direntSize*k) direntSize s = .ok (some direntSize, t) ∧ TableKept dp s t ∧
      FileIs sb dp tDir (entryWritten bs k de) t := by
  have h16 : direntSize = 16 := rfl
  have hsize : ((coreParts sb s.toCore).view dp).size.toNat = bs.length := by
    rw [h.locked.loaded.view]
    exact size_eq h
  have hfits : direntSize*k ≤ bs.length ∧ direntSize*k+de.length ≤ maxFile*bsize ∧
      (coreParts sb s.toCore).need dp (direntSize*k) de.length ≤ (coreParts sb s.toCore).free sb := by
    rw [hde]
    rcases hroom with hk | ⟨rfl, hmax, hneed⟩
    · have hin : direntSize*k+direntSize ≤ bs.length := by
        rw [h16] at hk ⊢
        omega
      -- the last byte of the file is in one of its blocks
      have hlast := h.ok.full ((bs.length-1)/bsize) (by
        have hb : bsize = 1024 := rfl
        rw [hsize, hb]
        omega)
      have hlt := blockAt_lt hlast
      refine ⟨by omega, ?_, ?_⟩
      · have hb : bsize = 1024 := rfl
        rw [hb] at hlt ⊢
        omega
      · rw [need_inside h.ok.full h.locked (by rw [hsize]; exact hin)]
        exact Nat.zero_le _
    · rw [Nat.mul_div_cancel' (Nat.dvd_of_mod_eq_zero hmod)]
      exact ⟨le_rfl, hmax, hneed⟩
  have hrun := h.writei_run hg (kernelMem_get de) hfits.1 hfits.2.1 hfits.2.2
  rw [hde] at hrun
  exact hrun

end Entry

section Map
variable (hg : Geometry sb) (h : DirIs sb dp bs m s)
include h

theorem DirIs.unbound (hno : m nm = none) (v i : ℕ) : ¬Binds (decode bs) nm v i := by
  intro hb
  have hsome := (h.map nm v).mpr ⟨i, hb⟩
  rw [hno] at hsome
  cases hsome

theorem DirIs.insert (hpos : 0 < inum) (hlt : inum < 65536) (hnm : Proper nm) (hno : m nm = none)
    (hfile : FileIs sb dp tDir (entryWritten bs (free (decode bs)) (direntBytes inum nm)) t) :
    DirIs sb dp (entryWritten bs (free (decode bs)) (direntBytes inum nm)) (update m nm (some inum)) t := by
  have hk := free_decode_le bs
  have hdec : decode (entryWritten bs (free (decode bs)) (direntBytes inum nm)) =
      SlotTable.write (decode bs) (free (decode bs)) (some (nm, inum)) := by
    rw [← slotOf_direntBytes hpos hlt hnm]
    exact decode_write hk (length_direntBytes ..)
  refine ⟨hfile, entryWritten_whole (length_direntBytes ..) hk h.whole, ?_, ?_⟩
  · rw [hdec]
    exact h.distinct.insert (h.unbound hno)
  · rw [hdec]
    exact h.map.insert hno inum

theorem DirIs.remove (hb : Binds (decode bs) nm v i)
    (hfile : FileIs sb dp tDir (entryWritten bs i (List.replicate direntSize 0)) t) :
    DirIs sb dp (entryWritten bs i (List.replicate direntSize 0)) (update m nm none) t := by
  have hk : i ≤ bs.length/direntSize := by
    rw [← length_decode]
    exact (List.getElem?_eq_some_iff.mp hb).1.le
  have hzero : slotOf (List.replicate direntSize 0) = none := rfl
  have hdec : decode (entryWritten bs i (List.replicate direntSize 0)) = SlotTable.write (decode bs) i none := by
    rw [← hzero]
    exact decode_write hk (length_replicate ..)
  refine ⟨hfile, entryWritten_whole (length_replicate ..) hk h.whole, ?_, ?_⟩
  · rw [hdec]
    exact h.distinct.remove hb
  · rw [hdec]
    exact h.map.remove h.distinct hb

/-! What the functions return. -/

theorem DirIs.of_hidden (ht : Hidden s t) : DirIs sb dp bs m t := ⟨ht.fileIs h.file, h.whole, h.distinct, h.map⟩

theorem DirIs.dirlookup_bound {name : ByteMem} (hb : Binds (decode bs) (key name) v i) :
    dirlookup sb dp name s = if SlotFor s v then .ok (some (v, direntSize*i), taken s v)
      else .error .igetNoInodes := by
  rw [dirlookup_key, dirlookup_found h.file h.whole h.distinct hb]
  by_cases hslot : SlotFor s v
  · rw [if_pos hslot, run_bind (iget_run hslot)]
    rfl
  · rw [if_neg hslot]
    exact run_bind_error (iget_error hslot) _

theorem DirIs.dirlookup_unbound {name : ByteMem} (hno : m (key name) = none) :
    dirlookup sb dp name s = .ok (none, s) := by
  rw [dirlookup_key]
  exact dirlookup_none h.file h.whole (h.unbound hno)

theorem DirIs.dirlink_bound {name : ByteMem} (hb : Binds (decode bs) (key name) v i) :
    dirlink sb dp name inum s = if SlotFor s v then .ok (false, dropped (taken s v) v)
      else .error .igetNoInodes := by
  have hrun := h.dirlookup_bound hb
  by_cases hslot : SlotFor s v
  · rw [if_pos hslot] at hrun ⊢
    rw [dirlink, run_bind hrun]
    exact run_bind (iput_run (taken_not_last s v)) _
  · rw [if_neg hslot] at hrun ⊢
    exact run_bind_error hrun _

def linkEntry (sb : Superblock) (dp off : ℕ) (de : List UInt8) : M Bool := do
  match ← writei sb dp (kernelMem de) 0 off direntSize with
  | none => throw .dirlink
  | some n => if n ≠ direntSize then throw .dirlink else return true

theorem DirIs.dirlink_unbound {name : ByteMem} (hno : m (key name) = none) : dirlink sb dp name inum s =
      linkEntry sb dp (direntSize*free (decode bs)) (direntBytes inum (key name)) s := by
  have hd : incore dp s = .ok ((s.itab dp).din, s) := rfl
  have hslots := slots_eq h.file h.whole
  have hempty : emptySlot sb dp (slots (s.itab dp).din) 0 s = .ok (direntSize*free (decode bs), s) := by
    have hrun := emptySlot_run h.file (Nat.zero_le (free (decode bs))) (Nat.zero_add _)
    rwa [Nat.mul_zero, ← hslots] at hrun
  rw [dirlink, run_bind (h.dirlookup_unbound hno)]
  change (incore dp >>= _) s = _
  rw [run_bind hd, run_bind hempty, direntBytes_key]
  rfl

include hg

theorem DirIs.dirlink_ok {name : ByteMem} {r : Bool} (hpos : 0 < inum) (hlt : inum < 65536)
    (hrun : dirlink sb dp name inum s = .ok (r, t)) : ∃ bs', DirIs sb dp bs'
      (if m (key name) = none then update m (key name) (some inum) else m) t := by
  cases hm : m (key name) with
  | none =>
    rw [h.dirlink_unbound hm] at hrun
    obtain ⟨w, u, hwrite, hret⟩ := run_bind_ok hrun
    rcases entry_ok (length_direntBytes ..) hg h.file (free_decode_le bs) hwrite with rfl | ⟨rfl, -, hfile⟩
    · cases hret
    · cases hret
      rw [if_pos rfl]
      exact ⟨_, h.insert hpos hlt (key_proper name) hm hfile⟩
  | some v =>
    obtain ⟨i, hb⟩ := (h.map _ v).mp hm
    rw [h.dirlink_bound hb] at hrun
    split_ifs at hrun
    cases hrun
    rw [if_neg (Option.some_ne_none v)]
    exact ⟨bs, (h.of_hidden (hidden_taken s v)).of_hidden (hidden_dropped (taken_not_last s v))⟩

theorem DirIs.clear_run (hb : Binds (decode bs) nm v i) : ∃ t, clearDirent sb dp (direntSize*i) s = .ok ((), t) ∧
      DirIs sb dp (entryWritten bs i (List.replicate direntSize 0)) (update m nm none) t := by
  have hi : i < bs.length/direntSize := by
    rw [← length_decode]
    exact (List.getElem?_eq_some_iff.mp hb).1
  obtain ⟨t, hwrite, -, hfile⟩ := entry_run (length_replicate ..) hg h.file h.whole (Or.inl hi)
  refine ⟨t, ?_, h.remove hb hfile⟩
  rw [clearDirent, run_bind hwrite]
  rfl

end Map

/-! Runs. -/

/-- A directory that dirlink and unlink's writing of an empty entry have made from one without names,
and the map they leave. In between the kernel may do whatever keeps the bytes of the directory. -/
inductive Made (sb : Superblock) (dp : ℕ) : Fs → (Dir.Name → Option ℕ) → Prop
  | empty {s : Fs} {bs : List UInt8} (hfile : FileIs sb dp tDir bs s) (hmod : bs.length%direntSize = 0)
      (hno : ∀ nm v i, ¬Binds (decode bs) nm v i) : Made sb dp s (fun _ => none)
  | link {s t : Fs} {m : Dir.Name → Option ℕ} {name : ByteMem} {inum : ℕ} {r : Bool}
      (h : Made sb dp s m) (hpos : 0 < inum) (hlt : inum < 65536) (hrun : dirlink sb dp name inum s = .ok (r, t)) :
      Made sb dp t (if m (key name) = none then update m (key name) (some inum) else m)
  | unlink {s t u : Fs} {m : Dir.Name → Option ℕ} {name : ByteMem} {v off : ℕ} (h : Made sb dp s m)
      (hfound : dirlookup sb dp name s = .ok (some (v, off), t))
      (hrun : clearDirent sb dp off t = .ok ((), u)) : Made sb dp u (update m (key name) none)
  | other {s t : Fs} {m : Dir.Name → Option ℕ} (h : Made sb dp s m)
      (hkept : ∀ bs, FileIs sb dp tDir bs s → FileIs sb dp tDir bs t) : Made sb dp t m

def entries (sb : Superblock) (dp : ℕ) (s : Fs) : Table Dir.Name ℕ := decode (fileBytes sb dp s)

structure LooksUp (sb : Superblock) (dp : ℕ) (m : Dir.Name → Option ℕ) (s : Fs) (name : ByteMem) : Prop where
  found : ∀ v off t, dirlookup sb dp name s = .ok (some (v, off), t) ↔ SlotFor s v ∧ t = taken s v ∧
    m (key name) = some v ∧ ∃ i, off = direntSize*i ∧ Binds (entries sb dp s) (key name) v i
  missing : ∀ t, dirlookup sb dp name s = .ok (none, t) ↔ t = s ∧ m (key name) = none
  fails : ∀ e, dirlookup sb dp name s = .error e ↔ e = .igetNoInodes ∧ ∃ v, m (key name) = some v ∧ ¬SlotFor s v

structure Links (sb : Superblock) (dp : ℕ) (m : Dir.Name → Option ℕ) (s : Fs) (name : ByteMem) (inum : ℕ) : Prop where
  bound : ∀ v, m (key name) = some v → SlotFor s v → ∃ t, dirlink sb dp name inum s = .ok (false, t) ∧ Unchanged s t
  unbound : m (key name) = none → RoomAt sb dp (fileBytes sb dp s) s (free (entries sb dp s)) →
    ∃ t, dirlink sb dp name inum s = .ok (true, t) ∧ TableKept dp s t ∧ (t.itab dp).din.size.toNat =
        max (s.itab dp).din.size.toNat (direntSize*(free (entries sb dp s)+1)) ∧
      (∀ nm v i, Binds (entries sb dp t) nm v i ↔
        Binds (entries sb dp s) nm v i ∨ (nm = key name ∧ v = inum ∧ i = free (entries sb dp s))) ∧
      Represents (entries sb dp t) (update m (key name) (some inum))

/-- An empty entry at the offset that dirlookup has returned takes the binding away. -/
def Clears (sb : Superblock) (dp : ℕ) (m : Dir.Name → Option ℕ) (s : Fs) (name : ByteMem) : Prop :=
  ∀ v off t, dirlookup sb dp name s = .ok (some (v, off), t) →
    ∃ u, clearDirent sb dp off t = .ok ((), u) ∧ (u.itab dp).din.size = (s.itab dp).din.size ∧
      (∀ nm v i, Binds (entries sb dp u) nm v i ↔ Binds (entries sb dp s) nm v i ∧ nm ≠ key name) ∧
      Represents (entries sb dp u) (update m (key name) none)

theorem Made.dirIs (hg : Geometry sb) (h : Made sb dp s m) : ∃ bs, DirIs sb dp bs m s := by
  induction h with
  | @empty s bs hfile hmod hno =>
    refine ⟨bs, hfile, hmod, fun nm v w i j hi _ => absurd hi (hno nm v i), fun nm v => ?_⟩
    exact iff_of_false (fun h => by cases h) (fun ⟨i, hb⟩ => hno nm v i hb)
  | link _ hpos hlt hrun ih =>
    obtain ⟨bs, h⟩ := ih
    exact h.dirlink_ok hg hpos hlt hrun
  | @unlink s t u m name v off _ hfound hrun ih =>
    obtain ⟨bs, h⟩ := ih
    cases hm : m (key name) with
    | none =>
      rw [h.dirlookup_unbound hm] at hfound
      cases hfound
    | some w =>
      obtain ⟨i, hb⟩ := (h.map _ w).mp hm
      rw [h.dirlookup_bound hb] at hfound
      split_ifs at hfound
      obtain ⟨hv, rfl⟩ := Prod.mk.inj (Except.ok.inj hfound)
      cases hv
      obtain ⟨u', hu', hdir⟩ := (h.of_hidden (hidden_taken s _)).clear_run hg hb
      obtain rfl : u' = u := (Prod.mk.inj (Except.ok.inj (hu'.symm.trans hrun))).2
      exact ⟨_, hdir⟩
  | other _ hkept ih =>
    obtain ⟨bs, h⟩ := ih
    exact ⟨bs, hkept bs h.file, h.whole, h.distinct, h.map⟩

section Result
variable (h : DirIs sb dp bs m s) (name : ByteMem)
include h

theorem DirIs.entries_eq : entries sb dp s = decode bs := by rw [entries, h.file.bytes]

theorem DirIs.binds_iff (nm : Dir.Name) {w j : ℕ} (hb : Binds (decode bs) nm w j) :
    (m nm = some v ∧ Binds (decode bs) nm v i) ↔ v = w ∧ i = j := by
  constructor
  · rintro ⟨-, hi⟩
    obtain rfl := h.distinct nm v w i j hi hb
    exact ⟨(Prod.mk.inj (Option.some.inj (Option.some.inj (hi.symm.trans hb)))).2, rfl⟩
  · rintro ⟨rfl, rfl⟩
    exact ⟨(h.map nm v).mpr ⟨i, hb⟩, hb⟩

theorem DirIs.looksUp : LooksUp sb dp m s name := by
  cases hm : m (key name) with
  | none =>
    have hrun := h.dirlookup_unbound hm
    refine ⟨fun v off t => ?_, fun t => ?_, fun e => ?_⟩
    · rw [hrun, hm]
      exact iff_of_false (fun h' => by cases h') (fun h' => by cases h'.2.2.1)
    · rw [hrun, hm]
      exact ⟨fun h' => ⟨(Prod.mk.inj (Except.ok.inj h')).2.symm, rfl⟩, fun h' => by rw [h'.1]⟩
    · rw [hrun, hm]
      exact iff_of_false (fun h' => by cases h') (fun h' => by obtain ⟨-, v, hv, -⟩ := h'; cases hv)
  | some w =>
    obtain ⟨j, hb⟩ := (h.map _ w).mp hm
    have hrun := h.dirlookup_bound hb
    by_cases hslot : SlotFor s w
    · rw [if_pos hslot] at hrun
      refine ⟨fun v off t => ?_, fun t => ?_, fun e => ?_⟩
      · rw [hrun, h.entries_eq]
        constructor
        · intro h'
          obtain ⟨hv, rfl⟩ := Prod.mk.inj (Except.ok.inj h')
          cases hv
          exact ⟨hslot, rfl, hm, j, rfl, hb⟩
        · rintro ⟨-, rfl, hv, i, rfl, hi⟩
          obtain ⟨rfl, rfl⟩ := (h.binds_iff (key name) hb).mp ⟨hv, hi⟩
          rfl
      · rw [hrun, hm]
        exact iff_of_false (fun h' => by cases h') (fun h' => by cases h'.2)
      · rw [hrun, hm]
        refine iff_of_false (fun h' => by cases h') ?_
        rintro ⟨-, v, hv, hno⟩
        cases hv
        exact hno hslot
    · rw [if_neg hslot] at hrun
      refine ⟨fun v off t => ?_, fun t => ?_, fun e => ?_⟩
      · rw [hrun, hm]
        refine iff_of_false (fun h' => by cases h') ?_
        rintro ⟨hv, -, hw, -⟩
        cases hw
        exact hslot hv
      · rw [hrun, hm]
        exact iff_of_false (fun h' => by cases h') (fun h' => by cases h'.2)
      · rw [hrun, hm]
        refine ⟨fun h' => ⟨(Except.error.inj h').symm, w, rfl, hslot⟩, ?_⟩
        rintro ⟨rfl, -⟩
        rfl

variable (hg : Geometry sb)
include hg

theorem DirIs.links (hpos : 0 < inum) (hlt : inum < 65536) : Links sb dp m s name inum := by
  constructor
  · intro v hv hslot
    obtain ⟨i, hb⟩ := (h.map _ v).mp hv
    have hrun : dirlink sb dp name inum s = _ := h.dirlink_bound hb
    rw [if_pos hslot] at hrun
    exact ⟨_, hrun, dropped_taken s v⟩
  intro hno hroom
  rw [h.entries_eq, h.file.bytes] at hroom
  obtain ⟨t, hwrite, hkept, hfile⟩ := entry_run (length_direntBytes inum (key name)) hg h.file h.whole hroom
  have hdir := h.insert hpos hlt (key_proper name) hno hfile
  have hdec := decode_write (free_decode_le bs) (length_direntBytes inum (key name))
  refine ⟨t, ?_, hkept, ?_, fun nm v i => ?_, ?_⟩
  · rw [h.dirlink_unbound hno, linkEntry, run_bind hwrite]
    rfl
  · rw [size_eq hfile, size_eq h.file, h.entries_eq]
    exact length_entryWritten (length_direntBytes ..) (free_decode_le bs)
  · rw [hdir.entries_eq, entryWritten, hdec, slotOf_direntBytes hpos hlt (key_proper name), h.entries_eq]
    exact binds_insert
  · rw [hdir.entries_eq]
    exact hdir.map

theorem DirIs.clears : Clears sb dp m s name := by
  intro v off t hfound
  obtain ⟨-, rfl, hm, i, rfl, hb⟩ := ((h.looksUp name).found v off t).mp hfound
  rw [h.entries_eq] at hb
  obtain ⟨u, hu, hdir⟩ := (h.of_hidden (hidden_taken s v)).clear_run hg hb
  have hi : i < bs.length/direntSize := by
    rw [← length_decode]
    exact (List.getElem?_eq_some_iff.mp hb).1
  have hdec := decode_write hi.le (length_replicate (n := direntSize) (a := 0))
  refine ⟨u, hu, ?_, fun nm v i => ?_, ?_⟩
  · have h16 : direntSize = 16 := rfl
    apply UInt32.toNat_inj.mp
    rw [size_eq hdir.file, size_eq h.file, length_entryWritten (length_replicate ..) hi.le]
    rw [h16] at hi ⊢
    omega
  · rw [hdir.entries_eq, entryWritten, hdec, h.entries_eq]
    exact h.distinct.binds_remove hb
  · rw [hdir.entries_eq]
    exact hdir.map

end Result

/-- A directory is a finite map from names, cut to DIRSIZ bytes, to inode numbers. -/
theorem directory_is_finite_map (hg : Geometry sb) (h : Made sb dp s m) :
    (s.itab dp).din.size.toNat%direntSize = 0 ∧ Distinct (entries sb dp s) ∧ Represents (entries sb dp s) m ∧
      (∀ name, LooksUp sb dp m s name) ∧
      (∀ name inum, 0 < inum → inum < 65536 → Links sb dp m s name inum) ∧ ∀ name, Clears sb dp m s name := by
  obtain ⟨bs, hdir⟩ := h.dirIs hg
  refine ⟨?_, ?_, ?_, fun name => hdir.looksUp name, fun name inum hpos hlt => hdir.links name hg hpos hlt,
    fun name => hdir.clears name hg⟩
  · rw [size_eq hdir.file]
    exact hdir.whole
  · rw [hdir.entries_eq]
    exact hdir.distinct
  · rw [hdir.entries_eq]
    exact hdir.map

def wideDisk : Superblock := ⟨24, 17, 64, 2, 6⟩

theorem wideDisk_geometry : Geometry wideDisk := by
  refine ⟨fun i hi => ?_, fun b hb => ?_, by decide, by decide, by decide⟩
  · have hlt : i < 64 := hi
    change i/16+2 < 6
    omega
  · have hlt : b < 24 := hb
    change b/8192+6 < 7
    omega

def freshDir : Fs :=
  { blocks := fun b => if b = 6 then update (fun _ => 0) 0 0x7f else fun _ => 0
    itab := update (boot (fun _ _ => 0)).itab 2 ⟨1, true, ⟨tDir, 0, 0, 1, 0, fun _ => 0⟩⟩
    nslots := 2
    allocs := [] }

theorem freshDir_is : FileIs wideDisk 2 tDir [] freshDir where
  ok := {
    owned := owned_of_slots (l := []) wideDisk_geometry (by decide)
    allocs := fun _ hr => absurd hr not_mem_nil
    live := ⟨by decide, by decide⟩
    full := fun _ hbn => absurd hbn (Nat.not_lt_zero _) }
  locked := ⟨⟨Nat.one_pos, rfl⟩, by decide, by decide⟩
  type := rfl
  bytes := rfl

theorem freshDir_made : Made wideDisk 2 freshDir (fun _ => none) := .empty freshDir_is rfl (fun _ _ _ hb => by cases hb)

def xName : ByteMem := fun k => if k = 0 then 120 else 0

theorem freshDir_room : RoomAt wideDisk 2 (fileBytes wideDisk 2 freshDir) freshDir
    (free (entries wideDisk 2 freshDir)) :=
  Or.inr ⟨rfl, by decide, by decide⟩

theorem fresh_directory_links : ∃ t, dirlink wideDisk 2 xName 60 freshDir = .ok (true, t) ∧
    Represents (entries wideDisk 2 t) (update (fun _ => none) (key xName) (some 60)) := by
  obtain ⟨-, -, -, -, hlinks, -⟩ := directory_is_finite_map wideDisk_geometry freshDir_made
  obtain ⟨t, hrun, -, -, -, hmap⟩ := (hlinks xName 60 (by decide) (by decide)).unbound rfl freshDir_room
  exact ⟨t, hrun, hmap⟩

/-- The state in which other processes have taken the rest of the inode table, for inodes 3 to 50. -/
def crowded (s : Fs) : Fs := { s with
    nslots := Dir.ninode
    itab := fun j => if 3 ≤ j ∧ j ≤ 50 then { s.itab j with ref := 1, valid := false } else s.itab j }

theorem hidden_crowded (h : ∀ j, 3 ≤ j ∧ j ≤ 50 → (s.itab j).ref = 0) : Hidden s (crowded s) := by
  have hitab (j : ℕ) : (crowded s).itab j =
      if 3 ≤ j ∧ j ≤ 50 then { s.itab j with ref := 1, valid := false } else s.itab j := rfl
  refine ⟨rfl, rfl, fun j => ?_, fun j => ?_⟩
  · rw [hitab]
    split_ifs with hj
    · exact iff_of_false (fun h' => h'.2) (fun h' => h'.1.ne' (h j hj))
    · rfl
  · rw [hitab]
    split_ifs <;> rfl

/-- The name is bound, but there is no entry of the inode table left for its inode. -/
theorem full_table_lookup_panics : ∃ s m, Made wideDisk 2 s m ∧ m (key xName) = some 60 ∧
    dirlookup wideDisk 2 xName s = .error .igetNoInodes := by
  obtain ⟨_, hempty⟩ := freshDir_made.dirIs wideDisk_geometry
  obtain ⟨t, hrun, hkept, -⟩ :=
    (hempty.links xName wideDisk_geometry (by decide : 0 < 60) (by decide)).unbound rfl freshDir_room
  have hmade := freshDir_made.link (by decide) (by decide) hrun
  have hnone (j : ℕ) (hj : 3 ≤ j) : (t.itab j).ref = 0 := by
    have hitab : freshDir.itab j = (boot (fun _ _ => 0)).itab j := update_of_ne (by omega) ..
    have hroot : j ≠ Dir.rootIno := by
      change j ≠ 1
      omega
    rw [hkept.other j (by omega), hitab]
    exact if_neg hroot
  have hhid : Hidden t (crowded t) := hidden_crowded (fun j hj => hnone j hj.1)
  have hfull := hmade.other (fun bs hbs => hhid.fileIs hbs)
  obtain ⟨bs, hdir⟩ := hfull.dirIs wideDisk_geometry
  have hm : (if (fun _ => none : Dir.Name → Option ℕ) (key xName) = none then
      update (fun _ => none) (key xName) (some 60) else fun _ => none) (key xName) = some 60 := by
    rw [if_pos rfl, update_self]
  refine ⟨crowded t, _, hfull, hm, ((hdir.looksUp xName).fails _).mpr ⟨rfl, 60, hm, ?_⟩⟩
  have h60 : ((crowded t).itab 60).ref = 0 := hnone 60 (by decide)
  rintro (hpos | hslots)
  · omega
  · exact Nat.lt_irrefl _ hslots

end Xv6.Dirent
