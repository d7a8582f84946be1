import Xv6.DirentName
import Xv6.SlotTable
import Xv6.StoreFinish

/-! The bytes of a directory as a table of entries, and what dirlookup, dirlink and the end of
unlink do to it. -/
namespace Xv6.Dirent
open Function Bytes Hoare Store SlotTable List

def slotOf (de : List UInt8) : Option (Dir.Name × ℕ) :=
  if direntInum de = 0 then none else some (direntName de, direntInum de)

def entryAt (bs : List UInt8) (k : ℕ) : List UInt8 := (bs.drop (direntSize*k)).take direntSize

def decode (bs : List UInt8) : Table Dir.Name ℕ :=
  (List.range (bs.length/direntSize)).map (fun k => slotOf (entryAt bs k))

variable {sb : Superblock} {dp k : ℕ} {bs : List UInt8} {nm : Dir.Name} {s t : Fs}

theorem length_decode (bs : List UInt8) : (decode bs).length = bs.length/direntSize := by
  rw [decode, length_map, length_range]

theorem decode_get (hk : k < bs.length/direntSize) : (decode bs)[k]? = some (slotOf (entryAt bs k)) := by
  rw [decode, List.getElem?_map, List.getElem?_range hk, Option.map_some]

theorem length_entryAt (hk : k < bs.length/direntSize) : (entryAt bs k).length = direntSize := by
  have h16 : direntSize = 16 := rfl
  rw [entryAt, length_take, length_drop]
  rw [h16] at hk ⊢
  omega

theorem decode_append {xs ys : List UInt8} (hxs : xs.length%direntSize = 0) :
    decode (xs ++ ys) = decode xs ++ decode ys := by
  obtain ⟨a, ha⟩ : ∃ a, xs.length = direntSize*a := ⟨_, (Nat.mul_div_cancel' (Nat.dvd_of_mod_eq_zero hxs)).symm⟩
  have hlen : (xs ++ ys).length/direntSize = a+ys.length/direntSize := by
    rw [length_append, ha, Nat.mul_add_div (by decide)]
  have hx : xs.length/direntSize = a := by rw [ha, Nat.mul_div_cancel_left _ (by decide)]
  unfold decode
  rw [hlen, range_add, map_append, map_map, hx]
  congr 1
  · apply map_congr_left
    intro k hk
    have hk' := mem_range.mp hk
    have hle : direntSize*k+direntSize ≤ xs.length := by
      rw [ha, ← Nat.mul_succ]
      exact Nat.mul_le_mul_left _ hk'
    rw [entryAt, drop_append_of_le_length (by omega), take_append_of_le_length (by rw [length_drop]; omega), entryAt]
  · apply map_congr_left
    intro k _
    rw [comp_apply, entryAt, Nat.mul_add, ← ha, ← drop_drop, drop_left, entryAt]

theorem decode_write {de : List UInt8} (hk : k ≤ bs.length/direntSize) (hde : de.length = direntSize) :
    decode (bs.take (direntSize*k) ++ de ++ bs.drop (direntSize*k+direntSize)) =
      SlotTable.write (decode bs) k (slotOf de) := by
  have hle : direntSize*k ≤ bs.length := (Nat.mul_le_mul_left _ hk).trans (Nat.mul_div_le _ _)
  have htake : (bs.take (direntSize*k)).length = direntSize*k := by rw [length_take, Nat.min_eq_left hle]
  have hsplit (m : ℕ) (hm : direntSize*m ≤ bs.length) : (decode bs).take m = decode (bs.take (direntSize*m)) ∧
      (decode bs).drop m = decode (bs.drop (direntSize*m)) := by
    have hlen : (bs.take (direntSize*m)).length = direntSize*m := by rw [length_take, Nat.min_eq_left hm]
    have hdec : decode (bs.take (direntSize*m) ++ bs.drop (direntSize*m)) =
        decode (bs.take (direntSize*m)) ++ decode (bs.drop (direntSize*m)) :=
      decode_append (by rw [hlen, Nat.mul_mod_right])
    have hd : (decode (bs.take (direntSize*m))).length = m := by
      rw [length_decode, hlen, Nat.mul_div_cancel_left _ (by decide)]
    rw [take_append_drop] at hdec
    rw [hdec, take_left' hd, drop_left' hd]
    exact ⟨rfl, rfl⟩
  have hone : decode de = [slotOf de] := by
    rw [decode, hde, Nat.div_self (by decide), range_one, map_singleton, entryAt, Nat.mul_zero,
      drop_zero, take_of_length_le hde.le]
  rw [SlotTable.write, append_assoc, decode_append (by rw [htake, Nat.mul_mod_right]),
    decode_append (by rw [hde, Nat.mod_self]), hone, (hsplit k hle).1, ← Nat.mul_succ, singleton_append]
  by_cases hlast : direntSize*(k+1) ≤ bs.length
  · rw [(hsplit (k+1) hlast).2]
  -- the entry is a new one at the end
  have hend : bs.length/direntSize ≤ k := by
    have h16 : direntSize = 16 := rfl
    rw [h16] at hlast ⊢
    omega
  rw [drop_eq_nil_of_le (not_le.mp hlast).le, drop_eq_nil_of_le (by rw [length_decode]; omega)]
  rfl

/-! The loops over the entries. -/

section Scan
variable (h : FileIs sb dp tDir bs s)
include h

theorem size_eq : (s.itab dp).din.size.toNat = bs.length := by
  have hview : (coreParts sb s.toCore).view dp = (s.itab dp).din := h.locked.loaded.view
  rw [← h.bytes, fileBytes, Parts.contents, length_load, hview]

theorem readDirent_run (hk : k < bs.length/direntSize) (e : Panic) :
    readDirent sb dp (direntSize*k) e s = .ok (entryAt bs k, s) := by
  have h16 : direntSize = 16 := rfl
  have hsize := size_eq h
  have hlt := (s.itab dp).din.size.toNat_lt
  have hbytes : (coreParts sb s.toCore).contents dp = bs := h.bytes
  have hread : readi sb dp (fun _ => true) 0 (direntSize*k) direntSize s = .ok (some (entryAt bs k), s) := by
    rw [readi_run h.locked h.ok.full (by decide), hbytes, if_pos (by rw [h16] at hk ⊢; omega),
      if_pos (fun _ _ => rfl), entryAt]
  rw [readDirent, run_bind hread]
  change (if (entryAt bs k).length ≠ direntSize then throw e else pure (entryAt bs k) : M (List UInt8)) s = _
  rw [if_neg (not_not.mpr (length_entryAt hk))]
  rfl

variable {fuel i : ℕ}

theorem dirlookupLoop_skip {j : ℕ} (hj : k ≤ j) (hfuel : j ≤ k+fuel) (hlen : j ≤ bs.length/direntSize)
    (hno : ∀ m, k ≤ m → m < j → ∀ v, ¬Binds (decode bs) nm v m) :
    Store.dirlookupLoop sb dp nm fuel (direntSize*k) s = Store.dirlookupLoop sb dp nm (k+fuel-j) (direntSize*j) s := by
  induction fuel generalizing k with
  | zero =>
    obtain rfl : k = j := by omega
    rw [Nat.add_zero, Nat.sub_self]
  | succ fuel ih =>
    by_cases hkj : k = j
    · rw [hkj, Nat.add_sub_cancel_left]
    have hk : k < bs.length/direntSize := by omega
    have hne : ¬(direntInum (entryAt bs k) ≠ 0 ∧ direntName (entryAt bs k) = nm) := by
      rintro ⟨h0, hname⟩
      apply hno k le_rfl (by omega) (direntInum (entryAt bs k))
      rw [Binds, decode_get hk, slotOf, if_neg h0, hname]
    rw [Store.dirlookupLoop, run_bind (readDirent_run h hk _), if_neg hne, ← Nat.mul_succ,
      ih (by omega) (by omega) (fun m hm => hno m (by omega))]
    congr 1
    omega

theorem dirlookupLoop_found {v : ℕ} (hb : Binds (decode bs) nm v k) :
    Store.dirlookupLoop sb dp nm (fuel+1) (direntSize*k) s =
      (do iget v; return some (v, direntSize*k) : M (Option (ℕ × ℕ))) s := by
  have hk : k < bs.length/direntSize := by
    have hlt := (List.getElem?_eq_some_iff.mp hb).1
    rwa [length_decode] at hlt
  rw [Binds, decode_get hk, Option.some.injEq, slotOf] at hb
  by_cases h0 : direntInum (entryAt bs k) = 0
  · rw [if_pos h0] at hb
    cases hb
  · rw [if_neg h0] at hb
    obtain ⟨hname, rfl⟩ := Prod.mk.inj (Option.some.inj hb)
    rw [Store.dirlookupLoop, run_bind (readDirent_run h hk _), if_pos ⟨h0, hname⟩]

section
variable (hmod : bs.length%direntSize = 0)
include hmod

theorem slots_eq : slots (s.itab dp).din = bs.length/direntSize := by
  have h16 : direntSize = 16 := rfl
  rw [slots, size_eq h]
  rw [h16] at hmod ⊢
  omega

theorem dirlookup_start : Store.dirlookup sb dp nm s =
    Store.dirlookupLoop sb dp nm (bs.length/direntSize) (direntSize*0) s := by
  have hd : incore dp s = .ok ((s.itab dp).din, s) := rfl
  rw [Store.dirlookup, run_bind hd, if_neg (not_not.mpr h.type), slots_eq h hmod, Nat.mul_zero]

theorem dirlookup_found (hd : Distinct (decode bs)) {v : ℕ}
    (hb : Binds (decode bs) nm v i) : Store.dirlookup sb dp nm s =
      (do iget v; return some (v, direntSize*i) : M (Option (ℕ × ℕ))) s := by
  have hi : i < bs.length/direntSize := by
    have hlt := (List.getElem?_eq_some_iff.mp hb).1
    rwa [length_decode] at hlt
  have hno : ∀ m, 0 ≤ m → m < i → ∀ w, ¬Binds (decode bs) nm w m := fun m _ hm w hw => hm.ne (hd nm w v m i hw hb)
  rw [dirlookup_start h hmod, dirlookupLoop_skip h (Nat.zero_le i) (by omega) hi.le hno, Nat.zero_add]
  obtain ⟨fuel, hfuel⟩ : ∃ fuel, bs.length/direntSize-i = fuel+1 := ⟨bs.length/direntSize-i-1, by omega⟩
  rw [hfuel]
  exact dirlookupLoop_found h hb

theorem dirlookup_none (hno : ∀ v i, ¬Binds (decode bs) nm v i) : Store.dirlookup sb dp nm s = .ok (none, s) := by
  rw [dirlookup_start h hmod, dirlookupLoop_skip h (Nat.zero_le (bs.length/direntSize)) (by omega) le_rfl
    (fun m _ _ v => hno v m), Nat.zero_add, Nat.sub_self]
  rfl

end

theorem emptySlot_run (hk : k ≤ free (decode bs)) (hfuel : k+fuel = bs.length/direntSize) :
    emptySlot sb dp fuel (direntSize*k) s = .ok (direntSize*free (decode bs), s) := by
  have hle : free (decode bs) ≤ bs.length/direntSize := by
    rw [← length_decode]
    exact free_le
  induction fuel generalizing k with
  | zero =>
    obtain rfl : k = free (decode bs) := by omega
    rfl
  | succ fuel ih =>
    have hlt : k < bs.length/direntSize := by omega
    have hget := decode_get hlt
    rw [emptySlot, run_bind (readDirent_run h hlt _)]
    by_cases h0 : direntInum (entryAt bs k) = 0
    · rw [if_pos h0]
      rw [slotOf, if_pos h0] at hget
      obtain rfl : k = free (decode bs) := le_antisymm hk (free_le_of_none hget)
      rfl
    have hne : k ≠ free (decode bs) := by
      rintro rfl
      rw [slotOf, if_neg h0] at hget
      exact not_binds_free hget
    rw [if_neg h0, ← Nat.mul_succ]
    exact ih (by omega) (by omega)

end Scan

/-! References to the inodes that names lead to. -/

def takeRef (e : Incore) : Incore :=
  if e.ref > 0 then { e with ref := e.ref+1 } else { e with ref := 1, valid := false }

def taken (s : Fs) (i : ℕ) : Fs := { s with
    nslots := if (s.itab i).ref > 0 then s.nslots else s.nslots+1
    itab := update s.itab i (takeRef (s.itab i)) }

def dropped (s : Fs) (i : ℕ) : Fs := { s with
    nslots := if (s.itab i).ref = 1 then s.nslots-1 else s.nslots
    itab := update s.itab i { s.itab i with ref := (s.itab i).ref-1 } }

def SlotFor (s : Fs) (i : ℕ) : Prop := 0 < (s.itab i).ref ∨ s.nslots < Dir.ninode

instance (s : Fs) (i : ℕ) : Decidable (SlotFor s i) := inferInstanceAs (Decidable (_ ∨ _))

theorem iget_eq (i : ℕ) (s : Fs) : iget i s = (if (s.itab i).ref > 0 then
      setItab i (fun e => { e with ref := e.ref+1 })
    else if s.nslots ≥ Dir.ninode then throw .igetNoInodes
    else do
      modify fun s => { s with nslots := s.nslots+1 }
      setItab i (fun e => { e with ref := 1, valid := false }) : M Unit) s := rfl

theorem iget_run (h : SlotFor s i) : iget i s = .ok ((), taken s i) := by
  rw [iget_eq, taken, takeRef]
  by_cases href : (s.itab i).ref > 0
  · rw [if_pos href, if_pos href, if_pos href]
    rfl
  · rw [if_neg href, if_neg href, if_neg href, if_neg (not_le.mpr (h.resolve_left href))]
    rfl

theorem iget_error (h : ¬SlotFor s i) : iget i s = .error .igetNoInodes := by
  rw [SlotFor, not_or] at h
  rw [iget_eq, if_neg h.1, if_pos (not_lt.mp h.2)]
  rfl

theorem iput_run (h : ¬((s.itab i).ref = 1 ∧ (s.itab i).valid = true)) : iput sb i s = .ok ((), dropped s i) := by
  have hfree : freeUnlinked sb i s = .ok ((), s) := by
    have hdef : freeUnlinked sb i s = (if (s.itab i).ref = 1 ∧ (s.itab i).valid = true ∧
        (s.itab i).din.nlink = 0 then do
          itrunc sb i
          setIncore i (fun d => { d with type := 0 })
          iupdate sb i
          setItab i (fun e => { e with valid := false })
        else pure () : M Unit) s := rfl
    rw [hdef, if_neg (fun hc => h ⟨hc.1, hc.2.1⟩)]
    rfl
  rw [iput, run_bind hfree]
  rfl

theorem takeRef_ref (e : Incore) : (takeRef e).ref = e.ref+1 := by
  unfold takeRef
  split_ifs with h
  · rfl
  · change 1 = e.ref+1
    omega

theorem takeRef_loaded (e : Incore) : 0 < (takeRef e).ref ∧ (takeRef e).valid = true ↔ 0 < e.ref ∧ e.valid = true := by
  unfold takeRef
  split_ifs with h
  · exact and_congr_left' (iff_of_true (Nat.succ_pos _) h)
  · exact iff_of_false (fun h' => h'.2) (fun h' => h h'.1)

structure Hidden (s t : Fs) : Prop where
  blocks : t.blocks = s.blocks
  allocs : t.allocs = s.allocs
  loaded : ∀ j, 0 < (t.itab j).ref ∧ (t.itab j).valid = true ↔ 0 < (s.itab j).ref ∧ (s.itab j).valid = true
  din : ∀ j, (t.itab j).din = (s.itab j).din

theorem Hidden.fileIs {ty : Int16} (h : Hidden s t) (hf : FileIs sb dp ty bs s) : FileIs sb dp ty bs t := by
  have hview : (coreParts sb t.toCore).view = (coreParts sb s.toCore).view := by
    funext j
    have hdisk : (coreParts sb t.toCore).disk j = (coreParts sb s.toCore).disk j := by simp only [coreParts, h.blocks]
    unfold Parts.view
    rw [hdisk]
    exact if_congr (h.loaded j) (h.din j) rfl
  obtain ⟨hok, hbytes⟩ := hf.ok.of_view h.blocks h.allocs hview
  have hdin := h.din dp
  refine ⟨hok, ⟨(h.loaded dp).mpr hf.locked.loaded, hf.locked.lt, ?_⟩, ?_, hbytes.trans hf.bytes⟩
  · change (t.itab dp).din.type ≠ 0
    rw [hdin]
    exact hf.locked.typed
  · rw [hdin]
    exact hf.type

theorem hidden_taken (s : Fs) (i : ℕ) : Hidden s (taken s i) := by
  have hitab : (taken s i).itab = update s.itab i (takeRef (s.itab i)) := rfl
  refine ⟨rfl, rfl, fun j => ?_, fun j => ?_⟩
  · rw [hitab]
    by_cases hj : j = i
    · rw [hj, update_self, takeRef_loaded]
    · rw [update_of_ne hj]
  rw [hitab]
  by_cases hj : j = i
  · rw [hj, update_self, takeRef]
    split_ifs <;> rfl
  · rw [update_of_ne hj]

theorem hidden_dropped (h : ¬((s.itab i).ref = 1 ∧ (s.itab i).valid = true)) : Hidden s (dropped s i) := by
  have hitab : (dropped s i).itab = update s.itab i { s.itab i with ref := (s.itab i).ref-1 } := rfl
  refine ⟨rfl, rfl, fun j => ?_, fun j => ?_⟩
  · rw [hitab]
    by_cases hj : j = i
    · rw [hj, update_self]
      change 0 < (s.itab i).ref-1 ∧ (s.itab i).valid = true ↔ _
      constructor
      · exact fun h' => ⟨by omega, h'.2⟩
      · intro h'
        have hne : (s.itab i).ref ≠ 1 := fun h1 => h ⟨h1, h'.2⟩
        exact ⟨by omega, h'.2⟩
    · rw [update_of_ne hj]
  · rw [hitab]
    by_cases hj : j = i
    · rw [hj, update_self]
    · rw [update_of_ne hj]

structure Unchanged (s t : Fs) : Prop where
  blocks : t.blocks = s.blocks
  nslots : t.nslots = s.nslots
  ref : ∀ j, (t.itab j).ref = (s.itab j).ref
  entry : ∀ j, 0 < (s.itab j).ref → t.itab j = s.itab j

theorem dropped_taken (s : Fs) (i : ℕ) : Unchanged s (dropped (taken s i) i) := by
  have hself : (taken s i).itab i = takeRef (s.itab i) := update_self ..
  have hitab (j : ℕ) : (dropped (taken s i) i).itab j =
      if j = i then { takeRef (s.itab i) with ref := (s.itab i).ref } else s.itab j := by
    change update (update s.itab i _) i _ j = _
    rw [update_idem, hself, takeRef_ref, Nat.add_sub_cancel]
    by_cases hj : j = i
    · rw [hj, update_self, if_pos rfl]
    · rw [update_of_ne hj, if_neg hj]
  refine ⟨rfl, ?_, fun j => ?_, fun j hj => ?_⟩
  · change (if ((taken s i).itab i).ref = 1 then (if (s.itab i).ref > 0 then s.nslots else s.nslots+1)-1
      else if (s.itab i).ref > 0 then s.nslots else s.nslots+1) = s.nslots
    rw [hself, takeRef_ref]
    split_ifs <;> omega
  · rw [hitab]
    by_cases hji : j = i
    · rw [if_pos hji, hji]
    · rw [if_neg hji]
  rw [hitab]
  by_cases hji : j = i
  · rw [if_pos hji, takeRef, if_pos (hji ▸ hj), hji]
  · rw [if_neg hji]

theorem taken_not_last (s : Fs) (i : ℕ) : ¬(((taken s i).itab i).ref = 1 ∧ ((taken s i).itab i).valid = true) := by
  have hself : (taken s i).itab i = takeRef (s.itab i) := update_self ..
  rw [hself]
  rintro ⟨href, hvalid⟩
  have hpos : 0 < (takeRef (s.itab i)).ref := by omega
  have hold := ((takeRef_loaded _).mp ⟨hpos, hvalid⟩).1
  rw [takeRef_ref] at href
  omega

end Xv6.Dirent
