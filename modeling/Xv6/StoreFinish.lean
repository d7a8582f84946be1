import Xv6.FileShare

/-! The end of writei: the inode is written back, and the file is in order again. -/
namespace Xv6.Store
open Bytes Hoare List
variable {sb : Superblock} {i : ℕ} {p q : Parts} {mem : ℕ → Option UInt8} {src off n fin : ℕ}

def mixed (mem : ℕ → Option UInt8) (src off fin : ℕ) (g : ByteMem) : ByteMem := fun j =>
  if off ≤ j ∧ j < fin then (mem (src+(j-off))).getD 0 else g j

theorem splice_eq (mem : ℕ → Option UInt8) (src : ℕ) {off fin size : ℕ} (g : ByteMem) (hoff : off ≤ size)
    (hle : off ≤ fin) : (load g 0 size).take off ++ userBytes mem src (fin-off) ++ (load g 0 size).drop fin =
      load (mixed mem src off fin g) 0 (max fin size) := by
  have hlen : (userBytes mem src (fin-off)).length = fin-off := by rw [userBytes, length_map, length_range]
  have h := load_store_splice g (userBytes mem src (fin-off)) hoff
  rw [hlen, Nat.add_sub_cancel' hle] at h
  rw [← h]
  apply load_congr
  intro k _
  rw [store, hlen, Nat.add_sub_cancel' hle, mixed]
  split_ifs with hin
  · rw [userBytes, getD_eq_getElem?_getD, List.getElem?_map, List.getElem?_range (by omega)]
    rfl
  · rfl

variable {g : ByteMem}

theorem load_mixed_eq_iff {mem : ℕ → Option UInt8} {src off fin size : ℕ} {g' : ByteMem} :
    load (mixed mem src off fin g) 0 size = load (mixed mem src off fin g') 0 size ↔
      ∀ j < size, ¬(off ≤ j ∧ j < fin) → g j = g' j := by
  unfold load
  rw [map_inj_left]
  constructor
  · intro h j hj hout
    have h' := h j (mem_range.mpr hj)
    rwa [Nat.zero_add, mixed, mixed, if_neg hout, if_neg hout] at h'
  intro h j hj
  rw [Nat.zero_add, mixed, mixed]
  split_ifs with hin
  · rfl
  · exact h j (mem_range.mp hj) hin

theorem wrote_contents {x : Dinode} (hf : p.HoleFree i) (hl : p.Locked sb i)
    (hw : Wrote sb i mem src off n fin p q) (hoff : off ≤ (p.view i).size.toNat)
    (hx : Grown sb i fin p q x)
    (hg : ∀ j < (p.view i).size.toNat, ¬(off ≤ j ∧ j < fin) → q.byte i j = g j) :
    (q.update i x).HoleFree i ∧
      (q.update i x).contents i = load (mixed mem src off fin g) 0 (max fin (p.view i).size.toNat) := by
  have hfull : (q.update i x).HoleFree i := by
    intro bn hbn
    rw [hx.view] at hbn
    exact hw.full hf hl hoff hx.view hx.addrs hx.size hbn
  refine ⟨hfull, ?_⟩
  rw [Parts.contents, hx.view, hx.size]
  apply load_congr
  intro k hk
  rw [Nat.zero_add, hfull.content (by rw [hx.view, hx.size]; exact hk), update_byte hx.view hx.addrs, mixed]
  split_ifs with hin
  · have hcop := (hw.copied (k-off) (by omega)).2
    rw [show off+(k-off) = k by omega] at hcop
    rw [hcop, Option.getD_some]
  · exact hg k (by omega) hin

theorem locked_of_at {p : Parts} {f : Fs} (hs : At sb p f) (hl : p.Locked sb i) :
    (coreParts sb f.toCore).Locked sb i := by
  have hitab : (coreParts sb f.toCore).itab = p.itab := hs.itab
  refine ⟨?_, hl.lt, ?_⟩
  · have h := hl.loaded
    unfold Parts.Loaded at h ⊢
    rwa [hitab]
  · rw [hitab]
    exact hl.typed

structure FileIs (sb : Superblock) (i : ℕ) (ty : Int16) (bs : List UInt8) (f : Fs) : Prop where
  ok : FileOk sb i f
  locked : (coreParts sb f.toCore).Locked sb i
  type : (f.itab i).din.type = ty
  bytes : fileBytes sb i f = bs

theorem finish_file (hg : Geometry sb) {f f' : Fs} (hf : p.HoleFree i) (hl : p.Locked sb i)
    (hw : Wrote sb i mem src off n fin p q) (hoff : off ≤ (p.view i).size.toNat) (hfin : fin < 2^32)
    (hq : At sb q f) (hrun : (do setIncore i (grow fin); iupdate sb i : M Unit) f = .ok ((), f'))
    (hbyte : ∀ j < (p.view i).size.toNat, ¬(off ≤ j ∧ j < fin) → q.byte i j = g j) :
    FileIs sb i (p.itab i).din.type (load (mixed mem src off fin g) 0 (max fin (p.view i).size.toNat)) f' := by
  have hql := hw.writes.locked hl
  have hx := hw.grown hl hfin
  have hend : Triple (fun _ => True) (At sb q) (do
      setIncore i (grow fin)
      iupdate sb i : M Unit) (fun _ => At sb (q.update i (grow fin (q.view i)))) := by
    rw [hql.loaded.view]
    exact .bind (setIncore_spec i _) (fun _ => iupdate_spec hg hl.lt)
  have ht := hend.run_ok hq hrun
  have htype : (grow fin (q.view i)).type ≠ 0 := by
    rw [hx.type]
    exact hl.live.2
  have hul : (q.update i (grow fin (q.view i))).Locked sb i := (Keeps.update htype).locked i hql
  obtain ⟨hfull, hbytes⟩ := wrote_contents hf hl hw hoff hx hbyte
  have hsame := ht.same hx.owned hul.live
  have hlocked := locked_of_at ht hul
  refine ⟨⟨ht.owned hx.owned, ht.allocs, hlocked.live, hsame.holeFree hfull⟩, hlocked, ?_, hsame.contents.trans hbytes⟩
  have hview : (coreParts sb f'.toCore).view i = (f'.itab i).din := hlocked.loaded.view
  rw [← hview, hsame.view, hx.view, hx.type, hl.loaded.view]

structure TableKept (i : ℕ) (s t : Fs) : Prop where
  other : ∀ j, j ≠ i → t.itab j = s.itab j
  self : (t.itab i).ref = (s.itab i).ref ∧ (t.itab i).valid = (s.itab i).valid

section Whole
variable (hg : Geometry sb) {ty : Int16} {old bs : List UInt8} {s t : Fs} (h : FileIs sb i ty old s)
  (hmem : ∀ k < bs.length, mem (src+k) = some (bs.getD k 0)) (hoff : off ≤ old.length)
include hg h hmem hoff

/-- A write from memory that can be read replaces the bytes from `off` on, or the file would get too
long. -/
theorem FileIs.writei_ok {r : Option ℕ} (hn : bs.length < 2^32)
    (hrun : Store.writei sb i mem src off bs.length s = .ok (r, t)) :
    (r = none ∧ maxFile*bsize < off+bs.length) ∨ (r = some bs.length ∧ TableKept i s t ∧
      FileIs sb i ty (old.take off ++ bs ++ old.drop (off+bs.length)) t) := by
  have h32 : maxFile*bsize < 2^32 := by decide
  have hs : At sb (coreParts sb s.toCore) s := ⟨fun _ _ => rfl, rfl, fun _ _ => rfl, fun _ _ _ => rfl, h.ok.allocs⟩
  have hd : incore i s = .ok ((s.itab i).din, s) := rfl
  have hview : (coreParts sb s.toCore).view i = (s.itab i).din := h.locked.loaded.view
  have hbytes : (coreParts sb s.toCore).contents i = old := h.bytes
  have hsize := ((coreParts sb s.toCore).view i).size.toNat_lt
  rw [← hbytes, Parts.contents, length_load] at hoff
  rw [Store.writei, run_bind hd, ← hview] at hrun
  by_cases hmax : off+bs.length ≤ maxFile*bsize
  · rw [if_neg (by omega), if_neg (by omega)] at hrun
    obtain ⟨fin, u, hloop, hend⟩ := run_bind_ok hrun
    obtain ⟨q, hw, hu⟩ := (writeiLoop_room (E := fun _ => True) hg mem le_rfl (Or.inl (fun _ _ => trivial))
      h.ok.owned h.locked).run_ok hs hloop
    obtain rfl : fin = off+bs.length := hw.all (fun k hk => by rw [hmem k hk]; rfl)
    rw [← bind_assoc] at hend
    obtain ⟨_, t', hfin, hret⟩ := run_bind_ok hend
    cases hret
    have hfile := finish_file hg h.ok.full h.locked hw hoff (by omega) hu hfin
      (g := (coreParts sb s.toCore).content i) (fun j hj hout => by
        rw [h.ok.full.content hj]
        exact hw.writes.byte j (h.ok.full.block_ne hj) (by omega))
    refine Or.inr ⟨by rw [Nat.add_sub_cancel_left], ?_, ?_⟩
    · have ht := (Triple.bind (setIncore_spec (E := fun _ => True) i (grow (off+bs.length)))
        (fun _ => iupdate_spec hg h.locked.lt)).run_ok hu hfin
      refine ⟨fun j hj => ?_, ?_⟩
      · rw [ht.itab]
        exact (Function.update_of_ne hj ..).trans (hw.writes.other j hj)
      have hself := hw.writes.ref_eq i
      rw [ht.itab]
      change (Function.update q.itab i _ i).ref = _ ∧ (Function.update q.itab i _ i).valid = _
      rw [Function.update_self]
      exact hself
    · have huser : userBytes mem src bs.length = bs := by
        apply ext_getElem
        · rw [userBytes, length_map, length_range]
        · intro k hk hk'
          simp only [userBytes, getElem_map, getElem_range, hmem k hk', Option.getD_some,
            getD_eq_getElem?_getD, List.getElem?_eq_getElem hk']
      have hsplice := splice_eq mem src ((coreParts sb s.toCore).content i) hoff (Nat.le_add_right off bs.length)
      rw [Nat.add_sub_cancel_left, huser] at hsplice
      rw [← hsplice] at hfile
      exact ⟨hfile.ok, hfile.locked, hfile.type.trans h.type, by rw [hfile.bytes, ← hbytes]; rfl⟩
  · left
    refine ⟨?_, not_le.mp hmax⟩
    split_ifs at hrun
    · exact (Prod.mk.inj (Except.ok.inj hrun)).1.symm
    · exact (Prod.mk.inj (Except.ok.inj hrun)).1.symm
    · omega

theorem FileIs.writei_run (hmax : off+bs.length ≤ maxFile*bsize)
    (hroom : (coreParts sb s.toCore).need i off bs.length ≤ (coreParts sb s.toCore).free sb) :
    ∃ t, Store.writei sb i mem src off bs.length s = .ok (some bs.length, t) ∧ TableKept i s t ∧
      FileIs sb i ty (old.take off ++ bs ++ old.drop (off+bs.length)) t := by
  have hs : At sb (coreParts sb s.toCore) s := ⟨fun _ _ => rfl, rfl, fun _ _ => rfl, fun _ _ _ => rfl, h.ok.allocs⟩
  have hlen : off ≤ ((coreParts sb s.toCore).view i).size.toNat := by
    have hbytes : (coreParts sb s.toCore).contents i = old := h.bytes
    rwa [← hbytes, Parts.contents, length_load] at hoff
  have h32 : maxFile*bsize < 2^32 := by decide
  obtain ⟨t, ht, -⟩ := Store.writei_run hg hs h.ok.owned h.locked h.ok.full hmem hlen hmax hroom
  rcases h.writei_ok hg hmem hoff (by omega) ht with ⟨hnone, -⟩ | ⟨-, hkept⟩
  · cases hnone
  · exact ⟨t, ht, hkept⟩

end Whole

end Xv6.Store
