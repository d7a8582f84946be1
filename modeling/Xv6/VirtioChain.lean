import Xv6.VirtioModel

/-! Descriptors: what the allocation and the release of a chain do, and what the device finds in
one. -/
namespace Xv6.Virtio

open Function List
variable {d : Disk} {k : Chain}

def Disk.freed (d : Disk) (l : List ℕ) : Disk := { d with
    desc := fun j => if j ∈ l then Desc.zero else d.desc j
    free := fun j => if j ∈ l then true else d.free j }

theorem Disk.freed_freed (d : Disk) (l m : List ℕ) : (d.freed l).freed m = d.freed (l ++ m) := by
  have hite {α : Type} (f : ℕ → α) (z : α) : (fun j => if j ∈ m then z else if j ∈ l then z else f j) =
        fun j => if j ∈ l ++ m then z else f j := by
    funext j
    rw [← ite_or]
    simp only [mem_append, Or.comm]
  unfold Disk.freed
  dsimp only
  rw [hite d.desc, hite d.free]

variable {i : ℕ}

theorem Disk.freed_free {l : List ℕ} (hi : i ∉ l) : (d.freed l).free i = d.free i := if_neg hi

theorem Disk.freed_desc {l : List ℕ} (hi : i ∉ l) : (d.freed l).desc i = d.desc i := if_neg hi

theorem freeDesc_ok (hi : i < num) (hf : d.free i = false) : freeDesc d i = .ok (d.freed [i]) := by
  unfold freeDesc
  rw [if_neg (by omega), if_neg (by rw [hf]; exact Bool.false_ne_true)]
  have hone {α : Type} (f : ℕ → α) (z : α) : update f i z = fun j => if j ∈ [i] then z else f j := by
    funext j
    simp only [update_apply, mem_singleton]
  rw [hone d.desc, hone d.free]
  rfl

theorem allocDesc_cases (d : Disk) : (allocDesc d = none) ∨ ∃ i, i < num ∧ d.free i = true ∧
      allocDesc d = some (i, { d with free := update d.free i false }) := by
  unfold allocDesc
  cases hfind : (List.range num).find? d.free with
  | none => exact Or.inl rfl
  | some i => exact Or.inr ⟨i, mem_range.mp (mem_of_find?_eq_some hfind), List.find?_some hfind, rfl⟩

theorem foldlM_freeDesc (l : List ℕ) (d : Disk) (hnodup : l.Nodup)
    (hl : ∀ i ∈ l, i < num ∧ d.free i = false) : l.foldlM freeDesc d = .ok (d.freed l) := by
  induction l generalizing d with
  | nil =>
    simp only [foldlM_nil, Disk.freed, not_mem_nil, if_false]
    rfl
  | cons i l ih =>
    obtain ⟨hi, hf⟩ := hl i mem_cons_self
    rw [nodup_cons] at hnodup
    rw [foldlM_cons, freeDesc_ok hi hf, show i :: l = [i] ++ l from rfl, ← Disk.freed_freed]
    refine ih _ hnodup.2 (fun j hj => ?_)
    obtain ⟨hlt, hfj⟩ := hl j (mem_cons_of_mem i hj)
    have hji : j ∉ [i] := mem_singleton.not.mpr (ne_of_mem_of_not_mem hj hnodup.1)
    exact ⟨hlt, (Disk.freed_free hji).trans hfj⟩

theorem alloc3Loop_spec (k : ℕ) (idx : List ℕ) (d : Disk) (hnodup : idx.Nodup)
    (hidx : ∀ i ∈ idx, i < num ∧ d.free i = false) :
    (∃ l, l.length = k ∧ (idx ++ l).Nodup ∧ (∀ i ∈ l, i < num ∧ d.free i = true) ∧ alloc3Loop k idx d =
        .ok (some (idx ++ l), { d with free := fun j => if j ∈ l then false else d.free j })) ∨
    ∃ desc, (∀ j, d.free j = false → j ∉ idx → desc j = d.desc j) ∧ alloc3Loop k idx d =
        .ok (none, { d with desc := desc, free := fun j => if j ∈ idx then true else d.free j }) := by
  induction k generalizing idx d with
  | zero =>
    refine Or.inl ⟨[], rfl, by rwa [append_nil], fun i hi => absurd hi not_mem_nil, ?_⟩
    simp only [alloc3Loop, append_nil, not_mem_nil, if_false]
  | succ k ih =>
    obtain hnone | ⟨i, hi, hfi, hsome⟩ := allocDesc_cases d
    · refine Or.inr ⟨fun j => if j ∈ idx then Desc.zero else d.desc j, fun j _ hj => if_neg hj, ?_⟩
      rw [alloc3Loop, hnone, foldlM_freeDesc idx d hnodup hidx]
      rfl
    have hnew : i ∉ idx := fun hm => Bool.false_ne_true ((hidx i hm).2.symm.trans hfi)
    have hnodup' : (idx ++ [i]).Nodup := nodup_append'.mpr ⟨hnodup, nodup_singleton i, disjoint_singleton.mpr hnew⟩
    have hidx' : ∀ j ∈ idx ++ [i], j < num ∧ update d.free i false j = false := by
      intro j hj
      by_cases hji : j = i
      · rw [hji, update_self]
        exact ⟨hi, rfl⟩
      · rw [update_of_ne hji]
        rw [mem_append, mem_singleton, or_iff_left hji] at hj
        exact hidx j hj
    rw [alloc3Loop, hsome]
    obtain ⟨l, hlen, hnd, hl, hok⟩ | ⟨desc, hdesc, hfail⟩ :=
      ih (idx ++ [i]) { d with free := update d.free i false } hnodup' hidx'
    · dsimp only at hl
      have hil : i ∉ l := by
        intro hm
        have h := (hl i hm).2
        rw [update_self] at h
        cases h
      refine Or.inl ⟨i :: l, by rw [length_cons, hlen], ?_, ?_, ?_⟩
      · rwa [append_assoc] at hnd
      · intro j hj
        rcases mem_cons.mp hj with rfl | hj
        · exact ⟨hi, hfi⟩
        · obtain ⟨hlt, hfj⟩ := hl j hj
          rw [update_of_ne (ne_of_mem_of_not_mem hj hil)] at hfj
          exact ⟨hlt, hfj⟩
      refine hok.trans ?_
      rw [append_assoc, singleton_append]
      congr 4
      funext j
      dsimp only
      by_cases hji : j = i
      · rw [hji, if_neg hil, update_self, if_pos mem_cons_self]
      · simp only [update_of_ne hji, mem_cons, hji, false_or]
    · refine Or.inr ⟨desc, fun j hj hidxj => hdesc j ?_ ?_, hfail.trans ?_⟩
      · dsimp only
        by_cases hji : j = i
        · rw [hji, update_self]
        · rw [update_of_ne hji]
          exact hj
      · rw [mem_append, mem_singleton, not_or]
        exact ⟨hidxj, fun hji => Bool.false_ne_true (hj.symm.trans (hji ▸ hfi))⟩
      congr 4
      funext j
      dsimp only
      by_cases hji : j = i
      · rw [hji, if_pos (mem_append_right idx mem_cons_self), if_neg hnew, hfi]
      · simp only [update_of_ne hji, mem_append, mem_singleton, hji, or_false]

/-- alloc3_desc does not panic. It takes three free descriptors or leaves the free ones as they
are, and does not touch the others. -/
theorem alloc3Desc_spec (d : Disk) : (∃ i0 i1 i2, [i0, i1, i2].Nodup ∧ (∀ i ∈ [i0, i1, i2], i < num ∧ d.free i = true) ∧
      alloc3Desc d = .ok (some [i0, i1, i2],
        { d with free := fun j => if j ∈ [i0, i1, i2] then false else d.free j })) ∨
    ∃ desc, (∀ j, d.free j = false → desc j = d.desc j) ∧ alloc3Desc d = .ok (none, { d with desc := desc }) := by
  obtain ⟨l, hlen, hnodup, hl, hok⟩ | ⟨desc, hdesc, hfail⟩ :=
    alloc3Loop_spec 3 [] d nodup_nil (fun i hi => absurd hi not_mem_nil)
  · obtain ⟨i0, i1, i2, rfl⟩ := length_eq_three.mp hlen
    exact Or.inl ⟨i0, i1, i2, hnodup, hl, hok⟩
  · refine Or.inr ⟨desc, fun j hj => hdesc j hj not_mem_nil, hfail.trans ?_⟩
    simp only [not_mem_nil, if_false]

structure Disk.Formatted (d : Disk) (k : Chain) : Prop where
  first : d.desc k.i0 = ⟨.op k.i0, 16, descNext, k.i1⟩
  second : d.desc k.i1 = ⟨.data k.call.b, 1024, (if k.call.write then 0 else descWrite) ||| descNext, k.i2⟩
  third : d.desc k.i2 = ⟨.status k.i0, 1, descWrite, 0⟩
  op : d.ops k.i0 = ⟨if k.call.write then blkOut else blkIn, 0, k.call.sector⟩
  buf : d.infoB k.i0 = some k.call.b

def Chain.request (k : Chain) : Request := ⟨k.call.write, k.call.sector, k.call.b, k.i0⟩

theorem Disk.Formatted.readChain (h : d.Formatted k) : readChain d k.i0 = some k.request := by
  unfold Virtio.readChain
  simp only [h.first, h.second, h.third, h.op]
  cases hw : k.call.write with
  | true => simp [Chain.request, hw]
  | false =>
    have hne : blkIn ≠ blkOut := by decide
    simp [Chain.request, hw, hne]

theorem Disk.Formatted.congr {d' : Disk} (h : d.Formatted k) (hdesc : ∀ i ∈ k.idx, d'.desc i = d.desc i)
    (hop : d'.ops k.i0 = d.ops k.i0) (hbuf : d'.infoB k.i0 = d.infoB k.i0) : d'.Formatted k := by
  refine ⟨?_, ?_, ?_, hop.trans h.op, hbuf.trans h.buf⟩
  · exact (hdesc k.i0 (by simp [Chain.idx])).trans h.first
  · exact (hdesc k.i1 (by simp [Chain.idx])).trans h.second
  · exact (hdesc k.i2 (by simp [Chain.idx])).trans h.third

theorem Disk.formatted_format (d : Disk) (hk : k.idx.Nodup) : (d.format k).Formatted k := by
  simp only [Chain.idx, nodup_cons, mem_cons, not_mem_nil, or_false, not_or] at hk
  obtain ⟨⟨h01, h02⟩, h12, -⟩ := hk
  refine ⟨?_, ?_, update_self .., update_self .., update_self ..⟩
  · refine (update_of_ne h02 ..).trans ((update_of_ne h01 ..).trans ?_)
    exact update_self ..
  · exact (update_of_ne h12 ..).trans (update_self ..)

theorem Disk.format_desc (d : Disk) (hi : i ∉ k.idx) : (d.format k).desc i = d.desc i := by
  simp only [Chain.idx, mem_cons, not_mem_nil, or_false, not_or] at hi
  obtain ⟨h0, h1, h2⟩ := hi
  refine (update_of_ne h2 ..).trans ((update_of_ne h1 ..).trans ?_)
  exact update_of_ne h0 ..

theorem freeChain_next {fuel : ℕ} (hi : i < num) (hf : d.free i = false) (hflag : (d.desc i).flags &&& descNext ≠ 0) :
    freeChain (fuel+1) i d = freeChain fuel (d.desc i).next (d.freed [i]) := by
  rw [freeChain, freeDesc_ok hi hf]
  exact if_pos hflag

theorem freeChain_formatted (h : d.Formatted k) (hk : k.idx.Nodup)
    (hbusy : ∀ i ∈ k.idx, i < num ∧ d.free i = false) {e : Disk} (hdesc : e.desc = d.desc)
    (hfree : e.free = d.free) : freeChain (num+1) k.i0 e = .ok (e.freed k.idx) := by
  have hsecond : ((if k.call.write = true then 0 else descWrite) ||| descNext) &&& descNext ≠ 0 := by
    cases k.call.write <;> decide
  have hfirst : descNext &&& descNext ≠ 0 := by decide
  have hlast : ¬ descWrite &&& descNext ≠ 0 := by decide
  simp only [Chain.idx, nodup_cons, mem_cons, not_mem_nil, or_false, not_or] at hk
  obtain ⟨⟨h01, h02⟩, h12, -⟩ := hk
  obtain ⟨hlt0, hf0⟩ := hbusy k.i0 (by simp [Chain.idx])
  obtain ⟨hlt1, hf1⟩ := hbusy k.i1 (by simp [Chain.idx])
  obtain ⟨hlt2, hf2⟩ := hbusy k.i2 (by simp [Chain.idx])
  rw [← hfree] at hf0 hf1 hf2
  have hm1 : k.i1 ∉ [k.i0] := mem_singleton.not.mpr (Ne.symm h01)
  have hm2 : k.i2 ∉ [k.i0, k.i1] := by
    simp only [mem_cons, not_mem_nil, or_false, not_or]
    exact ⟨Ne.symm h02, Ne.symm h12⟩
  have hd0 : e.desc k.i0 = _ := (congrFun hdesc _).trans h.first
  have hd1 : (e.freed [k.i0]).desc k.i1 = _ := (Disk.freed_desc hm1).trans ((congrFun hdesc _).trans h.second)
  have hd2 : (e.freed [k.i0, k.i1]).desc k.i2 = _ := (Disk.freed_desc hm2).trans ((congrFun hdesc _).trans h.third)
  rw [freeChain_next hlt0 hf0 (by rw [hd0]; exact hfirst), hd0,
    freeChain_next hlt1 ((Disk.freed_free hm1).trans hf1) (by rw [hd1]; exact hsecond), hd1,
    Disk.freed_freed, singleton_append, freeChain,
    freeDesc_ok hlt2 ((Disk.freed_free hm2).trans hf2)]
  dsimp only
  rw [hd2, if_neg hlast, Disk.freed_freed]
  rfl

end Xv6.Virtio
