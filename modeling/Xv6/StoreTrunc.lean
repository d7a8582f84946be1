import Xv6.StoreMap

/-! itrunc gives back every block of an inode once. -/
namespace Xv6.Store
open Function (update_of_ne update_self)
open Hoare Ownership List

variable {sb : Superblock} {p p' p'' : Parts} {E : Panic → Prop} {i : ℕ}

structure Cuts (i : ℕ) (p p' : Parts) : Prop where
  disk : p'.disk = p.disk
  data : p'.data = p.data
  other : ∀ j, j ≠ i → p'.itab j = p.itab j
  self : ∃ addrs, p'.itab i = { p.itab i with din := { (p.itab i).din with addrs := addrs } } ∧
    ∀ k, addrs k = 0 ∨ addrs k = (p.itab i).din.addrs k

theorem Cuts.refl (p : Parts) : Cuts i p p := ⟨rfl, rfl, fun _ _ => rfl, ⟨_, rfl, fun _ => Or.inr rfl⟩⟩

theorem Cuts.trans (h : Cuts i p p') (h' : Cuts i p' p'') : Cuts i p p'' := by
  obtain ⟨a, ha, hold⟩ := h.self
  obtain ⟨b, hb, hold'⟩ := h'.self
  refine ⟨h'.disk.trans h.disk, h'.data.trans h.data,
    fun j hj => (h'.other j hj).trans (h.other j hj), ⟨b, by rw [hb, ha], fun k => ?_⟩⟩
  rcases hold' k with hz | hsame
  · exact Or.inl hz
  · rw [hsame, ha]
    exact hold k

theorem Cuts.locked (h : Cuts i p p') (hl : p.Locked sb i) : p'.Locked sb i := by
  obtain ⟨a, ha, -⟩ := h.self
  refine ⟨?_, hl.lt, ?_⟩
  · unfold Parts.Loaded
    rw [ha]
    exact hl.loaded
  · rw [ha]
    exact hl.typed

variable {k : Fin 13} {X : Set Slot}

theorem Cuts.zero (h : Cuts i p p') (hk : (p.itab i).din.addrs k = 0) : (p'.itab i).din.addrs k = 0 := by
  obtain ⟨a, ha, hold⟩ := h.self
  rw [ha]
  rcases hold k with hz | hsame
  · exact hz
  · exact hsame.trans hk

theorem Cuts.setAddr (p : Parts) (bit : ℕ → Bool) (k : Fin 13) :
    Cuts i p (({ p with bit := bit } : Parts).setDin i (setAddr k 0 (p.itab i).din)) := by
  refine ⟨rfl, rfl, fun j hj => update_of_ne hj .., ⟨_, update_self .., ?_⟩⟩
  intro m
  by_cases hm : m = k
  · exact Or.inl (by rw [hm]; exact update_self ..)
  · exact Or.inr (update_of_ne hm ..)

theorem Parts.Owned.bit_addr (ho : p.Owned sb ∅ ∅) (hl : p.Locked sb i) (hk : (p.itab i).din.addrs k ≠ 0) :
    ((p.itab i).din.addrs k).toNat < sb.size ∧ p.bit ((p.itab i).din.addrs k).toNat = true := by
  rw [← hl.loaded.view] at hk ⊢
  have hfree := Owns.free ho (a := .addr i k) (Set.notMem_empty _) (by rw [hl.live.use_addr]; exact toNat_ne_zero hk)
  rw [hl.live.use_addr] at hfree
  exact ⟨(ho.indirect (Set.notMem_empty _) hl.lt hl.live.2 hk).2, hfree.1⟩

theorem Parts.Owned.cut_addr (ho : p.Owned sb ∅ ∅) (hl : p.Locked sb i) (hk12 : k ≠ 12)
    (hk : (p.itab i).din.addrs k ≠ 0) :
    ((p.release ((p.itab i).din.addrs k).toNat).setDin i (Store.setAddr k 0 (p.itab i).din)).Owned sb ∅ ∅ := by
  have hrl : (p.release ((p.itab i).din.addrs k).toNat).Loaded i := hl.loaded
  have hview := hrl.view_setDin (Store.setAddr k 0 (p.itab i).din)
  rw [← hl.loaded.view] at hk hview ⊢
  have hfree := (Owns.free ho (a := .addr i k) (Set.notMem_empty _)
    (by rw [hl.live.use_addr]; exact toNat_ne_zero hk)).2
  rw [hl.live.use_addr] at hfree
  have huse := use_setAddr (v := p.view) (D := p.data) (x := 0) hl.lt hl.live.2 (fun h12 => absurd h12 hk12)
  unfold Parts.Owned
  rw [Parts.use, hview]
  apply hfree.clear
  · intro a ha
    have hne : a ≠ .addr i k := fun heq => ha (Or.inl heq)
    exact (congrFun huse a).trans (update_of_ne hne ..)
  · rintro a (rfl | ha) -
    · exact (congrFun huse _).trans (update_self ..)
    · exact absurd ha (Set.notMem_empty a)
  · exact Set.empty_subset _

theorem truncSlot_spec (hg : Geometry sb) (ho : p.Owned sb ∅ ∅) (hl : p.Locked sb i) (hk : k ≠ 12) :
    Triple E (At sb p) (truncSlot sb i k)
      (fun _ s => ∃ p', (p'.Owned sb ∅ ∅ ∧ Cuts i p p' ∧ (p'.itab i).din.addrs k = 0) ∧ At sb p' s) := by
  apply incore_bind
  apply Triple.ite
  · intro h0
    obtain ⟨hlt, hbit⟩ := ho.bit_addr hl h0
    refine .bind (bfree_spec hg hlt hbit) (fun _ => ?_)
    apply (setIncore_spec i _).post
    intro _ s hs
    refine ⟨_, ⟨ho.cut_addr hl hk h0, Cuts.setAddr p _ k, ?_⟩, hs⟩
    simp [Parts.setDin, Parts.setItab, Store.setAddr]
  · intro h0
    apply Triple.pure
    intro s hs
    exact ⟨p, ⟨ho, Cuts.refl p, not_not.mp h0⟩, hs⟩

theorem truncSlots_spec (hg : Geometry sb) (ks : List (Fin 13)) (hks : ∀ k ∈ ks, k ≠ 12)
    (ho : p.Owned sb ∅ ∅) (hl : p.Locked sb i) :
    Triple E (At sb p) (truncSlots sb i ks) (fun _ s => ∃ p', (p'.Owned sb ∅ ∅ ∧ Cuts i p p' ∧
        ∀ k ∈ ks, (p'.itab i).din.addrs k = 0) ∧ At sb p' s) := by
  induction ks generalizing p with
  | nil =>
    apply Triple.pure
    intro s hs
    exact ⟨p, ⟨ho, Cuts.refl p, fun k hk => absurd hk not_mem_nil⟩, hs⟩
  | cons k ks ih =>
    refine .bind_exists (truncSlot_spec hg ho hl (hks k mem_cons_self)) ?_
    rintro _ q ⟨hqo, hq, hqk⟩
    apply (ih (fun m hm => hks m (mem_cons_of_mem k hm)) hqo (hq.locked hl)).post
    rintro _ s ⟨r, ⟨hro, hr, hrk⟩, hs⟩
    refine ⟨r, ⟨hro, hq.trans hr, fun m hm => ?_⟩, hs⟩
    rcases mem_cons.mp hm with rfl | hm
    · exact hr.zero hqk
    · exact hrk m hm

def entries (i : ℕ) (js : List ℕ) : Set Slot := {a | ∃ j ∈ js, a = .entry i (Fin.ofNat 256 j)}

theorem entries_cons (i j : ℕ) (js : List ℕ) (X : Set Slot) :
    X ∪ entries i (j :: js) = insert (.entry i (Fin.ofNat 256 j)) X ∪ entries i js := by
  ext a
  simp only [entries, Set.mem_union, Set.mem_insert_iff, Set.mem_ofPred_eq, mem_cons, exists_eq_or_imp]
  tauto

theorem Parts.Locked.use_entry (hl : p.Locked sb i) (h0 : (p.itab i).din.addrs 12 ≠ 0) {j : ℕ} (hj : j < nindirect) :
    p.use sb.ninodes (.entry i (Fin.ofNat 256 j)) = (word (p.data ((p.itab i).din.addrs 12).toNat) j).toNat := by
  have hlive := hl.live
  rw [← hl.loaded.view] at h0 ⊢
  rw [Parts.use, Store.use, if_pos ⟨hlive.1, hlive.2, h0⟩, fin_ofNat_val (show j < 256 from hj)]

theorem truncEntry_spec (hg : Geometry sb) (hl : p.Locked sb i)
    (h0 : (p.itab i).din.addrs 12 ≠ 0) {j : ℕ} (hj : j < nindirect)
    (hX : .entry i (Fin.ofNat 256 j) ∉ X) (ho : p.Owned sb X ∅) :
    Triple E (At sb p) (truncEntry sb (p.data ((p.itab i).din.addrs 12).toNat) j) (fun _ s => ∃ bit,
        ({ p with bit := bit } : Parts).Owned sb (insert (.entry i (Fin.ofNat 256 j)) X) ∅ ∧
          At sb { p with bit := bit } s) := by
  have huse := hl.use_entry h0 hj
  -- whether or not there is a block to give back, entry `j` does not count from here on
  apply Triple.ite
  · intro hw
    have hne : p.use sb.ninodes (.entry i (Fin.ofNat 256 j)) ≠ 0 := by
      rw [huse]
      exact toNat_ne_zero hw
    have hfree := Owns.free ho hX hne
    have hlt := (ho.range _ hX hne).2
    rw [huse] at hfree hlt
    apply (bfree_spec hg hlt hfree.1).post
    exact fun _ s hs => ⟨Function.update p.bit _ false, hfree.2, hs⟩
  · intro hw
    apply Triple.pure
    have hz : p.use sb.ninodes (.entry i (Fin.ofNat 256 j)) = 0 := by
      rw [huse, not_not.mp hw]
      rfl
    exact fun s hs => ⟨p.bit, Owns.drop ho hz, hs⟩

theorem truncEntries_spec (hg : Geometry sb) (hl : p.Locked sb i)
    (h0 : (p.itab i).din.addrs 12 ≠ 0) (js : List ℕ) (hjs : ∀ j ∈ js, j < nindirect)
    (hnd : js.Nodup) (hX : ∀ j ∈ js, .entry i (Fin.ofNat 256 j) ∉ X)
    (ho : p.Owned sb X ∅) :
    Triple E (At sb p) (truncEntries sb (p.data ((p.itab i).din.addrs 12).toNat) js)
      (fun _ s => ∃ bit, ({ p with bit := bit } : Parts).Owned sb (X ∪ entries i js) ∅ ∧
        At sb { p with bit := bit } s) := by
  induction js generalizing X p with
  | nil =>
    apply Triple.pure
    intro s hs
    have hempty : X ∪ entries i [] = X := by simp [entries]
    exact ⟨p.bit, by rw [hempty]; exact ho, hs⟩
  | cons j js ih =>
    obtain ⟨hfresh, hnd⟩ := nodup_cons.mp hnd
    have hj := hjs j mem_cons_self
    have hX' : ∀ m ∈ js, .entry i (Fin.ofNat 256 m) ∉ insert (.entry i (Fin.ofNat 256 j)) X := by
      rintro m hm (heq | hmX)
      · have hv := congrArg Fin.val (Slot.entry.inj heq).2
        rw [fin_ofNat_val (show m < 256 from hjs m (mem_cons_of_mem j hm)), fin_ofNat_val (show j < 256 from hj)] at hv
        exact hfresh (hv ▸ hm)
      · exact hX m (mem_cons_of_mem j hm) hmX
    refine .bind_exists (truncEntry_spec hg hl h0 hj (hX j mem_cons_self) ho) ?_
    intro _ bit hbo
    rw [entries_cons]
    exact ih (p := { p with bit := bit }) ⟨hl.loaded, hl.lt, hl.typed⟩ h0
      (fun m hm => hjs m (mem_cons_of_mem j hm)) hnd hX' hbo

theorem Parts.Owned.cut_indirect (hl : p.Locked sb i) (h0 : (p.itab i).din.addrs 12 ≠ 0)
    (ho : p.Owned sb (∅ ∪ entries i (List.range nindirect)) ∅) :
    p.bit ((p.itab i).din.addrs 12).toNat = true ∧ ((p.release ((p.itab i).din.addrs 12).toNat).setDin i
        (Store.setAddr 12 0 (p.itab i).din)).Owned sb ∅ ∅ := by
  have hrl : (p.release ((p.itab i).din.addrs 12).toNat).Loaded i := hl.loaded
  have hview := hrl.view_setDin (Store.setAddr 12 0 (p.itab i).din)
  have hX : .addr i 12 ∉ ∅ ∪ entries i (List.range nindirect) := by simp [entries]
  rw [← hl.loaded.view] at h0 hview ⊢
  have hfree := Owns.free ho hX (by rw [hl.live.use_addr]; exact toNat_ne_zero h0)
  rw [hl.live.use_addr] at hfree
  refine ⟨hfree.1, ?_⟩
  have hzero : (Store.setAddr 12 0 (p.view i)).addrs 12 = 0 := by simp [Store.setAddr]
  unfold Parts.Owned
  rw [Parts.use, hview]
  change Owns _ _ (Store.use sb.ninodes (Function.update p.view i (Store.setAddr 12 0 (p.view i))) p.data) _ ∅ ∅
  apply hfree.2.clear
  · intro a ha
    cases a with
    | addr j k =>
      by_cases hj : j = i
      · subst hj
        have hk : k ≠ 12 := fun hk => ha (Or.inl (by rw [hk]))
        simp [Parts.use, Store.use, Store.setAddr, hk]
      · simp [Parts.use, Store.use, hj]
    | entry j m =>
      have hj : j ≠ i := by
        rintro rfl
        exact ha (Or.inr (Or.inr ⟨m, mem_range.mpr m.isLt, by simp⟩))
      simp [Parts.use, Store.use, hj]
  · rintro a (rfl | ha | ⟨j, -, rfl⟩) -
    · simp [Store.use, hzero]
    · exact absurd ha (Set.notMem_empty a)
    · simp [Store.use, hzero]
  · exact Set.empty_subset _

theorem truncIndirect_spec (hg : Geometry sb) (ho : p.Owned sb ∅ ∅) (hl : p.Locked sb i) :
    Triple E (At sb p) (truncIndirect sb i)
      (fun _ s => ∃ p', (p'.Owned sb ∅ ∅ ∧ Cuts i p p' ∧ (p'.itab i).din.addrs 12 = 0) ∧ At sb p' s) := by
  apply incore_bind
  apply Triple.ite
  · intro h0
    obtain ⟨hlo, hhi⟩ : sb.datastart ≤ ((p.itab i).din.addrs 12).toNat ∧ ((p.itab i).din.addrs 12).toNat < sb.size := by
      have hr := ho.indirect (k := 12) (Set.notMem_empty _) hl.lt hl.live.2
      rw [hl.loaded.view] at hr
      exact hr h0
    apply bread_data hlo hhi
    refine .bind_exists (truncEntries_spec hg hl h0 _ (fun j hj => mem_range.mp hj)
      nodup_range (fun _ _ => Set.notMem_empty _) ho) ?_
    intro _ bit hbo
    have hbl : ({ p with bit := bit } : Parts).Locked sb i := ⟨hl.loaded, hl.lt, hl.typed⟩
    obtain ⟨hbit, hcut⟩ := hbo.cut_indirect hbl h0
    refine .bind (bfree_spec hg hhi hbit) (fun _ => ?_)
    apply (setIncore_spec i _).post
    intro _ s hs
    refine ⟨_, ⟨hcut, Cuts.setAddr p _ 12, ?_⟩, hs⟩
    simp [Parts.setDin, Parts.setItab, Store.setAddr]
  · intro h0
    apply Triple.pure
    intro s hs
    exact ⟨p, ⟨ho, Cuts.refl p, not_not.mp h0⟩, hs⟩

def Dinode.empty (d : Dinode) : Dinode := { d with size := 0, addrs := fun _ => 0 }

def Parts.update (p : Parts) (i : ℕ) (x : Dinode) : Parts := (p.setDin i x).writeBack i

theorem use_size {n : ℕ} {v : ℕ → Dinode} {data : ℕ → Block} {x : Dinode}
    (ht : x.type = (v i).type) (ha : x.addrs = (v i).addrs) :
    use n (Function.update v i x) data = use n v data := by
  funext a
  cases a with
  | addr j =>
    by_cases hj : j = i
    · subst hj
      simp [use, ht, ha]
    · simp [use, hj]
  | entry j =>
    by_cases hj : j = i
    · subst hj
      simp [use, ht, ha]
    · simp [use, hj]

theorem Parts.Loaded.view_writeBack (hl : p.Loaded i) : (p.writeBack i).view = p.view := by
  funext j
  by_cases hj : j = i
  · subst hj
    have hl' : (p.writeBack j).Loaded j := hl
    rw [hl.view, hl'.view]
    rfl
  · exact Parts.view_congr rfl (update_of_ne hj ..)

theorem Parts.Loaded.setDin (hl : p.Loaded i) (x : Dinode) : (p.setDin i x).Loaded i := by
  simpa [Parts.Loaded, Parts.setDin, Parts.setItab] using hl

theorem Parts.Owned.setDin {P : Set ℕ} (ho : p.Owned sb X P) (hl : p.Loaded i)
    {x : Dinode} (ht : x.type = (p.itab i).din.type) (ha : x.addrs = (p.itab i).din.addrs) :
    (p.setDin i x).Owned sb X P := by
  rw [← hl.view] at ht ha
  unfold Parts.Owned
  rw [Parts.use, hl.view_setDin]
  change Owns _ _ (Store.use _ (Function.update p.view i x) p.data) _ _ _
  rw [use_size ht ha]
  exact ho

theorem Parts.Owned.writeBack {P : Set ℕ} (ho : p.Owned sb X P) (hl : p.Loaded i) : (p.writeBack i).Owned sb X P := by
  unfold Parts.Owned
  rw [Parts.use, hl.view_writeBack]
  exact ho

theorem itrunc_spec (hg : Geometry sb) (ho : p.Owned sb ∅ ∅) (hl : p.Locked sb i) : Triple E (At sb p) (itrunc sb i)
      (fun _ s => ∃ bit, ({ p.update i (p.itab i).din.empty with bit := bit } : Parts).Owned sb ∅ ∅ ∧
          At sb { p.update i (p.itab i).din.empty with bit := bit } s) := by
  refine .bind (truncSlots_spec hg _ ?_ ho hl) (fun _ => ?_)
  · rintro k hk rfl
    simp [ndirect] at hk
  apply Triple.exists_pre
  rintro q ⟨hqo, hq, hqk⟩
  refine .bind_exists (truncIndirect_spec hg hqo (hq.locked hl)) ?_
  rintro _ r ⟨hro, hr, hr12⟩
  have hrl : r.Loaded i := (hr.locked (hq.locked hl)).loaded
  refine .bind (setIncore_spec i _) (fun _ => ?_)
  apply (iupdate_spec hg hl.lt).post
  intro _ s hs
  have hcut := hq.trans hr
  obtain ⟨a, ha, -⟩ := hcut.self
  have hzero : a = fun _ => 0 := by
    funext k
    have hk : a k = (r.itab i).din.addrs k := by rw [ha]
    rw [hk]
    by_cases h12 : k = 12
    · rw [h12]
      exact hr12
    apply hr.zero (hqk k ?_)
    simp only [mem_filter, mem_finRange, decide_eq_true_eq, true_and]
    have := k.isLt
    have hne : k.val ≠ 12 := fun h => h12 (Fin.ext h)
    change k.val < 12
    omega
  have heq : (r.setDin i { (r.itab i).din with size := 0 }).writeBack i =
      { p.update i (p.itab i).din.empty with bit := r.bit } := by
    simp only [Parts.update, Parts.setDin, Parts.setItab, Parts.writeBack, Dinode.empty, ha,
      hzero, hcut.disk, hcut.data, update_self]
    congr 1
    funext j
    by_cases hj : j = i
    · rw [hj, update_self, update_self]
    · rw [update_of_ne hj, update_of_ne hj, hcut.other j hj]
  have hown := (hro.setDin hrl (x := { (r.itab i).din with size := 0 }) rfl rfl).writeBack (hrl.setDin _)
  rw [heq] at hown hs
  exact ⟨r.bit, hown, hs⟩

end Xv6.Store
