import Xv6.StoreInv

/-! The functions on inodes keep the invariant: iget, ilock, ialloc, itrunc and iput. -/
namespace Xv6.Store
open Function (update_of_ne)
open Hoare Ownership

variable {sb : Superblock} {p p' p'' : Parts} {E : Panic → Prop} {i : ℕ}

variable {j : ℕ}

theorem Parts.Locked.congr (hl : p.Locked sb j) (h : p'.itab j = p.itab j) : p'.Locked sb j := by
  refine ⟨?_, hl.lt, ?_⟩
  · unfold Parts.Loaded
    rw [h]
    exact hl.loaded
  · rw [h]
    exact hl.typed

theorem Incore.get_ref (e : Incore) : e.get.ref = e.ref+1 := by
  unfold Incore.get
  split_ifs with h
  · rfl
  · dsimp only
    omega

theorem Incore.get_of_pos {e : Incore} (h : 0 < e.ref) : e.get = { e with ref := e.ref+1 } := if_pos h

theorem Parts.get_self (p : Parts) (i : ℕ) : (p.get i).itab i = (p.itab i).get := Function.update_self ..

theorem Parts.get_other (p : Parts) (hj : j ≠ i) : (p.get i).itab j = p.itab j := update_of_ne hj ..

theorem Parts.Sound.get (h : p.Sound sb) (hi : i < sb.ninodes) : (p.get i).Sound sb := by
  apply h.setItab (fun _ => hi)
  intro _ hv
  by_cases hr : 0 < (p.itab i).ref
  · rw [Incore.get_of_pos hr] at hv ⊢
    have hl : p.Loaded i := ⟨hr, hv⟩
    have hlocked := h.locked hl
    exact ⟨hl.view.symm.trans (h.clean i), hlocked.typed⟩
  · rw [Incore.get, if_neg hr] at hv
    cases hv

theorem Parts.Locked.get (hl : p.Locked sb j) (i : ℕ) : (p.get i).Locked sb j := by
  by_cases hj : j = i
  · subst hj
    have hself := p.get_self j
    rw [Incore.get_of_pos hl.loaded.1] at hself
    refine ⟨?_, hl.lt, ?_⟩
    · unfold Parts.Loaded
      rw [hself]
      exact ⟨Nat.succ_pos _, hl.loaded.2⟩
    · rw [hself]
      exact hl.typed
  · exact hl.congr (p.get_other hj)

theorem idup_spec (hr : 0 < (p.itab i).ref) : Triple E (At sb p) (idup i) (fun _ => At sb (p.get i)) := by
  rw [Parts.get, Incore.get_of_pos hr]
  exact setItab_spec i _

theorem loadInode_spec (hE : Calm E) (h : p.Sound sb) (hr : 0 < (p.itab i).ref) : Triple E (At sb p) (loadInode sb i)
      (fun _ s => ∃ p', (p'.Sound sb ∧ p'.Locked sb i ∧ (∀ j, j ≠ i → p'.itab j = p.itab j) ∧
        (p'.itab i).ref = (p.itab i).ref ∧ p'.disk = p.disk) ∧ At sb p' s) := by
  have hi := h.ranged i hr
  apply bread_inode hi
  intro blk hblk
  rw [hblk]
  refine .bind (setItab_spec i _) (fun _ => ?_)
  refine .ite_throw (hE _ (by decide)) (fun ht => ?_)
  apply Triple.pure
  intro s hs
  have hself : (p.setItab i { p.itab i with valid := true, din := p.disk i }).itab i =
      { p.itab i with valid := true, din := p.disk i } := Function.update_self ..
  have hsound := h.setItab (i := i) (e := { p.itab i with valid := true, din := p.disk i })
    (fun _ => hi) (fun _ _ => ⟨rfl, ht⟩)
  refine ⟨_, ⟨hsound, hsound.locked ?_, fun j hj => update_of_ne hj .., ?_, rfl⟩, hs⟩
  · unfold Parts.Loaded
    rw [hself]
    exact ⟨hr, rfl⟩
  · rw [hself]

theorem ilock_spec (hE : Calm E) (h : p.Sound sb) (i : ℕ) : Triple E (At sb p) (ilock sb i)
      (fun _ s => ∃ p', (p'.Sound sb ∧ p'.Locked sb i ∧ Keeps sb p p' ∧ p'.disk = p.disk) ∧ At sb p' s) := by
  apply Triple.get
  intro s hs
  rw [hs.itab]
  refine .ite_throw (hE _ (by decide)) (fun hr => ?_)
  have hpos : 0 < (p.itab i).ref := by omega
  apply Triple.ite
  · intro hv
    apply Triple.pure
    rintro t rfl
    exact ⟨p, ⟨h, h.locked ⟨hpos, hv⟩, Keeps.refl p, rfl⟩, hs⟩
  intro _
  refine Triple.conseq (loadInode_spec hE h hpos) (fun t ht => ht ▸ hs) ?_
  rintro _ t ⟨q, ⟨hq, hql, hother, href, hdisk⟩, ht⟩
  refine ⟨q, ⟨hq, hql, ⟨fun j => ?_, fun j hj => ?_⟩, hdisk⟩, ht⟩
  · by_cases hji : j = i
    · rw [hji, href]
    · rw [hother j hji]
  · by_cases hji : j = i
    · exact hji ▸ hql
    · exact hj.congr (hother j hji)

theorem iunlock_spec (hE : Calm E) (i : ℕ) : Triple E (At sb p) (iunlock i) (fun _ => At sb p) := by
  apply Triple.get
  intro s hs
  refine .ite_throw (hE _ (by decide)) (fun _ => ?_)
  apply Triple.pure
  rintro t rfl
  exact hs

theorem update_spec (hg : Geometry sb) (h : p.Sound sb) (hl : p.Locked sb i) {f : Dinode → Dinode}
    (ht : ∀ d, (f d).type = d.type) (hs : ∀ d, (f d).size = d.size)
    (ha : ∀ d, (f d).addrs = d.addrs) :
    Triple E (At sb p) (do setIncore i f; iupdate sb i)
      (fun _ s => ∃ p', (p'.Sound sb ∧ Keeps sb p p') ∧ At sb p' s) := by
  refine .bind (setIncore_spec i f) (fun _ => ?_)
  apply (iupdate_spec hg hl.lt).post
  intro _ s hat
  have htype : (f (p.itab i).din).type ≠ 0 := by
    rw [ht]
    exact hl.typed
  have hown : (p.update i (f (p.itab i).din)).Owned sb ∅ ∅ :=
    (h.owned.setDin hl.loaded (ht _) (ha _)).writeBack (hl.loaded.setDin _)
  refine ⟨p.update i (f (p.itab i).din), ⟨(h.others (i := i)).update hl htype hown ?_, Keeps.update htype⟩, hat⟩
  have hview : (p.update i (f (p.itab i).din)).view i = f (p.view i) := by
    rw [hl.loaded.view_update, Function.update_self, hl.loaded.view]
  apply (h.file hl).congr
  · rw [hview, ht]
  · rw [hview, hs]
  · intro bn _
    rw [Parts.block, hview]
    simp only [blockAt, ha]
    rfl
  · exact fun _ _ => rfl

theorem Parts.Sound.truncate (h : p.Sound sb) (hl : p.Locked sb i) {bit : ℕ → Bool}
    (ho : ({ p.update i (p.itab i).din.empty with bit := bit } : Parts).Owned sb ∅ ∅) :
    ({ p.update i (p.itab i).din.empty with bit := bit } : Parts).Sound sb := by
  have hview : (p.update i (p.itab i).din.empty).view i = (p.itab i).din.empty := by
    rw [hl.loaded.view_update, Function.update_self]
  apply Parts.Others.sound (i := i) h.others
  · exact fun j hj => p.update_other _ hj
  · exact fun j hj => update_of_ne hj ..
  · rfl
  · exact ho
  · exact fun _ => hl.lt
  · exact fun _ hz => hl.typed ((congrArg Dinode.type hview).symm.trans hz)
  · exact hview.trans (p.update_disk i _).symm
  · exact fun _ => Parts.File.of_size_zero (congrArg Dinode.size hview)

theorem Keeps.truncate (hl : p.Locked sb i) (bit : ℕ → Bool) :
    Keeps sb p { p.update i (p.itab i).din.empty with bit := bit } := by
  have h : Keeps sb p (p.update i (p.itab i).din.empty) := Keeps.update hl.typed
  exact ⟨h.ref, fun j hj => (h.locked j hj).congr rfl⟩

theorem itrunc_sound (hg : Geometry sb) (h : p.Sound sb) (hl : p.Locked sb i) : Triple E (At sb p) (itrunc sb i)
      (fun _ s => ∃ p', (p'.Sound sb ∧ Keeps sb p p') ∧ At sb p' s) := by
  apply (itrunc_spec hg h.owned hl).post
  rintro _ s ⟨bit, ho, hs⟩
  exact ⟨_, ⟨h.truncate hl ho, Keeps.truncate hl bit⟩, hs⟩

theorem use_blank {n : ℕ} {v : ℕ → Dinode} {data : ℕ → Block} {x : Dinode}
    (hv : (v i).type = 0 ∨ ∀ k, (v i).addrs k = 0) (hx : x.type = 0 ∨ ∀ k, x.addrs k = 0) :
    use n (Function.update v i x) data = use n v data := by
  have hzero {d : Dinode} (hd : d.type = 0 ∨ ∀ k, d.addrs k = 0) (w : ℕ → Dinode) (hw : w i = d) :
      (∀ k, use n w data (.addr i k) = 0) ∧ ∀ j, use n w data (.entry i j) = 0 := by
    rcases hd with hd | hd
    · simp [use, hw, hd]
    · simp [use, hw, hd]
  have hold := hzero hv v rfl
  have hnew := hzero hx (Function.update v i x) (Function.update_self ..)
  funext a
  cases a with
  | addr j =>
    by_cases hj : j = i
    · rw [hj, hold.1, hnew.1]
    · simp [use, hj]
  | entry j =>
    by_cases hj : j = i
    · rw [hj, hold.2, hnew.2]
    · simp [use, hj]

theorem freeInum_some {blocks : ℕ → Block} (h : freeInum sb blocks = some i) :
    i < sb.ninodes ∧ (getDinode (blocks (sb.iblock i)) i).type = 0 := by
  have hmem := List.mem_range'_1.mp (List.mem_of_find?_eq_some h)
  have hfree := List.find?_some h
  exact ⟨by omega, by simpa using hfree⟩

theorem Parts.Sound.not_loaded (h : p.Sound sb) (ht : (p.disk i).type = 0) : ¬ p.Loaded i := by
  intro hl
  apply h.typed i hl
  rw [h.clean, ht]

theorem Parts.Sound.alloc (h : p.Sound sb) (hi : i < sb.ninodes) (hfree : (p.disk i).type = 0) (type : Int16) :
    ({ p with disk := Function.update p.disk i (dinodeZero type) } : Parts).Sound sb := by
  have hnl := h.not_loaded hfree
  have hview : ({ p with disk := Function.update p.disk i (dinodeZero type) } : Parts).view =
      Function.update p.view i (dinodeZero type) := by
    funext j
    by_cases hj : j = i
    · subst hj
      rw [Function.update_self]
      exact (if_neg hnl).trans (Function.update_self ..)
    · rw [update_of_ne hj]
      exact Parts.view_congr rfl (update_of_ne hj ..)
  apply Parts.Others.sound (i := i) h.others
  · exact fun _ _ => rfl
  · exact fun j hj => update_of_ne hj ..
  · rfl
  · have ho := h.owned
    unfold Parts.Owned at ho ⊢
    rw [Parts.use, hview, use_blank (Or.inl (by rw [h.clean, hfree])) (Or.inr (fun _ => rfl))]
    exact ho
  · exact fun _ => hi
  · exact fun hl => absurd hl hnl
  · rw [hview, Function.update_self]
    symm
    exact Function.update_self ..
  · exact fun _ => Parts.File.of_size_zero (by rw [hview, Function.update_self]; rfl)

theorem ialloc_spec (hE : Calm E) (hg : Geometry sb) (h : p.Sound sb) (type : Int16) :
    Triple E (At sb p) (ialloc sb type)
      (fun i s => ∃ p', (p'.Sound sb ∧ i < sb.ninodes ∧ ∀ j, p.Locked sb j → p'.Locked sb j) ∧ At sb p' s) := by
  apply Triple.get
  intro s hs
  cases hf : freeInum sb s.blocks with
  | none =>
    apply Triple.throw
    exact fun _ _ => hE _ (by decide)
  | some i =>
    obtain ⟨hi, hfree⟩ := freeInum_some hf
    rw [hs.disk i hi] at hfree
    have hwrite : Triple E (fun t => t = s)
        (logWrite (sb.iblock i) (putDinode (s.blocks (sb.iblock i)) i (dinodeZero type)))
        (fun _ => At sb { p with disk := Function.update p.disk i (dinodeZero type) }) := by
      apply Triple.modify
      rintro t rfl
      exact hs.inode hg hi _
    refine .bind hwrite (fun _ => ?_)
    refine .bind (iget_spec hE i) (fun _ => ?_)
    apply Triple.pure
    intro t ht
    refine ⟨_, ⟨(h.alloc hi hfree type).get hi, hi, fun j hj => ?_⟩, ht⟩
    have hsame : Parts.Locked sb { p with disk := Function.update p.disk i (dinodeZero type) } j := hj.congr rfl
    exact hsame.get i

structure Puts (i : ℕ) (p p' : Parts) : Prop where
  other : ∀ j, j ≠ i → p'.itab j = p.itab j
  ref : (p'.itab i).ref = (p.itab i).ref-1
  shared : 1 < (p.itab i).ref → p'.itab i = { p.itab i with ref := (p.itab i).ref-1 }

def Parts.forget (p : Parts) (i : ℕ) : Parts := (p.update i { (p.itab i).din with type := 0 }).setItab i
    { p.itab i with valid := false, din := { (p.itab i).din with type := 0 } }

theorem Parts.forget_self (p : Parts) (i : ℕ) : (p.forget i).itab i =
    { p.itab i with valid := false, din := { (p.itab i).din with type := 0 } } :=
  Function.update_self ..

theorem Parts.forget_other (p : Parts) (hj : j ≠ i) : (p.forget i).itab j = p.itab j :=
  (update_of_ne hj ..).trans (p.update_other _ hj)

theorem Parts.setItab_forget (p : Parts) (i : ℕ) : (p.update i { (p.itab i).din with type := 0 }).setItab i
      { (p.update i { (p.itab i).din with type := 0 }).itab i with valid := false } =
        p.forget i := by
  rw [p.update_self]
  rfl

theorem Parts.Sound.forget (h : p.Sound sb) (hl : p.Locked sb i)
    (ha : ∀ k, (p.itab i).din.addrs k = 0) : (p.forget i).Sound sb := by
  have hnl : ¬ (p.forget i).Loaded i := by
    unfold Parts.Loaded
    rw [p.forget_self]
    exact fun hv => Bool.false_ne_true hv.2
  have hself : (p.forget i).view i = { (p.itab i).din with type := 0 } := (if_neg hnl).trans (p.update_disk i _)
  have hview : (p.forget i).view = Function.update p.view i { (p.itab i).din with type := 0 } := by
    funext j
    by_cases hj : j = i
    · rw [hj, Function.update_self, hself]
    · rw [update_of_ne hj]
      exact Parts.view_congr (p.forget_other hj) (update_of_ne hj ..)
  apply Parts.Others.sound (i := i) h.others
  · exact fun j hj => p.forget_other hj
  · exact fun j hj => update_of_ne hj ..
  · rfl
  · have ho := h.owned
    unfold Parts.Owned at ho ⊢
    rw [Parts.use, hview, use_blank (Or.inr (by rw [hl.loaded.view]; exact ha)) (Or.inl rfl)]
    exact ho
  · exact fun _ => hl.lt
  · exact fun hl' => absurd hl' hnl
  · exact if_neg hnl
  · exact fun hlive => absurd (by rw [hself]) hlive.2

theorem freeUnlinked_spec (hg : Geometry sb) (h : p.Sound sb) (i : ℕ) : Triple E (At sb p) (freeUnlinked sb i)
      (fun _ s => ∃ p', (p'.Sound sb ∧ (∀ j, j ≠ i → p'.itab j = p.itab j) ∧
        (p'.itab i).ref = (p.itab i).ref ∧ (1 < (p.itab i).ref → p'.itab i = p.itab i)) ∧ At sb p' s) := by
  apply Triple.get
  intro s hs
  rw [hs.itab]
  apply Triple.ite
  · rintro ⟨hr, hv, -⟩
    have hl := h.locked (i := i) ⟨by omega, hv⟩
    refine .bind_exists ((itrunc_spec hg h.owned hl).pre (fun t ht => ht ▸ hs)) ?_
    intro _ bit ho
    refine .bind (setIncore_spec i _) (fun _ => ?_)
    refine .bind (iupdate_spec hg hl.lt) (fun _ => ?_)
    apply (setItab_spec i _).post
    intro _ t ht
    have hq := h.truncate hl ho
    have hql := (Keeps.truncate hl bit).locked i hl
    have hself := p.update_self i (p.itab i).din.empty
    rw [← Parts.update, Parts.setItab_forget] at ht
    refine ⟨_, ⟨hq.forget hql (fun k => by rw [hself]; rfl), fun j hj => ?_, ?_, fun h1 => by omega⟩, ht⟩
    · exact (Parts.forget_other _ hj).trans (p.update_other _ hj)
    · rw [Parts.forget_self]
      dsimp only
      rw [hself]
  · intro _
    apply Triple.pure
    rintro t rfl
    exact ⟨p, ⟨h, fun _ _ => rfl, rfl, fun _ => rfl⟩, hs⟩

theorem iput_spec (hg : Geometry sb) (h : p.Sound sb) (i : ℕ) : Triple E (At sb p) (iput sb i)
      (fun _ s => ∃ p', (p'.Sound sb ∧ Puts i p p') ∧ At sb p' s) := by
  refine .bind_exists (freeUnlinked_spec hg h i) ?_
  rintro _ q ⟨hq, hother, href, hshared⟩
  refine .bind (R := fun _ => At sb q) ?_ (fun _ => ?_)
  · apply Triple.modify
    exact fun s hs => ⟨hs.disk, hs.itab, hs.bit, hs.data, hs.allocs⟩
  apply (setItab_spec i _).post
  intro _ s hs
  have hself : (q.setItab i { q.itab i with ref := (q.itab i).ref-1 }).itab i =
      { q.itab i with ref := (q.itab i).ref-1 } := Function.update_self ..
  refine ⟨_, ⟨hq.setItab (fun hr => hq.ranged i ?_) (fun hr hv => ?_), fun j hj => ?_, ?_, fun h1 => ?_⟩, hs⟩
  · dsimp only at hr
    omega
  · dsimp only at hr
    have hl := hq.locked (i := i) ⟨by omega, hv⟩
    exact ⟨hl.loaded.view.symm.trans (hq.clean i), hl.typed⟩
  · exact (update_of_ne hj ..).trans (hother j hj)
  · rw [hself, href]
  · rw [hself, hshared h1]

theorem iunlockput_spec (hE : Calm E) (hg : Geometry sb) (h : p.Sound sb) (i : ℕ) : Triple E (At sb p) (iunlockput sb i)
      (fun _ s => ∃ p', (p'.Sound sb ∧ Puts i p p') ∧ At sb p' s) :=
  Triple.bind (iunlock_spec hE i) (fun _ => iput_spec hg h i)

theorem Puts.locked (h : Puts i p p') (hl : p.Locked sb j) (hj : j = i → 1 < (p.itab i).ref) : p'.Locked sb j := by
  by_cases hji : j = i
  · have hr := hj hji
    subst hji
    have hself := h.shared hr
    refine ⟨?_, hl.lt, ?_⟩
    · unfold Parts.Loaded
      rw [hself]
      exact ⟨Nat.sub_pos_of_lt hr, hl.loaded.2⟩
    · rw [hself]
      exact hl.typed
  · exact hl.congr (h.other j hji)

theorem Puts.keeps (h : Puts i (p.get i) p') : Keeps sb p p' := by
  refine ⟨fun j => ?_, fun j hj => ?_⟩
  · by_cases hji : j = i
    · rw [hji, h.ref, p.get_self, Incore.get_ref, Nat.add_sub_cancel]
    · rw [h.other j hji, p.get_other hji]
  apply h.locked (hj.get i)
  rintro rfl
  rw [p.get_self, Incore.get_ref]
  exact Nat.succ_lt_succ hj.loaded.1

end Xv6.Store
