import Xv6.DirLastUse
import Xv6.DirReach

/-! The only entry that can outlive the inode it names is ".." of a directory that was removed while
in use. -/
namespace Xv6.Dir
open Runs

variable {n : ℕ} {d d' : ℕ → Dinode} {pr pr' : List Proc} {p c : ℕ} {q : Proc} {call : Call}

theorem Tree.solid_iff (ht : Tree n d) : Solid d ↔ ∀ D, (d D).type = .dir → (d (d D).up).type ≠ .free := by
  constructor
  · intro hs D hD
    obtain ⟨p, rest, hp, hents⟩ := ht.formed D hD
    have hup : (d D).up = p := by simp [Dinode.up, slot, hents]
    rw [hup]
    exact hs D hD ⟨p, dotdot⟩ (by simp [hents]) hp
  intro h D hD e he h0
  obtain ⟨p, rest, hp, hents⟩ := ht.formed D hD
  have hup : (d D).up = p := by simp [Dinode.up, slot, hents]
  rw [hents, List.mem_cons, List.mem_cons] at he
  rcases he with rfl | rfl | he
  · rw [hD]
    decide
  · exact hup ▸ h D hD
  · apply ht.allocated (v := D)
    rw [mem_live, hents]
    exact ⟨he, h0⟩

/-- `d'` keeps the type and the ".." of every inode of `d` that it does not free. -/
def SameUp (d d' : ℕ → Dinode) : Prop :=
  ∀ i, (d i).type ≠ .free → (d' i).type ≠ .free → (d' i).type = (d i).type ∧ (d' i).up = (d i).up

theorem released_sameUp (w : ℕ → ℕ) (i : ℕ) : SameUp d (released d w i) := by
  intro j _ hj
  rw [(released_type hj).1]
  exact ⟨rfl, rfl⟩

theorem SameUp.trans {d'' : ℕ → Dinode} (h1 : SameUp d d')
    (hfree : ∀ i, (d'' i).type ≠ .free → (d' i).type ≠ .free) (h2 : SameUp d' d'') :
    SameUp d d'' := by
  intro i hi hi''
  obtain ⟨ht1, hu1⟩ := h1 i hi (hfree i hi'')
  obtain ⟨ht2, hu2⟩ := h2 i (hfree i hi'') hi''
  exact ⟨ht2.trans ht1, hu2.trans hu1⟩

theorem released_not_free {w : ℕ → ℕ} {i j : ℕ} (hj : (released d w i j).type ≠ .free) : (d j).type ≠ .free := by
  rwa [(released_type hj).1] at hj

theorem addLinks_sameUp (k : ℤ) (i : ℕ) : SameUp d (Function.update d i (addLinks k (d i))) := by
  intro j _ _
  refine ⟨addLinks_type k i j, ?_⟩
  by_cases hj : j = i
  · rw [hj, Function.update_self]
    rfl
  · rw [Function.update_of_ne hj]

variable {dp ip : ℕ} {path : List UInt8} {name : Name}

theorem Tree.linked_sameUp (ht : Tree n d) (hdir : (d dp).type = .dir) (name : Name)
    (ip : ℕ) : SameUp d (linked d dp name ip) := by
  intro j _ _
  refine ⟨(linked_type ip j).1, ?_⟩
  obtain ⟨p, l, hents, hl⟩ := ht.linked_ents hdir name ip
  rw [hl]
  by_cases hj : j = dp
  · rw [hj, Function.update_self, Dinode.up, Dinode.up, hents]
    rfl
  · rw [Function.update_of_ne hj]

theorem Removes.detached_sameUp (ht : Tree n d) {k : ℕ}
    (hr : Removes d pr p path dp name ip k) : SameUp d (detached d dp ip k) := by
  intro j _ _
  refine ⟨detached_type j, ?_⟩
  obtain ⟨p, l, hents, -, k', rfl, -⟩ := ht.look_some hr.dir hr.proper hr.found
  by_cases hj : j = dp
  · rw [hj, detached, Function.update_self, Dinode.up, Dinode.up, hents]
    rfl
  · rw [detached_of_ne hj]

theorem unlinked_sameUp (ht : Tree n d) {k : ℕ}
    (hr : Removes d pr p path dp name ip k) (w : ℕ → ℕ) : SameUp d (unlinked d w dp ip k) := by
  refine SameUp.trans ?_ (fun i => released_not_free) (released_sameUp w ip)
  refine SameUp.trans ?_ (fun i hi => ?_) (addLinks_sameUp (-1) ip)
  · exact (hr.detached_sameUp ht).trans (fun i => released_not_free) (released_sameUp w dp)
  · rwa [addLinks_type] at hi

theorem Tree.created_sameUp (ht : Tree n d)
    (hcr : Creates n d pr p path dp name ip) {type : IType} (htype : type ≠ .free)
    (hdp : (d dp).nlink < 32767) (major minor : ℤ) :
    SameUp d (created d dp name ip type major minor) := by
  intro j hj hj'
  have hne : j ≠ ip := by
    rintro rfl
    exact hj (freeInum_some hcr.inum).2.2
  have hseed : (seeded d dp ip type major minor j).type = (d j).type ∧
      (seeded d dp ip type major minor j).up = (d j).up := by
    unfold seeded
    by_cases hjd : j = dp
    · rw [hjd, Function.update_self]
      split_ifs
      · exact ⟨rfl, rfl⟩
      · exact ⟨rfl, rfl⟩
    · rw [Function.update_of_ne hjd, Function.update_of_ne hne]
      exact ⟨rfl, rfl⟩
  have hlinked := (ht.seed hcr htype hdp major minor).1.linked_sameUp (hcr.seeded_dir type major minor).1 name ip j
    (by rw [hseed.1]; exact hj) (by rw [← created_eq]; exact hj')
  rw [created_eq]
  exact ⟨hlinked.1.trans hseed.1, hlinked.2.trans hseed.2⟩

theorem exitTree_sameUp (d : ℕ → Dinode) (pr : List Proc) (p : ℕ) (fds : List ℕ) : SameUp d (exitTree d pr p fds).1 ∧
      ∀ i, ((exitTree d pr p fds).1 i).type ≠ .free → (d i).type ≠ .free := by
  induction fds generalizing d pr with
  | nil => exact ⟨fun _ _ _ => ⟨rfl, rfl⟩, fun _ h => h⟩
  | cons fd fds ih =>
    cases hf : fileAt pr p fd with
    | none =>
      simp only [exitTree, hf]
      exact ih d pr
    | some i =>
      simp only [exitTree, hf]
      obtain ⟨hup, hfree⟩ := ih (released d (uses (withoutFile pr p fd)) i) (withoutFile pr p fd)
      exact ⟨(released_sameUp _ i).trans hfree hup, fun j hj => released_not_free (hfree j hj)⟩

theorem Effect.sameUp (hc : Consistent n d (uses pr)) (hsmall : ∀ i, (d i).nlink < 32767)
    (he : Effect n d pr p call d' pr') : SameUp d d' := by
  cases he with
  | fails | opens => exact fun _ _ _ => ⟨rfl, rfl⟩
  | creates hcr h => exact hc.tree.created_sameUp h (creation_type hcr) (hsmall _) _ _
  | createsOpen hcr h => exact hc.tree.created_sameUp h (creation_type hcr) (hsmall _) _ _
  | @links _ _ _ _ dp ip name _ _ h =>
    have hadd := (hc.tree.addLink (hsmall ip) h.type.2).2
    have hdir : (Function.update d ip (addLinks 1 (d ip)) dp).type = .dir := by rw [addLinks_type, h.dir]
    refine (addLinks_sameUp 1 ip).trans (fun i hi => ?_) (hadd.linked_sameUp hdir name ip)
    rwa [(linked_type ip i).1] at hi
  | unlinks _ h => exact unlinked_sameUp hc.tree h _
  | chdirs | closes => exact released_sameUp _ _
  | @exits d1 pr1 hf =>
    obtain ⟨hup, -⟩ := exitTree_sameUp d pr p (List.range nofile)
    rw [hf] at hup
    exact hup.trans (fun i => released_not_free) (released_sameUp _ _)

theorem created_up {type : IType} {major minor : ℤ} (hcr : Creates n d pr p path dp name ip) (htype : type = .dir) :
    (created d dp name ip type major minor ip).up = dp := by
  rw [created_self hcr.apart, if_pos htype]
  rfl

theorem created_parent {D : ℕ} {type : IType}
    {major minor : ℤ} (hcr : Creates n d pr p path dp name ip) (hD : (d D).type = .free)
    (hD' : (created d dp name ip type major minor D).type = .dir) :
    (created d dp name ip type major minor (created d dp name ip type major minor D).up).type ≠ .free := by
  have hip : D = ip := by
    by_contra hne
    rw [created_type hcr, if_neg hne, hD] at hD'
    cases hD'
  rw [hip, created_type hcr, if_pos rfl] at hD'
  rw [hip, created_up hcr hD', created_type hcr, if_neg hcr.apart.symm, hcr.dir]
  decide

theorem Effect.new_parent (he : Effect n d pr p call d' pr') {D : ℕ} (hD : (d D).type = .free)
    (hD' : (d' D).type = .dir) : (d' (d' D).up).type ≠ .free := by
  have hold (h : (d' D).type ≠ .free → (d D).type ≠ .free) : (d' (d' D).up).type ≠ .free :=
    absurd hD (h (by rw [hD']; decide))
  cases he with
  | fails | opens => exact hold (fun h => h)
  | creates _ h => exact created_parent h hD hD'
  | createsOpen _ h => exact created_parent h hD hD'
  | links =>
    apply hold
    rw [(linked_type _ D).1, addLinks_type]
    exact fun h => h
  | unlinks =>
    apply hold
    intro h
    have h1 := released_not_free h
    rw [addLinks_type] at h1
    have h2 := released_not_free h1
    rwa [detached_type] at h2
  | chdirs | closes => exact hold released_not_free
  | @exits d1 pr1 hf =>
    apply hold
    intro h
    have h1 := (exitTree_sameUp d pr p (List.range nofile)).2 D
    rw [hf] at h1
    exact h1 (released_not_free h)

/-- A call leaves no entry dangling exactly if the directories whose ".." is given back are
given back with it. -/
theorem Effect.solid_iff (hc : Consistent n d (uses pr)) (hsmall : ∀ i, (d i).nlink < 32767)
    (ha : Alive pr p q c) (he : Effect n d pr p call d' pr') (hs : Solid d) :
    Solid d' ↔ ∀ i, lastUse d pr p call i → ∀ D, (d D).type = .dir → (d D).up = i → lastUse d pr p call D := by
  have hc' := hc.effect hsmall ha he
  have hup := hc.tree.solid_iff.mp hs
  rw [hc'.tree.solid_iff]
  constructor
  · rintro hs' i hi D hD rfl
    have hDf : (d D).type ≠ .free := by rw [hD]; decide
    have hfree := (he.free_iff hc hsmall ha (hup D hD)).mpr hi
    by_contra hDl
    have hDn : (d' D).type ≠ .free := fun h => hDl ((he.free_iff hc hsmall ha hDf).mp h)
    obtain ⟨htype, hsame⟩ := he.sameUp hc hsmall D hDf hDn
    apply hs' D (htype.trans hD)
    rw [hsame]
    exact hfree
  · intro h D hD'
    by_cases hD : (d D).type = .free
    · exact he.new_parent hD hD'
    have hDn : (d' D).type ≠ .free := by rw [hD']; decide
    obtain ⟨htype, hsame⟩ := he.sameUp hc hsmall D hD hDn
    have hdir : (d D).type = .dir := htype ▸ hD'
    rw [hsame]
    intro hfree
    have hi := (he.free_iff hc hsmall ha (hup D hdir)).mp hfree
    exact hDn ((he.free_iff hc hsmall ha hD).mpr (h _ hi D hdir rfl))

/-- The directories whose ".." names an inode that the call gives back go with it. -/
def KeepsParents (s : Fs) (e : Event) : Prop := ∀ i, lastUse s.inodes s.procs e.proc e.call i →
    ∀ D, (s.inodes D).type = .dir → (s.inodes D).up = i → lastUse s.inodes s.procs e.proc e.call D

/-- Along a run that keeps the parents of the directories in use no entry dangles; a call that does
not keep them leaves one dangling. -/
theorem no_dangling_of_keepsParents {image : ℕ → Dinode} {nproc : ℕ} {t : Fs}
    (himg : Image n image) (hsolid : Solid image)
    (h : Reach (step n) (fun s e => FewLinks s ∧ KeepsParents s e) (boot image nproc) t) :
    Solid t.inodes ∧ (∀ e, alive t.procs e.proc = true → syscall n e t ≠ .error .ilockNoType) ∧
      ∀ e u, FewLinks t → step n t e = some u → (Solid u.inodes ↔ KeepsParents t e) := by
  have hinv : Sound n t ∧ Solid t.inodes := by
    refine h.invariant (I := fun s => Sound n s ∧ Solid s.inodes) ⟨himg.sound nproc, hsolid⟩ ?_
    rintro s e u ⟨hs, hsol⟩ ⟨hfew, hkeep⟩ hstep
    obtain ⟨hu, q, c, ha, he⟩ := hs.step himg.size hfew hstep
    exact ⟨hu, (he.solid_iff hs.consistent hfew ha hsol).mpr hkeep⟩
  obtain ⟨hs, hsol⟩ := hinv
  refine ⟨hsol, fun e hl => ?_, fun e u hfew hstep => ?_⟩
  · exact syscall_no_type (hs.consistent.sane himg.size) hsol himg.size hs.idle hl
  · obtain ⟨-, q, c, ha, he⟩ := hs.step himg.size hfew hstep
    exact he.solid_iff hs.consistent hfew ha hsol

theorem rootImage_solid : Solid rootImage := by
  apply rootImage_image.tree.solid_iff.mpr
  intro D hD
  have hroot : D = rootIno := by
    by_contra hne
    rw [rootImage_of_ne hne] at hD
    cases hD
  rw [hroot]
  decide

theorem no_dangling_after_mkdir : (∃ t, step 10 (boot rootImage 1) ⟨0, .mkdir [97]⟩ = some t ∧ Solid t.inodes) ∧
      Image 10 rootImage ∧ Solid rootImage := by
  have hsome : (step 10 (boot rootImage 1) ⟨0, .mkdir [97]⟩).isSome = true := by decide
  obtain ⟨t, ht⟩ := Option.isSome_iff_exists.mp hsome
  have hkeep : KeepsParents (boot rootImage 1) ⟨0, .mkdir [97]⟩ := fun _ hi => hi.elim
  have hreach := Reach.next (C := fun s e => FewLinks s ∧ KeepsParents s e) .start ⟨rootImage_few, hkeep⟩ ht
  exact ⟨⟨t, ht, (no_dangling_of_keepsParents rootImage_image rootImage_solid hreach).1⟩,
    rootImage_image, rootImage_solid⟩

def removeParent : List Event := [⟨0, .mkdir [97]⟩, ⟨0, .mkdir [97, 47, 98]⟩, ⟨0, .chdir [97, 47, 98]⟩,
    ⟨0, .unlink [47, 97, 47, 98]⟩, ⟨0, .unlink [47, 97]⟩]

/-- The directory b is still in use and its ".." names a, which is free: chdir .. panics. -/
theorem removeParent_dangling : Image 10 rootImage ∧ Solid rootImage ∧
      (∀ s, Visits (step 10) (boot rootImage 1) removeParent s → FewLinks s) ∧
      ∃ t, run (step 10) (boot rootImage 1) removeParent = some t ∧ ¬Solid t.inodes ∧
        syscall 10 ⟨0, .chdir dotdot⟩ t = .error .ilockNoType := by
  refine ⟨rootImage_image, rootImage_solid, fun s hv => ?_, ?_⟩
  · exact (rootImage_image.sound 1).few_links (by decide) rootImage_nlink (by decide) hv
  have hrun : (run (step 10) (boot rootImage 1) removeParent).any (fun t =>
      decide ((t.inodes 3).type = .dir ∧ ⟨2, dotdot⟩ ∈ (t.inodes 3).ents ∧ (t.inodes 2).type = .free) &&
      match syscall 10 ⟨0, .chdir dotdot⟩ t with
      | .error x => decide (x = .ilockNoType)
      | .ok _ => false) = true := by decide +kernel
  cases hres : run (step 10) (boot rootImage 1) removeParent with
  | none =>
    rw [hres] at hrun
    cases hrun
  | some t =>
    rw [hres, Option.any_some, Bool.and_eq_true, decide_eq_true_eq] at hrun
    obtain ⟨⟨hdir, hmem, hfree⟩, hpanic⟩ := hrun
    refine ⟨t, rfl, fun hsol => hsol 3 hdir _ hmem (by decide) hfree, ?_⟩
    cases hc : syscall 10 ⟨0, .chdir dotdot⟩ t with
    | error =>
      rw [hc] at hpanic
      rw [of_decide_eq_true hpanic]
    | ok =>
      rw [hc] at hpanic
      cases hpanic

end Xv6.Dir
