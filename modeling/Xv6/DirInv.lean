import Xv6.DirTreeStep

/-! The tree and the references of the processes stay consistent in every run. -/
namespace Xv6.Dir

open Function (update_self update_of_ne)

/-- The tree with the references to its inodes: an inode in use is allocated, and one that is
allocated has links or is in use. -/
structure Consistent (n : ℕ) (d : ℕ → Dinode) (u : ℕ → ℕ) : Prop where
  tree : Tree n d
  anchored : Anchored d u
  held : ∀ i, 0 < u i → (d i).type ≠ .free

variable {n : ℕ} {d : ℕ → Dinode} {u w : ℕ → ℕ}

theorem Consistent.sane (hc : Consistent n d u) (hn : n ≤ 65536) : Sane d u where
  anchored := hc.anchored
  sized := fun i => ⟨hc.tree.nlink_nonneg i, hc.tree.small i⟩
  held := hc.held
  number := fun i hi => by
    have := hc.tree.range i hi
    omega
  root := hc.tree.root
  apart := fun dp name ip k hdir hd hdd hl heq => by
    have hlive := hc.tree.look_live hdir ⟨hd, hdd⟩ hl
    exact (hc.tree.child dp _ hlive (heq ▸ hdir)).2 heq

theorem released_nlink (i j : ℕ) : (released d w i j).nlink = (d j).nlink := by
  unfold released
  split_ifs
  · by_cases hj : j = i
    · rw [hj, update_self]
      rfl
    · rw [update_of_ne hj]
  · rfl

variable {i : ℕ}

theorem released_type {j : ℕ} (h : (released d w i j).type ≠ .free) :
    released d w i j = d j ∧ (j = i → (d i).nlink = 0 → 0 < w i) := by
  unfold released at h ⊢
  split_ifs at h ⊢ with hf
  · have hj : j ≠ i := by
      rintro rfl
      rw [update_self] at h
      exact h rfl
    exact ⟨update_of_ne hj .., fun hji => absurd hji hj⟩
  · exact ⟨rfl, fun _ h0 => Nat.pos_of_ne_zero (fun hw => hf ⟨h0, hw⟩)⟩

theorem Consistent.release (ht : Tree n d) (ha : ∀ j, j ≠ i → (d j).type ≠ .free → (d j).nlink = 0 → 0 < w j)
    (hh : ∀ j, 0 < w j → (d j).type ≠ .free) : Consistent n (released d w i) w where
  tree := ht.release w i
  anchored := by
    intro j hj h0
    obtain ⟨heq, hself⟩ := released_type hj
    rw [heq] at hj h0
    by_cases hji : j = i
    · exact hji ▸ hself hji (hji ▸ h0)
    · exact ha j hji hj h0
  held := by
    intro j hj
    unfold released
    split_ifs with hf
    · have hji : j ≠ i := by
        rintro rfl
        omega
      rw [update_of_ne hji]
      exact hh j hj
    · exact hh j hj

theorem Consistent.drop (hc : Consistent n d u) (hu : u = w+one i) : Consistent n (released d w i) w := by
  apply Consistent.release hc.tree
  · intro j hj hf h0
    have := hc.anchored j hf h0
    rwa [hu, add_one_of_ne _ hj] at this
  intro j hj
  apply hc.held j
  rw [hu, Pi.add_apply]
  omega

theorem Consistent.take (hc : Consistent n d u) (hi : (d i).type ≠ .free) : Consistent n d (u+one i) where
  tree := hc.tree
  anchored := fun j hj h0 => by
    have := hc.anchored j hj h0
    rw [Pi.add_apply]
    omega
  held := fun j hj => by
    by_cases hji : j = i
    · exact hji ▸ hi
    · rw [add_one_of_ne _ hji] at hj
      exact hc.held j hj

theorem Consistent.grow {d' : ℕ → Dinode} (hc : Consistent n d u) (ht : Tree n d')
    (htype : ∀ j, (d j).type ≠ .free → (d' j).type ≠ .free)
    (hlink : ∀ j, (d' j).type ≠ .free → (d' j).nlink = 0 →
      (d j).type ≠ .free ∧ (d j).nlink = 0) : Consistent n d' u where
  tree := ht
  anchored := fun j hj h0 => hc.anchored j (hlink j hj h0).1 (hlink j hj h0).2
  held := fun j hj => htype j (hc.held j hj)

section
variable {pr : List Proc} {p dp ip k : ℕ} {path : List UInt8} {name : Name} {type : IType}
  {major minor : ℤ}

theorem Tree.created_nlink (ht : Tree n d) (hcr : Creates n d pr p path dp name ip)
    (hdp : (d dp).nlink < 32767) (type : IType) (major minor : ℤ) (j : ℕ) :
    (created d dp name ip type major minor j).nlink = if j = ip then 1
      else (d j).nlink+if j = dp ∧ type = .dir then 1 else 0 := by
  have h0 := ht.nlink_nonneg dp
  by_cases hji : j = ip
  · rw [hji, created_self hcr.apart, if_pos rfl]
  rw [if_neg hji]
  by_cases hjd : j = dp
  · subst hjd
    simp only [created, update_self, true_and]
    split_ifs
    · exact short_of_range (by omega)
    · rw [add_zero]
  · simp only [created, update_of_ne hjd, update_of_ne hji, hjd, false_and, if_false, add_zero]

theorem created_type (hcr : Creates n d pr p path dp name ip) (j : ℕ) :
    (created d dp name ip type major minor j).type = if j = ip then type else (d j).type := by
  by_cases hji : j = ip
  · rw [hji, created_self hcr.apart, if_pos rfl]
  rw [if_neg hji, created]
  by_cases hjd : j = dp
  · rw [hjd, update_self]
  · rw [update_of_ne hjd, update_of_ne hji]

theorem Consistent.create (hc : Consistent n d u) (hcr : Creates n d pr p path dp name ip)
    (htype : type ≠ .free) (hdp : (d dp).nlink < 32767) :
    Consistent n (created d dp name ip type major minor) u := by
  apply hc.grow (hc.tree.create hcr htype hdp major minor)
  · intro j hj
    rw [created_type hcr]
    split_ifs
    · exact htype
    · exact hj
  intro j hj h0
  rw [hc.tree.created_nlink hcr hdp] at h0
  rw [created_type hcr] at hj
  have hnn := hc.tree.nlink_nonneg j
  by_cases hji : j = ip
  · rw [if_pos hji] at h0
    omega
  · rw [if_neg hji] at h0 hj
    refine ⟨hj, ?_⟩
    split_ifs at h0 <;> omega

theorem linked_type (i j : ℕ) : (linked d dp name i j).type = (d j).type ∧
    (linked d dp name i j).nlink = (d j).nlink := by
  unfold linked
  by_cases hj : j = dp
  · rw [hj, update_self]
    exact ⟨rfl, rfl⟩
  · rw [update_of_ne hj]
    exact ⟨rfl, rfl⟩

theorem addLinks_type (k : ℤ) (i j : ℕ) : (Function.update d i (addLinks k (d i)) j).type = (d j).type := by
  by_cases hj : j = i
  · rw [hj, update_self]
    rfl
  · rw [update_of_ne hj]

theorem Tree.addLink_nlink (ht : Tree n d) (hi : (d i).nlink < 32767) (j : ℕ) :
    (Function.update d i (addLinks 1 (d i)) j).nlink = (d j).nlink+if j = i then 1 else 0 := by
  have h0 := ht.nlink_nonneg i
  by_cases hj : j = i
  · rw [hj, update_self, if_pos rfl]
    exact short_of_range (by omega)
  · rw [update_of_ne hj, if_neg hj, add_zero]

theorem Consistent.link {old new : List UInt8} (hc : Consistent n d u)
    (hl : Links d pr p old new dp name ip) (hip : (d ip).nlink < 32767) :
    Consistent n (linked (Function.update d ip (addLinks 1 (d ip))) dp name ip) u := by
  apply hc.grow (hc.tree.link hl hip)
  · intro j hj
    rw [(linked_type ip j).1, addLinks_type]
    exact hj
  intro j hj h0
  rw [(linked_type ip j).1, addLinks_type] at hj
  rw [(linked_type ip j).2, hc.tree.addLink_nlink hip] at h0
  have hnn := hc.tree.nlink_nonneg j
  refine ⟨hj, ?_⟩
  split_ifs at h0 <;> omega

theorem Tree.unlinked_nlink (ht : Tree n d) (hr : Removes d pr p path dp name ip k) (j : ℕ) :
    (unlinked d w dp ip k j).nlink = (d j).nlink-(if j = ip then 1 else 0)-
      if j = dp ∧ (d ip).type = .dir then 1 else 0 := by
  have hne := hr.ne ht
  have hself : released (detached d dp ip k) w dp ip = d ip := by rw [released_of_ne hne, detached_of_ne hne]
  rw [unlinked, released_nlink]
  by_cases hji : j = ip
  · subst hji
    have h1 := ht.small j
    have h2 := hr.nlink
    rw [update_self, hself, if_pos rfl, if_neg (fun h => hne h.1), sub_zero]
    exact short_of_range (by omega)
  rw [update_of_ne hji, released_nlink, if_neg hji, sub_zero]
  by_cases hjd : j = dp
  · rw [hjd, (ht.detach hr).2.2]
    simp only [true_and]
  · rw [detached_of_ne hjd, if_neg (fun h => hjd h.1), sub_zero]

theorem detached_type (j : ℕ) : (detached d dp ip k j).type = (d j).type := by
  by_cases hj : j = dp
  · rw [hj, detached, update_self]
  · rw [detached_of_ne hj]

theorem Consistent.unlink (hc : Consistent n d u) (hr : Removes d pr p path dp name ip k) :
    Consistent n (unlinked d u dp ip k) u := by
  have hne := hr.ne hc.tree
  obtain ⟨htd, -, -⟩ := hc.tree.detach hr
  have hfirst : Consistent n (released (detached d dp ip k) u dp) u := by
    apply Consistent.release htd
    · intro j hj
      rw [detached_of_ne hj]
      exact hc.anchored j
    · intro j hj
      rw [detached_type]
      exact hc.held j hj
  apply Consistent.release (hc.tree.unlink hr u)
  · intro j hj
    rw [update_of_ne hj]
    exact hfirst.anchored j
  · intro j hj
    rw [addLinks_type]
    exact hfirst.held j hj

end

variable {pr pr' : List Proc} {p c : ℕ} {q : Proc} {d' : ℕ → Dinode} {call : Call}

theorem creation_type {path : List UInt8} {type : IType} {major minor : ℤ}
    (hc : creation call = some (path, type, major, minor)) : type ≠ .free := by
  have hmap {o : Option (List UInt8)} {t : IType} {a b : ℤ} (ht : t ≠ .free)
      (ho : o.map (fun str => (str, t, a, b)) = some (path, type, major, minor)) : type ≠ .free := by
    obtain ⟨str, -, heq⟩ := Option.map_eq_some_iff.mp ho
    simp only [Prod.mk.injEq] at heq
    exact heq.2.1 ▸ ht
  cases call with
  | openFile =>
    simp only [creation] at hc
    split_ifs at hc
    exact hmap (by decide) hc
  | mkdir | mknod => exact hmap (by decide) hc
  | link | unlink | chdir | close | exit => cases hc

theorem uses_chdir (ha : Alive pr p q c) (ip : ℕ) : uses pr+one ip = uses (withCwd pr p (some ip))+one c := by
  funext j
  have h := uses_withCwd ha.proc ha.cwd (some ip) j
  rw [Pi.add_apply, Pi.add_apply, h, one_apply]
  rfl

theorem Consistent.exitTree (fds : List ℕ) (ha : Alive pr p q c) (hc : Consistent n d (uses pr)) :
    Consistent n (exitTree d pr p fds).1 (uses (exitTree d pr p fds).2) ∧
      ∃ q', Alive (Dir.exitTree d pr p fds).2 p q' c := by
  induction fds generalizing d pr q with
  | nil => exact ⟨hc, q, ha⟩
  | cons fd fds ih =>
    cases hf : fileAt pr p fd with
    | none =>
      simp only [Dir.exitTree, hf]
      exact ih ha hc
    | some =>
      simp only [Dir.exitTree, hf]
      exact ih (ha.withoutFile fd) (hc.drop (uses_withoutFile ha.proc (fileAt_some ha hf)))

theorem exitTree_nlink (d : ℕ → Dinode) (pr : List Proc) (p : ℕ) (fds : List ℕ) (i : ℕ) :
    ((exitTree d pr p fds).1 i).nlink = (d i).nlink := by
  induction fds generalizing d pr with
  | nil => rfl
  | cons fd fds ih =>
    cases hf : fileAt pr p fd with
    | none =>
      simp only [exitTree, hf]
      exact ih d pr
    | some =>
      simp only [exitTree, hf]
      rw [ih, released_nlink]

/-- Every completed call keeps the tree and the references consistent. -/
theorem Consistent.effect (hc : Consistent n d (uses pr)) (hsmall : ∀ i, (d i).nlink < 32767)
    (ha : Alive pr p q c) (he : Effect n d pr p call d' pr') : Consistent n d' (uses pr') := by
  cases he with
  | fails => exact hc
  | opens _ hp hi hfd =>
    rw [uses_withFile hp hfd]
    exact hc.take hi
  | creates hcr h => exact hc.create h (creation_type hcr) (hsmall _)
  | createsOpen hcr h hp hfd =>
    rw [uses_withFile hp hfd]
    apply (hc.create h (creation_type hcr) (hsmall _)).take
    rw [created_self h.apart]
    exact creation_type hcr
  | links ho hn h => exact hc.link h (hsmall _)
  | unlinks ha h => exact hc.unlink h
  | chdirs harg hw hd =>
    rw [ha.cwdOf]
    exact (hc.take (by rw [hd]; decide)).drop (uses_chdir ha _)
  | closes hf => exact hc.drop (uses_withoutFile ha.proc (fileAt_some ha hf))
  | exits hf =>
    obtain ⟨hcx, q', ha'⟩ := Consistent.exitTree (List.range nofile) ha hc
    rw [hf] at hcx ha'
    rw [ha'.cwdOf]
    exact hcx.drop (funext ha'.uses_eq)

end Xv6.Dir
