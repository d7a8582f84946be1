import Xv6.DirCount
import Xv6.DirUnlink

/-! Link counts along every run: they match the tree until a name is put into a directory that
has been removed. -/
namespace Xv6.Dir
open Multigraph Runs

variable {n : ℕ} {d d' : ℕ → Dinode} {pr pr' : List Proc} {p : ℕ} {call : Call} {s t : Fs}

/-- The link counts are the numbers of entries, what has links has a path from the root, and
what has neither links nor references is free. -/
structure Accounted (n : ℕ) (s : Fs) : Prop where
  counted : ∀ i, (s.inodes i).type ≠ .free → (s.inodes i).nlink = linkCount n s.inodes i
  reachable : ∀ i, 0 < (s.inodes i).nlink → ∃ es, walk s.inodes false rootIno es = some (i, [])
  freed : ∀ i, (s.inodes i).nlink = 0 → uses s.procs i = 0 → (s.inodes i).type = .free

structure NamesDiffer (n : ℕ) (d : ℕ → Dinode) : Prop where
  once : ∀ i, (d i).type = .dir → names n d i ≤ 1
  unique : ∀ i, ∀ e ∈ (d i).live, ∀ e' ∈ (d i).live, e.name = e'.name → e = e'

/-- The call puts no name into a directory without links. -/
def EntersLinked (s : Fs) (e : Event) : Prop := ∀ dp, enters s.inodes s.procs e.proc e.call dp → (s.inodes dp).nlink ≠ 0

theorem Exact.accounted (h : Exact n s.inodes) (hs : Sound n s) : Accounted n s where
  counted := fun i hi => by rw [linkCount_eq_links h.tree h.once h.empty h.reach (h.tree.inum_ne hi), h.exact]
  reachable := fun i hi => h.tree.walk_of_linked h.unique (h.reach i (by omega))
  freed := fun i h0 hu => by
    by_contra hf
    have := hs.consistent.anchored i hf h0
    omega

theorem Image.exact {image : ℕ → Dinode} {nproc : ℕ} (himg : Image n image)
    (hnames : NamesDiffer n image) (hacc : Accounted n (boot image nproc)) : Exact n image := by
  have hfree {i : ℕ} (h0 : (image i).nlink = 0) : (image i).type = .free := by
    by_contra hf
    exact himg.linked i hf h0
  have hreach : ∀ i, (image i).nlink ≠ 0 → Linked image i := by
    intro i hi
    have hpos : 0 < (image i).nlink := by
      have := himg.tree.nlink_nonneg i
      omega
    obtain ⟨es, hes⟩ := hacc.reachable i hpos
    exact himg.tree.linked_of_walk .root hes
  have hempty : ∀ i, (image i).nlink = 0 → (image i).live = 0 := by
    intro i h0
    exact live_of_nil (himg.tree.plain i (by rw [hfree h0]; decide))
  refine ⟨himg.tree, fun i => ?_, hnames.once, hempty, hnames.unique, hreach⟩
  by_cases hf : (image i).type = .free
  · have hcov := himg.tree.covered i
    have h0 := himg.tree.free i hf
    omega
  · have hi := himg.tree.inum_ne hf
    rw [← linkCount_eq_links himg.tree hnames.once hempty hreach hi]
    exact (hacc.counted i hf).symm

variable {dp ip : ℕ} {name : Name}

theorem created_unreachable (ht : Tree n d) {path : List UInt8}
    (hcr : Creates n d pr p path dp name ip) {type : IType} {major minor : ℤ} (htype : type ≠ .free)
    (h0 : (d dp).nlink = 0) : ¬Linked (created d dp name ip type major minor) ip := by
  obtain ⟨hip, -, hfree⟩ := freeInum_some hcr.inum
  have hlive := ht.created_live hcr htype (by omega) major minor
  have hold {v : ℕ} {e : Dirent} (he : e ∈ (created d dp name ip type major minor v).live) :
      (v = dp ∧ e = ⟨ip, name⟩) ∨ e ∈ (d v).live := by
    rw [hlive] at he
    split_ifs at he with hv
    · exact (Multiset.mem_cons.mp he).imp (fun h => ⟨hv, h⟩) (fun h => hv ▸ h)
    · exact Or.inr he
  have hdp : ¬Linked (created d dp name ip type major minor) dp := by
    intro hl
    rcases hl.inv with hroot | ⟨v, -, e, he, hi⟩
    · exact (ht.links_eq_zero h0).2.2 hroot
    · rcases hold he with ⟨-, rfl⟩ | he
      · exact hcr.apart hi
      · exact ht.not_named h0 he hi
  intro hl
  rcases hl.inv with hroot | ⟨v, hv, e, he, hi⟩
  · rw [hroot, ht.root] at hfree
    cases hfree
  · rcases hold he with ⟨rfl, -⟩ | he
    · exact hdp hv
    · exact ht.not_named (ht.free ip hfree) he hi

theorem linked_linkCount {old new : List UInt8} (hl : Links d pr p old new dp name ip) (h0 : (d dp).nlink = 0) (i : ℕ) :
    linkCount n (linked (Function.update d ip (addLinks 1 (d ip))) dp name ip) i = linkCount n d i := by
  apply Finset.sum_congr rfl
  intro v _
  rw [(linked_type ip v).1, (linked_type ip v).2, addLinks_type]
  by_cases hv : v = ip
  · rw [hv, if_neg (fun h => hl.type.1 h.1), if_neg (fun h => hl.type.1 h.1)]
  rw [Function.update_of_ne hv]
  by_cases hdp : v = dp
  · have hnp : ¬((d v).type = .dir ∧ 0 < (d v).nlink) := by
      rw [hdp, h0]
      exact fun h => absurd h.2 (lt_irrefl 0)
    rw [if_neg hnp, if_neg hnp]
  · rw [linked, Function.update_of_ne hdp, Function.update_of_ne hv]

theorem Creates.enters_eq {path : List UInt8} {type : IType} {major minor : ℤ} {dp' : ℕ}
    (hc : creation call = some (path, type, major, minor))
    (hcr : Creates n d pr p path dp name ip) (hin : enters d pr p call dp') : dp' = dp := by
  rcases hin with ⟨_, _, _, _, _, _, rfl, -⟩ | ⟨path', _, _, _, name', hc', hw, -⟩
  · cases hc
  · rw [hc, Option.some.injEq, Prod.mk.injEq] at hc'
    rw [← hc'.1, hcr.parent, Option.some.injEq, Prod.mk.injEq] at hw
    exact hw.1.symm

theorem Links.enters_eq {old new ostr nstr : List UInt8} {dp' : ℕ}
    (hn : argstr new = some nstr) (hl : Links d pr p ostr nstr dp name ip)
    (hin : enters d pr p (.link old new) dp') :
    dp' = dp := by
  rcases hin with ⟨_, _, _, nstr', _, _, hcall, -, hn', hl'⟩ | ⟨_, _, _, _, _, hc, -⟩
  · obtain ⟨rfl, rfl⟩ := Call.link.inj hcall
    obtain rfl : nstr = nstr' := Option.some.inj (hn.symm.trans hn')
    have hw := hl'.parent
    rw [hl.parent, Option.some.injEq, Prod.mk.injEq] at hw
    exact hw.1.symm
  · cases hc

theorem Accounted.entersLinked {e : Event} (hs : Sound n s) (hacc : Accounted n s) (ht : Sound n t)
    (hfew : FewLinks s) (he : Effect n s.inodes s.procs e.proc e.call t.inodes t.procs)
    (hacc' : Accounted n t) : EntersLinked s e := by
  have htree := hs.consistent.tree
  have hcreated {path : List UInt8} {type : IType} {major minor : ℤ} {dp ip : ℕ} {name : Name}
      (hc : creation e.call = some (path, type, major, minor))
      (hcr : Creates n s.inodes s.procs e.proc path dp name ip)
      (heq : t.inodes = created s.inodes dp name ip type major minor) : EntersLinked s e := by
    intro dp' hin h0
    rw [hcr.enters_eq hc hin] at h0
    obtain ⟨es, hes⟩ := hacc'.reachable ip (by
      rw [heq, created_self hcr.apart]
      exact zero_lt_one)
    have hlinked := ht.consistent.tree.linked_of_walk .root hes
    rw [heq] at hlinked
    exact created_unreachable htree hcr (creation_type hc) h0 hlinked
  obtain ⟨q, call⟩ := e
  generalize hd : t.inodes = d' at he hcreated
  generalize hp : t.procs = pr' at he
  cases he with
  | fails h => exact fun dp hin => absurd hin (h.enter dp)
  | opens h => exact fun dp hin => absurd hin (h.enter dp)
  | creates hc hcr => exact hcreated hc hcr rfl
  | createsOpen hc hcr => exact hcreated hc hcr rfl
  | @links _ _ _ _ dp ip name _ hn hl =>
    intro dp' hin h0
    rw [hl.enters_eq hn hin] at h0
    have hold := hacc.counted ip hl.type.2
    have hnew := hacc'.counted ip (by
      rw [hd, (linked_type ip ip).1, addLinks_type]
      exact hl.type.2)
    rw [hd, linked_linkCount hl h0, (linked_type ip ip).2, htree.addLink_nlink (hfew ip), if_pos rfl] at hnew
    omega
  | unlinks | chdirs | closes | exits =>
    rintro dp (⟨_, _, _, _, _, _, hc, -⟩ | ⟨_, _, _, _, _, hc, -⟩) <;> cases hc

/-- The link counts match the tree along a run that puts names only into directories with links; a
call that does not, spoils that. -/
theorem accounted_of_entersLinked {image : ℕ → Dinode} {nproc : ℕ} (himg : Image n image)
    (hnames : NamesDiffer n image) (hacc : Accounted n (boot image nproc))
    (h : Reach (step n) (fun s e => FewLinks s ∧ EntersLinked s e) (boot image nproc) t) :
    Accounted n t ∧ ∀ e u, FewLinks t → step n t e = some u → (Accounted n u ↔ EntersLinked t e) := by
  have hinv : Sound n t ∧ Exact n t.inodes := by
    refine h.invariant (I := fun s => Sound n s ∧ Exact n s.inodes) ⟨himg.sound nproc, himg.exact hnames hacc⟩ ?_
    rintro s e u ⟨hs, hex⟩ ⟨hfew, henter⟩ hstep
    obtain ⟨hu, q, c, ha, he⟩ := hs.step himg.size hfew hstep
    exact ⟨hu, hex.effect hfew he henter⟩
  obtain ⟨hs, hex⟩ := hinv
  refine ⟨hex.accounted hs, fun e u hfew hstep => ?_⟩
  obtain ⟨hu, q, c, ha, he⟩ := hs.step himg.size hfew hstep
  constructor
  · exact fun hu' => (hex.accounted hs).entersLinked hs hu hfew he hu'
  · exact fun henter => (hex.effect hfew he henter).accounted hu

theorem rootImage_exact : Exact 10 rootImage where
  tree := rootImage_image.tree
  exact := fun i => by
    rw [rootImage_links]
    unfold rootImage
    split_ifs <;> rfl
  once := fun i _ => by
    have hzero : names 10 rootImage i = 0 := by
      have := rootImage_links (n := 10) i
      unfold links at this
      split_ifs at this <;> omega
    omega
  empty := fun i _ => rootImage_live i
  unique := fun i e he => by
    rw [rootImage_live] at he
    exact absurd he (Multiset.notMem_zero e)
  reach := fun i hi => by
    have hroot : i = rootIno := by
      by_contra hne
      rw [rootImage_of_ne hne] at hi
      exact hi rfl
    exact hroot ▸ .root

theorem rootImage_accounted : Accounted 10 (boot rootImage 1) := rootImage_exact.accounted (rootImage_image.sound 1)

theorem rootImage_entersLinked : EntersLinked (boot rootImage 1) ⟨0, .mkdir [97]⟩ := by
  rintro dp (⟨_, _, _, _, _, _, hc, -⟩ | ⟨path, type, major, minor, name, hc, hw, -⟩)
  · cases hc
  obtain rfl : [97] = path := (Prod.mk.inj (Option.some.inj hc)).1
  have hroot : walkPath rootImage (boot rootImage 1).procs 0 true [97] = some (rootIno, [97]) := by decide
  obtain rfl : rootIno = dp := (Prod.mk.inj (Option.some.inj (hroot.symm.trans hw))).1
  decide

theorem accounted_after_mkdir : (∃ t, step 10 (boot rootImage 1) ⟨0, .mkdir [97]⟩ = some t ∧ Accounted 10 t) ∧
      Image 10 rootImage ∧ NamesDiffer 10 rootImage ∧ Accounted 10 (boot rootImage 1) := by
  have hnames : NamesDiffer 10 rootImage := ⟨rootImage_exact.once, rootImage_exact.unique⟩
  have hsome : (step 10 (boot rootImage 1) ⟨0, .mkdir [97]⟩).isSome = true := by decide
  obtain ⟨t, ht⟩ := Option.isSome_iff_exists.mp hsome
  have hreach := Reach.next (C := fun s e => FewLinks s ∧ EntersLinked s e) .start
    ⟨rootImage_few, rootImage_entersLinked⟩ ht
  exact ⟨⟨t, ht, (accounted_of_entersLinked rootImage_image hnames rootImage_accounted hreach).1⟩,
    rootImage_image, hnames, rootImage_accounted⟩

def createInRemoved : List Event := [⟨0, .mkdir [97]⟩, ⟨0, .chdir [97]⟩, ⟨0, .unlink [46, 46, 47, 97]⟩,
    ⟨0, .openFile [120] 0x202⟩, ⟨0, .exit⟩]

/-- The file x keeps a link that no entry stands for, and is never freed. -/
theorem createInRemoved_orphan : Image 10 rootImage ∧ NamesDiffer 10 rootImage ∧ Accounted 10 (boot rootImage 1) ∧
      (∀ s, Visits (step 10) (boot rootImage 1) createInRemoved s → FewLinks s) ∧
      ∃ t, run (step 10) (boot rootImage 1) createInRemoved = some t ∧ ¬Accounted 10 t ∧
        (t.inodes 3).type = .file ∧ (t.inodes 3).nlink = 1 ∧ linkCount 10 t.inodes 3 = 0 ∧
        uses t.procs 3 = 0 := by
  refine ⟨rootImage_image, ⟨rootImage_exact.once, rootImage_exact.unique⟩, rootImage_accounted, fun s hv => ?_, ?_⟩
  · exact (rootImage_image.sound 1).few_links (by decide) rootImage_nlink (by decide) hv
  have hrun : (run (step 10) (boot rootImage 1) createInRemoved).any (fun t =>
      decide ((t.inodes 3).type = .file ∧ (t.inodes 3).nlink = 1 ∧ linkCount 10 t.inodes 3 = 0 ∧
        uses t.procs 3 = 0)) = true := by decide +kernel
  cases hres : run (step 10) (boot rootImage 1) createInRemoved with
  | none =>
    rw [hres] at hrun
    cases hrun
  | some t =>
    rw [hres, Option.any_some, decide_eq_true_eq] at hrun
    refine ⟨t, rfl, fun hacc => ?_, hrun⟩
    obtain ⟨htype, hnlink, hcount, -⟩ := hrun
    have h := hacc.counted 3 (by rw [htype]; decide)
    rw [hnlink, hcount] at h
    cases h

end Xv6.Dir
