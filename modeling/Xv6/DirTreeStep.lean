import Xv6.DirTree

/-! The changes of the tree that the system calls are made of keep it a tree. -/
namespace Xv6.Dir
open Function (update_self update_of_ne update_eq_self)
open Multigraph Multiset

variable {n : ℕ} {d : ℕ → Dinode}

variable {i : ℕ} {x : Dinode} {old new : List UInt8}

theorem subdirs_replace (hun : ∀ v, ∀ e ∈ (d v).live, e.inum ≠ i) (hx : x.live = 0) (j : ℕ) :
    subdirs (Function.update d i x) j = if j = i then 0 else subdirs d j := by
  unfold subdirs
  split_ifs with hj
  · rw [hj, update_self, hx, countP_zero]
  rw [update_of_ne hj]
  apply countP_congr rfl
  intro e he
  rw [update_of_ne (hun j e he)]

theorem Tree.links_replace (ht : Tree n d) (h0 : (d i).nlink = 0) (hi : i < n) (hx : x.live = 0) (j : ℕ) :
    links n (Function.update d i x) j+(d i).live.countP (fun e => e.inum = j) = links n d j := by
  have hsub := subdirs_replace (d := d) (i := i) (fun v e he => ht.not_named h0 he) hx j
  have hzero := (ht.links_eq_zero h0).2.1
  have hnames := indegree_update (fun v => (d v).live) Dirent.inum hi x.live j
  rw [← live_update, hx, countP_zero] at hnames
  have heq : (if j = i then 0 else subdirs d j) = subdirs d j := by
    split_ifs with hj
    · rw [hj, hzero]
    · rfl
  simp only [links, names, hsub, heq] at hnames ⊢
  omega

structure Fresh (n i : ℕ) (x : Dinode) : Prop where
  live : x.live = 0
  range : x.type ≠ .free → 0 < i ∧ i < n
  free : x.type = .free → x.nlink = 0
  plain : x.type ≠ .dir → x.ents = []
  formed : x.type = .dir → ∃ p rest, p ≠ 0 ∧ x.ents = ⟨i, dot⟩ :: ⟨p, dotdot⟩ :: rest
  nlink : 0 ≤ x.nlink ∧ x.nlink < 32768

theorem Tree.replace (ht : Tree n d) (h0 : (d i).nlink = 0) (hi : i < n)
    (hx : Fresh n i x) : Tree n (Function.update d i x) := by
  have hroot : i ≠ rootIno := (ht.links_eq_zero h0).2.2
  have hun (v : ℕ) (e : Dirent) (he : e ∈ (d v).live) : e.inum ≠ i := ht.not_named h0 he
  have hcases {P : ℕ → Dinode → Prop} (hi : P i x) (hd : ∀ j, P j (d j)) (j : ℕ) : P j (Function.update d i x j) := by
    by_cases hj : j = i
    · rw [hj, update_self]
      exact hi
    · rw [update_of_ne hj]
      exact hd j
  exact {
    root := by rw [update_of_ne hroot.symm, ht.root]
    rootUp := by rw [update_of_ne hroot.symm, ht.rootUp]
    range := hcases (P := fun j y => y.type ≠ .free → 0 < j ∧ j < n) hx.range ht.range
    free := hcases (P := fun _ y => y.type = .free → y.nlink = 0) hx.free ht.free
    plain := hcases (P := fun _ y => y.type ≠ .dir → y.ents = []) hx.plain ht.plain
    formed := hcases (P := fun j y => y.type = .dir →
      ∃ p rest, p ≠ 0 ∧ y.ents = ⟨j, dot⟩ :: ⟨p, dotdot⟩ :: rest) hx.formed ht.formed
    proper := hcases (P := fun _ y => ∀ e ∈ y.live, e.name ≠ dot ∧ e.name ≠ dotdot) (fun e he => by
        rw [hx.live] at he
        exact absurd he (notMem_zero e)) ht.proper
    child := fun j => by
      by_cases hj : j = i
      · intro e he
        rw [hj, update_self, hx.live] at he
        exact absurd he (notMem_zero e)
      intro e he
      rw [update_of_ne hj] at he
      rw [update_of_ne (hun j e he)]
      exact ht.child j e he
    covered := fun j => by
      have hl := ht.links_replace h0 hi hx.live j
      have hj := ht.covered j
      by_cases hji : j = i
      · subst hji
        rw [update_self]
        have := hx.nlink.1
        omega
      · rw [update_of_ne hji]
        omega
    small := hcases (P := fun _ y => y.nlink < 32768) hx.nlink.2 ht.small }

theorem freed_fresh (h0 : (d i).nlink = 0) : Fresh n i (freed (d i)) where
  live := live_of_nil rfl
  range := fun h => absurd rfl h
  free := fun _ => h0
  plain := fun _ => rfl
  formed := fun h => by cases h
  nlink := by
    change 0 ≤ (d i).nlink ∧ (d i).nlink < 32768
    omega

theorem Tree.release (ht : Tree n d) (w : ℕ → ℕ) (i : ℕ) : Tree n (released d w i) := by
  unfold released
  split_ifs with h
  · by_cases hf : (d i).type = .free
    · have hsame : freed (d i) = d i := by
        have hents := ht.plain i (by rw [hf]; decide)
        unfold freed
        rw [← hf, ← hents]
      rw [hsame, update_eq_self]
      exact ht
    · exact ht.replace h.1 (ht.range i hf).2 (freed_fresh h.1)
  · exact ht

theorem Tree.links_release (ht : Tree n d) (w : ℕ → ℕ) (i j : ℕ) : links n (released d w i) j ≤ links n d j ∧
      ((d i).live = 0 → links n (released d w i) j = links n d j) := by
  unfold released
  split_ifs with h
  · by_cases hi : i < n
    · have := ht.links_replace h.1 hi (live_of_nil (x := freed (d i)) rfl) j
      refine ⟨by omega, fun h0 => ?_⟩
      rw [h0, countP_zero] at this
      omega
    have hf : (d i).type = .free := by
      by_contra hne
      exact hi (ht.range i hne).2
    have hents := ht.plain i (by rw [hf]; decide)
    rw [links_update_same (x := freed (d i)) hf.symm hents.symm]
    exact ⟨le_refl _, fun _ => rfl⟩
  · exact ⟨le_refl _, fun _ => rfl⟩

def cleared (d : ℕ → Dinode) (dp k : ℕ) : ℕ → Dinode :=
  Function.update d dp { d dp with ents := (d dp).ents.set k ⟨0, []⟩ }

theorem filter_set_used {l : List Dirent} {k : ℕ} {e : Dirent} (hk : l[k]? = some e) (he : e.inum ≠ 0) :
    (l.filter (fun e => decide (e.inum ≠ 0)) : Multiset Dirent) =
      e ::ₘ ↑((l.set k ⟨0, []⟩).filter (fun e => decide (e.inum ≠ 0))) := by
  obtain ⟨hlt, hget⟩ := List.getElem?_eq_some_iff.mp hk
  have h := filter_set_unused (l := l.set k ⟨0, []⟩) (k := k) (a := ⟨0, []⟩) (List.getElem?_set_self hlt) rfl he
  rw [List.set_set, ← hget, List.set_getElem_self, hget] at h
  exact h

section
variable {dp ip k : ℕ} {name : Name}

section
variable (ht : Tree n d) (hdir : (d dp).type = .dir) (hname : name ≠ dot ∧ name ≠ dotdot)
  (hl : look d dp name = some (ip, k))
include ht hdir hname hl

theorem Tree.cleared_live : (d dp).live = ⟨ip, name⟩ ::ₘ (cleared d dp k dp).live := by
  obtain ⟨p, l, hents, hip, j, rfl, hj⟩ := ht.look_some hdir hname hl
  rw [cleared, update_self, live_dots hents, hents]
  simp only [List.set_cons_succ]
  rw [live_dots rfl]
  exact filter_set_used hj hip

theorem Tree.links_cleared (j : ℕ) : links n d j = links n (cleared d dp k) j+(if ip = j then 1 else 0)+
      if j = dp ∧ (d ip).type = .dir then 1 else 0 := by
  have hlive := ht.cleared_live hdir hname hl
  have hdp := (ht.range dp (by rw [hdir]; decide)).2
  have hback : Function.update (cleared d dp k) dp (d dp) = d := by rw [cleared, Function.update_idem, update_eq_self]
  have htype (v : ℕ) : (cleared d dp k v).type = (d v).type := by
    unfold cleared
    by_cases hv : v = dp
    · rw [hv, update_self]
    · rw [update_of_ne hv]
  have h := links_cons (d := cleared d dp k) (x := d dp) hdp (htype dp).symm hlive j
  rw [hback, htype] at h
  exact h

theorem Tree.clear : Tree n (cleared d dp k) := by
  obtain ⟨p, l, hents, hip, j, rfl, hj⟩ := ht.look_some hdir hname hl
  have hlive := ht.cleared_live hdir hname hl
  have hlinks := ht.links_cleared hdir hname hl
  have hmem (e : Dirent) (he : e ∈ (cleared d dp (j+2) dp).live) : e ∈ (d dp).live := by
    rw [hlive]
    exact mem_cons_of_mem he
  rw [cleared, update_self] at hmem
  unfold cleared at hlinks ⊢
  apply ht.setRest hdir hents (m := l.set j ⟨0, []⟩)
  · rw [hents]
    simp only [List.set_cons_succ]
  · exact fun e he => ht.proper dp e (hmem e he)
  · exact fun e he => ht.child dp e (hmem e he)
  intro i
  have := ht.covered i
  have := hlinks i
  omega

end

theorem Tree.dropLink (ht : Tree n d) (hi : (links n d i+1 : ℤ) ≤ (d i).nlink) :
    addLinks (-1) (d i) = { d i with nlink := (d i).nlink-1 } ∧ Tree n (Function.update d i (addLinks (-1) (d i))) := by
  have hs := ht.small i
  have heq : addLinks (-1) (d i) = { d i with nlink := (d i).nlink-1 } := by
    unfold addLinks
    rw [short_of_range (by omega)]
    rfl
  refine ⟨heq, ?_⟩
  rw [heq]
  apply ht.setLinks (by omega) (by omega)
  intro hf
  have := ht.free i hf
  omega

theorem Tree.addLink (ht : Tree n d) (hi : (d i).nlink < 32767) (hf : (d i).type ≠ .free) :
    addLinks 1 (d i) = { d i with nlink := (d i).nlink+1 } ∧ Tree n (Function.update d i (addLinks 1 (d i))) := by
  have h0 := ht.nlink_nonneg i
  have hcov := ht.covered i
  have heq : addLinks 1 (d i) = { d i with nlink := (d i).nlink+1 } := by
    unfold addLinks
    rw [short_of_range (by omega)]
  refine ⟨heq, ?_⟩
  rw [heq]
  exact ht.setLinks (by omega) (by omega) (fun h => absurd h hf)

variable {pr : List Proc} {p : ℕ} {path : List UInt8}

theorem Removes.dir (hr : Removes d pr p path dp name ip k) : (d dp).type = .dir := walk_parent_dir hr.parent

theorem Removes.live (ht : Tree n d) (hr : Removes d pr p path dp name ip k) : ⟨ip, name⟩ ∈ (d dp).live :=
  ht.look_live hr.dir hr.proper hr.found

theorem Removes.ne (ht : Tree n d) (hr : Removes d pr p path dp name ip k) : ip ≠ dp := by
  intro heq
  have hdir : (d ip).type = .dir := heq ▸ hr.dir
  exact (ht.child dp _ (hr.live ht) hdir).2 heq

theorem detached_eq (d : ℕ → Dinode) (dp ip k : ℕ) : detached d dp ip k = if (d ip).type = .dir
      then Function.update (cleared d dp k) dp (addLinks (-1) (cleared d dp k dp))
      else cleared d dp k := by
  unfold detached cleared addLinks
  split_ifs <;> simp [sub_eq_add_neg]

theorem detached_of_ne {j : ℕ} (hj : j ≠ dp) : detached d dp ip k j = d j := update_of_ne hj ..

theorem Tree.detach (ht : Tree n d) (hr : Removes d pr p path dp name ip k) : Tree n (detached d dp ip k) ∧
      links n (detached d dp ip k) = links n (cleared d dp k) ∧
      (detached d dp ip k dp).nlink = (d dp).nlink-if (d ip).type = .dir then 1 else 0 := by
  have htc := ht.clear hr.dir hr.proper hr.found
  have hself : (cleared d dp k dp).nlink = (d dp).nlink := by rw [cleared, update_self]
  rw [detached_eq]
  split_ifs with hdir
  · have hl := ht.links_cleared hr.dir hr.proper hr.found dp
    have hcov := ht.covered dp
    rw [if_neg (hr.ne ht), if_pos ⟨rfl, hdir⟩] at hl
    obtain ⟨heq, htree⟩ := htc.dropLink (i := dp) (by omega)
    refine ⟨htree, links_update_same rfl rfl, ?_⟩
    rw [update_self, heq, ← hself]
  · exact ⟨htc, rfl, by rw [hself, sub_zero]⟩

theorem Tree.unlink (ht : Tree n d) (hr : Removes d pr p path dp name ip k) (w : ℕ → ℕ) :
    Tree n (Function.update (released (detached d dp ip k) w dp) ip
      (addLinks (-1) (released (detached d dp ip k) w dp ip))) := by
  obtain ⟨htd, hlinks, -⟩ := ht.detach hr
  have hne := hr.ne ht
  refine ((htd.release w dp).dropLink ?_).2
  have hl := ht.links_cleared hr.dir hr.proper hr.found ip
  have hle := (htd.links_release w dp ip).1
  rw [hlinks] at hle
  rw [if_pos rfl] at hl
  have hcov := ht.covered ip
  have hsame : released (detached d dp ip k) w dp ip = d ip := by rw [released_of_ne hne, detached_of_ne hne]
  rw [hsame]
  omega

def newInode (dp ip : ℕ) (type : IType) (major minor : ℤ) : Dinode :=
  ⟨type, major, minor, 1, if type = .dir then [⟨ip, dot⟩, ⟨dp, dotdot⟩] else []⟩

def seeded (d : ℕ → Dinode) (dp ip : ℕ) (type : IType) (major minor : ℤ) : ℕ → Dinode :=
  Function.update (Function.update d ip (newInode dp ip type major minor)) dp
    (if type = .dir then addLinks 1 (d dp) else d dp)

theorem created_eq (type : IType) (major minor : ℤ) :
    created d dp name ip type major minor = linked (seeded d dp ip type major minor) dp name ip := by
  unfold created linked seeded addLinks newInode
  rw [update_self, Function.update_idem]
  split_ifs <;> rfl

theorem newInode_fresh (hip : 0 < ip ∧ ip < n) (hdp : dp ≠ 0) {type : IType} (ht : type ≠ .free)
    (major minor : ℤ) : Fresh n ip (newInode dp ip type major minor) where
  live := by by_cases h : type = .dir <;> simp [newInode, Dinode.live, h]
  range := fun _ => hip
  free := fun h => absurd h ht
  plain := fun h => if_neg h
  formed := fun h => ⟨dp, [], hdp, if_pos h⟩
  nlink := ⟨zero_le_one, by norm_num [newInode]⟩

variable {ninodes : ℕ} {type : IType} {major minor : ℤ}

theorem Creates.dir (hc : Creates ninodes d pr p path dp name ip) : (d dp).type = .dir := walk_parent_dir hc.parent

theorem Creates.seeded_dir (hc : Creates ninodes d pr p path dp name ip) (type : IType) (major minor : ℤ) :
    (seeded d dp ip type major minor dp).type = .dir ∧ (seeded d dp ip type major minor dp).ents = (d dp).ents ∧
      seeded d dp ip type major minor ip = newInode dp ip type major minor := by
  have hdir := hc.dir
  rw [seeded, update_self, update_of_ne hc.apart, update_self]
  split_ifs
  · exact ⟨hdir, rfl, rfl⟩
  · exact ⟨hdir, rfl, rfl⟩

section
variable (ht : Tree n d) (hc : Creates n d pr p path dp name ip) (htype : type ≠ .free) (hdp : (d dp).nlink < 32767)
include ht hc htype hdp

theorem Tree.seed (major minor : ℤ) :
    Tree n (seeded d dp ip type major minor) ∧ links n (seeded d dp ip type major minor) = links n d ∧
      (seeded d dp ip type major minor dp).nlink = (d dp).nlink+if type = .dir then 1 else 0 := by
  obtain ⟨h0, hlt, hfree⟩ := freeInum_some hc.inum
  have hdir := hc.dir
  have hdf : (d dp).type ≠ .free := by rw [hdir]; decide
  have hfresh := newInode_fresh ⟨h0, hlt⟩ (ht.inum_ne hdf) htype major minor
  have hn0 := ht.free ip hfree
  have hplain := live_of_nil (ht.plain ip (by rw [hfree]; decide))
  have htree := ht.replace hn0 hlt hfresh
  have hlinks : links n (Function.update d ip (newInode dp ip type major minor)) = links n d := by
    funext j
    have h := ht.links_replace hn0 hlt hfresh.live j
    rw [hplain, countP_zero, add_zero] at h
    exact h
  have hself : Function.update d ip (newInode dp ip type major minor) dp = d dp := update_of_ne hc.apart.symm ..
  rw [seeded, update_self]
  split_ifs with hd
  · obtain ⟨heq, hadd⟩ := htree.addLink (i := dp) (by rw [hself]; exact hdp) (by rw [hself]; exact hdf)
    rw [hself] at heq hadd
    refine ⟨hadd, ?_, by rw [heq]⟩
    rw [← hlinks]
    apply links_update_same
    · rw [hself]
      rfl
    · rw [hself]
      rfl
  · rw [← hself, update_eq_self]
    exact ⟨htree, hlinks, by rw [add_zero]⟩

theorem Tree.create (major minor : ℤ) : Tree n (created d dp name ip type major minor) := by
  obtain ⟨hts, hlinks, hnlink⟩ := ht.seed hc htype hdp major minor
  obtain ⟨hsdir, -, hnew⟩ := hc.seeded_dir type major minor
  obtain ⟨h0, -, hfree⟩ := freeInum_some hc.inum
  have hcov := ht.covered ip
  rw [ht.free ip hfree] at hcov
  rw [created_eq]
  apply hts.enter hsdir (by omega) (ht.name_of_absent hc.dir hc.absent)
  · intro hd
    rw [hnew] at hd ⊢
    have htd : type = .dir := hd
    refine ⟨?_, hc.apart⟩
    simp [newInode, Dinode.up, slot, htd]
  · rw [hlinks, hnew]
    change (links n d ip+1 : ℤ) ≤ 1
    omega
  intro hd
  rw [hnew] at hd
  have hcd := ht.covered dp
  rw [hlinks, hnlink, if_pos (show type = .dir from hd)]
  omega

end

theorem Links.dir (hl : Links d pr p old new dp name ip) : (d dp).type = .dir := walk_parent_dir hl.parent

theorem Links.ne (hl : Links d pr p old new dp name ip) : dp ≠ ip := by
  rintro rfl
  exact hl.type.1 hl.dir

theorem Tree.link (ht : Tree n d) (hl : Links d pr p old new dp name ip) (hip : (d ip).nlink < 32767) :
    Tree n (linked (Function.update d ip (addLinks 1 (d ip))) dp name ip) := by
  obtain ⟨heq, hadd⟩ := ht.addLink hip hl.type.2
  have hlinks : links n (Function.update d ip (addLinks 1 (d ip))) = links n d := links_update_same rfl rfl
  have hdir : (Function.update d ip (addLinks 1 (d ip)) dp).type = .dir := by rw [update_of_ne hl.ne, hl.dir]
  have hnd : ¬(Function.update d ip (addLinks 1 (d ip)) ip).type = .dir := by
    rw [update_self]
    exact hl.type.1
  apply hadd.enter hdir (ht.inum_ne hl.type.2) (ht.name_of_absent hl.dir hl.absent)
  · exact fun h => absurd h hnd
  · have := ht.covered ip
    rw [hlinks, update_self, heq]
    change (links n d ip+1 : ℤ) ≤ (d ip).nlink+1
    omega
  · exact fun h => absurd h hnd

end

end Xv6.Dir
