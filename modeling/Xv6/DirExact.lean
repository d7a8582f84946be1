import Xv6.DirReach

/-! Trees in which a directory without links holds no names and every inode with links has a path
from the root. -/
namespace Xv6.Dir
open Function (update_self update_of_ne)
open Multigraph

inductive Linked (d : ℕ → Dinode) : ℕ → Prop
  | root : Linked d rootIno
  | child {i : ℕ} {e : Dirent} (h : Linked d i) (he : e ∈ (d i).live) : Linked d e.inum

structure Exact (n : ℕ) (d : ℕ → Dinode) : Prop where
  tree : Tree n d
  exact : ∀ i, (links n d i : ℤ) = (d i).nlink
  once : ∀ i, (d i).type = .dir → names n d i ≤ 1
  empty : ∀ i, (d i).nlink = 0 → (d i).live = 0
  unique : ∀ i, ∀ e ∈ (d i).live, ∀ e' ∈ (d i).live, e.name = e'.name → e = e'
  reach : ∀ i, (d i).nlink ≠ 0 → Linked d i

variable {n : ℕ} {d d' : ℕ → Dinode} {pr : List Proc} {p dp ip k : ℕ} {path : List UInt8}
  {name : Name}

theorem Linked.mono (hsub : ∀ i, ∀ e ∈ (d i).live, e ∈ (d' i).live) {i : ℕ} (h : Linked d i) : Linked d' i := by
  induction h with
  | root => exact .root
  | child _ he ih => exact ih.child (hsub _ _ he)

theorem Linked.inv {i : ℕ} (h : Linked d i) : i = rootIno ∨ ∃ v, Linked d v ∧ ∃ e ∈ (d v).live, e.inum = i := by
  cases h with
  | root => exact Or.inl rfl
  | child h he => exact Or.inr ⟨_, h, _, he, rfl⟩

theorem Exact.congr (h : Exact n d) (ht : Tree n d') (hlive : ∀ i, (d' i).live = (d i).live)
    (hnlink : ∀ i, (d' i).nlink = (d i).nlink) (hlinks : links n d' = links n d)
    (hdir : ∀ i, (d' i).type = .dir → (d i).type = .dir) : Exact n d' where
  tree := ht
  exact := fun i => by rw [hlinks, hnlink, h.exact]
  once := fun i hi => by
    simp only [names, hlive]
    exact h.once i (hdir i hi)
  empty := fun i hi => by
    rw [hlive]
    exact h.empty i (hnlink i ▸ hi)
  unique := fun i => by
    rw [hlive]
    exact h.unique i
  reach := fun i hi => (h.reach i (hnlink i ▸ hi)).mono (fun j e he => by rwa [hlive])

theorem Exact.released_live (h : Exact n d) (w : ℕ → ℕ) (i j : ℕ) : (released d w i j).live = (d j).live := by
  unfold released
  split_ifs with hf
  · by_cases hj : j = i
    · rw [hj, update_self, h.empty i hf.1]
      rfl
    · rw [update_of_ne hj]
  · rfl

theorem released_dir {w : ℕ → ℕ} {i j : ℕ} (hj : (released d w i j).type = .dir) : (d j).type = .dir := by
  rwa [(released_type (by rw [hj]; decide)).1] at hj

theorem Exact.release (h : Exact n d) (w : ℕ → ℕ) (i : ℕ) : Exact n (released d w i) := by
  apply h.congr (h.tree.release w i) (h.released_live w i) (released_nlink i)
  · funext j
    by_cases h0 : (d i).nlink = 0
    · exact (h.tree.links_release w i j).2 (h.empty i h0)
    · rw [released, if_neg (fun hf => h0 hf.1)]
  · exact fun j => released_dir

theorem absent_live (hl : look d dp name = none) {e : Dirent} (he : e ∈ (d dp).live) : e.name ≠ name := by
  intro heq
  obtain ⟨hmem, h0⟩ := mem_live.mp he
  have h := List.findIdx?_eq_none_iff.mp (Option.map_eq_none_iff.mp hl) e (List.mem_of_mem_drop hmem)
  simp [h0, heq] at h

theorem Exact.enter (h : Exact n d) {e : Dirent} (ht : Tree n d') (hdp : (d dp).nlink ≠ 0)
    (hn : dp < n) (hlive : ∀ i, (d' i).live = if i = dp then e ::ₘ (d dp).live else (d i).live)
    (hexact : ∀ i, (links n d' i : ℤ) = (d' i).nlink)
    (hnlink : ∀ i, (d i).nlink ≠ 0 → (d' i).nlink ≠ 0)
    (hnew : ∀ i, (d' i).nlink ≠ 0 → i = e.inum ∨ (d i).nlink ≠ 0)
    (hdir : ∀ i, (d' i).type = .dir → (i = e.inum ∧ names n d i = 0) ∨ (i ≠ e.inum ∧ (d i).type = .dir))
    (hname : ∀ e' ∈ (d dp).live, e'.name ≠ e.name) : Exact n d' := by
  have hself : (d' dp).live = e ::ₘ (d dp).live := by rw [hlive, if_pos rfl]
  have hother {i : ℕ} (hi : i ≠ dp) : (d' i).live = (d i).live := by rw [hlive, if_neg hi]
  have hsub (i : ℕ) (e' : Dirent) (he' : e' ∈ (d i).live) : e' ∈ (d' i).live := by
    by_cases hi : i = dp
    · subst hi
      rw [hself]
      exact Multiset.mem_cons_of_mem he'
    · rwa [hother hi]
  have hout : (fun v => (d' v).live) = Function.update (fun v => (d v).live) dp (e ::ₘ (d dp).live) := by
    funext v
    by_cases hv : v = dp
    · rw [hv, update_self, hself]
    · rw [update_of_ne hv, hother hv]
  have hnames (i : ℕ) : names n d' i = names n d i+if e.inum = i then 1 else 0 := by
    unfold names
    rw [hout]
    exact indegree_cons (fun v => (d v).live) _ hn e i
  refine ⟨ht, hexact, fun i hi => ?_, fun i hi => ?_, fun i e1 h1 e2 h2 heq => ?_, fun i hi => ?_⟩
  · rw [hnames]
    rcases hdir i hi with ⟨rfl, h0⟩ | ⟨hne, hdi⟩
    · rw [h0, if_pos rfl]
    · rw [if_neg hne.symm]
      exact h.once i hdi
  · have h0 : (d i).nlink = 0 := by
      by_contra hne
      exact hnlink i hne hi
    have hne : i ≠ dp := by
      rintro rfl
      exact hdp h0
    rw [hother hne]
    exact h.empty i h0
  · by_cases hi : i = dp
    · subst hi
      rw [hself, Multiset.mem_cons] at h1 h2
      rcases h1 with rfl | h1
      · rcases h2 with rfl | h2
        · rfl
        · exact absurd heq.symm (hname e2 h2)
      · rcases h2 with rfl | h2
        · exact absurd heq (hname e1 h1)
        · exact h.unique i e1 h1 e2 h2 heq
    · rw [hother hi] at h1 h2
      exact h.unique i e1 h1 e2 h2 heq
  · rcases hnew i hi with rfl | hi
    · exact ((h.reach dp hdp).mono hsub).child (by rw [hself]; exact Multiset.mem_cons_self e _)
    · exact (h.reach i hi).mono hsub

theorem live_congr {x y : Dinode} (h : x.ents = y.ents) : x.live = y.live := by simp only [Dinode.live, h]

section
variable {type : IType} {major minor : ℤ}

section
variable (ht : Tree n d) (hcr : Creates n d pr p path dp name ip) (htype : type ≠ .free) (hdp : (d dp).nlink < 32767)
include ht hcr htype hdp

theorem Tree.created_live (major minor : ℤ) (i : ℕ) : (created d dp name ip type major minor i).live =
      if i = dp then ⟨ip, name⟩ ::ₘ (d dp).live else (d i).live := by
  obtain ⟨h0, -, hfree⟩ := freeInum_some hcr.inum
  obtain ⟨hts, -, -⟩ := ht.seed hcr htype hdp major minor
  obtain ⟨hdir, hents, -⟩ := hcr.seeded_dir type major minor
  split_ifs with hi
  · rw [hi, created_eq, hts.linked_live hdir (by omega) name, live_congr hents]
  by_cases hip : i = ip
  · rw [hip, created_self hcr.apart, live_of_nil (ht.plain ip (by rw [hfree]; decide))]
    by_cases hd : type = .dir <;> simp [Dinode.live, hd]
  · rw [created, update_of_ne hi, update_of_ne hip]

theorem Tree.created_links (i : ℕ) :
    links n (created d dp name ip type major minor) i = links n d i+(if ip = i then 1 else 0)+
      if i = dp ∧ type = .dir then 1 else 0 := by
  obtain ⟨h0, -, -⟩ := freeInum_some hcr.inum
  obtain ⟨hts, hlinks, -⟩ := ht.seed hcr htype hdp major minor
  obtain ⟨hdir, -, hnew⟩ := hcr.seeded_dir type major minor
  rw [created_eq, hts.links_linked hdir (by omega) name, hlinks, hnew]
  rfl

end

theorem Exact.create (h : Exact n d) (hcr : Creates n d pr p path dp name ip)
    (htype : type ≠ .free) (hsmall : (d dp).nlink < 32767) (hdp : (d dp).nlink ≠ 0) :
    Exact n (created d dp name ip type major minor) := by
  obtain ⟨h0, -, hfree⟩ := freeInum_some hcr.inum
  have hn0 := h.tree.free ip hfree
  have hnlink := h.tree.created_nlink hcr hsmall type major minor
  have hdf : (d dp).type ≠ .free := by rw [hcr.dir]; decide
  have hz : links n d ip = 0 := by
    have := h.exact ip
    omega
  apply h.enter (e := ⟨ip, name⟩) (h.tree.create hcr htype hsmall major minor) hdp
    (h.tree.range dp hdf).2 (h.tree.created_live hcr htype hsmall major minor)
  · intro i
    have hi := h.exact i
    rw [hnlink, h.tree.created_links hcr htype hsmall]
    by_cases hip : i = ip
    · rw [hip, hz, if_pos rfl, if_pos rfl, if_neg (fun hd => hcr.apart hd.1)]
      rfl
    · rw [if_neg hip, if_neg (Ne.symm hip), ← hi]
      push_cast
      rw [add_zero]
  · intro i hi
    have := h.tree.nlink_nonneg i
    rw [hnlink]
    split_ifs <;> omega
  · intro i hi
    by_cases hip : i = ip
    · exact Or.inl hip
    rw [hnlink, if_neg hip] at hi
    refine Or.inr (fun h0 => ?_)
    split_ifs at hi with hd
    · exact hdp (hd.1 ▸ h0)
    · omega
  · intro i hi
    rw [created_type hcr] at hi
    split_ifs at hi with hip
    · exact Or.inl ⟨hip, by rw [hip]; exact (h.tree.links_eq_zero hn0).1⟩
    · exact Or.inr ⟨hip, hi⟩
  · exact fun e he => absent_live hcr.absent he

end

theorem Exact.link {old new : List UInt8} (h : Exact n d) (hl : Links d pr p old new dp name ip)
    (hsmall : (d ip).nlink < 32767) (hdp : (d dp).nlink ≠ 0) :
    Exact n (linked (Function.update d ip (addLinks 1 (d ip))) dp name ip) := by
  have hip := h.tree.inum_ne hl.type.2
  have hadd := (h.tree.addLink hsmall hl.type.2).2
  have hnlink := h.tree.addLink_nlink hsmall
  have hself : Function.update d ip (addLinks 1 (d ip)) dp = d dp := update_of_ne hl.ne ..
  have hdir : (Function.update d ip (addLinks 1 (d ip)) dp).type = .dir := by rw [hself, hl.dir]
  have hdf : (d dp).type ≠ .free := by rw [hl.dir]; decide
  apply h.enter (e := ⟨ip, name⟩) (h.tree.link hl hsmall) hdp (h.tree.range dp hdf).2
  · intro i
    split_ifs with hi
    · rw [hi, hadd.linked_live hdir hip name, hself]
    rw [linked, update_of_ne hi]
    apply live_congr
    by_cases hii : i = ip
    · rw [hii, update_self]
      rfl
    · rw [update_of_ne hii]
  · intro i
    have hi := h.exact i
    have hno : ¬(i = dp ∧ (d ip).type = .dir) := fun hd => hl.type.1 hd.2
    have hsame : links n (Function.update d ip (addLinks 1 (d ip))) = links n d := links_update_same rfl rfl
    rw [(linked_type ip i).2, hnlink, hadd.links_linked hdir hip name, addLinks_type, if_neg hno, hsame, ← hi]
    by_cases hii : ip = i
    · rw [if_pos hii, if_pos hii.symm]
      rfl
    · rw [if_neg hii, if_neg (Ne.symm hii)]
      rfl
  · intro i hi
    have := h.tree.nlink_nonneg i
    rw [(linked_type ip i).2, hnlink]
    split_ifs <;> omega
  · intro i hi
    rw [(linked_type ip i).2, hnlink] at hi
    split_ifs at hi with hii
    · exact Or.inl hii
    · exact Or.inr (by omega)
  · intro i hi
    rw [(linked_type ip i).1, addLinks_type] at hi
    refine Or.inr ⟨?_, hi⟩
    rintro rfl
    exact hl.type.1 hi
  · exact fun e he => absent_live hl.absent he

end Xv6.Dir
