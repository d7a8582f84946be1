import Xv6.DirExact

/-! unlink keeps exact link counts, and with it every call that enters no name into a removed
directory. -/
namespace Xv6.Dir
open Multigraph Multiset

variable {n : ℕ} {d d' : ℕ → Dinode} {pr : List Proc} {p dp ip k : ℕ} {path : List UInt8}
  {name : Name}

variable {i : ℕ}

theorem Exact.named (h : Exact n d) (hi : (d i).nlink ≠ 0) (hroot : i ≠ rootIno) : 0 < names n d i := by
  cases h.reach i hi with
  | root => exact absurd rfl hroot
  | child _ he => exact h.tree.names_pos he

theorem Exact.parent_linked (h : Exact n d) (hr : Removes d pr p path dp name ip k) :
    (detached d dp ip k dp).nlink ≠ 0 := by
  rw [(h.tree.detach hr).2.2]
  have hlive := hr.live h.tree
  have hdp : (d dp).nlink ≠ 0 := by
    intro h0
    rw [h.empty dp h0] at hlive
    exact absurd hlive (notMem_zero _)
  split_ifs with hdir
  · have hsub : 0 < subdirs d dp := countP_pos.mpr ⟨_, hlive, hdir⟩
    have hex := h.exact dp
    unfold links at hex
    split_ifs at hex with hroot
    · omega
    · have := h.named hdp hroot
      omega
  · omega

theorem Exact.parent_kept (h : Exact n d) (hr : Removes d pr p path dp name ip k) (w : ℕ → ℕ) :
    released (detached d dp ip k) w dp = detached d dp ip k :=
  if_neg (fun hf => h.parent_linked hr hf.1)

theorem Removes.empty_live (ht : Tree n d) (hr : Removes d pr p path dp name ip k) : (d ip).live = 0 := by
  by_cases hdir : (d ip).type = .dir
  · exact isdirempty_iff.mp (hr.empty hdir)
  · exact live_of_nil (ht.plain ip hdir)

theorem Removes.not_root (ht : Tree n d) (hr : Removes d pr p path dp name ip k) : ip ≠ rootIno := by
  intro hip
  have hup := (ht.child dp _ (hr.live ht) (by rw [hip]; exact ht.root)).1
  dsimp only at hup
  rw [hip, ht.rootUp] at hup
  exact hr.ne ht (hip.trans hup)

section
variable {w : ℕ → ℕ} (hkeep : released (detached d dp ip k) w dp = detached d dp ip k)
include hkeep

theorem unlinked_eq : unlinked d w dp ip k = released (Function.update (detached d dp ip k) ip
    (addLinks (-1) (detached d dp ip k ip))) w ip := by
  simp only [unlinked, hkeep]

section
variable (ht : Tree n d) (hr : Removes d pr p path dp name ip k)
include ht hr

theorem Removes.unlinked_live (i : ℕ) :
    (unlinked d w dp ip k i).live = if i = dp then (cleared d dp k dp).live else (d i).live := by
  have hne := hr.ne ht
  rw [unlinked_eq hkeep]
  by_cases hip : i = ip
  · subst hip
    have hzero : ∀ x : Dinode, x.ents = (d i).ents ∨ x.ents = [] → x.live = 0 := by
      rintro x (hx | hx)
      · rw [live_congr hx, hr.empty_live ht]
      · exact live_of_nil hx
    rw [if_neg hne, hr.empty_live ht]
    apply hzero
    unfold released
    split_ifs
    · rw [Function.update_self]
      exact Or.inr rfl
    · rw [Function.update_self, detached_of_ne hne]
      exact Or.inl rfl
  · rw [released_of_ne hip, Function.update_of_ne hip]
    split_ifs with hdp
    · rw [hdp]
      apply live_congr
      rw [detached, cleared, Function.update_self, Function.update_self]
    · rw [detached_of_ne hdp]

theorem Removes.unlinked_names (i : ℕ) : names n (unlinked d w dp ip k) i+(if ip = i then 1 else 0) = names n d i := by
  have hdp := (ht.range dp (by rw [hr.dir]; decide)).2
  have hout : (fun v => (unlinked d w dp ip k v).live) =
      Function.update (fun v => (d v).live) dp (cleared d dp k dp).live := by
    funext v
    rw [hr.unlinked_live hkeep ht]
    by_cases hv : v = dp
    · rw [if_pos hv, hv, Function.update_self]
    · rw [if_neg hv, Function.update_of_ne hv]
  have h := indegree_update (fun v => (d v).live) Dirent.inum hdp (cleared d dp k dp).live i
  rw [← hout, ht.cleared_live hr.dir hr.proper hr.found, countP_cons] at h
  dsimp only at h
  unfold names
  omega

theorem Removes.unlinked_links (hi : (links n d i : ℤ) = (d i).nlink) :
    (links n (unlinked d w dp ip k) i : ℤ) = (unlinked d w dp ip k i).nlink := by
  have hne := hr.ne ht
  obtain ⟨htd, hlinks, -⟩ := ht.detach hr
  have hcl := ht.links_cleared hr.dir hr.proper hr.found i
  have hstep := ht.unlink hr w
  rw [ht.unlinked_nlink hr, unlinked_eq hkeep]
  rw [hkeep] at hstep
  have hlive : (Function.update (detached d dp ip k) ip (addLinks (-1) (detached d dp ip k ip)) ip).live = 0 := by
    rw [Function.update_self, detached_of_ne hne]
    exact hr.empty_live ht
  have hsame : links n (Function.update (detached d dp ip k) ip
      (addLinks (-1) (detached d dp ip k ip))) = links n (detached d dp ip k) :=
    links_update_same rfl rfl
  rw [(hstep.links_release w ip i).2 hlive, hsame, hlinks, ← hi, hcl]
  by_cases hip : ip = i
  · rw [if_pos hip, if_pos hip.symm]
    push_cast
    ring
  · rw [if_neg hip, if_neg (Ne.symm hip)]
    push_cast
    ring

end

end

theorem names_mono (hle : ∀ v, (d' v).live ≤ (d v).live) (i : ℕ) : names n d' i ≤ names n d i := by
  unfold names indegree
  apply Finset.sum_le_sum
  exact fun v _ => countP_le_of_le _ (hle v)

theorem Linked.unlinked (h : Exact n d) (hr : Removes d pr p path dp name ip k) (w : ℕ → ℕ)
    (hl : Linked d i) (hi : i ≠ ip) : Linked (unlinked d w dp ip k) i := by
  induction hl with
  | root => exact .root
  | @child j e _ he ih =>
    have hj : j ≠ ip := by
      rintro rfl
      rw [hr.empty_live h.tree] at he
      exact absurd he (notMem_zero e)
    apply (ih hj).child
    rw [hr.unlinked_live (h.parent_kept hr w) h.tree]
    split_ifs with hdp
    · have hcl := h.tree.cleared_live hr.dir hr.proper hr.found
      rw [hdp, hcl, mem_cons] at he
      exact he.resolve_left (fun heq => hi (by rw [heq]))
    · exact he

theorem Exact.unlink (h : Exact n d) (hr : Removes d pr p path dp name ip k) (w : ℕ → ℕ) :
    Exact n (unlinked d w dp ip k) := by
  have hne := hr.ne h.tree
  have hcl := h.tree.cleared_live hr.dir hr.proper hr.found
  have hlive := hr.unlinked_live (h.parent_kept hr w) h.tree
  have hnlink := h.tree.unlinked_nlink hr (w := w)
  have ht : Tree n (unlinked d w dp ip k) := (h.tree.unlink hr w).release w ip
  have hexact := fun i => hr.unlinked_links (h.parent_kept hr w) h.tree (h.exact i)
  have hle (v : ℕ) : (unlinked d w dp ip k v).live ≤ (d v).live := by
    rw [hlive]
    split_ifs with hv
    · rw [hv, hcl]
      exact le_cons_self _ _
    · exact le_refl _
  have htype {i : ℕ} (hi : (unlinked d w dp ip k i).type = .dir) : (d i).type = .dir := by
    have hi' := released_dir hi
    rw [addLinks_type] at hi'
    have hi'' := released_dir hi'
    rwa [detached_type] at hi''
  refine ⟨ht, hexact, fun i hi => ?_, fun i hi => ?_, fun i e1 h1 e2 h2 heq => ?_, fun i hi => ?_⟩
  · exact (names_mono hle i).trans (h.once i (htype hi))
  · by_cases hip : i = ip
    · rw [hlive, hip, if_neg hne]
      exact hr.empty_live h.tree
    by_cases hdp : i = dp
    · have hpl := h.parent_linked hr
      rw [(h.tree.detach hr).2.2] at hpl
      rw [hnlink, if_neg hip, sub_zero, hdp] at hi
      simp only [true_and] at hi
      exact absurd hi hpl
    · rw [hnlink, if_neg hip, if_neg (fun hd => hdp hd.1), sub_zero, sub_zero] at hi
      rw [hlive, if_neg hdp]
      exact h.empty i hi
  · exact h.unique i e1 (mem_of_le (hle i) h1) e2 (mem_of_le (hle i) h2) heq
  · have hi0 : (d i).nlink ≠ 0 := by
      intro h0
      have := ht.nlink_nonneg i
      rw [hnlink] at hi this
      split_ifs at hi this <;> omega
    by_cases hip : i = ip
    · -- the inode still has a name elsewhere
      have hroot : i ≠ rootIno := hip ▸ hr.not_root h.tree
      have hz : (unlinked d w dp ip k i).live = 0 := by
        rw [hlive, hip, if_neg hne]
        exact hr.empty_live h.tree
      have hex := hexact i
      rw [links, subdirs, hz, countP_zero, if_neg hroot] at hex
      have hpos : 0 < names n (unlinked d w dp ip k) i := by omega
      obtain ⟨v, -, e, he, rfl⟩ := indegree_pos_iff.mp hpos
      have hv : (d v).nlink ≠ 0 := by
        intro h0
        have hev := mem_of_le (hle v) he
        rw [h.empty v h0] at hev
        exact absurd hev (notMem_zero e)
      have hvip : v ≠ ip := by
        intro hv'
        rw [hlive, hv', if_neg hne, hr.empty_live h.tree] at he
        exact absurd he (notMem_zero e)
      exact ((h.reach v hv).unlinked h hr w hvip).child he
    · exact (h.reach i hi0).unlinked h hr w hip

theorem Exact.exitTree (h : Exact n d) (pr : List Proc) (p : ℕ) (fds : List ℕ) : Exact n (exitTree d pr p fds).1 := by
  induction fds generalizing d pr with
  | nil => exact h
  | cons fd fds ih =>
    cases hf : fileAt pr p fd with
    | none =>
      simp only [Dir.exitTree, hf]
      exact ih h pr
    | some i =>
      simp only [Dir.exitTree, hf]
      exact ih (h.release _ i) _

/-- Exact link counts stay exact as long as no name is put into a directory without links. -/
theorem Exact.effect {pr' : List Proc} {call : Call} (h : Exact n d)
    (hsmall : ∀ i, (d i).nlink < 32767) (he : Effect n d pr p call d' pr')
    (henter : ∀ dp, enters d pr p call dp → (d dp).nlink ≠ 0) : Exact n d' := by
  cases he with
  | fails | opens => exact h
  | creates hc hcr =>
    have hin := henter _ (Or.inr ⟨_, _, _, _, _, hc, hcr.parent, hcr.absent⟩)
    exact h.create hcr (creation_type hc) (hsmall _) hin
  | createsOpen hc hcr =>
    have hin := henter _ (Or.inr ⟨_, _, _, _, _, hc, hcr.parent, hcr.absent⟩)
    exact h.create hcr (creation_type hc) (hsmall _) hin
  | links ho hn hl => exact h.link hl (hsmall _) (henter _ (Or.inl ⟨_, _, _, _, _, _, rfl, ho, hn, hl⟩))
  | unlinks _ hr => exact h.unlink hr _
  | chdirs | closes => exact h.release _ _
  | exits hf =>
    have hx := h.exitTree pr p (List.range nofile)
    rw [hf] at hx
    exact hx.release _ _

end Xv6.Dir
