import Xv6.DirInv
import Xv6.Runs

/-! Runs of completed system calls from a file system image. -/
namespace Xv6.Dir
open Runs List

/-- What holds between system calls: a consistent tree, and an inode table that counts the
references of the processes. -/
structure Sound (n : ℕ) (s : Fs) : Prop where
  consistent : Consistent n s.inodes (uses s.procs)
  idle : Idle s.inodes s.procs (uses s.procs) s

def FewLinks (s : Fs) : Prop := ∀ i, (s.inodes i).nlink < 32767

/-- A file system image: a tree of fewer than 65536 inodes without leftovers. -/
structure Image (n : ℕ) (d : ℕ → Dinode) : Prop where
  size : n ≤ 65536
  tree : Tree n d
  linked : ∀ i, (d i).type ≠ .free → (d i).nlink ≠ 0

variable {n : ℕ} {s t : Fs} {e : Event}

theorem Sound.step (hs : Sound n s) (hn : n ≤ 65536) (hfew : FewLinks s) (hstep : step n s e = some t) :
    Sound n t ∧ ∃ q c, Alive s.procs e.proc q c ∧ Effect n s.inodes s.procs e.proc e.call t.inodes t.procs := by
  have hl : alive s.procs e.proc = true := by
    by_contra hdead
    rw [Dir.step, if_neg hdead] at hstep
    cases hstep
  obtain ⟨q, c, ha⟩ := alive_of_true hl
  obtain ⟨d', pr', he, hidle⟩ := step_effect (hs.consistent.sane hn) hn hs.idle hstep
  obtain rfl := hidle.inodes
  obtain rfl := hidle.procs
  exact ⟨⟨hs.consistent.effect hfew ha he, hidle⟩, q, c, ha, he⟩

theorem uses_boot (nproc i : ℕ) : uses (List.replicate nproc ⟨some rootIno, List.replicate nofile none⟩) i =
      if i = rootIno then nproc else 0 := by
  have hfiles : (List.replicate nofile (none : Option ℕ)).filterMap id = [] := by decide
  unfold uses
  rw [map_replicate, sum_replicate, Proc.holds, hfiles, append_nil, Option.toList_some, count_singleton, smul_eq_mul]
  by_cases hi : i = rootIno
  · rw [if_pos hi, if_pos (by rw [hi]; rfl), mul_one]
  · rw [if_neg hi, if_neg (by simpa using Ne.symm hi), mul_zero]

theorem Image.sound {image : ℕ → Dinode} (himg : Image n image) (nproc : ℕ) : Sound n (boot image nproc) := by
  have hu := uses_boot nproc
  have hroot : (image rootIno).type ≠ .free := by
    rw [himg.tree.root]
    decide
  refine ⟨⟨himg.tree, ?_, ?_⟩, rfl, rfl, ?_⟩
  · exact fun i hi h0 => absurd h0 (himg.linked i hi)
  · intro i hi
    have hir : i = rootIno := by
      by_contra hne
      rw [boot, hu, if_neg hne] at hi
      omega
    exact hir ▸ hroot
  intro i
  simp only [boot, hu, Pi.zero_apply]
  by_cases hi : i = rootIno
  · subst hi
    simp only [if_true, decide_true]
    exact ⟨rfl, fun _ => rfl, fun h => absurd h not_mem_nil, fun _ _ => hroot⟩
  · simp only [hi, if_false, decide_false]
    exact ⟨rfl, fun h => absurd h (lt_irrefl 0), fun h => absurd h not_mem_nil, fun h => absurd h (lt_irrefl 0)⟩

theorem Effect.nlink_le {d d' : ℕ → Dinode} {pr pr' : List Proc} {p : ℕ} {call : Call}
    (ht : Tree n d) (hsmall : ∀ i, (d i).nlink < 32767) (he : Effect n d pr p call d' pr') (i : ℕ) :
    (d' i).nlink ≤ (d i).nlink+1 := by
  have hcreated {path : List UInt8} {dp ip : ℕ} {name : Name} {type : IType} {major minor : ℤ}
      (h : Creates n d pr p path dp name ip) :
      (created d dp name ip type major minor i).nlink ≤ (d i).nlink+1 := by
    have := ht.nlink_nonneg i
    rw [ht.created_nlink h (hsmall _)]
    split_ifs <;> omega
  cases he with
  | fails | opens => omega
  | creates _ h => exact hcreated h
  | createsOpen _ h => exact hcreated h
  | links =>
    rw [(linked_type _ i).2, ht.addLink_nlink (hsmall _)]
    split_ifs <;> omega
  | unlinks _ h =>
    rw [ht.unlinked_nlink h]
    split_ifs <;> omega
  | chdirs =>
    rw [released_nlink]
    omega
  | closes =>
    rw [released_nlink]
    omega
  | exits hf =>
    have h := exitTree_nlink d pr p (List.range nofile) i
    rw [hf] at h
    dsimp only at h
    rw [released_nlink]
    omega

theorem Sound.few_links (hs : Sound n s) (hn : n ≤ 65536) {k : ℕ} {es : List Event}
    (hk : ∀ i, (s.inodes i).nlink ≤ k) (hlen : k+es.length < 32767)
    (hv : Visits (Dir.step n) s es t) : FewLinks t := by
  have hinv : ∀ pre u, pre <+: es → run (Dir.step n) s pre = some u →
      Sound n u ∧ ∀ i, (u.inodes i).nlink ≤ k+pre.length := by
    intro pre
    induction pre using List.reverseRecOn with
    | nil =>
      intro u _ hu
      obtain rfl : s = u := Option.some.inj hu
      exact ⟨hs, hk⟩
    | append_singleton pre e ih =>
      intro u hpre hu
      have hle := hpre.length_le
      rw [run_append, Option.bind_eq_some_iff] at hu
      obtain ⟨v, hv, hlast⟩ := hu
      rw [run_cons, Option.bind_eq_some_iff] at hlast
      obtain ⟨w, hw, hnil⟩ := hlast
      obtain rfl : w = u := Option.some.inj hnil
      obtain ⟨hsv, hkv⟩ := ih v ((prefix_append pre [e]).trans hpre) hv
      rw [length_append, length_singleton] at hle ⊢
      have hfew : FewLinks v := fun i => by
        have := hkv i
        omega
      obtain ⟨hsw, q, c, ha, he⟩ := hsv.step hn hfew hw
      refine ⟨hsw, fun i => ?_⟩
      have h1 := he.nlink_le hsv.consistent.tree hfew i
      have h2 := hkv i
      push_cast
      omega
  obtain ⟨pre, hpre, hrun⟩ := hv
  have hle := hpre.length_le
  intro i
  have := (hinv pre t hpre hrun).2 i
  omega

def rootImage (i : ℕ) : Dinode :=
  if i = rootIno then ⟨.dir, 0, 0, 1, [⟨rootIno, dot⟩, ⟨rootIno, dotdot⟩]⟩
  else ⟨.free, 0, 0, 0, []⟩

theorem rootImage_of_ne {i : ℕ} (hi : i ≠ rootIno) : rootImage i = ⟨.free, 0, 0, 0, []⟩ := if_neg hi

theorem rootImage_live (i : ℕ) : (rootImage i).live = 0 := by
  by_cases hi : i = rootIno
  · rw [hi]
    rfl
  · rw [rootImage_of_ne hi]
    rfl

theorem rootImage_links (i : ℕ) : links n rootImage i = if i = rootIno then 1 else 0 := by
  have hnames : names n rootImage i = 0 := by
    apply Multigraph.indegree_eq_zero_iff.mpr
    intro v _ e he
    rw [rootImage_live] at he
    exact absurd he (Multiset.notMem_zero e)
  rw [links, hnames, subdirs, rootImage_live, Multiset.countP_zero, zero_add, zero_add]

theorem rootImage_image : Image 10 rootImage where
  size := by decide
  tree := by
    have hroot {i : ℕ} (h : (rootImage i).type ≠ .free) : i = rootIno := by
      by_contra hne
      rw [rootImage_of_ne hne] at h
      exact h rfl
    have hdir {i : ℕ} (h : (rootImage i).type = .dir) : i = rootIno := hroot (by rw [h]; decide)
    have hlive {i : ℕ} {e : Dirent} {P : Prop} (h : e ∈ (rootImage i).live) : P := by
      rw [rootImage_live] at h
      exact absurd h (Multiset.notMem_zero e)
    have hother {i : ℕ} (h : (rootImage i).type ≠ .dir) : rootImage i = ⟨.free, 0, 0, 0, []⟩ := by
      apply rootImage_of_ne
      rintro rfl
      exact h rfl
    exact {
      root := rfl
      rootUp := rfl
      range := fun i hi => by
        rw [hroot hi]
        decide
      free := fun i hi => by rw [hother (by rw [hi]; decide)]
      plain := fun i hi => by rw [hother hi]
      formed := fun i hi => ⟨rootIno, [], by decide, by rw [hdir hi]; rfl⟩
      proper := fun i e he => hlive he
      child := fun i e he => hlive he
      covered := fun i => by
        rw [rootImage_links]
        split_ifs with hi
        · rw [hi]
          rfl
        · rw [rootImage_of_ne hi]
          rfl
      small := fun i => by
        unfold rootImage
        split_ifs <;> decide }
  linked := fun i hi => by
    unfold rootImage at hi ⊢
    split_ifs at hi ⊢
    · decide
    · exact absurd rfl hi

theorem rootImage_nlink (i : ℕ) : (rootImage i).nlink ≤ (1 : ℕ) := by
  unfold rootImage
  split_ifs <;> decide

theorem rootImage_few {nproc : ℕ} : FewLinks (boot rootImage nproc) := fun i => by
  have := rootImage_nlink i
  change (rootImage i).nlink < 32767
  omega

end Xv6.Dir
