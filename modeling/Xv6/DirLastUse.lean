import Xv6.DirInv

/-! Which inodes a completed call gives back, told from the state before it. -/
namespace Xv6.Dir
open List

variable {n : ℕ} {d d' : ℕ → Dinode} {pr pr' : List Proc} {p c : ℕ} {q : Proc} {call : Call}

theorem fileAt_withoutFile (ha : Alive pr p q c) {fd fd' : ℕ} (hne : fd' ≠ fd) :
    fileAt (withoutFile pr p fd) p fd' = fileAt pr p fd' := by
  rw [fileAt, fileAt, (ha.withoutFile fd).ofileOf, ha.ofileOf, List.getElem?_set_ne hne.symm]

theorem exitTree_uses {fds : List ℕ} (hnd : fds.Nodup) (ha : Alive pr p q c) (i : ℕ) :
    uses (exitTree d pr p fds).2 i+(fds.filterMap (fileAt pr p)).count i = uses pr i := by
  induction fds generalizing d pr q with
  | nil => rfl
  | cons fd fds ih =>
    obtain ⟨hfd, hnd'⟩ := nodup_cons.mp hnd
    cases hf : fileAt pr p fd with
    | none =>
      simp only [exitTree, hf, filterMap_cons_none hf]
      exact ih hnd' ha
    | some i' =>
      have hu := congrFun (uses_withoutFile ha.proc (fileAt_some ha hf)) i
      have hrest : fds.filterMap (fileAt (withoutFile pr p fd) p) = fds.filterMap (fileAt pr p) := by
        apply filterMap_congr
        intro fd' hmem
        apply fileAt_withoutFile ha
        rintro rfl
        exact hfd hmem
      have hih := ih (d := released d (uses (withoutFile pr p fd)) i') hnd' (ha.withoutFile fd)
      rw [hrest] at hih
      simp only [exitTree, hf, filterMap_cons_some hf]
      rw [Pi.add_apply, one_apply] at hu
      rw [count_cons] at *
      simp only [count_nil] at hu
      omega

variable {i ip : ℕ}

theorem Consistent.links_or_uses {u : ℕ → ℕ} (hc : Consistent n d u)
    (hi : (d i).type ≠ .free) : 0 < (d i).nlink ∨ 0 < u i := by
  by_cases h0 : (d i).nlink = 0
  · exact Or.inr (hc.anchored i hi h0)
  · have := hc.tree.nlink_nonneg i
    exact Or.inl (by omega)

theorem Consistent.not_gone {u w : ℕ → ℕ} (hc : Consistent n d u) (hi : (d i).type ≠ .free)
    (hlink : (d i).nlink ≤ (d' i).nlink) (huse : u i ≤ w i) :
    ¬((d' i).nlink = 0 ∧ w i = 0) := by
  rintro ⟨h0, hw⟩
  have := hc.links_or_uses hi
  omega

theorem lastUse_unlink_iff (hc : Consistent n d (uses pr)) {path str : List UInt8} {dp k : ℕ}
    {name : Name} (hstr : argstr path = some str) (hr : Removes d pr p str dp name ip k)
    (hi : (d i).type ≠ .free) :
    lastUse d pr p (.unlink path) i ↔ (unlinked d (uses pr) dp ip k i).nlink = 0 ∧ uses pr i = 0 := by
  have hlive := hc.links_or_uses hi
  rw [hc.tree.unlinked_nlink hr]
  have hne := hr.ne hc.tree
  constructor
  · rintro ⟨str', dp', name', ip', k', hstr', hr', h0, h1, hor⟩
    obtain rfl : str = str' := Option.some.inj (hstr.symm.trans hstr')
    obtain ⟨rfl, rfl⟩ := Prod.mk.inj (Option.some.inj (hr.parent.symm.trans hr'.parent))
    obtain ⟨rfl, rfl⟩ := Prod.mk.inj (Option.some.inj (hr.found.symm.trans hr'.found))
    refine ⟨?_, h0⟩
    rcases hor with rfl | ⟨rfl, hdir⟩
    · rw [if_pos rfl, if_neg (fun h => hne h.1), h1]
      rfl
    · rw [if_neg hne.symm, if_pos ⟨rfl, hdir⟩, h1]
      rfl
  · rintro ⟨h1, h0⟩
    refine ⟨str, dp, name, ip, k, hstr, hr, h0, ?_⟩
    by_cases hii : i = ip
    · rw [if_pos hii, if_neg (fun h => hne (hii ▸ h.1))] at h1
      exact ⟨by omega, Or.inl hii⟩
    rw [if_neg hii] at h1
    split_ifs at h1 with hd
    · exact ⟨by omega, Or.inr hd⟩
    · omega

theorem lastUse_chdir_iff (hc : Consistent n d (uses pr)) (ha : Alive pr p q c)
    {path str : List UInt8} {nm : Name} (hstr : argstr path = some str)
    (hw : walkPath d pr p false str = some (ip, nm)) (hdir : (d ip).type = .dir)
    (hi : (d i).type ≠ .free) :
    lastUse d pr p (.chdir path) i ↔ (d i).nlink = 0 ∧ uses (withCwd pr p (some ip)) i = 0 := by
  have hlive := hc.links_or_uses hi
  have hu := congrFun (uses_chdir ha ip) i
  simp only [Pi.add_apply, one_apply, count_singleton, beq_iff_eq] at hu
  constructor
  · rintro ⟨str', ip', nm', hstr', hw', -, hcwd, hne, h0, h1⟩
    obtain rfl : str = str' := Option.some.inj (hstr.symm.trans hstr')
    obtain ⟨rfl, -⟩ := Prod.mk.inj (Option.some.inj (hw.symm.trans hw'))
    rw [if_neg hne.symm, if_pos (ha.cwdOf.symm.trans hcwd.symm)] at hu
    exact ⟨h0, by omega⟩
  rintro ⟨h0, h1⟩
  refine ⟨str, ip, nm, hstr, hw, hdir, ?_⟩
  rw [ha.cwdOf]
  split_ifs at hu with h2 h3
  · omega
  · omega
  · exact ⟨by omega, fun h => h2 h.symm, h0, by omega⟩
  · omega

theorem lastUse_close_iff (hc : Consistent n d (uses pr)) (ha : Alive pr p q c) {fd j : ℕ}
    (hf : fileAt pr p fd = some i) (hj : (d j).type ≠ .free) :
    lastUse d pr p (.close fd) j ↔ (d j).nlink = 0 ∧ uses (withoutFile pr p fd) j = 0 := by
  have hlive := hc.links_or_uses hj
  have hu := congrFun (uses_withoutFile ha.proc (fileAt_some ha hf)) j
  simp only [Pi.add_apply, one_apply, count_singleton, beq_iff_eq] at hu
  constructor
  · rintro ⟨hf', h0, h1⟩
    rw [if_pos (Option.some.inj (hf.symm.trans hf'))] at hu
    exact ⟨h0, by omega⟩
  rintro ⟨h0, h1⟩
  split_ifs at hu with hij
  · exact ⟨hij ▸ hf, h0, by omega⟩
  · omega

theorem exit_uses (ha : Alive pr p q c) {d1 : ℕ → Dinode} {pr1 : List Proc} {q' : Proc}
    (ha' : Alive pr1 p q' c) (hf : exitTree d pr p (List.range nofile) = (d1, pr1)) (i : ℕ) :
    uses (withCwd pr1 p none) i+exitUses pr p i = uses pr i := by
  have hx := exitTree_uses (d := d) (nodup_range (n := nofile)) ha i
  have hc := ha'.uses_eq i
  rw [hf] at hx
  dsimp only at hx
  rw [one_apply] at hc
  rw [exitUses, ha.cwdOf, ← singleton_append, count_append]
  omega

theorem Tree.created_nlink_le (ht : Tree n d) {path : List UInt8} {dp : ℕ} {name : Name}
    {type : IType} {major minor : ℤ} (hcr : Creates n d pr p path dp name ip)
    (hdp : (d dp).nlink < 32767) (hi : (d i).type ≠ .free) :
    (d i).nlink ≤ (created d dp name ip type major minor i).nlink := by
  have hne : i ≠ ip := by
    rintro rfl
    exact hi (freeInum_some hcr.inum).2.2
  rw [ht.created_nlink hcr hdp, if_neg hne]
  split_ifs <;> omega

section
variable (hc : Consistent n d (uses pr)) (hsmall : ∀ i, (d i).nlink < 32767) (ha : Alive pr p q c)
  (he : Effect n d pr p call d' pr') (hi : (d i).type ≠ .free)
include hc hsmall ha he hi

theorem Effect.lastUse_iff : lastUse d pr p call i ↔ (d' i).nlink = 0 ∧ uses pr' i = 0 := by
  cases he with
  | fails h => exact iff_of_false (h.leave i) (hc.not_gone hi (le_refl _) (le_refl _))
  | opens _ hp _ hfd =>
    refine iff_of_false (fun h => h) (hc.not_gone hi (le_refl _) ?_)
    rw [uses_withFile hp hfd, Pi.add_apply]
    omega
  | creates hcr h =>
    refine iff_of_false ?_ (hc.not_gone hi ?_ (le_refl _))
    · cases call <;> first | exact fun h => h | cases hcr
    · exact hc.tree.created_nlink_le h (hsmall _) hi
  | createsOpen hcr h hp hfd =>
    refine iff_of_false (fun h => h) (hc.not_gone hi ?_ ?_)
    · exact hc.tree.created_nlink_le h (hsmall _) hi
    · rw [uses_withFile hp hfd, Pi.add_apply]
      omega
  | links ho hn h =>
    refine iff_of_false (fun h => h) (hc.not_gone hi ?_ (le_refl _))
    rw [(linked_type _ i).2, hc.tree.addLink_nlink (hsmall _)]
    split_ifs <;> omega
  | unlinks hstr h => exact lastUse_unlink_iff hc hstr h hi
  | chdirs hstr hw hd =>
    rw [released_nlink]
    exact lastUse_chdir_iff hc ha hstr hw hd hi
  | closes hf =>
    rw [released_nlink]
    exact lastUse_close_iff hc ha hf hi
  | @exits d1 pr1 hf =>
    obtain ⟨-, q', ha'⟩ := Consistent.exitTree (List.range nofile) ha hc
    have hnlink := exitTree_nlink d pr p (List.range nofile) i
    rw [hf] at ha' hnlink
    dsimp only at ha' hnlink
    have hu := exit_uses ha ha' hf i
    have hlive := hc.links_or_uses hi
    rw [released_nlink, hnlink]
    constructor
    · rintro ⟨h0, -, h1⟩
      exact ⟨h0, by omega⟩
    · rintro ⟨h0, h1⟩
      exact ⟨h0, by omega, by omega⟩

theorem Effect.free_iff : (d' i).type = .free ↔ lastUse d pr p call i := by
  have hc' := hc.effect hsmall ha he
  rw [he.lastUse_iff hc hsmall ha hi]
  constructor
  · intro hf
    refine ⟨hc'.tree.free i hf, ?_⟩
    by_contra hu
    exact hc'.held i (Nat.pos_of_ne_zero hu) hf
  rintro ⟨h0, hu⟩
  by_contra hf
  have := hc'.anchored i hf h0
  omega

end

end Xv6.Dir
