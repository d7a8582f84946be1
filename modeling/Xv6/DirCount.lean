import Xv6.DirExact

/-! Link counts and the entries of live directories. -/
namespace Xv6.Dir
open Multigraph Runs Multiset

variable {n : ℕ} {d d' : ℕ → Dinode} {pr : List Proc} {p dp ip k : ℕ} {path : List UInt8}
  {name : Name}

/-- The entries other than "." that name `i` in the directories with links. The root's own ".."
is among them and makes up for the link the root starts with. -/
def linkCount (n : ℕ) (d : ℕ → Dinode) (i : ℕ) : ℕ := ∑ v ∈ Finset.range n, if (d v).type = .dir ∧ 0 < (d v).nlink
    then (d v).ents.countP (fun e => decide (e.inum = i ∧ e.name ≠ dot)) else 0

variable {i m : ℕ}

theorem Tree.countP_ents (ht : Tree n d) {v : ℕ} (hv : (d v).type = .dir) (hi : i ≠ 0) :
    (d v).ents.countP (fun e => decide (e.inum = i ∧ e.name ≠ dot)) =
      (d v).live.countP (fun e => e.inum = i)+if (d v).up = i then 1 else 0 := by
  obtain ⟨q, rest, hq, hents⟩ := ht.formed v hv
  have hup : (d v).up = q := by simp [Dinode.up, slot, hents]
  have hrest : rest.countP (fun e => decide (e.inum = i ∧ e.name ≠ dot)) =
      (rest.filter (fun e => decide (e.inum ≠ 0))).countP (fun e => decide (e.inum = i)) := by
    rw [List.countP_filter]
    apply List.countP_congr
    intro e he
    simp only [decide_eq_true_eq, Bool.and_eq_true]
    constructor
    · rintro ⟨rfl, -⟩
      exact ⟨rfl, hi⟩
    rintro ⟨rfl, h0⟩
    refine ⟨rfl, (ht.proper v e ?_).1⟩
    rw [mem_live, hents]
    exact ⟨he, h0⟩
  have hdd : dotdot ≠ dot := by decide
  rw [live_dots hents, coe_countP, hents, List.countP_cons, List.countP_cons, hrest, hup]
  simp [hdd]

theorem names_by_up (ht : Tree n d) (honce : ∀ i, (d i).type = .dir → names n d i ≤ 1)
    (hreach : ∀ i, (d i).nlink ≠ 0 → Linked d i) {v : ℕ} (hv : (d v).type = .dir) :
    (d i).live.countP (fun e => e.inum = v)+(if v = rootIno ∧ i = rootIno then 1 else 0) =
      if 0 < (d v).nlink ∧ (d v).up = i then 1 else 0 := by
  have hnamed : 0 < (d i).live.countP (fun e => e.inum = v) → (d v).up = i ∧ v ≠ i ∧ 0 < (d v).nlink := by
    intro hpos
    obtain ⟨e, he, rfl⟩ := countP_pos.mp hpos
    obtain ⟨hup, hne⟩ := ht.child i e he hv
    have hn := ht.names_pos he
    have hcov := ht.covered e.inum
    unfold links at hcov
    exact ⟨hup, hne, by omega⟩
  have hone : (d i).live.countP (fun e => e.inum = v) ≤ 1 := by
    by_cases hi : i < n
    · have h1 := honce v hv
      have h2 : (d i).live.countP (fun e => e.inum = v) ≤ names n d v :=
        Finset.single_le_sum (f := fun w => (d w).live.countP (fun e => e.inum = v))
          (fun _ _ => Nat.zero_le _) (Finset.mem_range.mpr hi)
      omega
    · by_contra hlt
      have hpos : 0 < (d i).live.countP (fun e => e.inum = v) := by omega
      obtain ⟨e, he, -⟩ := countP_pos.mp hpos
      exact hi (ht.live_lt he).2
  by_cases hroot : v = rootIno
  · subst hroot
    have hcov := ht.covered rootIno
    unfold links at hcov
    rw [if_pos rfl] at hcov
    have hzero : (d i).live.countP (fun e => e.inum = rootIno) = 0 := by
      by_contra hne
      obtain ⟨hup, hne', -⟩ := hnamed (Nat.pos_of_ne_zero hne)
      exact hne' (ht.rootUp.symm.trans hup)
    have hpos : 0 < (d rootIno).nlink := by omega
    simp only [hzero, hpos, ht.rootUp, true_and, zero_add, eq_comm (a := i)]
  · rw [if_neg (fun h => hroot h.1), add_zero]
    split_ifs with hup
    · have hpos : 0 < (d i).live.countP (fun e => e.inum = v) := by
        have hl := hreach v (by omega)
        cases hl with
        | root => exact absurd rfl hroot
        | @child j e _ he =>
          have hj := (ht.child j e he hv).1
          rw [countP_pos]
          exact ⟨e, hup.2.symm.trans hj ▸ he, rfl⟩
      omega
    · by_contra hne
      obtain ⟨hu, -, hl⟩ := hnamed (Nat.pos_of_ne_zero hne)
      exact hup ⟨hl, hu⟩

theorem linkCount_eq_links (ht : Tree n d) (honce : ∀ i, (d i).type = .dir → names n d i ≤ 1)
    (hempty : ∀ i, (d i).nlink = 0 → (d i).live = 0)
    (hreach : ∀ i, (d i).nlink ≠ 0 → Linked d i) (hi : i ≠ 0) :
    linkCount n d i = links n d i := by
  have hterm (v : ℕ) : (if (d v).type = .dir ∧ 0 < (d v).nlink
      then (d v).ents.countP (fun e => decide (e.inum = i ∧ e.name ≠ dot)) else 0) =
      (d v).live.countP (fun e => e.inum = i)+
        ((if (d v).type = .dir then (d i).live.countP (fun e => e.inum = v) else 0)+
          if v = rootIno then (if i = rootIno then 1 else 0) else 0) := by
    by_cases hdir : (d v).type = .dir
    · have hup := names_by_up ht honce hreach (i := i) hdir
      have hif : (if v = rootIno then (if i = rootIno then 1 else 0) else 0) =
          if v = rootIno ∧ i = rootIno then 1 else 0 := (ite_and ..).symm
      rw [if_pos hdir, hif, hup]
      by_cases hpos : 0 < (d v).nlink
      · rw [if_pos ⟨hdir, hpos⟩, ht.countP_ents hdir hi]
        simp only [hpos, true_and]
      have h0 : (d v).nlink = 0 := by
        have := ht.nlink_nonneg v
        omega
      rw [if_neg (fun h => hpos h.2), if_neg (fun h => hpos h.1), hempty v h0, countP_zero]
    · have hroot : v ≠ rootIno := by
        rintro rfl
        exact hdir ht.root
      rw [if_neg (fun h => hdir h.1), if_neg hdir, if_neg hroot, live_of_nil (ht.plain v hdir), countP_zero]
  have hrange (e : Dirent) (he : e ∈ (d i).live) : e.inum < n := (ht.range e.inum (ht.allocated he)).2
  have hsub : subdirs d i =
      ∑ v ∈ Finset.range n, if (d v).type = .dir then (d i).live.countP (fun e => e.inum = v) else 0 :=
    countP_eq_sum_targets Dirent.inum (fun v => (d v).type = .dir) hrange
  have hrootlt : rootIno < n := (ht.range rootIno (by rw [ht.root]; decide)).2
  calc
    linkCount n d i = ∑ v ∈ Finset.range n, ((d v).live.countP (fun e => e.inum = i)+
        ((if (d v).type = .dir then (d i).live.countP (fun e => e.inum = v) else 0)+
          if v = rootIno then (if i = rootIno then 1 else 0) else 0)) :=
      Finset.sum_congr rfl (fun v _ => hterm v)
    _ = names n d i+(subdirs d i+if i = rootIno then 1 else 0) := by
      rw [Finset.sum_add_distrib, Finset.sum_add_distrib, Finset.sum_ite_eq',
        if_pos (Finset.mem_range.mpr hrootlt), hsub]
      rfl
    _ = links n d i := (Nat.add_assoc ..).symm

theorem walk_snoc {j : ℕ} {es : List Name} (hw : walk d false i es = some (j, []))
    (hdir : (d j).type = .dir) {name : Name} (hl : look d j name = some (m, k)) :
    walk d false i (es ++ [name]) = some (m, []) := by
  induction es generalizing i with
  | nil =>
    obtain rfl : i = j := by simpa [walk] using hw
    simp [walk, hdir, hl]
  | cons nm es ih =>
    simp only [walk, List.cons_append, Bool.false_eq_true, false_and, if_false, ne_eq, ite_not] at hw ⊢
    split_ifs at hw ⊢ with hd
    cases hn : look d i nm with
    | none =>
      rw [hn] at hw
      cases hw
    | some =>
      rw [hn] at hw
      exact ih hw

theorem Tree.look_of_live (ht : Tree n d) (hunique : ∀ e ∈ (d dp).live, ∀ e' ∈ (d dp).live, e.name = e'.name → e = e')
    {e : Dirent} (he : e ∈ (d dp).live) : ∃ k, look d dp e.name = some (e.inum, k) := by
  have hdir := (ht.live_lt he).1
  cases hl : look d dp e.name with
  | none => exact absurd rfl (absent_live hl he)
  | some x =>
    obtain ⟨i, k⟩ := x
    have hmem := ht.look_live hdir (ht.proper dp e he) hl
    have heq := hunique _ hmem e he rfl
    exact ⟨k, by rw [← heq]⟩

theorem Tree.walk_of_linked (ht : Tree n d)
    (hunique : ∀ i, ∀ e ∈ (d i).live, ∀ e' ∈ (d i).live, e.name = e'.name → e = e')
    (h : Linked d i) : ∃ es, walk d false rootIno es = some (i, []) := by
  induction h with
  | root => exact ⟨[], rfl⟩
  | @child j e _ he ih =>
    obtain ⟨es, hes⟩ := ih
    obtain ⟨k, hk⟩ := ht.look_of_live (hunique j) he
    exact ⟨_, walk_snoc hes (ht.live_lt he).1 hk⟩

theorem Tree.linked_of_look (ht : Tree n d) (h : Linked d i) (hdir : (d i).type = .dir)
    (hl : look d i name = some (m, k)) : Linked d m := by
  by_cases hproper : name ≠ dot ∧ name ≠ dotdot
  · exact h.child (ht.look_live hdir hproper hl)
  obtain ⟨q, rest, hq, hents⟩ := ht.formed i hdir
  have hup : (d i).up = q := by simp [Dinode.up, slot, hents]
  have hi : i ≠ 0 := ht.inum_ne (by rw [hdir]; decide)
  have hparent : Linked d q := by
    cases h with
    | root => exact (hup.symm.trans ht.rootUp) ▸ Linked.root
    | child hj he => exact (hup.symm.trans (ht.child _ _ he hdir).1) ▸ hj
  have hdd : dot ≠ dotdot := by decide
  by_cases hdot : name = dot
  · rw [look, hents, findName, List.findIdx?_cons] at hl
    simp [hdot, hi, slot] at hl
    exact hl.1 ▸ h
  have hdotdot : name = dotdot := by
    by_contra hne
    exact hproper ⟨hdot, hne⟩
  rw [look, hents, findName, List.findIdx?_cons, List.findIdx?_cons] at hl
  simp [hdotdot, hdd, hq, slot] at hl
  exact hl.1 ▸ hparent

theorem Tree.linked_of_walk (ht : Tree n d) {es : List Name} {nm : Name} (h : Linked d i)
    (hw : walk d false i es = some (m, nm)) : Linked d m := by
  induction es generalizing i with
  | nil =>
    simp only [walk, Bool.false_eq_true, if_false, Option.some.injEq, Prod.mk.injEq] at hw
    exact hw.1 ▸ h
  | cons name es ih =>
    simp only [walk, Bool.false_eq_true, false_and, if_false, ne_eq, ite_not] at hw
    split_ifs at hw with hdir
    cases hl : look d i name with
    | none =>
      rw [hl] at hw
      cases hw
    | some =>
      rw [hl] at hw
      exact ih (ht.linked_of_look h hdir hl) hw

end Xv6.Dir
