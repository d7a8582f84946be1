import Xv6.DirStep
import Xv6.Indegree

/-! The directory tree as a graph: which entries name an inode, and what the link counts
have to cover. -/
namespace Xv6.Dir
open Function (update_self update_of_ne)
open Multigraph List

/-- The used entries behind "." and "..". -/
def Dinode.live (x : Dinode) : Multiset Dirent := (x.ents.drop 2).filter (fun e => decide (e.inum ≠ 0))

def Dinode.up (x : Dinode) : ℕ := (slot x.ents 1).inum

variable {n : ℕ} {d : ℕ → Dinode}

def names (n : ℕ) (d : ℕ → Dinode) : ℕ → ℕ := indegree n (fun v => (d v).live) Dirent.inum

def subdirs (d : ℕ → Dinode) (i : ℕ) : ℕ := (d i).live.countP (fun e => (d e.inum).type = .dir)

/-- The names of an inode and the ".." of its subdirectories; the root has one more. -/
def links (n : ℕ) (d : ℕ → Dinode) (i : ℕ) : ℕ := names n d i+subdirs d i+if i = rootIno then 1 else 0

/-- A tree of directories below inode number `n` whose link counts cover the names. -/
structure Tree (n : ℕ) (d : ℕ → Dinode) : Prop where
  root : (d rootIno).type = .dir
  rootUp : (d rootIno).up = rootIno
  range : ∀ i, (d i).type ≠ .free → 0 < i ∧ i < n
  free : ∀ i, (d i).type = .free → (d i).nlink = 0
  plain : ∀ i, (d i).type ≠ .dir → (d i).ents = []
  formed : ∀ i, (d i).type = .dir → ∃ p rest, p ≠ 0 ∧ (d i).ents = ⟨i, dot⟩ :: ⟨p, dotdot⟩ :: rest
  proper : ∀ i, ∀ e ∈ (d i).live, e.name ≠ dot ∧ e.name ≠ dotdot
  child : ∀ i, ∀ e ∈ (d i).live, (d e.inum).type = .dir → (d e.inum).up = i ∧ e.inum ≠ i
  covered : ∀ i, (links n d i : ℤ) ≤ (d i).nlink
  small : ∀ i, (d i).nlink < 32768

variable {x : Dinode} {e a : Dirent} {l : List Dirent} {i k dp ip : ℕ} {name : Name}

theorem mem_live : e ∈ x.live ↔ e ∈ x.ents.drop 2 ∧ e.inum ≠ 0 := by simp [Dinode.live]

theorem live_dots {b : Dirent} (hx : x.ents = a :: b :: l) : x.live = ↑(l.filter (fun e => decide (e.inum ≠ 0))) := by
  simp only [Dinode.live, hx, drop_succ_cons, drop_zero]

theorem live_of_nil (hx : x.ents = []) : x.live = 0 := by simp [Dinode.live, hx]

theorem isdirempty_iff : isdirempty x = true ↔ x.live = 0 := by simp [isdirempty, Dinode.live]

theorem Tree.live_lt (ht : Tree n d) (he : e ∈ (d i).live) : (d i).type = .dir ∧ i < n := by
  have hdir : (d i).type = .dir := by
    by_contra hne
    rw [live_of_nil (ht.plain i hne)] at he
    exact absurd he (Multiset.notMem_zero e)
  exact ⟨hdir, (ht.range i (by rw [hdir]; decide)).2⟩

theorem Tree.names_pos (ht : Tree n d) (he : e ∈ (d i).live) : 0 < names n d e.inum :=
  indegree_pos_iff.mpr ⟨i, (ht.live_lt he).2, e, he, rfl⟩

theorem Tree.nlink_nonneg (ht : Tree n d) (i : ℕ) : 0 ≤ (d i).nlink := by
  have := ht.covered i
  omega

theorem Tree.links_eq_zero (ht : Tree n d) (h0 : (d i).nlink = 0) :
    names n d i = 0 ∧ subdirs d i = 0 ∧ i ≠ rootIno := by
  have := ht.covered i
  unfold links at this
  split_ifs at this with hi
  · omega
  · exact ⟨by omega, by omega, hi⟩

theorem Tree.not_named (ht : Tree n d) (h0 : (d i).nlink = 0) {v : ℕ} (he : e ∈ (d v).live) : e.inum ≠ i := by
  rintro rfl
  have := ht.names_pos he
  have := (ht.links_eq_zero h0).1
  omega

theorem Tree.allocated (ht : Tree n d) {v : ℕ} (he : e ∈ (d v).live) : (d e.inum).type ≠ .free :=
  fun hf => ht.not_named (ht.free _ hf) he rfl

theorem live_update (i : ℕ) (x : Dinode) :
    (fun v => (Function.update d i x v).live) = Function.update (fun v => (d v).live) i x.live := by
  funext v
  by_cases hv : v = i
  · subst hv
    simp only [update_self]
  · simp only [update_of_ne hv]

theorem subdirs_update (hx : x.type = (d i).type) (j : ℕ) : subdirs (Function.update d i x) j =
      (Function.update d i x j).live.countP (fun e => (d e.inum).type = .dir) := by
  have htype (v : ℕ) : (Function.update d i x v).type = (d v).type := by
    by_cases hv : v = i
    · subst hv
      rw [update_self, hx]
    · rw [update_of_ne hv]
  simp only [subdirs, htype]

theorem links_update_same (hx : x.type = (d i).type)
    (he : x.ents = (d i).ents) : links n (Function.update d i x) = links n d := by
  have hlive : x.live = (d i).live := by simp only [Dinode.live, he]
  funext j
  have hj : (Function.update d i x j).live = (d j).live := by
    rw [congrFun (live_update i x) j, hlive, Function.update_eq_self]
  simp only [links, names, live_update, hlive, Function.update_eq_self]
  rw [subdirs_update hx, hj, subdirs]

theorem Tree.setLinks (ht : Tree n d) {v : ℤ} (hv : (links n d i : ℤ) ≤ v) (hs : v < 32768)
    (hf : (d i).type = .free → v = 0) :
    Tree n (Function.update d i { d i with nlink := v }) := by
  have hl := links_update_same (n := n) (d := d) (i := i) (x := { d i with nlink := v }) rfl rfl
  have key (j : ℕ) : ∃ w, Function.update d i { d i with nlink := v } j = { d j with nlink := w } ∧
      (links n d j : ℤ) ≤ w ∧ w < 32768 ∧ ((d j).type = .free → w = 0) := by
    by_cases hj : j = i
    · subst hj
      exact ⟨v, update_self .., hv, hs, hf⟩
    · exact ⟨(d j).nlink, update_of_ne hj .., ht.covered j, ht.small j, ht.free j⟩
  choose w hw hcov hsmall hfree using key
  have hsub := funext hw
  rw [hsub] at hl ⊢
  exact {
    root := ht.root
    rootUp := ht.rootUp
    range := ht.range
    free := hfree
    plain := ht.plain
    formed := ht.formed
    proper := ht.proper
    child := ht.child
    covered := fun j => by
      rw [hl]
      exact hcov j
    small := hsmall }

theorem links_cons (hi : i < n) (hx : x.type = (d i).type) (hlive : x.live = e ::ₘ (d i).live) (j : ℕ) :
    links n (Function.update d i x) j = links n d j+(if e.inum = j then 1 else 0)+
      if j = i ∧ (d e.inum).type = .dir then 1 else 0 := by
  have hnames : names n (Function.update d i x) j = names n d j+if e.inum = j then 1 else 0 := by
    simp only [names, live_update, hlive]
    exact indegree_cons (fun v => (d v).live) _ hi e j
  have hsub : subdirs (Function.update d i x) j = subdirs d j+if j = i ∧ (d e.inum).type = .dir then 1 else 0 := by
    rw [subdirs_update hx]
    by_cases hj : j = i
    · subst hj
      simp only [update_self, hlive, Multiset.countP_cons, subdirs, true_and]
    · simp only [update_of_ne hj, hj, false_and, if_false, subdirs, add_zero]
  simp only [links, hnames, hsub]
  omega

theorem Tree.setRest (ht : Tree n d) {p : ℕ}
    (hdir : (d i).type = .dir) (hold : (d i).ents = ⟨i, dot⟩ :: ⟨p, dotdot⟩ :: l)
    {m : List Dirent} (hx : x = { d i with ents := ⟨i, dot⟩ :: ⟨p, dotdot⟩ :: m })
    (hproper : ∀ e ∈ x.live, e.name ≠ dot ∧ e.name ≠ dotdot)
    (hchild : ∀ e ∈ x.live, (d e.inum).type = .dir → (d e.inum).up = i ∧ e.inum ≠ i)
    (hcov : ∀ j, (links n (Function.update d i x) j : ℤ) ≤ (d j).nlink) :
    Tree n (Function.update d i x) := by
  have hp : p ≠ 0 := by
    obtain ⟨p', l', hp', hents⟩ := ht.formed i hdir
    rw [hold] at hents
    simp only [List.cons.injEq, Dirent.mk.injEq, and_true, true_and] at hents
    exact hents.1 ▸ hp'
  have hup : x.up = (d i).up := by simp [hx, Dinode.up, slot, hold]
  have hsame (j : ℕ) : (Function.update d i x j).type = (d j).type ∧
      (Function.update d i x j).nlink = (d j).nlink ∧ (Function.update d i x j).up = (d j).up := by
    by_cases hj : j = i
    · subst hj
      simp only [update_self]
      exact ⟨by rw [hx], by rw [hx], hup⟩
    · simp only [update_of_ne hj, and_self]
  have hcases {P : ℕ → Dinode → Prop} (hi : P i x) (hd : ∀ j, P j (d j)) (j : ℕ) : P j (Function.update d i x j) := by
    by_cases hj : j = i
    · rw [hj, update_self]
      exact hi
    · rw [update_of_ne hj]
      exact hd j
  exact {
    root := by rw [(hsame _).1, ht.root]
    rootUp := by rw [(hsame _).2.2, ht.rootUp]
    range := fun j => by
      rw [(hsame j).1]
      exact ht.range j
    free := fun j => by
      rw [(hsame j).1, (hsame j).2.1]
      exact ht.free j
    plain := hcases (P := fun _ y => y.type ≠ .dir → y.ents = [])
      (fun hne => absurd (by rw [hx]; exact hdir) hne) ht.plain
    formed := hcases (P := fun j y => y.type = .dir → ∃ p rest, p ≠ 0 ∧ y.ents = ⟨j, dot⟩ :: ⟨p, dotdot⟩ :: rest)
      (fun _ => ⟨p, m, hp, by rw [hx]⟩) ht.formed
    proper := hcases (P := fun _ y => ∀ e ∈ y.live, e.name ≠ dot ∧ e.name ≠ dotdot) hproper ht.proper
    child := by
      simp only [hsame]
      exact hcases (P := fun j y => ∀ e ∈ y.live, (d e.inum).type = .dir →
        (d e.inum).up = j ∧ e.inum ≠ j) hchild ht.child
    covered := fun j => by
      rw [(hsame j).2.1]
      exact hcov j
    small := fun j => by
      rw [(hsame j).2.1]
      exact ht.small j }

theorem addEntry_dots {b : Dirent} (ha : a.inum ≠ 0) (hb : b.inum ≠ 0) (l : List Dirent) :
    addEntry e (a :: b :: l) = a :: b :: addEntry e l := by
  unfold addEntry
  simp only [List.findIdx?_cons, ha, hb, decide_false, Bool.false_eq_true, if_false]
  cases l.findIdx? (fun e => decide (e.inum = 0)) <;> simp

theorem filter_set_unused (hk : l[k]? = some a) (ha : a.inum = 0) (he : e.inum ≠ 0) :
    (((l.set k e).filter (fun e => decide (e.inum ≠ 0)) : List Dirent) : Multiset Dirent) =
      e ::ₘ ↑(l.filter (fun e => decide (e.inum ≠ 0))) := by
  induction l generalizing k with
  | nil => simp at hk
  | cons b l ih =>
    cases k with
    | zero =>
      obtain rfl : b = a := by simpa using hk
      simp [ha, he]
    | succ k =>
      have hl := ih (k := k) (by simpa using hk)
      by_cases hb : b.inum = 0
      · simpa [hb] using hl
      · simp only [set_cons_succ, filter_cons, hb, ne_eq, not_false_eq_true, decide_true,
          if_true, ← Multiset.cons_coe] at hl ⊢
        rw [hl, Multiset.cons_swap]

theorem filter_addEntry (he : e.inum ≠ 0) (l : List Dirent) :
    (((addEntry e l).filter (fun e => decide (e.inum ≠ 0)) : List Dirent) : Multiset Dirent) =
      e ::ₘ ↑(l.filter (fun e => decide (e.inum ≠ 0))) := by
  unfold addEntry
  cases hk : l.findIdx? (fun e => decide (e.inum = 0)) with
  | none => simp [filter_append, he]
  | some =>
    obtain ⟨hlt, hz, -⟩ := List.findIdx?_eq_some_iff_getElem.mp hk
    exact filter_set_unused (List.getElem?_eq_getElem hlt) (by simpa using hz) he

section
variable (ht : Tree n d)
include ht

theorem Tree.inum_ne (hi : (d i).type ≠ .free) : i ≠ 0 := Nat.pos_iff_ne_zero.mp (ht.range i hi).1

theorem Tree.linked_ents (hdir : (d dp).type = .dir) (name : Name) (ip : ℕ) :
    ∃ p l, (d dp).ents = ⟨dp, dot⟩ :: ⟨p, dotdot⟩ :: l ∧ linked d dp name ip = Function.update d dp
        { d dp with ents := ⟨dp, dot⟩ :: ⟨p, dotdot⟩ :: addEntry ⟨ip, name⟩ l } := by
  obtain ⟨p, l, hp, hents⟩ := ht.formed dp hdir
  have hdp : dp ≠ 0 := ht.inum_ne (by rw [hdir]; decide)
  refine ⟨p, l, hents, ?_⟩
  rw [linked, hents, addEntry_dots hdp hp]

theorem Tree.linked_live (hdir : (d dp).type = .dir) (hip : ip ≠ 0)
    (name : Name) : (linked d dp name ip dp).live = ⟨ip, name⟩ ::ₘ (d dp).live := by
  obtain ⟨p, l, hents, hl⟩ := ht.linked_ents hdir name ip
  rw [hl, update_self, live_dots rfl, live_dots hents]
  exact filter_addEntry hip l

theorem Tree.links_linked (hdir : (d dp).type = .dir) (hip : ip ≠ 0) (name : Name) (j : ℕ) :
    links n (linked d dp name ip) j = links n d j+(if ip = j then 1 else 0)+
      if j = dp ∧ (d ip).type = .dir then 1 else 0 := by
  have hlive := ht.linked_live hdir hip name
  have hdp := (ht.range dp (by rw [hdir]; decide)).2
  rw [linked, update_self] at hlive
  exact links_cons (x := { d dp with ents := addEntry ⟨ip, name⟩ (d dp).ents }) hdp rfl hlive j

theorem Tree.enter (hdir : (d dp).type = .dir) (hip : ip ≠ 0) (hname : name ≠ dot ∧ name ≠ dotdot)
    (hchild : (d ip).type = .dir → (d ip).up = dp ∧ ip ≠ dp)
    (hcov : (links n d ip+1 : ℤ) ≤ (d ip).nlink)
    (hcovdir : (d ip).type = .dir → (links n d dp+1 : ℤ) ≤ (d dp).nlink) :
    Tree n (linked d dp name ip) := by
  obtain ⟨p, l, hents, hl⟩ := ht.linked_ents hdir name ip
  have hlive := ht.linked_live hdir hip name
  have hlinks := ht.links_linked hdir hip name
  rw [hl] at hlive hlinks ⊢
  rw [update_self] at hlive
  apply ht.setRest hdir hents rfl
  · intro e he
    rw [hlive, Multiset.mem_cons] at he
    rcases he with rfl | he
    · exact hname
    · exact ht.proper dp e he
  · intro e he
    rw [hlive, Multiset.mem_cons] at he
    rcases he with rfl | he
    · exact hchild
    · exact ht.child dp e he
  intro j
  rw [hlinks]
  have hj := ht.covered j
  by_cases hjp : ip = j
  · subst hjp
    have hne : ¬(ip = dp ∧ (d ip).type = .dir) := fun h => (hchild h.2).2 h.1
    simp only [if_true, if_neg hne, add_zero]
    push_cast
    exact hcov
  rw [if_neg hjp]
  split_ifs with hd
  · have := hcovdir hd.2
    rw [hd.1]
    push_cast
    omega
  · simpa using hj

theorem Tree.look_some (hdir : (d dp).type = .dir)
    (hname : name ≠ dot ∧ name ≠ dotdot) (hl : look d dp name = some (ip, k)) :
    ∃ p l, (d dp).ents = ⟨dp, dot⟩ :: ⟨p, dotdot⟩ :: l ∧ ip ≠ 0 ∧ ∃ j, k = j+2 ∧ l[j]? = some ⟨ip, name⟩ := by
  obtain ⟨k', hk, he⟩ := Option.map_eq_some_iff.mp hl
  obtain ⟨hlt, hpk, -⟩ := List.findIdx?_eq_some_iff_getElem.mp hk
  have hslot : slot (d dp).ents k' = (d dp).ents[k'] := by simp [slot, hlt]
  rw [hslot, Prod.mk.injEq] at he
  obtain ⟨hin, rfl⟩ := he
  simp only [Bool.and_eq_true, decide_eq_true_eq, hin] at hpk
  have hget : (d dp).ents[k']? = some ⟨ip, name⟩ := by rw [List.getElem?_eq_getElem hlt, ← hin, ← hpk.2]
  obtain ⟨p, l, -, hents⟩ := ht.formed dp hdir
  refine ⟨p, l, hents, hpk.1, ?_⟩
  rw [hents] at hget
  rcases k' with _ | _ | j
  · simp only [List.getElem?_cons_zero, Option.some.injEq, Dirent.mk.injEq] at hget
    exact absurd hget.2.symm hname.1
  · simp only [List.getElem?_cons_succ, List.getElem?_cons_zero, Option.some.injEq, Dirent.mk.injEq] at hget
    exact absurd hget.2.symm hname.2
  · exact ⟨j, rfl, by simpa using hget⟩

theorem Tree.look_live (hdir : (d dp).type = .dir)
    (hname : name ≠ dot ∧ name ≠ dotdot) (hl : look d dp name = some (ip, k)) :
    ⟨ip, name⟩ ∈ (d dp).live := by
  obtain ⟨p, l, hents, hip, j, -, hj⟩ := ht.look_some hdir hname hl
  rw [mem_live, hents]
  exact ⟨mem_of_getElem? hj, hip⟩

theorem Tree.name_of_absent (hdir : (d dp).type = .dir) (hl : look d dp name = none) : name ≠ dot ∧ name ≠ dotdot := by
  obtain ⟨p, l, hp, hents⟩ := ht.formed dp hdir
  have hdp : dp ≠ 0 := ht.inum_ne (by rw [hdir]; decide)
  have hnone := List.findIdx?_eq_none_iff.mp (Option.map_eq_none_iff.mp hl)
  have hdot := hnone ⟨dp, dot⟩ (by simp [hents])
  have hdotdot := hnone ⟨p, dotdot⟩ (by simp [hents])
  simp only [ne_eq, hdp, hp, not_false_eq_true, decide_true, Bool.true_and, decide_eq_false_iff_not] at hdot hdotdot
  exact ⟨fun h => hdot h.symm, fun h => hdotdot h.symm⟩

end

end Xv6.Dir
