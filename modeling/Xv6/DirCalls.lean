import Xv6.DirSpec

/-! The system calls on names, each as one change of the directory tree and of the
processes' references. -/
namespace Xv6.Dir
open Function (update_of_ne update_self)
open Hoare List

structure Sane (d : ℕ → Dinode) (u : ℕ → ℕ) : Prop where
  anchored : Anchored d u
  sized : ∀ i, 0 ≤ (d i).nlink ∧ (d i).nlink < 32768
  held : ∀ i, 0 < u i → (d i).type ≠ .free
  number : ∀ i, (d i).type ≠ .free → 0 < i ∧ i < 65536
  root : (d rootIno).type = .dir
  apart : ∀ dp name ip k, (d dp).type = .dir → name ≠ dot → name ≠ dotdot → look d dp name = some (ip, k) → ip ≠ dp

variable {d : ℕ → Dinode} {pr : List Proc} {u h : ℕ → ℕ} {L : List ℕ} {E : Panic → Prop}

theorem Sane.grounded (hs : Sane d u) {p : ℕ} (hp : 0 < u (cwdOf pr p)) : Grounded d pr u p :=
  ⟨by rw [hs.root]; decide, hp, hs.held _ hp⟩

def created (d : ℕ → Dinode) (dp : ℕ) (name : Name) (i : ℕ) (type : IType) (major minor : ℤ) : ℕ → Dinode :=
  Function.update (Function.update d i ⟨type, major, minor, 1,
      if type = .dir then [⟨i, dot⟩, ⟨dp, dotdot⟩] else []⟩)
    dp { d dp with
      nlink := if type = .dir then short ((d dp).nlink+1) else (d dp).nlink
      ents := addEntry ⟨i, name⟩ (d dp).ents }

theorem freeInum_some {ninodes i : ℕ} (hf : freeInum ninodes d = some i) :
    0 < i ∧ i < ninodes ∧ (d i).type = .free := by
  have hmem := mem_of_find?_eq_some hf
  have htype := List.find?_some hf
  simp only [mem_range'_1] at hmem
  exact ⟨by omega, by omega, by simpa using htype⟩

theorem short_of_range {x : ℤ} (hx : -32768 ≤ x ∧ x < 32768) : short x = x := by
  unfold short
  omega

theorem short_succ_ne_zero {x : ℤ} (hx : 0 ≤ x ∧ x < 32768) : short (x+1) ≠ 0 := by
  unfold short
  omega

theorem look_congr {d' : ℕ → Dinode} {dp : ℕ} (he : (d' dp).ents = (d dp).ents) (name : Name) :
    look d' dp name = look d dp name := by
  simp only [look, he]

theorem makeDots_spec (hE : Benign E) {dp ip : ℕ} (hne : dp ≠ ip) {x : Dinode} (hx : d ip = x)
    (hdir : x.type = .dir) (hents : x.ents = []) (hip : 0 < ip ∧ ip < 65536) (hdp : dp < 65536) :
    Triple E (At d pr u h L) (makeDots dp ip)
      (fun _ => At (Function.update (Function.update d dp (addLinks 1 (d dp))) ip
        { x with ents := [⟨ip, dot⟩, ⟨dp, dotdot⟩] }) pr u h L) := by
  let d1 := Function.update d dp (addLinks 1 (d dp))
  have hip1 : d1 ip = x := by simp only [d1, update_of_ne hne.symm, hx]
  let d2 := linked d1 ip dot ip
  have hip2 : d2 ip = { x with ents := [⟨ip, dot⟩] } := by simp [d2, linked, hip1, hents, addEntry]
  have hip0 : ip ≠ 0 := by omega
  refine .bind (update_spec dp (addLinks 1) (fun ht => ht)) (fun _ => ?_)
  refine .bind (dirlink_spec (d := d1) hE ip dot ip (by rw [hip1]; exact hdir) hip.2) (fun r => ?_)
  have hl1 : look d1 ip dot = none := by simp [look, hip1, hents, findName]
  rw [hl1]
  apply Triple.assume
  rintro rfl
  refine .bind (dirlink_spec (d := d2) hE ip dotdot dp (by rw [hip2]; exact hdir) hdp) (fun r => ?_)
  have hl2 : look d2 ip dotdot = none := by simp [look, hip2, findName, dot, dotdot]
  rw [hl2]
  apply Triple.assume
  rintro rfl
  apply Triple.pure
  intro s hs
  have he : linked d2 ip dotdot dp = Function.update d1 ip { x with ents := [⟨ip, dot⟩, ⟨dp, dotdot⟩] } := by
    have hadd : addEntry ⟨dp, dotdot⟩ [⟨ip, dot⟩] = [⟨ip, dot⟩, ⟨dp, dotdot⟩] := by simp [addEntry, hip0]
    rw [linked, hip2, hadd]
    simp only [d2, linked, Function.update_idem]
  rw [he] at hs
  exact hs

def prepared (d : ℕ → Dinode) (dp i : ℕ) (type : IType) (major minor : ℤ) : ℕ → Dinode := Function.update
    (Function.update d i ⟨type, major, minor, 1,
      if type = .dir then [⟨i, dot⟩, ⟨dp, dotdot⟩] else []⟩)
    dp { d dp with nlink := if type = .dir then short ((d dp).nlink+1) else (d dp).nlink }

section Prepared
variable {dp ip : ℕ} {type : IType} {major minor : ℤ}

theorem prepared_parent : prepared d dp ip type major minor dp =
    { d dp with nlink := if type = .dir then short ((d dp).nlink+1) else (d dp).nlink } := by
  simp only [prepared, update_self]

theorem linked_prepared (name : Name) : linked (prepared d dp ip type major minor) dp name ip =
    created d dp name ip type major minor := by
  rw [linked, prepared_parent]
  simp only [prepared, created, Function.update_idem]

theorem prepared_of_not_dir (hne : dp ≠ ip) (hd : type ≠ .dir) :
    prepared d dp ip type major minor = Function.update d ip ⟨type, major, minor, 1, []⟩ := by
  have hdp : Function.update d ip ⟨type, major, minor, 1, []⟩ dp = d dp := update_of_ne hne _ _
  simp only [prepared, if_neg hd]
  rw [← hdp, Function.update_eq_self]

theorem prepared_of_dir (hne : dp ≠ ip) (hd : type = .dir) {x : Dinode} (hx : x = ⟨type, major, minor, 1, []⟩) :
    prepared d dp ip type major minor = Function.update (Function.update (Function.update d ip x) dp
      (addLinks 1 (Function.update d ip x dp))) ip { x with ents := [⟨ip, dot⟩, ⟨dp, dotdot⟩] } := by
  subst hx
  funext j
  simp only [prepared, hd, if_true, update_of_ne hne]
  by_cases hj : j = ip
  · rw [hj, update_of_ne hne.symm, update_self, update_self]
  by_cases hj' : j = dp
  · rw [hj', update_self, update_of_ne hne, update_self]
    rfl
  · simp only [update_of_ne hj, update_of_ne hj']

theorem created_anchored (hs : Sane d u) (hdfree : (d dp).type ≠ .free) {name : Name}
    (h0 : (created d dp name ip type major minor dp).nlink = 0) : 0 < u dp := by
  simp only [created, update_self] at h0
  split_ifs at h0
  · exact absurd h0 (short_succ_ne_zero (hs.sized dp))
  · exact hs.anchored dp hdfree h0

end Prepared

theorem createNew_spec (hE : Benign E) (hs : Sane d u) {ninodes dp : ℕ} (hn : ninodes ≤ 65536)
    {name : Name} {type : IType} (ht : type ≠ .free) (major minor : ℤ)
    (hdir : (d dp).type = .dir) (hlook : look d dp name = none) (hL : ∀ i ∈ L, 0 < u i+h i) :
    Triple E (At d pr u (h+one dp) (dp :: L)) (createNew ninodes dp name type major minor)
      (fun ip s => freeInum ninodes d = some ip ∧
        At (created d dp name ip type major minor) pr u (h+one ip) (ip :: L) s) := by
  have hdfree : (d dp).type ≠ .free := by rw [hdir]; decide
  refine .bind_and (ialloc_spec hE ninodes type ht) (fun ip hfree => ?_)
  obtain ⟨hpos, hlt, hty⟩ := freeInum_some hfree
  have hne : dp ≠ ip := by
    rintro rfl
    exact hdfree hty
  let x : Dinode := ⟨type, major, minor, 1, []⟩
  have hheld : 0 < u ip+(h+one dp+one ip) ip := by
    rw [add_one_self]
    omega
  refine .bind_and (ilock_spec hE ip hheld (Or.inr (by simpa using ht))) (fun _ _ => ?_)
  refine .bind (R := fun _ => At (Function.update d ip x) pr u (h+one dp+one ip) (ip :: dp :: L)) ?_ (fun _ => ?_)
  · apply (update_spec ip _ (fun ht => ht)).post
    intro _ s hs
    simpa [x] using hs
  refine .bind (R := fun _ => At (prepared d dp ip type major minor) pr u (h+one dp+one ip)
    (ip :: dp :: L)) ?_ (fun _ => ?_)
  · apply Triple.ite
    · intro hd
      apply (makeDots_spec hE hne (x := x) (by simp) hd rfl ⟨hpos, by omega⟩ (hs.number dp hdfree).2).post
      intro _ s hs
      rw [prepared_of_dir hne hd rfl]
      exact hs
    intro hd
    apply Triple.pure
    intro s hs
    rw [prepared_of_not_dir hne hd]
    exact hs
  · refine .bind (dirlink_spec hE dp name ip (by rw [prepared_parent]; exact hdir) (by omega)) (fun r => ?_)
    rw [look_congr (d := d) (by rw [prepared_parent]) name, hlook]
    apply Triple.assume
    rintro rfl
    rw [linked_prepared, add_right_comm h (one dp) (one ip)]
    refine .bind ((iunlockput_keep (L := ip :: L) hE dp ?_ ?_).pre (fun s hs => hs.mono ?_)) (fun _ => ?_)
    · intro h0
      have := created_anchored hs hdfree h0
      omega
    · intro hl
      have hu := hL dp ((mem_cons.mp hl).resolve_left hne)
      simp only [Pi.add_apply]
      omega
    · intro i hi
      simp only [mem_cons] at hi ⊢
      tauto
    · apply Triple.pure
      exact fun s hs => ⟨hfree, hs⟩

abbrev Idle (d : ℕ → Dinode) (pr : List Proc) (u : ℕ → ℕ) : Fs → Prop := At d pr u 0 []

abbrev Holding (d : ℕ → Dinode) (pr : List Proc) (u : ℕ → ℕ) (i : ℕ) : Fs → Prop := At d pr u (0+one i) [i]

/-- create puts the new inode `ip` under `name` into the directory `dp`. -/
structure Creates (ninodes : ℕ) (d : ℕ → Dinode) (pr : List Proc) (p : ℕ) (path : List UInt8)
    (dp : ℕ) (name : Name) (ip : ℕ) : Prop where
  parent : walkPath d pr p true path = some (dp, name)
  absent : look d dp name = none
  inum : freeInum ninodes d = some ip

theorem iunlockput_idle (hE : Benign E) {i : ℕ} (hkeep : (d i).nlink = 0 → 0 < u i) :
    Triple E (Holding d pr u i) (iunlockput i) (fun _ => Idle d pr u) := by
  apply iunlockput_keep hE i
  · intro h0
    have := hkeep h0
    omega
  · exact fun hl => absurd hl (not_mem_nil)

def Present (d : ℕ → Dinode) (pr : List Proc) (p : ℕ) (path : List UInt8) : Prop :=
  ∀ dp name, walkPath d pr p true path = some (dp, name) → look d dp name ≠ none

theorem create_spec (hE : Benign E) (hs : Sane d u) (hS : E .ilockNoType ∨ Solid d) {ninodes p : ℕ}
    (hn : ninodes ≤ 65536) (hp : 0 < u (cwdOf pr p)) (path : List UInt8) {type : IType}
    (ht : type ≠ .free) (major minor : ℤ) :
    Triple E (Idle d pr u) (create ninodes p path type major minor)
      (fun r s => (r = none ∧ Present d pr p path ∧ Idle d pr u s) ∨
        (∃ ip, r = some ip ∧ Present d pr p path ∧ (d ip).type ≠ .free ∧ Holding d pr u ip s) ∨
        (∃ ip dp name, r = some ip ∧ Creates ninodes d pr p path dp name ip ∧
          Holding (created d dp name ip type major minor) pr u ip s)) := by
  refine .bind_and (namex_spec hE hs.anchored hS (hs.grounded hp) true path (by simp)) (fun r hr => ?_)
  cases r with
  | none =>
    have hnone : Present d pr p path := by
      intro dp name hw
      rw [← hr] at hw
      cases hw
    apply Triple.pure
    exact fun s hs => Or.inl ⟨rfl, hnone, hs⟩
  | some x =>
    obtain ⟨dp, name⟩ := x
    have hdir : (d dp).type = .dir := walk_parent_dir hr.symm
    have hdfree : (d dp).type ≠ .free := by rw [hdir]; decide
    refine .bind_and (ilock_spec hE dp (by simp [heldBy]) (Or.inr hdfree)) (fun _ _ => ?_)
    refine .bind (dirlookup_spec hE dp name hdir) (fun r => ?_)
    apply Triple.assume
    intro hl
    cases r with
    | none =>
      refine .bind (createNew_spec hE hs hn ht major minor hdir hl.symm (by simp)) (fun ip => ?_)
      apply Triple.pure
      exact fun s hs => Or.inr (Or.inr ⟨ip, dp, name, rfl, ⟨hr.symm, hl.symm, hs.1⟩, hs.2⟩)
    | some x =>
      obtain ⟨ip, k⟩ := x
      have htaken : Present d pr p path := by
        intro dp' name' hw
        rw [← hr, Option.some.injEq, Prod.mk.injEq] at hw
        rw [← hw.1, ← hw.2, ← hl]
        simp
      have hswap : 0+one dp+one ip = 0+one ip+one dp := add_right_comm _ _ _
      refine .bind (R := fun _ => At d pr u (0+one ip) []) ?_ (fun _ => ?_)
      · apply (iunlockput_keep hE dp ?_ ?_).pre
        · intro s hs
          exact hswap ▸ hs.1
        · intro h0
          have := hs.anchored dp hdfree h0
          omega
        · exact fun hl => absurd hl (not_mem_nil)
      have hfound : E .ilockNoType ∨ (d ip).type ≠ .free := hS.imp_right (fun hs => look_type hs hdir hl.symm)
      refine .bind_and (ilock_spec hE ip (by simp) hfound) (fun _ hip => ?_)
      apply dinode_spec
      apply Triple.ite
      · intro _
        apply Triple.pure
        exact fun s hs => Or.inr (Or.inl ⟨ip, rfl, htaken, hip, hs⟩)
      intro _
      refine .bind (iunlockput_idle hE (hs.anchored ip hip)) (fun _ => ?_)
      apply Triple.pure
      exact fun s hs => Or.inl ⟨rfl, htaken, hs⟩

end Xv6.Dir
