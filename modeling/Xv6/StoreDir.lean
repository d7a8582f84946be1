import Xv6.StoreWrite

/-! The operations on directories: dirlink, namex, create and unlink keep the invariant. -/
namespace Xv6.Store
open Bytes Hoare

variable {sb : Superblock} {p p' : Parts} {E : Panic → Prop} {dp ip : ℕ}

def Sane (sb : Superblock) (s : Fs) : Prop := ∃ p : Parts, p.Sound sb ∧ At sb p s

theorem entryWrite_kernelMem {bs : List UInt8} {off : ℕ} (hoff : off%direntSize = 0)
    (hinum : leNat [bs.getD 0 0, bs.getD 1 0] < sb.ninodes) :
    EntryWrite sb (kernelMem bs) 0 off direntSize := by
  refine ⟨hoff, rfl, fun _ _ => rfl, fun a b ha hb => ?_⟩
  rw [← Option.some.inj ha, ← Option.some.inj hb]
  exact hinum

theorem leNat_direntBytes {inum : ℕ} (name : Dir.Name) (h : inum < sb.ninodes) :
    leNat [(direntBytes inum name).getD 0 0, (direntBytes inum name).getD 1 0] < sb.ninodes := by
  have heq : [(direntBytes inum name).getD 0 0, (direntBytes inum name).getD 1 0] = leBytes 2 inum := rfl
  rw [heq, leNat_leBytes]
  exact (Nat.mod_le _ _).trans_lt h

theorem dirlink_spec (hE : Calm E) (hg : Geometry sb) (h : p.Sound sb) (hl : p.Locked sb dp)
    (name : Dir.Name) {inum : ℕ} (hi : inum < sb.ninodes) :
    Triple E (At sb p) (dirlink sb dp name inum) (fun _ s => ∃ p', (p'.Sound sb ∧ Keeps sb p p') ∧ At sb p' s) := by
  refine .bind (dirlookup_spec hE h hl name) (fun r => ?_)
  rcases r with - | ⟨i, off⟩
  · apply Triple.assume
    intro _
    apply incore_bind
    refine .bind_and (emptySlot_spec hE h hl rfl) (fun off hoff => ?_)
    refine .bind (writei_spec hE hg h hl (by decide)
      (fun _ => entryWrite_kernelMem hoff (leNat_direntBytes name hi))) (fun r => ?_)
    cases r with
    | none =>
      apply Triple.throw
      exact fun _ _ => hE _ (by decide)
    | some =>
      refine .ite_throw (hE _ (by decide)) (fun _ => ?_)
      apply Triple.pure
      exact fun _ hs => hs
  · apply Triple.assume
    rintro ⟨hlt, -, -⟩
    refine .bind (iput_spec hg (h.get hlt) i) (fun _ => ?_)
    apply Triple.pure
    rintro s ⟨q, ⟨hq, hputs⟩, hs⟩
    exact ⟨q, ⟨hq, hputs.keeps⟩, hs⟩

theorem iunlockput_sane (hE : Calm E) (hg : Geometry sb) (i : ℕ) :
    Triple E (Sane sb) (iunlockput sb i) (fun _ => Sane sb) := by
  apply Triple.exists_pre
  intro p h
  apply (iunlockput_spec hE hg h i).post
  rintro _ s ⟨q, ⟨hq, -⟩, hs⟩
  exact ⟨q, hq, hs⟩

theorem iput_sane (hg : Geometry sb) (i : ℕ) : Triple E (Sane sb) (iput sb i) (fun _ => Sane sb) := by
  apply Triple.exists_pre
  intro p h
  apply (iput_spec hg h i).post
  rintro _ s ⟨q, ⟨hq, -⟩, hs⟩
  exact ⟨q, hq, hs⟩

section
variable (hE : Calm E) (hg : Geometry sb)
include hE hg

theorem namexLoop_spec (parent : Bool) (ip : ℕ) (names : List Dir.Name) :
    Triple E (Sane sb) (namexLoop sb parent ip names) (fun _ => Sane sb) := by
  induction names generalizing ip with
  | nil =>
    apply Triple.ite
    · intro _
      refine .bind (iput_sane hg ip) (fun _ => ?_)
      apply Triple.pure
      exact fun _ hs => hs
    · intro _
      apply Triple.pure
      exact fun _ hs => hs
  | cons name rest ih =>
    apply Triple.exists_pre
    intro p h
    refine .bind_exists (ilock_spec hE h ip) ?_
    rintro _ q ⟨hq, hql, -, -⟩
    have hput : Triple E (At sb q) (do iunlockput sb ip; return none) (fun (_ : Option (ℕ × Dir.Name)) => Sane sb) := by
      refine .bind ((iunlockput_sane hE hg ip).pre (fun s hs => ⟨q, hq, hs⟩)) (fun _ => ?_)
      apply Triple.pure
      exact fun _ hs => hs
    apply incore_bind
    apply Triple.ite
    · exact fun _ => hput
    intro _
    apply Triple.ite
    · intro _
      refine .bind (iunlock_spec hE ip) (fun _ => ?_)
      apply Triple.pure
      exact fun s hs => ⟨q, hq, hs⟩
    intro _
    refine .bind (dirlookup_spec hE hq hql name) (fun r => ?_)
    rcases r with - | ⟨next, off⟩
    · apply Triple.assume
      exact fun _ => hput
    apply Triple.assume
    rintro ⟨hlt, -, -⟩
    refine .bind ((iunlockput_sane hE hg ip).pre (fun s hs => ⟨q.get next, hq.get hlt, hs⟩)) (fun _ => ?_)
    exact ih next

theorem namex_spec (parent : Bool) {cwd : ℕ} (path : List UInt8) (h : p.Sound sb) (hr : 0 < (p.itab cwd).ref) :
    Triple E (At sb p) (namex sb parent cwd path) (fun _ => Sane sb) := by
  refine .bind (R := fun _ => Sane sb) ?_ (fun ip => namexLoop_spec hE hg parent ip _)
  apply Triple.ite
  · intro _
    refine .bind (iget_spec hE Dir.rootIno) (fun _ => ?_)
    apply Triple.pure
    exact fun s hs => ⟨_, h.get hg.root, hs⟩
  intro _
  refine .bind (idup_spec hr) (fun _ => ?_)
  apply Triple.pure
  exact fun s hs => ⟨_, h.get (h.ranged cwd hr), hs⟩

theorem makeDots_spec (h : p.Sound sb) (hd : p.Locked sb dp) (hi : p.Locked sb ip) :
    Triple E (At sb p) (makeDots sb dp ip) (fun _ s => ∃ p', (p'.Sound sb ∧ Keeps sb p p') ∧ At sb p' s) := by
  have hthrow {Q : Unit → Fs → Prop} {P : Fs → Prop} : Triple E P (throw .createDots : M Unit) Q := by
    apply Triple.throw
    exact fun _ _ => hE _ (by decide)
  refine .bind_two (update_spec hg h hd (fun _ => rfl) (fun _ => rfl) (fun _ => rfl)) (fun _ => ?_)
  apply Triple.exists_pre
  rintro q ⟨hq, hpq⟩
  refine .bind (dirlink_spec hE hg hq (hpq.locked ip hi) Dir.dot hi.lt) (fun ok => ?_)
  apply Triple.ite
  · intro _
    apply Triple.exists_pre
    rintro r ⟨hr, hqr⟩
    have hri := hqr.locked ip (hpq.locked ip hi)
    refine .bind (dirlink_spec hE hg hr hri Dir.dotdot hd.lt) (fun ok => ?_)
    apply Triple.ite
    · intro _
      apply Triple.pure
      rintro s ⟨t, ⟨ht, hrt⟩, hs⟩
      exact ⟨t, ⟨ht, (hpq.trans hqr).trans hrt⟩, hs⟩
    · exact fun _ => hthrow
  · exact fun _ => hthrow

theorem fillNew_spec (h : p.Sound sb) (hd : p.Locked sb dp) (hi : p.Locked sb ip) (type : Int16) :
    Triple E (At sb p) (fillNew sb type dp ip) (fun _ s => ∃ p', (p'.Sound sb ∧ Keeps sb p p') ∧ At sb p' s) := by
  apply Triple.ite
  · exact fun _ => makeDots_spec hE hg h hd hi
  · intro _
    apply Triple.pure
    exact fun s hs => ⟨p, ⟨h, Keeps.refl p⟩, hs⟩

theorem createNew_spec (h : p.Sound sb) (hd : p.Locked sb dp) (name : Dir.Name) (type major minor : Int16) :
    Triple E (At sb p) (createNew sb dp name type major minor) (fun _ => Sane sb) := by
  refine .bind_exists (ialloc_spec hE hg h type) ?_
  rintro ip q ⟨hq, hip, hkeep⟩
  refine .bind_exists (ilock_spec hE hq ip) ?_
  rintro _ r ⟨hr, hri, hqr, -⟩
  have hrd := hqr.locked dp (hkeep dp hd)
  refine .bind_two (update_spec hg hr hri (fun _ => rfl) (fun _ => rfl) (fun _ => rfl)) (fun _ => ?_)
  apply Triple.exists_pre
  rintro t ⟨ht, hrt⟩
  refine .bind_exists (fillNew_spec hE hg ht (hrt.locked dp hrd) (hrt.locked ip hri) type) ?_
  rintro _ u ⟨hu, htu⟩
  refine .bind (dirlink_spec hE hg hu (htu.locked dp (hrt.locked dp hrd)) name hip) (fun ok => ?_)
  apply Triple.ite
  · intro _
    refine .bind ((iunlockput_sane hE hg dp).pre ?_) (fun _ => ?_)
    · rintro s ⟨v, ⟨hv, -⟩, hs⟩
      exact ⟨v, hv, hs⟩
    · apply Triple.pure
      exact fun _ hs => hs
  · intro _
    apply Triple.throw
    exact fun _ _ => hE _ (by decide)

theorem create_spec {cwd : ℕ} (h : p.Sound sb)
    (hr : 0 < (p.itab cwd).ref) (path : List UInt8) (type major minor : Int16) :
    Triple E (At sb p) (create sb cwd path type major minor) (fun _ => Sane sb) := by
  refine .bind (namex_spec hE hg true path h hr) (fun r => ?_)
  rcases r with - | ⟨dp, name⟩
  · apply Triple.pure
    exact fun _ hs => hs
  apply Triple.exists_pre
  intro q hq
  refine .bind_exists (ilock_spec hE hq dp) ?_
  rintro _ r ⟨hr, hrd, -, -⟩
  refine .bind (dirlookup_spec hE hr hrd name) (fun found => ?_)
  rcases found with - | ⟨ip, off⟩
  · apply Triple.assume
    intro _
    refine .bind (createNew_spec hE hg hr hrd name type major minor) (fun ip => ?_)
    apply Triple.pure
    exact fun _ hs => hs
  apply Triple.assume
  rintro ⟨hlt, -, -⟩
  refine .bind_exists ((iunlockput_sane hE hg dp).pre (fun s hs => ⟨_, hr.get hlt, hs⟩)) ?_
  intro _ t ht
  refine .bind_exists (ilock_spec hE ht ip) ?_
  rintro _ u ⟨hu, -, -, -⟩
  apply incore_bind
  apply Triple.ite
  · intro _
    apply Triple.pure
    exact fun s hs => ⟨u, hu, hs⟩
  intro _
  refine .bind ((iunlockput_sane hE hg ip).pre (fun s hs => ⟨u, hu, hs⟩)) (fun _ => ?_)
  apply Triple.pure
  exact fun _ hs => hs

end

/-! unlink, and with it every operation, keeps the invariant. -/

variable {off : ℕ}

theorem clearDirent_spec (hE : Calm E) (hg : Geometry sb) (h : p.Sound sb) (hl : p.Locked sb dp)
    (hoff : off%direntSize = 0) :
    Triple E (At sb p) (clearDirent sb dp off) (fun _ s => ∃ p', (p'.Sound sb ∧ Keeps sb p p') ∧ At sb p' s) := by
  have hzero : leNat [(List.replicate direntSize (0 : UInt8)).getD 0 0,
      (List.replicate direntSize (0 : UInt8)).getD 1 0] < sb.ninodes :=
    (Nat.zero_le Dir.rootIno).trans_lt hg.root
  refine .bind (writei_spec hE hg h hl (by decide) (fun _ => entryWrite_kernelMem hoff hzero)) (fun r => ?_)
  cases r with
  | none =>
    apply Triple.throw
    exact fun _ _ => hE _ (by decide)
  | some =>
    refine .ite_throw (hE _ (by decide)) (fun _ => ?_)
    apply Triple.pure
    exact fun _ hs => hs

theorem dropDotdot_spec (hg : Geometry sb) (h : p.Sound sb) (hl : p.Locked sb dp) (type : Int16) :
    Triple E (At sb p) (dropDotdot sb type dp) (fun _ s => ∃ p', (p'.Sound sb ∧ Keeps sb p p') ∧ At sb p' s) := by
  apply Triple.ite
  · exact fun _ => update_spec hg h hl (fun _ => rfl) (fun _ => rfl) (fun _ => rfl)
  · intro _
    apply Triple.pure
    exact fun s hs => ⟨p, ⟨h, Keeps.refl p⟩, hs⟩

/-- A directory that names itself has a second reference to it here. -/
theorem unlinkEntry_spec (hE : Calm E) (hg : Geometry sb) (h : p.Sound sb) (hd : p.Locked sb dp)
    (hi : p.Locked sb ip) (hoff : off%direntSize = 0)
    (hself : ip = dp → 1 < (p.itab dp).ref) :
    Triple E (At sb p) (unlinkEntry sb dp ip off) (fun _ => Sane sb) := by
  refine .bind_exists (clearDirent_spec hE hg h hd hoff) ?_
  rintro _ q ⟨hq, hpq⟩
  apply incore_bind
  refine .bind_exists (dropDotdot_spec hg hq (hpq.locked dp hd) _) ?_
  rintro _ r ⟨hr, hqr⟩
  have hpr := hpq.trans hqr
  refine .bind_exists (iunlockput_spec hE hg hr dp) ?_
  rintro _ t ⟨ht, hputs⟩
  have hti : t.Locked sb ip := by
    apply hputs.locked (hpr.locked ip hi)
    rw [hpr.ref]
    exact hself
  refine .bind_two (update_spec hg ht hti (fun _ => rfl) (fun _ => rfl) (fun _ => rfl)) (fun _ => ?_)
  apply (iunlockput_sane hE hg ip).pre
  rintro s ⟨u, ⟨hu, -⟩, hs⟩
  exact ⟨u, hu, hs⟩

theorem unlink_spec (hE : Calm E) (hg : Geometry sb) {cwd : ℕ} (h : p.Sound sb)
    (hr : 0 < (p.itab cwd).ref) (path : List UInt8) :
    Triple E (At sb p) (unlink sb cwd path) (fun _ => Sane sb) := by
  refine .bind (namex_spec hE hg true path h hr) (fun r => ?_)
  rcases r with - | ⟨dp, name⟩
  · apply Triple.pure
    exact fun _ hs => hs
  apply Triple.exists_pre
  intro q hq
  refine .bind_exists (ilock_spec hE hq dp) ?_
  rintro _ r ⟨hr, hrd, -, -⟩
  have hput : Triple E (At sb r) (do iunlockput sb dp; return false) (fun (_ : Bool) => Sane sb) := by
    refine .bind ((iunlockput_sane hE hg dp).pre (fun s hs => ⟨r, hr, hs⟩)) (fun _ => ?_)
    apply Triple.pure
    exact fun _ hs => hs
  apply Triple.ite
  · exact fun _ => hput
  intro _
  refine .bind (dirlookup_spec hE hr hrd name) (fun found => ?_)
  rcases found with - | ⟨ip, off⟩
  · apply Triple.assume
    exact fun _ => hput
  apply Triple.assume
  rintro ⟨hlt, hoff, -⟩
  refine .bind_exists (ilock_spec hE (hr.get hlt) ip) ?_
  rintro _ t ⟨ht, hti, hkeep, -⟩
  have htd := hkeep.locked dp (hrd.get ip)
  have hself : ip = dp → 1 < (t.itab dp).ref := by
    rintro rfl
    rw [hkeep.ref, r.get_self, Incore.get_ref]
    exact Nat.succ_lt_succ hrd.loaded.1
  refine .bind (removable_spec hE ht hti) (fun ok => ?_)
  apply Triple.ite
  · intro _
    refine .bind (unlinkEntry_spec hE hg ht htd hti hoff hself) (fun _ => ?_)
    apply Triple.pure
    exact fun _ hs => hs
  intro _
  refine .bind ((iunlockput_sane hE hg ip).pre (fun s hs => ⟨t, ht, hs⟩)) (fun _ => ?_)
  refine .bind (iunlockput_sane hE hg dp) (fun _ => ?_)
  apply Triple.pure
  exact fun _ hs => hs

theorem locked_spec {α : Type} (hE : Calm E) (h : p.Sound sb) (i : ℕ) {x : M α}
    (hx : ∀ q : Parts, q.Sound sb → q.Locked sb i → q.disk = p.disk → Triple E (At sb q) x (fun _ => Sane sb)) :
    Triple E (At sb p) (locked sb i x) (fun _ => Sane sb) := by
  refine .bind_exists (ilock_spec hE h i) ?_
  rintro _ q ⟨hq, hql, -, hdisk⟩
  refine .bind_exists (hx q hq hql hdisk) ?_
  intro _ r hr
  apply (iunlock_spec hE i).post
  exact fun _ s hs => ⟨r, hr, hs⟩

/-- Every operation that its caller may start keeps the invariant, and none of them frees a block
that is free. -/
theorem run_spec (hE : Calm E) (hg : Geometry sb) (op : Op) :
    Triple E (fun s => Sane sb s ∧ op.enabled sb s = true) (op.run sb) (fun _ => Sane sb) := by
  rintro s ⟨⟨p, h, hs⟩, hen⟩
  have hsane {α : Type} {x : M α} {q : Parts} (hx : Triple E (At sb q) x
      (fun _ s => ∃ p', (p'.Sound sb ∧ Keeps sb q p') ∧ At sb p' s)) :
      Triple E (At sb q) x (fun _ => Sane sb) := by
    apply hx.post
    rintro _ t ⟨p', ⟨hp', -⟩, ht⟩
    exact ⟨p', hp', ht⟩
  have hdone {α : Type} {x : M α} {P : Fs → Prop} (hx : Triple E P x (fun _ => Sane sb)) :
      Triple E P (do let _ ← x; pure ()) (fun (_ : Unit) => Sane sb) := by
    refine .bind hx (fun _ => ?_)
    apply Triple.pure
    exact fun _ ht => ht
  cases op with
  | readi i ok dst =>
    apply locked_spec hE h i _ s hs
    intro q hq hql _
    apply (readi_spec hq hql ok dst _ _).post
    exact fun _ t ht => ⟨q, hq, ht.2⟩
  | writei i mem src off n =>
    apply locked_spec hE h i _ s hs
    intro q hq hql hdisk
    obtain ⟨-, hfile⟩ := of_decide_eq_true hen
    rw [hs.disk i hql.lt] at hfile
    apply hsane (writei_spec hE hg hq hql n.toNat_lt (fun hdir => absurd ?_ hfile))
    rw [← hdisk, ← hq.clean]
    exact hdir
  | itrunc i =>
    apply locked_spec hE h i _ s hs
    exact fun q hq hql _ => hsane (itrunc_sound hg hq hql)
  | dirlink dp name =>
    apply locked_spec hE h dp _ s hs
    exact fun q hq hql _ => hsane (dirlink_spec hE hg hq hql name (of_decide_eq_true hen).2)
  | namei cwd path =>
    have hr := of_decide_eq_true hen
    rw [hs.itab] at hr
    exact hdone (namex_spec hE hg false path h hr) s hs
  | create cwd path type major minor =>
    have hr := (of_decide_eq_true hen).1
    rw [hs.itab] at hr
    exact hdone (create_spec hE hg h hr path type major minor) s hs
  | unlink cwd path =>
    have hr := of_decide_eq_true hen
    rw [hs.itab] at hr
    exact hdone (unlink_spec hE hg h hr path) s hs
  | iput i => exact iput_sane hg i s ⟨p, h, hs⟩

end Xv6.Store
