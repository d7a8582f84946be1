import Xv6.DirEffect

/-! The calls that enter names: open, mkdir, mknod and link. -/
namespace Xv6.Dir
open Function (update_of_ne update_self)
open Hoare

variable {d : ℕ → Dinode} {pr : List Proc} {E : Panic → Prop} {ninodes p c : ℕ} {q : Proc}

def Done (ninodes : ℕ) (d : ℕ → Dinode) (pr : List Proc) (p : ℕ) (call : Call) (s : Fs) : Prop :=
  ∃ d' pr', Effect ninodes d pr p call d' pr' ∧ Idle d' pr' (uses pr') s

theorem Done.fail {call : Call} {s : Fs} (h : Refused d pr p call) (hs : Idle d pr (uses pr) s) :
    Done ninodes d pr p call s :=
  ⟨d, pr, .fails h, hs⟩

theorem refused_create {call : Call} (hlast : ∀ i, ¬lastUse d pr p call i) (hlink : ∀ old new, call ≠ .link old new)
    (h : ∀ path type major minor, creation call = some (path, type, major, minor) →
      Present d pr p path) : Refused d pr p call := by
  refine ⟨?_, hlast⟩
  rintro dp (⟨old, new, _, _, _, _, hc, _⟩ | ⟨path, type, major, minor, name, hc, hw, hl⟩)
  · exact hlink old new hc
  · exact h path type major minor hc dp name hw hl

theorem refused_link {old new : List UInt8} (h : ∀ ostr nstr, argstr old = some ostr → argstr new = some nstr →
      ∀ dp name ip, ¬Links d pr p ostr nstr dp name ip) : Refused d pr p (.link old new) := by
  refine ⟨?_, fun _ hlast => hlast⟩
  rintro dp (⟨old', new', ostr, nstr, name, ip, hc, ho, hn, hl⟩ | ⟨_, _, _, _, _, hc, _⟩)
  · obtain ⟨rfl, rfl⟩ := Call.link.inj hc
    exact h ostr nstr ho hn dp name ip hl
  · cases hc

theorem namei_bind {α : Type} {Q : α → Fs → Prop} (hE : Benign E) (hs : Sane d (uses pr))
    (hS : E .ilockNoType ∨ Solid d) (ha : Alive pr p q c) (parent : Bool) (path : List UInt8)
    {f : Option (ℕ × Name) → M α}
    (hf : ∀ r, r = walkPath d pr p parent path → Triple E (At d pr (uses pr) (0+heldBy r) []) (f r) Q) :
    Triple E (Idle d pr (uses pr)) (namex p parent path >>= f) Q := by
  have hp : 0 < uses pr (cwdOf pr p) := by
    rw [ha.cwdOf]
    exact ha.uses_pos
  refine .bind (namex_spec hE hs.anchored hS (hs.grounded hp) parent path (by simp)) (fun r => ?_)
  apply Triple.assume
  exact hf r

theorem Alive.start_type (ha : Alive pr p q c) (hs : Sane d (uses pr)) (path : List UInt8) :
    (d (startOf pr p path)).type ≠ .free := by
  apply (hs.grounded (p := p) ?_).start
  rw [ha.cwdOf]
  exact ha.uses_pos

variable {path : List UInt8} {ip dp : ℕ}

theorem found_type (hs : Sane d (uses pr)) (hS : E .ilockNoType ∨ Solid d) (ha : Alive pr p q c)
    {parent : Bool} {nm : Name}
    (hr : some (ip, nm) = walkPath d pr p parent path) : E .ilockNoType ∨ (d ip).type ≠ .free :=
  hS.imp_right (fun hsolid => walk_type hsolid (ha.start_type hs path) hr.symm)

theorem Creates.apart {name : Name} (hcr : Creates ninodes d pr p path dp name ip) : ip ≠ dp := by
  rintro rfl
  have hdir := walk_parent_dir hcr.parent
  rw [(freeInum_some hcr.inum).2.2] at hdir
  cases hdir

theorem created_self (hne : ip ≠ dp) (name : Name) (type : IType) (major minor : ℤ) :
    created d dp name ip type major minor ip = ⟨type, major, minor, 1,
      if type = .dir then [⟨ip, dot⟩, ⟨dp, dotdot⟩] else []⟩ := by
  simp only [created, update_of_ne hne, update_self]

theorem created_keep (hne : ip ≠ dp) (name : Name) (type : IType) (major minor : ℤ)
    (w : ℕ) : (created d dp name ip type major minor ip).nlink = 0 → 0 < w := by
  intro h0
  rw [created_self hne] at h0
  cases h0

section
variable (hE : Benign E) (hs : Sane d (uses pr)) (hS : E .ilockNoType ∨ Solid d)
include hE hs hS

theorem sysCreate_spec (hn : ninodes ≤ 65536) (ha : Alive pr p q c) (call : Call) {type : IType}
    (ht : type ≠ .free) {major minor : ℤ} (hlast : ∀ i, ¬lastUse d pr p call i)
    (hlink : ∀ old new, call ≠ .link old new)
    (hc : creation call = (argstr path).map (fun str => (str, type, short major, short minor))) :
    Triple E (Idle d pr (uses pr)) (sysCreate ninodes p path type major minor) (fun _ => Done ninodes d pr p call) := by
  unfold sysCreate
  cases hstr : argstr path with
  | none =>
    apply Triple.pure
    refine fun s hs => Done.fail (refused_create hlast hlink (fun _ _ _ _ hcr => ?_)) hs
    rw [hc, hstr] at hcr
    cases hcr
  | some str =>
    have hrefused (hpresent : Present d pr p str) : Refused d pr p call := by
      refine refused_create hlast hlink (fun _ _ _ _ hcr => ?_)
      rw [hc, hstr, Option.map_some, Option.some.injEq, Prod.mk.injEq] at hcr
      exact hcr.1 ▸ hpresent
    have hp : 0 < uses pr (cwdOf pr p) := by
      rw [ha.cwdOf]
      exact ha.uses_pos
    refine .bind (create_spec hE hs hS hn hp str ht (short major) (short minor)) (fun r => ?_)
    rintro s (⟨rfl, hpresent, hs'⟩ | ⟨ip, rfl, hpresent, hip, hs'⟩ | ⟨ip, dp, name, rfl, hcr, hs'⟩)
    · exact Done.fail (hrefused hpresent) hs'
    · refine (Triple.bind (iunlockput_idle hE (hs.anchored ip hip)) (fun _ => ?_)) s hs'
      apply Triple.pure
      exact fun t ht => Done.fail (hrefused hpresent) ht
    · refine (Triple.bind (iunlockput_idle hE (created_keep hcr.apart name type _ _ _)) (fun _ => ?_)) s hs'
      apply Triple.pure
      exact fun t ht => ⟨_, _, .creates (by rw [hc, hstr]; rfl) hcr, ht⟩

theorem openExisting_spec (ha : Alive pr p q c) (path : List UInt8) (omode : BitVec 32) :
    Triple E (Idle d pr (uses pr)) (openExisting p path omode) (fun r s => (r = none ∧ Idle d pr (uses pr) s) ∨
        ∃ ip, r = some ip ∧ (d ip).type ≠ .free ∧ Holding d pr (uses pr) ip s) := by
  refine namei_bind hE hs hS ha false path (fun r hr => ?_)
  cases r with
  | none =>
    apply Triple.pure
    exact fun s hs => Or.inl ⟨rfl, hs⟩
  | some x =>
    obtain ⟨ip, nm⟩ := x
    refine .bind_and (ilock_spec hE ip (by simp [heldBy]) (found_type hs hS ha hr)) (fun _ hip => ?_)
    apply dinode_spec
    apply Triple.ite
    · intro _
      refine .bind (iunlockput_idle hE (hs.anchored ip hip)) (fun _ => ?_)
      apply Triple.pure
      exact fun s hs => Or.inl ⟨rfl, hs⟩
    · intro _
      apply Triple.pure
      exact fun s hs => Or.inr ⟨ip, rfl, hip, hs⟩

theorem sysOpen_spec (hn : ninodes ≤ 65536) (ha : Alive pr p q c) (path : List UInt8) (omode : BitVec 32) :
    Triple E (Idle d pr (uses pr)) (sysOpen ninodes p path omode)
      (fun _ => Done ninodes d pr p (.openFile path omode)) := by
  have hp : 0 < uses pr (cwdOf pr p) := by
    rw [ha.cwdOf]
    exact ha.uses_pos
  unfold sysOpen
  cases hstr : argstr path with
  | none =>
    apply Triple.pure
    refine fun s hs => Done.fail (refused_create (fun _ h => h) (fun _ _ h => by cases h) (fun _ _ _ _ hcr => ?_)) hs
    simp only [creation, hstr, Option.map_none, ite_self, reduceCtorEq] at hcr
  | some str =>
    have hrefused (h : omode &&& oCreate ≠ 0 → Present d pr p str) : Refused d pr p (.openFile path omode) := by
      refine refused_create (fun _ h => h) (fun _ _ h => by cases h) (fun _ _ _ _ hcr => ?_)
      simp only [creation, hstr, Option.map_some] at hcr
      split_ifs at hcr with hcreate
      rw [Option.some.injEq, Prod.mk.injEq] at hcr
      exact hcr.1 ▸ h hcreate
    have hcre (hcreate : omode &&& oCreate ≠ 0) : creation (.openFile path omode) = some (str, .file, 0, 0) := by
      simp only [creation, if_pos hcreate, hstr, Option.map_some]
    have hrest (ip : ℕ) (href : Refused d pr p (.openFile path omode)) (hip : (d ip).type ≠ .free) :
        Triple E (Holding d pr (uses pr) ip) (do
          let d ← dinode ip
          if d.type = .device ∧ (d.major < 0 ∨ d.major ≥ ndev) then do
            iunlockput ip
            return false
          else openFile p ip) (fun _ => Done ninodes d pr p (.openFile path omode)) := by
      apply dinode_spec
      apply Triple.ite
      · intro _
        refine .bind (iunlockput_idle hE (hs.anchored ip hip)) (fun _ => ?_)
        apply Triple.pure
        exact fun s hs => Done.fail href hs
      intro _
      apply (openFile_spec hE ha (hs.anchored ip hip)).post
      rintro _ s ⟨pr', rfl | ⟨fd, hfd, rfl⟩, hs'⟩
      · exact Done.fail href hs'
      · exact ⟨_, _, .opens href ha.proc hip hfd, hs'⟩
    refine .bind (R := fun r s =>
      (r = none ∧ Refused d pr p (.openFile path omode) ∧ Idle d pr (uses pr) s) ∨
      (∃ ip, r = some ip ∧ Refused d pr p (.openFile path omode) ∧ (d ip).type ≠ .free ∧ Holding d pr (uses pr) ip s) ∨
      (∃ ip dp name, r = some ip ∧ creation (.openFile path omode) = some (str, .file, 0, 0) ∧
        Creates ninodes d pr p str dp name ip ∧
        Holding (created d dp name ip .file 0 0) pr (uses pr) ip s)) ?_ (fun r => ?_)
    · apply Triple.ite
      · intro hcreate
        apply (create_spec hE hs hS hn hp str (by decide) 0 0).post
        rintro r s (⟨hr, hpresent, hs'⟩ | ⟨ip, hr, hpresent, hold⟩ | ⟨ip, dp, name, hr, hcr, hs'⟩)
        · exact Or.inl ⟨hr, hrefused (fun _ => hpresent), hs'⟩
        · exact Or.inr (Or.inl ⟨ip, hr, hrefused (fun _ => hpresent), hold⟩)
        · exact Or.inr (Or.inr ⟨ip, dp, name, hr, hcre hcreate, hcr, hs'⟩)
      intro hcreate
      have href := hrefused (fun h => absurd h hcreate)
      apply (openExisting_spec hE hs hS ha str omode).post
      rintro r s (⟨hr, hs'⟩ | ⟨ip, hr, hold⟩)
      · exact Or.inl ⟨hr, href, hs'⟩
      · exact Or.inr (Or.inl ⟨ip, hr, href, hold⟩)
    · rintro s (⟨rfl, href, hs'⟩ | ⟨ip, rfl, href, hip, hs'⟩ | ⟨ip, dp, name, rfl, hc, hcr, hs'⟩)
      · exact Done.fail href hs'
      · exact hrest ip href hip s hs'
      -- a new file is not a device
      refine (dinode_spec (d := created d dp name ip .file 0 0) ?_) s hs'
      rw [created_self hcr.apart]
      apply Triple.ite
      · rintro ⟨hdev, -⟩
        cases hdev
      intro _
      apply (openFile_spec hE ha (created_keep hcr.apart name .file 0 0 _)).post
      rintro _ t ⟨pr', rfl | ⟨fd, hfd, rfl⟩, ht⟩
      · exact ⟨_, _, .creates hc hcr, ht⟩
      · exact ⟨_, _, .createsOpen hc hcr ha.proc hfd, ht⟩

end

theorem walk_congr {d' : ℕ → Dinode} (htype : ∀ i, (d' i).type = (d i).type)
    (hents : ∀ i, (d' i).ents = (d i).ents) (parent : Bool) (ip : ℕ) (es : List Name) :
    walk d' parent ip es = walk d parent ip es := by
  induction es generalizing ip with
  | nil => rfl
  | cons name rest ih => simp only [walk, htype, look_congr (hents ip), ih]

theorem addLinks_update (d : ℕ → Dinode) (i : ℕ) (k : ℤ) (j : ℕ) :
    (Function.update d i (addLinks k (d i)) j).type = (d j).type ∧
    (Function.update d i (addLinks k (d i)) j).ents = (d j).ents := by
  by_cases hj : j = i
  · subst hj
    simp [addLinks]
  · simp [update_of_ne hj]

theorem linkBad_spec (hE : Benign E) (hs : Sane d (uses pr)) (hip : (d ip).type ≠ .free) :
    Triple E (At (Function.update d ip (addLinks 1 (d ip))) pr (uses pr) (0+one ip) [])
      (linkBad ip) (fun _ => Idle d pr (uses pr)) := by
  have htype : (Function.update d ip (addLinks 1 (d ip)) ip).type ≠ .free := by
    rw [(addLinks_update d ip 1 ip).1]
    exact hip
  refine .bind_and (ilock_spec hE ip (by simp) (Or.inr htype)) (fun _ _ => ?_)
  refine .bind (update_spec ip _ (fun ht => ht)) (fun _ => ?_)
  have hback : Function.update (Function.update d ip (addLinks 1 (d ip))) ip
      (addLinks (-1) (Function.update d ip (addLinks 1 (d ip)) ip)) = d := by
    have hrange := hs.sized ip
    have hlink : short (short ((d ip).nlink+1)+(-1)) = (d ip).nlink := by
      unfold short
      omega
    simp only [update_self, Function.update_idem, addLinks, hlink]
    exact Function.update_eq_self ip d
  rw [hback]
  refine .bind (iunlockput_idle hE (hs.anchored ip hip)) (fun _ => ?_)
  apply Triple.pure
  exact fun s hs => hs

theorem Sane.addLink (hs : Sane d (uses pr)) (ip : ℕ) :
    Anchored (Function.update d ip (addLinks 1 (d ip))) (uses pr) := by
  intro i hi h0
  by_cases hii : i = ip
  · subst hii
    rw [update_self] at h0
    exact absurd h0 (short_succ_ne_zero (hs.sized i))
  · rw [update_of_ne hii] at hi h0
    exact hs.anchored i hi h0

theorem linkInto_spec (hE : Benign E) (hs : Sane d (uses pr)) (hS : E .ilockNoType ∨ Solid d)
    (ha : Alive pr p q c) (hip : (d ip).type ≠ .free) (hnd : (d ip).type ≠ .dir)
    (new : List UInt8) :
    Triple E (At (Function.update d ip (addLinks 1 (d ip))) pr (uses pr) (0+one ip) []) (linkInto p ip new)
      (fun _ s => Present d pr p new ∧ Idle d pr (uses pr) s ∨ ∃ dp name, walkPath d pr p true new = some (dp, name) ∧
        look d dp name = none ∧
        Idle (linked (Function.update d ip (addLinks 1 (d ip))) dp name ip) pr (uses pr) s) := by
  have htype (j : ℕ) := (addLinks_update d ip 1 j).1
  have hents (j : ℕ) := (addLinks_update d ip 1 j).2
  set d1 := Function.update d ip (addLinks 1 (d ip)) with hd1
  have hA : Anchored d1 (uses pr) := hs.addLink ip
  have hS1 : E .ilockNoType ∨ Solid d1 := by
    refine hS.imp_right (fun hsol D hD e he h0 => ?_)
    rw [htype] at hD ⊢
    rw [hents] at he
    exact hsol D hD e he h0
  have hpos : 0 < uses pr (cwdOf pr p) := by
    rw [ha.cwdOf]
    exact ha.uses_pos
  have hg : Grounded d1 pr (uses pr) p := by
    obtain ⟨hroot, hu, hcwd⟩ := hs.grounded hpos
    exact ⟨by rwa [htype], hu, by rwa [htype]⟩
  have hwalk : walkPath d1 pr p true new = walkPath d pr p true new := walk_congr htype hents true _ _
  refine .bind (namex_spec hE hA hS1 hg true new (by simp)) (fun r => ?_)
  apply Triple.assume
  rw [hwalk]
  intro hr
  cases r with
  | none =>
    have hnone : Present d pr p new := by
      intro dp name hw
      rw [← hr] at hw
      cases hw
    apply (linkBad_spec hE hs hip).post
    exact fun _ s hs => Or.inl ⟨hnone, hs⟩
  | some x =>
    obtain ⟨dp, name⟩ := x
    have hdir : (d dp).type = .dir := walk_parent_dir hr.symm
    have hdir1 : (d1 dp).type = .dir := by rw [htype, hdir]
    have hdfree : (d1 dp).type ≠ .free := by rw [hdir1]; decide
    have hne : dp ≠ ip := by
      rintro rfl
      exact hnd hdir
    have hlook : look d1 dp name = look d dp name := look_congr (hents dp) name
    refine .bind_and (ilock_spec hE dp (by simp [heldBy]) (Or.inr hdfree)) (fun _ _ => ?_)
    refine .bind (dirlink_spec hE dp name ip hdir1 (hs.number ip hip).2) (fun r => ?_)
    have hkeep (d' : ℕ → Dinode) (hl : (d' dp).nlink = (d1 dp).nlink) :
        (d' dp).nlink = 0 → 0 < uses pr dp+(0+one ip) dp := by
      intro h0
      have := hA dp hdfree (hl.symm.trans h0)
      omega
    rw [hlook]
    cases hl : look d dp name with
    | some =>
      have htaken : Present d pr p new := by
        intro dp' name' hw
        rw [← hr, Option.some.injEq, Prod.mk.injEq] at hw
        rw [← hw.1, ← hw.2, hl]
        simp
      apply Triple.assume
      rintro rfl
      refine .bind (iunlockput_keep hE dp (hkeep d1 rfl) (fun hl => absurd hl (List.not_mem_nil))) (fun _ => ?_)
      apply (linkBad_spec hE hs hip).post
      exact fun _ s hs => Or.inl ⟨htaken, hs⟩
    | none =>
      apply Triple.assume
      rintro rfl
      have hdp : (linked d1 dp name ip dp).nlink = (d1 dp).nlink := by simp only [linked, update_self]
      have hip' : (linked d1 dp name ip ip).nlink ≠ 0 := by
        simp only [linked, update_of_ne hne.symm, hd1, update_self, addLinks]
        exact short_succ_ne_zero (hs.sized ip)
      refine .bind (iunlockput_keep hE dp (hkeep _ hdp) (fun hl => absurd hl (List.not_mem_nil))) (fun _ => ?_)
      refine .bind ((iput_keep ip (fun _ hj => hj) (fun hl => absurd hl (List.not_mem_nil))).pre
        (fun s hs => ⟨hs, fun h0 => absurd h0 hip'⟩)) (fun _ => ?_)
      apply Triple.pure
      exact fun s hs => Or.inr ⟨dp, name, hr.symm, hl, hs⟩

theorem sysLink_spec (hE : Benign E) (hs : Sane d (uses pr)) (hS : E .ilockNoType ∨ Solid d)
    (ha : Alive pr p q c) (old new : List UInt8) :
    Triple E (Idle d pr (uses pr)) (sysLink p old new) (fun _ => Done ninodes d pr p (.link old new)) := by
  unfold sysLink
  cases ho : argstr old with
  | none =>
    apply Triple.pure
    exact fun s hs => Done.fail (refused_link (fun _ _ h _ => by rw [ho] at h; cases h)) hs
  | some ostr =>
    cases hnw : argstr new with
    | none =>
      apply Triple.pure
      exact fun s hs => Done.fail (refused_link (fun _ _ _ h => by rw [hnw] at h; cases h)) hs
    | some nstr =>
      have hrefused (h : ∀ dp name ip, ¬Links d pr p ostr nstr dp name ip) : Refused d pr p (.link old new) := by
        apply refused_link
        intro ostr' nstr' ho' hn'
        rw [ho, Option.some.injEq] at ho'
        rw [hnw, Option.some.injEq] at hn'
        exact ho' ▸ hn' ▸ h
      refine namei_bind hE hs hS ha false ostr (fun r hr => ?_)
      cases r with
      | none =>
        apply Triple.pure
        refine fun s hs => Done.fail (hrefused (fun dp name ip hl => ?_)) hs
        obtain ⟨nm, hw⟩ := hl.target
        rw [← hr] at hw
        cases hw
      | some x =>
        obtain ⟨ip, nm⟩ := x
        refine .bind_and (ilock_spec hE ip (by simp [heldBy]) (found_type hs hS ha hr)) (fun _ hip => ?_)
        apply dinode_spec
        apply Triple.ite
        · intro hdir
          refine .bind (iunlockput_idle hE (hs.anchored ip hip)) (fun _ => ?_)
          apply Triple.pure
          refine fun s hs => Done.fail (hrefused (fun dp name ip' hl => ?_)) hs
          obtain ⟨nm', hw⟩ := hl.target
          rw [← hr, Option.some.injEq, Prod.mk.injEq] at hw
          exact hl.type.1 (hw.1 ▸ hdir)
        intro hnd
        refine .bind (update_spec ip (addLinks 1) (fun ht => ht)) (fun _ => ?_)
        refine .bind (iunlock_spec hE ip) (fun _ => ?_)
        apply (linkInto_spec hE hs hS ha hip hnd nstr).conseq
        · exact fun s hs => hs.mono (by simp)
        · rintro _ s (⟨hpresent, hs'⟩ | ⟨dp, name, hw, hl, hs'⟩)
          · exact Done.fail (hrefused (fun dp name _ hl => hpresent dp name hl.parent hl.absent)) hs'
          · exact ⟨_, _, .links ho hnw ⟨⟨nm, hr.symm⟩, ⟨hnd, hip⟩, hw, hl⟩, hs'⟩

end Xv6.Dir
