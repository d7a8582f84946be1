import Xv6.DirLink
import Xv6.Runs

/-! The calls that drop names and references: unlink, chdir, close and exit. -/
namespace Xv6.Dir
open Hoare List

variable {d : ℕ → Dinode} {pr : List Proc} {E : Panic → Prop} {ninodes p c : ℕ} {q : Proc}

variable {w u : ℕ → ℕ} {i : ℕ}

theorem released_of_ne {j : ℕ} (hj : j ≠ i) : released d w i j = d j := by
  unfold released
  split_ifs
  · exact Function.update_of_ne hj _ _
  · rfl

theorem released_congr {v : ℕ → ℕ} (hw : w i = v i) : released d w i = released d v i := by simp only [released, hw]

theorem unlinkEntry_spec (hE : Benign E) {dp ip k : ℕ} (hne : ip ≠ dp) :
    Triple E (At d pr u (0+one dp+one ip) [ip, dp]) (unlinkEntry dp ip k (d ip))
      (fun _ => Idle (unlinked d u dp ip k) pr u) := by
  let d1 := Function.update d dp { d dp with ents := (d dp).ents.set k ⟨0, []⟩ }
  refine .bind (R := fun _ => At d1 pr u (0+one dp+one ip) [ip, dp]) ?_ (fun _ => ?_)
  · exact update_spec dp _ (fun ht => ht)
  refine .bind (R := fun _ => At (detached d dp ip k) pr u (0+one dp+one ip) [ip, dp]) ?_ (fun _ => ?_)
  · apply Triple.ite
    · intro hd
      apply (update_spec dp (addLinks (-1)) (fun ht => ht)).post
      intro _ s hs
      have he : Function.update d1 dp (addLinks (-1) (d1 dp)) = detached d dp ip k := by
        simp only [d1, detached, Function.update_self, Function.update_idem, addLinks, if_pos hd]
        rfl
      rw [← he]
      exact hs
    · intro hd
      apply Triple.pure
      intro s hs
      have he : d1 = detached d dp ip k := by simp only [d1, detached, if_neg hd]
      rw [← he]
      exact hs
  have hswap : 0+one dp+one ip = 0+one ip+one dp := add_right_comm _ _ _
  rw [hswap]
  refine .bind (iunlockput_spec (K := [ip]) hE dp (by simp) (by simp) ?_) (fun _ => ?_)
  · intro hl
    exact absurd (mem_singleton.mp hl).symm hne
  have hrest : u+(0+one ip) = u+one ip := by rw [zero_add]
  rw [hrest, released_congr (v := u) (add_one_of_ne u hne.symm)]
  have hdip : released (detached d dp ip k) u dp ip = d ip := by
    rw [released_of_ne hne, detached, Function.update_of_ne hne]
  refine .bind (update_spec ip (addLinks (-1)) (fun ht => ht)) (fun _ => ?_)
  have hfin : Triple E (At (Function.update (released (detached d dp ip k) u dp) ip
      (addLinks (-1) (released (detached d dp ip k) u dp ip))) pr u (0+one ip) [ip]) (iunlockput ip)
      (fun _ => At (unlinked d (u+0) dp ip k) pr u 0 []) :=
    iunlockput_spec hE ip (by simp) (by simp) (by simp)
  rw [add_zero] at hfin
  exact hfin

theorem refused_unlink {path : List UInt8} (h : ∀ str, argstr path = some str →
    ∀ dp name ip k, ¬Removes d pr p str dp name ip k) : Refused d pr p (.unlink path) := by
  constructor
  · rintro dp (⟨_, _, _, _, _, _, hc, _⟩ | ⟨_, _, _, _, _, hc, _⟩) <;> cases hc
  · rintro i ⟨str, dp, name, ip, k, hstr, hr, -⟩
    exact h str hstr dp name ip k hr

theorem refused_chdir {path : List UInt8} (h : ∀ str, argstr path = some str →
    ∀ ip nm, walkPath d pr p false str = some (ip, nm) → (d ip).type ≠ .dir) :
    Refused d pr p (.chdir path) := by
  constructor
  · rintro dp (⟨_, _, _, _, _, _, hc, _⟩ | ⟨_, _, _, _, _, hc, _⟩) <;> cases hc
  · rintro i ⟨str, ip, nm, hstr, hw, hdir, -⟩
    exact h str hstr ip nm hw hdir

theorem refused_close {fd : ℕ} (h : fileAt pr p fd = none) : Refused d pr p (.close fd) := by
  constructor
  · rintro dp (⟨_, _, _, _, _, _, hc, _⟩ | ⟨_, _, _, _, _, hc, _⟩) <;> cases hc
  · rintro i ⟨hf, -⟩
    rw [h] at hf
    cases hf

theorem sysUnlink_spec (hE : Benign E) (hs : Sane d (uses pr)) (hS : E .ilockNoType ∨ Solid d)
    (ha : Alive pr p q c) (path : List UInt8) :
    Triple E (Idle d pr (uses pr)) (sysUnlink p path) (fun _ => Done ninodes d pr p (.unlink path)) := by
  unfold sysUnlink
  cases hstr : argstr path with
  | none =>
    apply Triple.pure
    exact fun s hs => Done.fail (refused_unlink (fun _ h => by rw [hstr] at h; cases h)) hs
  | some str =>
    have hrefused (h : ∀ dp name ip k, ¬Removes d pr p str dp name ip k) : Refused d pr p (.unlink path) := by
      apply refused_unlink
      intro str' hstr'
      rw [hstr, Option.some.injEq] at hstr'
      exact hstr' ▸ h
    refine namei_bind hE hs hS ha true str (fun r hr => ?_)
    cases r with
    | none =>
      apply Triple.pure
      refine fun s hs => Done.fail (hrefused (fun _ _ _ _ h => ?_)) hs
      have hw := h.parent
      rw [← hr] at hw
      cases hw
    | some x =>
      obtain ⟨dp, name⟩ := x
      have hfix {dp' name' ip k} (h : Removes d pr p str dp' name' ip k) : Removes d pr p str dp name ip k := by
        have hw := h.parent
        rw [← hr, Option.some.injEq, Prod.mk.injEq] at hw
        rw [hw.1, hw.2]
        exact h
      have hdir : (d dp).type = .dir := walk_parent_dir hr.symm
      have hdfree : (d dp).type ≠ .free := by rw [hdir]; decide
      have hputdp (href : Refused d pr p (.unlink path)) :
          Triple E (Holding d pr (uses pr) dp) (do iunlockput dp; return false)
          (fun _ => Done ninodes d pr p (.unlink path)) := by
        refine .bind (iunlockput_idle hE (hs.anchored dp hdfree)) (fun _ => ?_)
        apply Triple.pure
        exact fun s hs => Done.fail href hs
      refine .bind_and (ilock_spec hE dp (by simp [heldBy]) (Or.inr hdfree)) (fun _ _ => ?_)
      apply Triple.ite
      · intro hdots
        refine hputdp (hrefused (fun _ _ _ _ h => ?_))
        rcases hdots with hd | hd
        · exact (hfix h).proper.1 hd
        · exact (hfix h).proper.2 hd
      intro hproper
      rw [not_or] at hproper
      refine .bind_and (dirlookup_spec hE dp name hdir) (fun r hl => ?_)
      cases r with
      | none =>
        refine hputdp (hrefused (fun _ _ _ _ h => ?_))
        have hfound := (hfix h).found
        rw [← hl] at hfound
        cases hfound
      | some y =>
        obtain ⟨ip, k⟩ := y
        have hne : ip ≠ dp := hs.apart dp name ip k hdir hproper.1 hproper.2 hl.symm
        have hfound : E .ilockNoType ∨ (d ip).type ≠ .free := hS.imp_right (fun hsol => look_type hsol hdir hl.symm)
        refine .bind_and ((ilock_spec hE ip (by simp) hfound).pre (fun s hs => hs.1)) (fun _ hip => ?_)
        apply dinode_spec
        refine .ite_throw (hE _ (by decide)) (fun hlink => ?_)
        apply Triple.ite
        · intro hfull
          refine .bind (iunlockput_keep (L := [dp]) hE ip ?_ ?_)
            (fun _ => hputdp (hrefused (fun _ _ _ _ h => ?_)))
          · intro h0
            have := hs.anchored ip hip h0
            omega
          · exact fun hl => absurd (mem_singleton.mp hl) hne
          have hfound := (hfix h).found
          rw [← hl, Option.some.injEq, Prod.mk.injEq] at hfound
          have hempty := h.empty
          rw [← hfound.1, hfull.2] at hempty
          exact absurd (hempty hfull.1) Bool.false_ne_true
        · intro hempty
          refine .bind (unlinkEntry_spec hE hne) (fun _ => ?_)
          apply Triple.pure
          intro s hs'
          refine ⟨_, _, .unlinks hstr ⟨hr.symm, hproper, hl.symm, by omega, fun hd => ?_⟩, hs'⟩
          rw [not_and] at hempty
          simpa using hempty hd

theorem drop_spec {h : ℕ → ℕ} {L : List ℕ} (hu : u = w+one i) (hL : ∀ j ∈ L, 0 < h j) :
    Triple E (At d pr u h L) (iput i) (fun _ => At (released d (w+h) i) pr w h L) := by
  rw [hu]
  apply (iput_spec i (L := i :: L) (fun j hj => mem_cons_of_mem _ hj) mem_cons_self ?_).pre
  · exact fun s hs => hs.takeover
  · intro hl
    have := hL i hl
    omega

theorem sysChdir_spec (hE : Benign E) (hs : Sane d (uses pr)) (hS : E .ilockNoType ∨ Solid d)
    (ha : Alive pr p q c) (path : List UInt8) :
    Triple E (Idle d pr (uses pr)) (sysChdir p path) (fun _ => Done ninodes d pr p (.chdir path)) := by
  unfold sysChdir
  cases hstr : argstr path with
  | none =>
    apply Triple.pure
    exact fun s hs => Done.fail (refused_chdir (fun _ h => by rw [hstr] at h; cases h)) hs
  | some str =>
    have hrefused (h : ∀ ip nm, walkPath d pr p false str = some (ip, nm) → (d ip).type ≠ .dir) :
        Refused d pr p (.chdir path) := by
      apply refused_chdir
      intro str' hstr'
      rw [hstr, Option.some.injEq] at hstr'
      exact hstr' ▸ h
    refine namei_bind hE hs hS ha false str (fun r hr => ?_)
    cases r with
    | none =>
      apply Triple.pure
      refine fun s hs => Done.fail (hrefused (fun _ _ hw => ?_)) hs
      rw [← hr] at hw
      cases hw
    | some x =>
      obtain ⟨ip, nm⟩ := x
      refine .bind_and (ilock_spec hE ip (by simp [heldBy]) (found_type hs hS ha hr)) (fun _ hip => ?_)
      apply dinode_spec
      apply Triple.ite
      · intro hnd
        refine .bind (iunlockput_idle hE (hs.anchored ip hip)) (fun _ => ?_)
        apply Triple.pure
        refine fun s hs => Done.fail (hrefused (fun _ _ hw => ?_)) hs
        rw [← hr, Option.some.injEq, Prod.mk.injEq] at hw
        exact hw.1 ▸ hnd
      intro hdir
      refine .bind (iunlock_spec hE ip) (fun _ => ?_)
      apply Triple.get
      intro s hs'
      have hold : cwdOf pr p = c := ha.cwdOf
      rw [hs'.procs, hold]
      have hu : uses pr = uses (withCwd pr p none)+one c := funext ha.uses_eq
      have hnew : uses (withCwd pr p none)+one ip = uses (withCwd pr p (some ip)) := by
        funext j
        have h1 := uses_withCwd ha.proc ha.cwd none j
        have h2 := uses_withCwd ha.proc ha.cwd (some ip) j
        simp only [Option.toList_none, count_nil, Option.toList_some] at h1 h2
        rw [Pi.add_apply, one_apply ip]
        omega
      refine .bind ((drop_spec hu (by simp [heldBy])).pre (fun t ht => ht ▸ hs')) (fun _ => ?_)
      refine .bind (R := fun _ => Idle (released d (uses (withCwd pr p (some ip))) c)
        (withCwd pr p (some ip)) (uses (withCwd pr p (some ip)))) ?_ (fun _ => ?_)
      · apply Triple.modify
        intro t ht
        have hh := (ht.handover (mem_singleton.mpr rfl)).mono (K := []) (by simp)
        have hsum : uses (withCwd pr p none)+(0+heldBy (some (ip, nm))) = uses (withCwd pr p (some ip)) := by
          rw [zero_add]
          exact hnew
        rw [hsum, hnew] at hh
        have hw := hh.withProcs (withCwd pr p (some ip)) t.nfiles
        simp only [setProc, ht.procs]
        exact hw
      · apply Triple.pure
        intro t ht
        refine ⟨_, _, .chdirs hstr hr.symm (not_not.mp hdir), ?_⟩
        rw [hold]
        exact ht

theorem fileAt_some {fd : ℕ} (ha : Alive pr p q c) (hf : fileAt pr p fd = some i) : q.ofile[fd]? = some (some i) := by
  rw [fileAt, ha.ofileOf] at hf
  cases ho : q.ofile[fd]? with
  | none => simp [ho] at hf
  | some =>
    rw [ho, Option.getD_some] at hf
    rw [hf]

theorem fileclose_spec (hu : u = w+one i) :
    Triple E (Idle d pr u) (fileclose i) (fun _ => Idle (released d w i) pr w) := by
  refine .bind (R := fun _ => Idle d pr u) ?_ (fun _ => ?_)
  · apply Triple.modify
    intro s hs
    have := hs.withProcs pr (s.nfiles-1)
    rw [← hs.procs] at this ⊢
    exact this
  · have hdrop : Triple E (Idle d pr u) (iput i) (fun _ => Idle (released d (w+0) i) pr w) := drop_spec hu (by simp)
    rw [add_zero] at hdrop
    exact hdrop

theorem setProc_spec {d' : ℕ → Dinode} (pr' : List Proc) {f : Proc → Proc} (hpr : pr.modify p f = pr') :
    Triple E (Idle d' pr w) (modify (setProc p f)) (fun _ => Idle d' pr' w) := by
  apply Triple.modify
  intro s hs
  have hw := hs.withProcs pr' s.nfiles
  simp only [setProc, hs.procs, hpr]
  exact hw

theorem sysClose_spec (ha : Alive pr p q c) (fd : ℕ) :
    Triple E (Idle d pr (uses pr)) (sysClose p fd) (fun _ => Done ninodes d pr p (.close fd)) := by
  apply Triple.get
  intro s hs
  rw [hs.procs]
  cases hf : fileAt pr p fd with
  | none =>
    apply Triple.pure
    rintro t rfl
    exact Done.fail (refused_close hf) hs
  | some =>
    have hu := uses_withoutFile ha.proc (fileAt_some ha hf)
    refine .bind ((setProc_spec (withoutFile pr p fd) rfl).pre (fun t ht => ht ▸ hs)) (fun _ => ?_)
    refine .bind (fileclose_spec hu) (fun _ => ?_)
    apply Triple.pure
    exact fun t ht => ⟨_, _, .closes hf, ht⟩

theorem Alive.withoutFile (ha : Alive pr p q c) (fd : ℕ) :
    Alive (withoutFile pr p fd) p { q with ofile := q.ofile.set fd none } c := by
  refine ⟨?_, ha.cwd⟩
  rw [Dir.withoutFile, List.getElem?_modify_eq, ha.proc]
  rfl

theorem exitFiles_spec (fds : List ℕ) (ha : Alive pr p q c) : Triple E (Idle d pr (uses pr)) (exitFiles p fds)
      (fun _ => Idle (exitTree d pr p fds).1 (exitTree d pr p fds).2 (uses (exitTree d pr p fds).2)) ∧
    ∃ q', Alive (exitTree d pr p fds).2 p q' c := by
  induction fds generalizing d pr q with
  | nil => exact ⟨Triple.pure (fun s hs => hs), q, ha⟩
  | cons fd fds ih =>
    cases hf : fileAt pr p fd with
    | none =>
      obtain ⟨hrest, halive⟩ := ih (d := d) ha
      simp only [exitTree, hf]
      refine ⟨Triple.bind (R := fun _ => Idle d pr (uses pr)) ?_ (fun _ => hrest), halive⟩
      apply Triple.get
      intro s hs
      rw [hs.procs, hf]
      apply Triple.pure
      rintro t rfl
      exact hs
    | some i =>
      have hu := uses_withoutFile ha.proc (fileAt_some ha hf)
      obtain ⟨hrest, halive⟩ := ih (d := released d (uses (withoutFile pr p fd)) i) (ha.withoutFile fd)
      simp only [exitTree, hf]
      refine ⟨Triple.bind (R := fun _ => Idle (released d (uses (withoutFile pr p fd)) i)
        (withoutFile pr p fd) (uses (withoutFile pr p fd))) ?_ (fun _ => hrest), halive⟩
      apply Triple.get
      intro s hs
      rw [hs.procs, hf]
      refine .bind ((fileclose_spec hu).pre (fun t ht => ht ▸ hs)) (fun _ => ?_)
      exact setProc_spec (withoutFile pr p fd) rfl

theorem exit_spec (ha : Alive pr p q c) :
    Triple E (Idle d pr (uses pr)) (exit p) (fun _ => Done ninodes d pr p .exit) := by
  obtain ⟨hfiles, q', ha'⟩ := exitFiles_spec (E := E) (d := d) (List.range nofile) ha
  rcases hx : exitTree d pr p (List.range nofile) with ⟨d1, pr1⟩
  rw [hx] at hfiles ha'
  refine .bind hfiles (fun _ => ?_)
  apply Triple.get
  intro s hs
  have hu : uses pr1 = uses (withCwd pr1 p none)+one c := funext ha'.uses_eq
  have hdrop : Triple E (Idle d1 pr1 (uses pr1)) (iput c)
      (fun _ => Idle (released d1 (uses (withCwd pr1 p none)+0) c) pr1 (uses (withCwd pr1 p none))) :=
    drop_spec hu (by simp)
  rw [hs.procs, ha'.cwdOf]
  refine .bind (hdrop.pre (fun t ht => ht ▸ hs)) (fun _ => ?_)
  refine .bind (setProc_spec (withCwd pr1 p none) rfl) (fun _ => ?_)
  apply Triple.pure
  intro t ht
  refine ⟨_, _, .exits hx, ?_⟩
  rw [ha'.cwdOf]
  rw [add_zero] at ht
  exact ht

theorem syscall_spec (hE : Benign E) (hs : Sane d (uses pr)) (hS : E .ilockNoType ∨ Solid d)
    (hn : ninodes ≤ 65536) (e : Event) (ha : Alive pr e.proc q c) :
    Triple E (Idle d pr (uses pr)) (syscall ninodes e) (fun _ => Done ninodes d pr e.proc e.call) := by
  obtain ⟨p, call⟩ := e
  cases call with
  | openFile path omode => exact sysOpen_spec hE hs hS hn ha path omode
  | mkdir path =>
    exact sysCreate_spec hE hs hS hn ha (.mkdir path) (by decide) (fun _ h => h) (fun _ _ h => by cases h) rfl
  | mknod path major minor =>
    exact sysCreate_spec hE hs hS hn ha (.mknod path major minor) (by decide) (fun _ h => h)
      (fun _ _ h => by cases h) rfl
  | link old new => exact sysLink_spec hE hs hS ha old new
  | unlink path => exact sysUnlink_spec hE hs hS ha path
  | chdir path => exact sysChdir_spec hE hs hS ha path
  | close fd => exact sysClose_spec ha fd
  | exit => exact exit_spec ha

theorem alive_of_true (h : alive pr p = true) : ∃ q c, Alive pr p q c := by
  obtain ⟨c, hc⟩ := Option.isSome_iff_exists.mp h
  obtain ⟨q, hq, hcwd⟩ := Option.bind_eq_some_iff.mp hc
  exact ⟨q, c, hq, hcwd⟩

theorem step_effect {s t : Fs} {e : Event} (hs : Sane d (uses pr)) (hn : ninodes ≤ 65536)
    (hat : Idle d pr (uses pr) s) (hstep : step ninodes s e = some t) :
    ∃ d' pr', Effect ninodes d pr e.proc e.call d' pr' ∧ Idle d' pr' (uses pr') t := by
  unfold step at hstep
  split_ifs at hstep with hl
  rw [hat.procs] at hl
  obtain ⟨q, c, ha⟩ := alive_of_true hl
  have hspec := syscall_spec (E := fun _ => True) (fun _ _ => trivial) hs (Or.inl trivial) hn e ha
  split at hstep
  · next r t' hrun =>
    obtain rfl : t' = t := Option.some.inj hstep
    exact hspec.run_ok hat hrun
  · cases hstep

theorem syscall_no_type {s : Fs} {e : Event} (hs : Sane d (uses pr)) (hS : Solid d)
    (hn : ninodes ≤ 65536) (hat : Idle d pr (uses pr) s) (hl : alive s.procs e.proc = true) :
    syscall ninodes e s ≠ .error .ilockNoType := by
  intro hrun
  rw [hat.procs] at hl
  obtain ⟨q, c, ha⟩ := alive_of_true hl
  have hspec := syscall_spec (E := fun x => x ≠ .ilockNoType) (fun x hx => hx) hs (Or.inr hS) hn e ha
  exact hspec.run_error hat hrun rfl

end Xv6.Dir
