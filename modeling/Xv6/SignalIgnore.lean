import Xv6.SignalAction
import Xv6.SignalConsume
import Xv6.SignalFlag
import Xv6.SignalRace

/-! A pass leaves an ignored signal pending; a new action for it brings it back. -/
namespace Xv6.Signal
open Function Runs Bytes List

def Muted (s : Sig) (p : Proc) : Prop := isPending p s = false ∨ p.signalHandlers s = sigIgn

variable {s : Sig} {p q : Proc} {sched : List (List Sig)}

theorem Muted.of_eq (h : Muted s p) (hp : q.pendingSignals = p.pendingSignals)
    (hh : q.signalHandlers = p.signalHandlers) : Muted s q := by
  rwa [Muted, isPending, hp, hh]

theorem Muted.killSlot {k : Sig} (h : Muted s p) (hk : k ≠ s) : Muted s (killSlot p k) := by
  have hp : isPending (Signal.killSlot p k) s = isPending p s := by simp [isPending_killSlot, hk]
  have hh : (Signal.killSlot p k).signalHandlers = p.signalHandlers := by
    unfold Signal.killSlot
    split_ifs <;> rfl
  rwa [Muted, hp, hh]

theorem Muted.killSlots {ks : List Sig} (h : Muted s p) (hs : s ∉ ks) : Muted s (ks.foldl Signal.killSlot p) := by
  induction ks generalizing p with
  | nil => exact h
  | cons k ks ih =>
    rw [mem_cons, not_or] at hs
    exact ih (h.killSlot (Ne.symm hs.1)) hs.2

theorem Muted.sigstopLoop (h : Muted s p) (hs : ∀ ks ∈ sched, s ∉ ks) : Muted s (sigstopLoop p sched).2 := by
  have htest (p q : Proc) (h : Muted s p) (hq : stopTest p = some q) : Muted s q := by
    refine h.of_eq (stopTest_pending hq) ?_
    exact congrArg (fun x => x.2.1) (facing_stopTest hq)
  induction sched generalizing p with
  | nil =>
    cases hq : stopTest p with
    | none => simpa only [Signal.sigstopLoop, hq] using h
    | some q => simpa only [Signal.sigstopLoop, hq] using htest p q h hq
  | cons ks sched ih =>
    cases hq : stopTest p with
    | none =>
      simp only [Signal.sigstopLoop, hq]
      exact ih (h.killSlots (hs ks mem_cons_self)) (fun l hl => hs l (mem_cons_of_mem _ hl))
    | some q => simpa only [Signal.sigstopLoop, hq] using htest p q h hq

theorem Muted.defaultAction (h : Muted s p)
    (hs : ∀ ks ∈ sched, s ∉ ks) (i : Sig) : Muted s (defaultAction sched p i).2.2 := by
  unfold Signal.defaultAction
  split_ifs
  · exact h.of_eq rfl rfl
  · exact (h.of_eq (q := { p with frozen := 1 }) rfl rfl).sigstopLoop hs
  · dsimp only [sigcontHandler]
    split_ifs
    · exact h.of_eq rfl rfl
    · exact h
  · exact h.of_eq rfl rfl

theorem Muted.clear {i : Sig} (h : Muted s p)
    (hp : q.pendingSignals = p.pendingSignals &&& ~~~bit i) (hh : q.signalHandlers = p.signalHandlers) :
    Muted s q := by
  rcases h with h | h
  · left
    rw [isPending, hp, getLsbD_clear, ← isPending, h, Bool.false_and]
  · right
    rw [hh, h]

theorem Muted.userSpaceHandler (h : Muted s p) (code : List UInt8) (i : Sig) : Muted s (userSpaceHandler code p i) := by
  unfold Signal.userSpaceHandler
  split_ifs
  · exact h.clear rfl rfl
  · exact h

theorem Muted.signalLoop (hs : ∀ ks ∈ sched, s ∉ ks) (code : List UInt8) (is : List Sig) (h : Muted s p) :
    Muted s (signalLoop code sched is p).proc ∧ ∀ a, (s, a) ∉ (signalLoop code sched is p).acts := by
  have hafter {p : Proc} {i : Sig} {r : Pass} {a' : Act} (h : Muted s p) (hp : isPending p i = true)
      (hign : p.signalHandlers i ≠ sigIgn) (hr : ∀ a, (s, a) ∉ r.acts) (a : Act) : (s, a) ∉ (r.after (i, a')).acts := by
    rw [Pass.after, mem_cons, not_or]
    refine ⟨fun he => ?_, hr a⟩
    obtain rfl : s = i := congrArg Prod.fst he
    rcases h with h | h
    · cases h.symm.trans hp
    · exact hign h
  have hdfl {p q : Proc} {i : Sig} {a : Act} {ends : Bool} (h : Muted s p)
      (hd : Signal.defaultAction sched p i = (a, ends, q)) : Muted s q := by simpa only [hd] using h.defaultAction hs i
  have hne : sigDfl ≠ sigIgn := by decide
  refine signalLoop_induction (P := fun p r => Muted s p → Muted s r.proc ∧ ∀ a, (s, a) ∉ r.acts) code sched
    (fun p h => ⟨h, fun _ => not_mem_nil⟩) ?_ ?_ ?_ is p h
  · intro p i a q hon hd hact h
    exact ⟨hdfl h hact, hafter (r := ⟨q, [], false⟩) h hon.1 (hd ▸ hne) (fun _ => not_mem_nil)⟩
  · intro p i a q r hon hd hact ih h
    obtain ⟨h1, h2⟩ := ih ((hdfl h hact).clear (i := i) (q := clearPending q i) rfl rfl)
    exact ⟨h1, hafter h hon.1 (hd ▸ hne) h2⟩
  · intro p i r hon hu ih h
    obtain ⟨h1, h2⟩ := ih ((h.of_eq (q := { p with backupSigMask := p.signalMask }) rfl rfl).userSpaceHandler code i)
    simp only [isUser, Bool.and_eq_true, decide_eq_true_eq] at hu
    split_ifs
    · exact ⟨h1, hafter h hon.1 hu.1 h2⟩
    · exact ⟨h1, h2⟩

theorem signalHandlers_signalLoop (code : List UInt8) (sched : List (List Sig)) (is : List Sig) (p : Proc) :
    (signalLoop code sched is p).proc.signalHandlers = p.signalHandlers := by
  induction is generalizing p with
  | nil => rfl
  | cons i is ih =>
    have hd := congrArg (fun x => x.2.1) (facing_defaultAction sched p i).1
    unfold signalLoop
    split_ifs
    · exact ih p
    · split
      · rename_i q hq
        rw [hq] at hd
        exact (ih (clearPending q i)).trans hd
      · rename_i q hq
        rw [hq] at hd
        exact hd
    · dsimp only
      have hu : (userSpaceHandler code { p with backupSigMask := p.signalMask } i).signalHandlers =
          p.signalHandlers := by
        unfold userSpaceHandler
        split_ifs <;> rfl
      split_ifs
      · exact (ih _).trans hu
      · exact (ih _).trans hu
    · exact ih p

theorem Muted.usertrapret (hs : ∀ ks ∈ sched, s ∉ ks) (code : List UInt8) (h : Hart) (hp : Muted s p) :
    Muted s (usertrapret code sched h p).proc ∧ ∀ a, (s, a) ∉ (usertrapret code sched h p).acts := by
  have hpass : Muted s (signalHandler code sched p).proc ∧ ∀ a, (s, a) ∉ (signalHandler code sched p).acts := by
    unfold signalHandler
    split_ifs
    · exact ⟨hp, fun _ => not_mem_nil⟩
    · exact hp.signalLoop hs code _
  refine ⟨?_, hpass.2⟩
  dsimp only [Signal.usertrapret]
  split_ifs
  · exact hpass.1.of_eq rfl rfl
  · exact hpass.1

theorem signalHandlers_usertrapret (code : List UInt8) (sched : List (List Sig)) (h : Hart) (p : Proc) :
    (usertrapret code sched h p).proc.signalHandlers = p.signalHandlers := by
  have hpass : (signalHandler code sched p).proc.signalHandlers = p.signalHandlers := by
    unfold signalHandler
    split_ifs
    · rfl
    · exact signalHandlers_signalLoop code sched _ p
  dsimp only [usertrapret]
  split_ifs
  · exact hpass
  · exact hpass

def OldWritable (p : Proc) (i : Sig) (oldact : Word) : Prop :=
  oldact = 0 ∨ p.mem.Mapped oldact (handlerBytes p i).length ∧ p.mem.Mapped (oldact+8#64) (maskBytes p i).length

theorem signalHandlers_sigaction (p : Proc) (signum : ℤ) (act oldact : Word) :
    (sigaction p signum act oldact).1.signalHandlers = p.signalHandlers ∨
    ∃ (i : Sig) (bs : List UInt8), signum = i.val ∧ copyin p.mem act 16 = some bs ∧ OldWritable p i oldact ∧
      (sigaction p signum act oldact).1.signalHandlers =
        update p.signalHandlers i (BitVec.ofNat 64 (leNat (bs.take 8))) := by
  by_cases hbad : signum = 9 ∨ signum = 17 ∨ signum < 0 ∨ signum ≥ 32
  · left
    rw [sigaction, if_pos hbad]
  obtain ⟨i, rfl⟩ : ∃ i : Sig, signum = i.val := ⟨⟨signum.toNat, by omega⟩, by simp; omega⟩
  have hk : i ≠ sigkill := by
    rintro rfl
    exact hbad (Or.inl rfl)
  have hs : i ≠ sigstop := by
    rintro rfl
    exact hbad (Or.inr (Or.inl rfl))
  have hlen1 := length_handlerBytes p i
  have hlen2 : (maskBytes p i).length ≤ 16 := length_take_le ..
  rw [sigaction_in_range hk hs]
  cases hbs : copyin p.mem act 16 with
  | none => exact Or.inl rfl
  | some bs =>
    dsimp only
    split_ifs with h0 h1 h2
    · exact Or.inr ⟨i, bs, rfl, rfl, Or.inl h0, rfl⟩
    · exact Or.inl rfl
    · exact Or.inl rfl
    rcases copyout_spec p.mem oldact (handlerBytes p i) (by omega) with
      ⟨hmap, -, hwalk, -⟩ | ⟨-, hret⟩
    · rcases copyout_spec (copyout p.mem oldact (handlerBytes p i)).1 (oldact+8#64) (maskBytes p i)
        (by omega) with ⟨hmap', -, -, -⟩ | ⟨-, hret⟩
      · exact Or.inr ⟨i, bs, rfl, rfl, Or.inr ⟨hmap, (UserMem.Mapped.congr hwalk).mp hmap'⟩, rfl⟩
      · exact absurd (hret.symm.trans (not_not.mp h2)) (by decide)
    · exact absurd (hret.symm.trans (not_not.mp h1)) (by decide)

theorem pendingSignals_sigaction (p : Proc) (signum : ℤ) (act oldact : Word) :
    (sigaction p signum act oldact).1.pendingSignals = p.pendingSignals := by
  unfold sigaction
  split
  · rfl
  dsimp only
  split
  · rfl
  · split_ifs <;> rfl

def SendsSelf (s : Sig) (p : Proc) : Prop :=
  intOf p.trapframe.regs.a7 = sysKillNum ∧ intOf p.trapframe.regs.a0 = p.pid ∧
  intOf p.trapframe.regs.a1 = s.val

/-- The call that the process makes is a sigaction that gives signal `s`, still pending, an action
other than SIG_IGN. -/
def Revives (s : Sig) (p : Proc) : Prop :=
  intOf p.trapframe.regs.a7 = sysSigactionNum ∧ intOf p.trapframe.regs.a0 = s.val ∧
  isPending p s = true ∧ OldWritable p s p.trapframe.regs.a2 ∧
  ∃ bs, copyin p.mem p.trapframe.regs.a1 16 = some bs ∧ BitVec.ofNat 64 (leNat (bs.take 8)) ≠ sigIgn

theorem Muted.syscall {t : Trap} (hp : Muted s p) (hself : ¬SendsSelf s p)
    (hrev : ¬Revives s p) (h : syscall t p = some q) : Muted s q := by
  obtain ⟨r, rfl, hr⟩ := syscall_cases h
  suffices hm : Muted s r.1 from hm.of_eq rfl rfl
  rcases hr with ⟨h2, rfl⟩ | rfl | rfl | ⟨h5, rfl⟩ | rfl | rfl | rfl
  · unfold sysKill
    dsimp only
    split_ifs with hr hpid
    · exact hp
    · refine hp.killSlot (fun he => hself ⟨h2, hpid, ?_⟩)
      rw [← he, Fin.val_ofNat]
      omega
    · exact hp
  · unfold sysExec
    split
    · exact hp
    · refine hp.imp id (fun hi => ?_)
      simp [exec, hi]
  · unfold sysSigprocmask
    dsimp only
    split_ifs
    · exact hp
    · exact hp.of_eq rfl rfl
  · have hpend := pendingSignals_sigaction p (intOf p.trapframe.regs.a0) p.trapframe.regs.a1 p.trapframe.regs.a2
    rcases signalHandlers_sigaction p (intOf p.trapframe.regs.a0) p.trapframe.regs.a1
      p.trapframe.regs.a2 with hh | ⟨i, bs, hi, hbs, hold, hh⟩
    · exact hp.of_eq hpend hh
    by_cases his : i = s
    · subst his
      cases hpi : isPending p i with
      | false =>
        left
        dsimp only [sysSigaction]
        rw [isPending, hpend]
        exact hpi
      | true =>
        right
        have hign : BitVec.ofNat 64 (leNat (bs.take 8)) = sigIgn := by
          by_contra hne
          exact hrev ⟨h5, hi, hpi, hold, bs, hbs, hne⟩
        dsimp only [sysSigaction]
        rw [hh, update_self, hign]
    · refine hp.imp (fun hno => ?_) (fun hign => ?_)
      · dsimp only [sysSigaction]
        rw [isPending, hpend]
        exact hno
      · dsimp only [sysSigaction]
        rw [hh, update_of_ne (Ne.symm his), hign]
  · exact hp.of_eq rfl rfl
  · exact hp.of_eq rfl rfl
  · exact hp

def Sends (s : Sig) (u : Life) : Event → Prop
  | .kill k => k = s
  | .trap t => s ∈ t.killsIn ∨ s ∈ t.killsOut ∨ (∃ ks ∈ t.sched, s ∈ ks) ∨
      (t.cause = .syscall ∧ SendsSelf s (saveUser t u.proc))

def Reinstalls (s : Sig) (u : Life) : Event → Prop
  | .kill _ => False
  | .trap t => t.cause = .syscall ∧ Revives s (saveUser t u.proc)

/-- The pass at the end of the trap, with no handler in progress, finds signal `s` unblocked and
ignored. -/
def PassIgnores (s : Sig) (u : Life) (t : Trap) : Prop :=
  ∃ q, usertrap t u.proc = some q ∧ q.sigHandlerFlag = 0 ∧ isBlocked q.signalMask s = false ∧
    q.signalHandlers s = sigIgn

def ActsOn (code : List UInt8) (s : Sig) (u : Life) : Event → Prop
  | .kill _ => False
  | .trap t => ∃ q a, usertrap t u.proc = some q ∧ (s, a) ∈ (usertrapret code t.sched t.hart q).acts

theorem Muted.usertrap {t : Trap} {u : Life} (hp : Muted s u.proc)
    (hsend : ¬Sends s u (.trap t)) (hrev : ¬Reinstalls s u (.trap t))
    (h : usertrap t u.proc = some q) : Muted s q := by
  simp only [Sends, not_or, not_and] at hsend
  obtain ⟨hin, hout, -, hself⟩ := hsend
  have hcheck (r : Proc) (hr : Muted s r) (hq : checkKilled t r = some q) : Muted s q := by
    rw [checkKilled_some t r q hq]
    exact (hr.killSlots hin).killSlots hout
  unfold Signal.usertrap at h
  dsimp only at h
  split at h
  · rename_i hcause
    split_ifs at h
    obtain ⟨r, hr, hq⟩ := Option.bind_eq_some_iff.mp h
    have hsaved : Muted s (skipEcall (saveUser t u.proc)) := hp.of_eq rfl rfl
    exact hcheck r (hsaved.syscall (hself hcause) (fun hr => hrev ⟨hcause, hr⟩) hr) hq
  · exact hcheck (saveUser t u.proc) (hp.of_eq rfl rfl) h
  · exact hcheck { saveUser t u.proc with killed := 1 } (hp.of_eq rfl rfl) h

theorem Muted.step {code : List UInt8} {u v : Life} {e : Event} (hu : Muted s u.proc)
    (hsend : ¬Sends s u e) (hrev : ¬Reinstalls s u e) (h : step code u e = some v) : Muted s v.proc := by
  cases e with
  | kill =>
    simp only [Signal.step] at h
    split_ifs at h
    cases h
    exact hu.killSlot hsend
  | trap t =>
    simp only [Signal.step] at h
    split_ifs at h
    split at h
    · cases h
      exact hu
    rename_i q hq
    cases h
    have hsched : ∀ ks ∈ t.sched, s ∉ ks := by
      intro ks hks hs
      exact hsend (Or.inr (Or.inr (Or.inl ⟨ks, hks, hs⟩)))
    exact ((hu.usertrap hsend hrev hq).usertrapret hsched code t.hart).1

/-- After a pass that finds a signal ignored, no pass acts on it before it is sent again, in every
run in which it gets no other action while it is pending. -/
theorem ignored_signal_without_effect {code : List UInt8} {s : Sig} {u v w : Life} {t : Trap} {e : Event}
    (hpass : PassIgnores s u t) (hv : step code u (.trap t) = some v)
    (hw : Reach (step code) (fun x e => ¬Sends s x e ∧ ¬Reinstalls s x e) v w)
    (hsend : ¬Sends s w e) (hrev : ¬Reinstalls s w e) : ¬ActsOn code s w e := by
  obtain ⟨q, hq, -, -, hign⟩ := hpass
  have hmuted : Muted s v.proc := by
    simp only [step, hq] at hv
    by_cases hmode : u.mode = .user
    swap
    · rw [if_pos hmode] at hv
      cases hv
    rw [if_neg (not_not.mpr hmode)] at hv
    cases hv
    right
    rw [signalHandlers_usertrapret, hign]
  have hlater : Muted s w.proc := hw.invariant hmuted (fun x e y hx hc hy => Muted.step hx hc.1 hc.2 hy)
  cases e with
  | kill => exact id
  | trap t' =>
    rintro ⟨r, a, hr, ha⟩
    have hsched : ∀ ks ∈ t'.sched, s ∉ ks := by
      intro ks hks hs
      exact hsend (Or.inr (Or.inr (Or.inl ⟨ks, hks, hs⟩)))
    exact ((hlater.usertrap hsend hrev hr).usertrapret hsched code t'.hart).2 a ha

def ignoring : Life := ⟨{ idle.proc with
      signalHandlers := fun i => if i = 15 then sigIgn else sigDfl
      mem := ⟨some, fun a => if a = 0x4001 then 0x10 else 0⟩ }, .user, false⟩

def actionTrap : Trap := { sigretTrap with regs := { zeroRegs with a7 := 23, a0 := 15, a1 := 0x4000 } }

theorem ignored_stays_without_effect : ∃ v, run (step sigretCode) ignoring [.kill 15, .trap timerTrap] = some v ∧
      isPending v.proc 15 = true ∧ ¬ActsOn sigretCode 15 v (.trap timerTrap) := by
  have hpass : PassIgnores 15 { ignoring with proc := killSlot ignoring.proc 15 } timerTrap := ⟨_, rfl, by decide⟩
  refine ⟨_, rfl, by decide, ignored_signal_without_effect hpass rfl .start ?_ ?_⟩
  · rintro (h | h | ⟨ks, h, -⟩ | ⟨h, -⟩)
    · exact not_mem_nil h
    · exact not_mem_nil h
    · exact not_mem_nil h
    · exact absurd h (by decide)
  · rintro ⟨h, -⟩
    exact absurd h (by decide)

/-- Signal 15 is sent, a pass ignores it, and the handler installed next gets it. -/
theorem ignored_signal_delivered :
    ∃ u v, run (step sigretCode) ignoring [.kill 15] = some u ∧ PassIgnores 15 u timerTrap ∧
      step sigretCode u (.trap timerTrap) = some v ∧ ¬Sends 15 v (.trap actionTrap) ∧
      ActsOn sigretCode 15 v (.trap actionTrap) := by
  refine ⟨_, _, rfl, ⟨_, rfl, by decide⟩, rfl, ?_, ⟨_, .frame, rfl, by decide⟩⟩
  rintro (h | h | ⟨ks, h, -⟩ | ⟨-, h, -⟩)
  · exact not_mem_nil h
  · exact not_mem_nil h
  · exact not_mem_nil h
  · exact absurd h (by decide)

end Xv6.Signal
