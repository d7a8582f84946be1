import Xv6.SignalLoop
import Xv6.TrapModel

/-! From the set-up of a user-handler frame through the handler to its sigret. -/
namespace Xv6.Signal
open Runs

def saved (p : Proc) : ℤ × Trapframe × SigSet := (p.sigHandlerFlag, p.backupTrapframe, p.backupSigMask)

@[simp] theorem saved_killSlot (p : Proc) (s : Sig) : saved (killSlot p s) = saved p := by
  unfold killSlot
  split <;> rfl

@[simp] theorem saved_killSlots (ks : List Sig) (p : Proc) : saved (ks.foldl killSlot p) = saved p := by
  induction ks generalizing p with
  | nil => rfl
  | cons s ks ih => rw [List.foldl_cons, ih, saved_killSlot]

@[simp] theorem trapframe_killSlots (ks : List Sig) (p : Proc) : (ks.foldl killSlot p).trapframe = p.trapframe := by
  induction ks generalizing p with
  | nil => rfl
  | cons s ks ih =>
    rw [List.foldl_cons, ih, killSlot]
    split <;> rfl

@[simp] theorem signalMask_killSlots (ks : List Sig) (p : Proc) : (ks.foldl killSlot p).signalMask = p.signalMask := by
  induction ks generalizing p with
  | nil => rfl
  | cons s ks ih =>
    rw [List.foldl_cons, ih, killSlot]
    split <;> rfl

theorem saved_sigaction (p : Proc) (signum : ℤ) (act oldact : Word) :
    saved (sigaction p signum act oldact).1 = saved p := by
  unfold sigaction
  split
  · rfl
  dsimp only
  split
  · rfl
  split
  · rfl
  · split
    · rfl
    · split <;> rfl

theorem syscall_cases {t : Trap} {p q : Proc} (h : syscall t p = some q) : ∃ r : Proc × Word, q = setA0 r.1 r.2 ∧
      ((intOf p.trapframe.regs.a7 = sysKillNum ∧ r = sysKill t p) ∨ r = sysExec t p ∨
        r = sysSigprocmask p ∨ (intOf p.trapframe.regs.a7 = sysSigactionNum ∧ r = sysSigaction p) ∨
        r = sysSigret p ∨ r = ({ p with mem := t.mem p.mem }, t.ret) ∨ r = (p, BitVec.ofInt 64 (-1))) := by
  have hstore (r : Proc × Word) (hq : some (setA0 r.1 r.2) = some q) : q = setA0 r.1 r.2 := (Option.some.inj hq).symm
  unfold syscall at h
  dsimp only at h
  by_cases hexit : intOf p.trapframe.regs.a7 = sysExit
  · rw [if_pos hexit] at h
    cases h
  rw [if_neg hexit] at h
  by_cases hkill : intOf p.trapframe.regs.a7 = sysKillNum
  · rw [if_pos hkill] at h
    exact ⟨_, hstore _ h, Or.inl ⟨hkill, rfl⟩⟩
  rw [if_neg hkill] at h
  by_cases hexec : intOf p.trapframe.regs.a7 = sysExecNum
  · rw [if_pos hexec] at h
    exact ⟨_, hstore _ h, Or.inr (Or.inl rfl)⟩
  rw [if_neg hexec] at h
  by_cases hmask : intOf p.trapframe.regs.a7 = sysSigprocmaskNum
  · rw [if_pos hmask] at h
    exact ⟨_, hstore _ h, Or.inr (Or.inr (Or.inl rfl))⟩
  rw [if_neg hmask] at h
  by_cases hact : intOf p.trapframe.regs.a7 = sysSigactionNum
  · rw [if_pos hact] at h
    exact ⟨_, hstore _ h, Or.inr (Or.inr (Or.inr (Or.inl ⟨hact, rfl⟩)))⟩
  rw [if_neg hact] at h
  by_cases hret : intOf p.trapframe.regs.a7 = sysSigretNum
  · rw [if_pos hret] at h
    exact ⟨_, hstore _ h, Or.inr (Or.inr (Or.inr (Or.inr (Or.inl rfl))))⟩
  rw [if_neg hret] at h
  by_cases hother : 0 < intOf p.trapframe.regs.a7 ∧ intOf p.trapframe.regs.a7 ≤ sysMax
  · rw [if_pos hother] at h
    exact ⟨_, hstore _ h, Or.inr (Or.inr (Or.inr (Or.inr (Or.inr (Or.inl rfl)))))⟩
  · rw [if_neg hother] at h
    exact ⟨_, hstore _ h, Or.inr (Or.inr (Or.inr (Or.inr (Or.inr (Or.inr rfl)))))⟩

theorem saved_syscall (t : Trap) (p q : Proc) (h : syscall t p = some q) : saved q = saved p := by
  have hkill : saved (sysKill t p).1 = saved p := by
    unfold sysKill
    dsimp only
    split_ifs
    · rfl
    · exact saved_killSlot p _
    · rfl
  have hexec : saved (sysExec t p).1 = saved p := by
    unfold sysExec
    split <;> rfl
  have hmask : saved (sysSigprocmask p).1 = saved p := by
    unfold sysSigprocmask
    dsimp only
    split_ifs <;> rfl
  obtain ⟨r, rfl, hr⟩ := syscall_cases h
  change saved r.1 = saved p
  rcases hr with ⟨-, rfl⟩ | rfl | rfl | ⟨-, rfl⟩ | rfl | rfl | rfl
  · exact hkill
  · exact hexec
  · exact hmask
  · exact saved_sigaction p _ _ _
  · rfl
  · rfl
  · rfl

theorem checkKilled_some (t : Trap) (p q : Proc) (h : checkKilled t p = some q) :
    q = t.killsOut.foldl killSlot (t.killsIn.foldl killSlot p) := by
  unfold checkKilled at h
  dsimp only at h
  split_ifs at h
  exact (Option.some.inj h).symm

theorem saved_usertrap (t : Trap) (p q : Proc) (h : usertrap t p = some q) : saved q = saved p := by
  have hcheck (r : Proc) (hr : saved r = saved p) (hq : checkKilled t r = some q) : saved q = saved p := by
    rw [checkKilled_some t r q hq, saved_killSlots, saved_killSlots, hr]
  unfold usertrap at h
  dsimp only at h
  split at h
  · split_ifs at h
    obtain ⟨r, hr, hq⟩ := Option.bind_eq_some_iff.mp h
    exact hcheck r (saved_syscall t (skipEcall (saveUser t p)) r hr) hq
  · exact hcheck (saveUser t p) rfl h
  · exact hcheck { saveUser t p with killed := 1 } rfl h

theorem usertrapret_of_flag (code : List UInt8) (sched : List (List Sig)) (h : Hart) (p : Proc)
    (hf : p.sigHandlerFlag = 1) :
    usertrapret code sched h p = ⟨setKernelFields h p, [], true⟩ := by
  simp [usertrapret, signalHandler, hf]

theorem saved_step (code : List UInt8) (s u : Life) (e : Event) (h : step code s e = some u)
    (hf : s.proc.sigHandlerFlag = 1) : saved u.proc = saved s.proc := by
  cases e with
  | kill =>
    simp only [step] at h
    split_ifs at h
    rw [← Option.some.inj h, saved_killSlot]
  | trap t =>
    simp only [step] at h
    split_ifs at h
    split at h
    · rw [← Option.some.inj h]
    rename_i q hq
    have hs := saved_usertrap t s.proc q hq
    have hqf : q.sigHandlerFlag = 1 := (congrArg Prod.fst hs).trans hf
    rw [usertrapret_of_flag code _ _ q hqf] at h
    rw [← Option.some.inj h, ← hs]
    rfl

theorem saved_run (code : List UInt8) (s u : Life) (es : List Event)
    (h : run (step code) s es = some u) (hf : s.proc.sigHandlerFlag = 1) :
    saved u.proc = saved s.proc := by
  refine run_invariant (I := fun v => saved v.proc = saved s.proc) ?_ h rfl
  intro v e w hv hw
  have hvf : v.proc.sigHandlerFlag = 1 := (congrArg Prod.fst hv).trans hf
  exact (saved_step code v w e hw hvf).trans hv

theorem syscall_sigret (t : Trap) (p : Proc) (h : intOf p.trapframe.regs.a7 = sysSigretNum) :
    syscall t p = some (setA0 (sigret p) 0) := by
  have hn : intOf p.trapframe.regs.a7 = 24 := h
  simp only [syscall, hn]
  rfl

/-- The system call sigret, as usertrap and the dispatcher run it: the saved frame and
mask come back, and then the call's own result goes into a0. -/
theorem usertrap_sigret (t : Trap) (p q : Proc) (ht : isSigret t = true) (h : usertrap t p = some q) :
    q.trapframe = { p.backupTrapframe with regs := { p.backupTrapframe.regs with a0 := 0 } } ∧
    q.signalMask = p.backupSigMask := by
  simp only [isSigret, Bool.and_eq_true, decide_eq_true_eq] at ht
  have hsys := syscall_sigret t (skipEcall (saveUser t p)) ht.2
  simp only [usertrap, ht.1, hsys, Option.bind_some] at h
  split_ifs at h
  rw [checkKilled_some t _ q h]
  simp only [trapframe_killSlots, signalMask_killSlots]
  exact ⟨rfl, rfl⟩

theorem usertrapret_saved (code : List UInt8) (sched : List (List Sig)) (h : Hart) (p : Proc)
    (hflag : p.sigHandlerFlag = 0) (hdone : (usertrapret code sched h p).done = true)
    (hframe : setsFrame (usertrapret code sched h p) = true) :
    ∃ f, frameSignal p = some f ∧ LoopInv p (signalHandler code sched p).proc 32 ∧
      saved (usertrapret code sched h p).proc = (1, p.trapframe, (signalHandler code sched p).proc.backupSigMask) := by
  have hspec := signalHandler_spec code sched p hflag
  have hinv := hspec.inv hdone
  obtain ⟨⟨f, a⟩, hmem, ha⟩ := List.any_eq_true.mp hframe
  obtain rfl : a = .frame := by simpa using ha
  obtain ⟨-, -, hc, hact⟩ := (hspec.acts f .frame).mp hmem
  have hf : frameSignal p = some f := by
    by_contra hne
    simp only [actOf, if_neg hne] at hact
    split_ifs at hact
  have hfb : framedBefore p 32 = true := (framedBefore_iff p 32).mpr ⟨f, hf, f.isLt⟩
  refine ⟨f, hf, hinv, ?_⟩
  have hd : (signalHandler code sched p).done = true := hdone
  have h1 := hinv.flag
  have h2 := hinv.saved hfb
  simp only [hfb, ↓reduceIte] at h1
  simp only [usertrapret, hd, ↓reduceIte, saved, setKernelFields, h1, h2]

def Restored (p q : Proc) : Prop := q.trapframe.epc = p.trapframe.epc ∧ q.trapframe.regs = p.trapframe.regs

/-- Interrupt, handler, sigret: whatever the handler does between its frame and its
sigret call, the interrupted registers are back exactly if a0 was 0. -/
theorem sigret_restores_iff (code : List UInt8) (sched : List (List Sig)) (h : Hart) (p : Proc)
    (hflag : p.sigHandlerFlag = 0) (hdone : (usertrapret code sched h p).done = true)
    (hframe : setsFrame (usertrapret code sched h p) = true) (es : List Event) (s : Life)
    (hrun : run (step code) ⟨(usertrapret code sched h p).proc, .user, true⟩ es = some s)
    (t : Trap) (ht : isSigret t = true) (u : Life) (hu : step code s (.trap t) = some u)
    (hmode : u.mode = .user) :
    Restored p u.proc ↔ p.trapframe.regs.a0 = 0 := by
  obtain ⟨f, -, -, hsaved⟩ := usertrapret_saved code sched h p hflag hdone hframe
  have hflag1 : (usertrapret code sched h p).proc.sigHandlerFlag = 1 := congrArg Prod.fst hsaved
  have hs : saved s.proc = _ := (saved_run code _ s es hrun hflag1).trans hsaved
  have hsf : s.proc.sigHandlerFlag = 1 := congrArg Prod.fst hs
  have hsb : s.proc.backupTrapframe = p.trapframe := congrArg (fun x => x.2.1) hs
  simp only [step] at hu
  split_ifs at hu with hm
  split at hu
  · rw [← Option.some.inj hu] at hmode
    cases hmode
  rename_i q hq
  have hqf : q.sigHandlerFlag = 1 := (congrArg Prod.fst (saved_usertrap t s.proc q hq)).trans hsf
  have htf := (usertrap_sigret t s.proc q ht hq).1
  rw [usertrapret_of_flag code _ _ q hqf] at hu
  cases hu
  have hepc : (setKernelFields t.hart q).trapframe.epc = p.trapframe.epc := by simp only [setKernelFields, htf, hsb]
  have hregs : (setKernelFields t.hart q).trapframe.regs = { p.trapframe.regs with a0 := 0 } := by
    simp only [setKernelFields, htf, hsb]
  simp only [Restored, hepc, hregs, true_and]
  constructor
  · intro he
    exact (congrArg UserRegs.a0 he).symm
  intro ha
  cases hr : p.trapframe.regs
  rw [hr] at ha
  simp only [UserRegs.mk.injEq, and_true, true_and]
  exact ha.symm

/-! A process interrupted with the given a0 while signal 15, handled at 0x1000, is pending. -/

def zeroRegs : UserRegs :=
  ⟨0, 0x3000, 0, 0, 0, 0, 0, 0, 0, 0, 0, 0, 0, 0, 0, 0, 0, 0, 0, 0, 0, 0, 0, 0, 0, 0, 0, 0, 0, 0, 0⟩

def zeroHart : Hart := ⟨0, 0, 0⟩

def frameWith (a0 : Word) : Trapframe := ⟨0, 0, 0, 0x2000, 0, { zeroRegs with a0 := a0 }⟩

def interrupted (a0 : Word) : Proc where
  pid := 3
  state := .running
  killed := 0
  kstack := 0
  mem := ⟨some, fun _ => 0⟩
  trapframe := frameWith a0
  pendingSignals := bit 15
  signalMask := 0
  signalHandlers := fun i => if i = 15 then 0x1000 else sigDfl
  backupTrapframePtr := 0
  backupTrapframe := frameWith 0
  frozen := 0
  backupSigMask := 0
  sigHandlerFlag := 0
  sigMaskArray := fun _ => 0
  slotTail := []

-- c.li a7, 24 and ecall
def sigretCode : List UInt8 := [0xe1, 0x48, 0x73, 0, 0, 0]

def sigretTrap : Trap where
  regs := { zeroRegs with a7 := 24 }
  sepc := 0x2ffc
  cause := .syscall
  ret := 0
  mem := id
  image := none
  killsIn := []
  killsOut := []
  sched := []
  hart := zeroHart

def handling (a0 : Word) : Life := ⟨(usertrapret sigretCode [] zeroHart (interrupted a0)).proc, .user, true⟩

theorem sigret_restores_zero_a0 : ∃ u, step sigretCode (handling 0) (.trap sigretTrap) = some u ∧
    Restored (interrupted 0) u.proc := by
  obtain ⟨u, hu, hm⟩ : ∃ u, step sigretCode (handling 0) (.trap sigretTrap) = some u ∧ u.mode = .user :=
    ⟨_, rfl, by decide⟩
  exact ⟨u, hu, (sigret_restores_iff sigretCode [] zeroHart (interrupted 0) rfl (by decide)
    (by decide) [] (handling 0) rfl sigretTrap (by decide) u hu hm).mpr rfl⟩

theorem sigret_loses_a0 : (copyout (interrupted 7).mem ((interrupted 7).trapframe.regs.sp-6#64) sigretCode).2 = 0 ∧
    setsFrame (usertrapret sigretCode [] zeroHart (interrupted 7)) = true ∧
    ∃ u, step sigretCode (handling 7) (.trap sigretTrap) = some u ∧ u.mode = .user ∧
      ¬ Restored (interrupted 7) u.proc := by
  refine ⟨by decide, by decide, _, rfl, by decide, ?_⟩
  rintro ⟨-, h⟩
  have h0 := congrArg UserRegs.a0 h
  revert h0
  decide

end Xv6.Signal
