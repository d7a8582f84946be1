import Xv6.SignalIgnore

/-! The argument of sigprocmask is read as an int and refused if that is negative, so that masks
with SIG 31 blocked can be current and cannot be installed. -/
namespace Xv6.Signal
open Runs

def maskArgs (p : Proc) (w : Word) : Proc :=
  { p with trapframe := { p.trapframe with regs := { p.trapframe.regs with a7 := 22, a0 := w } } }

def maskCall (t : Trap) (p : Proc) (w : Word) : Option Proc := syscall t (maskArgs p w)

/-- The call installs its argument, a uint, and returns the mask before it, and a call with that one
puts the mask back. -/
def MaskRoundTrip (t : Trap) (p : Proc) (w : Word) : Prop :=
  ∃ q, maskCall t p w = some q ∧ q.signalMask = w.setWidth 32 ∧ q.trapframe.regs.a0.setWidth 32 = p.signalMask ∧
    ∀ t' w', w'.setWidth 32 = q.trapframe.regs.a0.setWidth 32 →
      ∃ r, maskCall t' q w' = some r ∧ r.signalMask = p.signalMask

variable {t : Trap} {p : Proc} {w : Word}

theorem refused_mask (v : Word) : (setA0 (maskArgs p w) v).signalMask = p.signalMask := rfl

theorem maskCall_eq : maskCall t p w =
    some (setA0 (sysSigprocmask (maskArgs p w)).1 (sysSigprocmask (maskArgs p w)).2) := by
  have hnum : intOf (maskArgs p w).trapframe.regs.a7 = sysSigprocmaskNum := by
    change intOf 22 = 22
    decide
  unfold maskCall syscall
  dsimp only
  rw [hnum, if_neg (by decide), if_neg (by decide), if_neg (by decide), if_pos rfl]

theorem maskCall_refused (h : intOf w < 0) : maskCall t p w = some (setA0 (maskArgs p w) (BitVec.ofInt 64 (-1))) := by
  have hsys : sysSigprocmask (maskArgs p w) = (maskArgs p w, BitVec.ofInt 64 (-1)) := if_pos h
  rw [maskCall_eq, hsys]

theorem maskCall_installed (h : 0 ≤ intOf w) : maskCall t p w =
    some (setA0 { maskArgs p w with signalMask := w.setWidth 32 } (p.signalMask.setWidth 64)) := by
  have hmask : BitVec.ofInt 32 (intOf w) = w.setWidth 32 := BitVec.ofInt_toInt
  have hsys : sysSigprocmask (maskArgs p w) =
      ({ maskArgs p w with signalMask := BitVec.ofInt 32 (intOf w) }, p.signalMask.setWidth 64) :=
    if_neg (by change ¬ intOf w < 0; omega)
  rw [maskCall_eq, hsys, hmask]

theorem setWidth_ones : (BitVec.ofInt 64 (-1)).setWidth 32 = BitVec.allOnes 32 := by decide

theorem setWidth_old (m : SigSet) : (m.setWidth 64).setWidth 32 = m := by simp

/-- A mask that is installed can be taken back only if the one before it could be installed too. -/
theorem MaskRoundTrip.old_nonneg (h : MaskRoundTrip t p w) (hw : 0 ≤ (w.setWidth 32).toInt) :
    0 ≤ p.signalMask.toInt := by
  obtain ⟨q, hq, -, -, hback⟩ := h
  by_contra hold
  rw [maskCall_installed hw] at hq
  cases hq
  obtain ⟨r, hr, hmask⟩ := hback t (p.signalMask.setWidth 64) rfl
  have hlow : intOf (p.signalMask.setWidth 64) < 0 := by
    rw [intOf, setWidth_old]
    omega
  rw [maskCall_refused hlow] at hr
  rw [← Option.some.inj hr] at hmask
  -- the second call is refused, so that the first mask stays
  have hsame : w.setWidth 32 = p.signalMask := hmask
  rw [hsame] at hw
  exact hold hw

/-- The law holds for the masks below 2^31, current and new; and for the mask of all ones where it
is current, as -1 is then the old mask too. -/
theorem mask_round_trip_iff (t : Trap) (p : Proc) (w : Word) :
    MaskRoundTrip t p w ↔ (0 ≤ (w.setWidth 32).toInt ∧ 0 ≤ p.signalMask.toInt) ∨
      (w.setWidth 32 = BitVec.allOnes 32 ∧ p.signalMask = BitVec.allOnes 32) := by
  have hneg : (BitVec.allOnes 32).toInt < 0 := by decide
  by_cases hw : 0 ≤ (w.setWidth 32).toInt
  · have hfirst := @maskCall_installed t p w hw
    have hret := setWidth_old p.signalMask
    constructor
    · exact fun h => Or.inl ⟨hw, h.old_nonneg hw⟩
    rintro (⟨-, hold⟩ | ⟨hones, -⟩)
    · refine ⟨_, hfirst, rfl, hret, fun t' w' hw' => ?_⟩
      have hw'' : w'.setWidth 32 = p.signalMask := hw'.trans hret
      have hnon : 0 ≤ intOf w' := by
        rw [intOf, hw'']
        exact hold
      exact ⟨_, maskCall_installed hnon, hw''⟩
    · rw [hones] at hw
      omega
  · have hfirst := @maskCall_refused t p w (by rw [intOf]; omega)
    constructor
    · rintro ⟨q, hq, hmask, hret, -⟩
      rw [hfirst] at hq
      cases hq
      have hsame : p.signalMask = w.setWidth 32 := hmask
      have hones : BitVec.allOnes 32 = p.signalMask := setWidth_ones.symm.trans hret
      exact Or.inr ⟨hsame.symm.trans hones.symm, hones.symm⟩
    rintro (⟨hnon, -⟩ | ⟨hones, hold⟩)
    · exact absurd hnon hw
    refine ⟨_, hfirst, hold.trans hones.symm, setWidth_ones.trans hold.symm, fun t' w' hw' => ?_⟩
    have hw'' : w'.setWidth 32 = BitVec.allOnes 32 := hw'.trans setWidth_ones
    have hlow : intOf w' < 0 := by
      rw [intOf, hw'']
      exact hneg
    exact ⟨_, maskCall_refused hlow, (refused_mask _).trans (refused_mask _)⟩

def installing : Life := ⟨{ idle.proc with
      signalHandlers := fun _ => sigDfl
      mem := ⟨some, fun a => if a = 0x4001 then 0x10 else if a = 0x400b then 0x80 else 0⟩ }, .user, false⟩

/-- In the handler for signal 15 the mask cannot be put back: the first call returns 0x80000000 and
installs 0, and the second one is refused. -/
theorem handler_mask_not_restored : Fresh installing ∧
    ∃ s, run (step sigretCode) installing [.trap actionTrap, .kill 15, .trap timerTrap] = some s ∧
      s.mode = .user ∧ s.proc.signalMask = 0x80000000 ∧ ¬ MaskRoundTrip timerTrap s.proc 0 := by
  refine ⟨⟨rfl, rfl, rfl, rfl, rfl⟩, _, rfl, by decide, by decide, fun h => ?_⟩
  have hold := h.old_nonneg (by decide)
  revert hold
  decide

end Xv6.Signal
