import Xv6.SignalModel

/-! Signal sets bit by bit, and the loop in which a stopped process waits. -/
namespace Xv6.Signal
open List

theorem getLsbD_bit (i j : Sig) : (bit i).getLsbD j.val = decide (i = j) := by
  have hj := j.isLt
  rw [bit, ← BitVec.twoPow_eq, BitVec.getLsbD_twoPow]
  by_cases h : i = j
  · subst h
    simp [hj]
  · have hv : i.val ≠ j.val := fun hv => h (Fin.ext hv)
    simp [h, hv]

theorem bit_and_ne_zero (i : Sig) (x : SigSet) : bit i &&& x ≠ 0 ↔ x.getLsbD i.val = true := by
  constructor
  · intro h
    by_contra hx
    apply h
    apply BitVec.eq_of_getLsbD_eq
    intro j hj
    have hb := getLsbD_bit i ⟨j, hj⟩
    simp only [BitVec.getLsbD_and, hb, BitVec.ofNat_eq_ofNat, BitVec.getLsbD_zero,
      Bool.and_eq_false_iff, decide_eq_false_iff_not]
    by_cases he : i = ⟨j, hj⟩
    · right
      rw [he] at hx
      simpa using hx
    · exact Or.inl he
  · intro hx h
    have hb := congrArg (fun y : SigSet => y.getLsbD i.val) h
    simp only [BitVec.getLsbD_and, getLsbD_bit, hx, decide_true, Bool.and_self,
      BitVec.ofNat_eq_ofNat, BitVec.getLsbD_zero, Bool.true_eq_false] at hb

theorem bit_and_eq_zero (i : Sig) (x : SigSet) : bit i &&& x = 0 ↔ x.getLsbD i.val = false := by
  rw [← Bool.not_eq_true, ← bit_and_ne_zero, not_ne_iff]

theorem getLsbD_clear (x : SigSet) (i j : Sig) :
    (x &&& ~~~bit i).getLsbD j.val = (x.getLsbD j.val && !decide (i = j)) := by
  simp only [BitVec.getLsbD_and, BitVec.getLsbD_not, getLsbD_bit, j.isLt, decide_true, Bool.true_and]

theorem find?_eq_some_of_sorted {α : Type*} [LinearOrder α] (P : α → Bool) (l : List α)
    (hl : l.Pairwise (· < ·)) (a : α) :
    l.find? P = some a ↔ a ∈ l ∧ P a = true ∧ ∀ b ∈ l, b < a → P b = false := by
  induction l with
  | nil => simp
  | cons x l ih =>
    obtain ⟨hx, hl'⟩ := pairwise_cons.mp hl
    by_cases hP : P x = true
    · rw [List.find?_cons_of_pos hP]
      constructor
      · intro h
        cases h
        refine ⟨mem_cons_self, hP, fun b hb hlt => ?_⟩
        rcases mem_cons.mp hb with rfl | hb
        · exact absurd hlt (lt_irrefl _)
        · exact absurd (hlt.trans (hx b hb)) (lt_irrefl _)
      rintro ⟨ha, -, hmin⟩
      rcases mem_cons.mp ha with rfl | ha
      · rfl
      · have := hmin x mem_cons_self (hx a ha)
        rw [hP] at this
        cases this
    · rw [List.find?_cons_of_neg hP, ih hl']
      have hx' : P x = false := by simpa using hP
      constructor
      · rintro ⟨ha, hPa, hmin⟩
        refine ⟨mem_cons_of_mem _ ha, hPa, fun b hb hlt => ?_⟩
        rcases mem_cons.mp hb with rfl | hb
        · exact hx'
        · exact hmin b hb hlt
      · rintro ⟨ha, hPa, hmin⟩
        rcases mem_cons.mp ha with rfl | ha
        · exact absurd hPa hP
        · exact ⟨ha, hPa, fun b hb => hmin b (mem_cons_of_mem _ hb)⟩

def isPending (p : Proc) (i : Sig) : Bool := p.pendingSignals.getLsbD i.val

def isBlocked (m : SigSet) (i : Sig) : Bool := m.getLsbD i.val

def isUser (p : Proc) (i : Sig) : Bool := decide (p.signalHandlers i ≠ sigIgn) && decide (p.signalHandlers i ≠ sigDfl)

@[simp] theorem killSlot_flag (p : Proc) (s : Sig) : (killSlot p s).sigHandlerFlag = p.sigHandlerFlag := by
  unfold killSlot
  split <;> rfl

@[simp] theorem killSlot_frozen (p : Proc) (s : Sig) : (killSlot p s).frozen = p.frozen := by
  unfold killSlot
  split <;> rfl

theorem isPending_killSlot (p : Proc) (s i : Sig) :
    isPending (killSlot p s) i = (isPending p i || (decide (s = i) && !decide (s = sigkill))) := by
  unfold killSlot isPending
  split
  · rename_i hs
    simp only [hs, decide_true, Bool.not_true, Bool.and_false, Bool.or_false]
  · rename_i hs
    simp only [BitVec.getLsbD_or, getLsbD_bit, hs, decide_false, Bool.not_false, Bool.and_true]

theorem stopTest_of_frozen (p : Proc) (hf : p.frozen = 1) :
    stopTest p = if isPending p sigkill then some { p with killed := 1 } else none := by
  have hb : (p.pendingSignals &&& bit sigkill ≠ 0) ↔ isPending p sigkill = true := by
    rw [BitVec.and_comm]
    exact bit_and_ne_zero sigkill p.pendingSignals
  simp only [stopTest, hf, one_ne_zero, ↓reduceIte, hb]

/-- Kill calls cannot end the loop: they neither clear `frozen` nor set the SIGKILL bit. -/
theorem killSlots_keep (ks : List Sig) (p : Proc) : (ks.foldl killSlot p).frozen = p.frozen ∧
    (ks.foldl killSlot p).sigHandlerFlag = p.sigHandlerFlag ∧
    isPending (ks.foldl killSlot p) sigkill = isPending p sigkill ∧
    ∀ i, isPending p i = true → isPending (ks.foldl killSlot p) i = true := by
  induction ks generalizing p with
  | nil => exact ⟨rfl, rfl, rfl, fun _ h => h⟩
  | cons s ks ih =>
    obtain ⟨hf, hfl, hk, hp⟩ := ih (killSlot p s)
    refine ⟨hf.trans (killSlot_frozen p s), hfl.trans (killSlot_flag p s), hk.trans ?_, fun i hi => hp i ?_⟩
    · rw [isPending_killSlot]
      by_cases hs : s = sigkill <;> simp [hs]
    · rw [isPending_killSlot, hi, Bool.true_or]

theorem sigstopLoop_killed (p : Proc) (sched : List (List Sig)) (hf : p.frozen = 1)
    (hk : isPending p sigkill = true) : sigstopLoop p sched = (true, { p with killed := 1 }) := by
  cases sched <;> simp only [sigstopLoop, stopTest_of_frozen p hf, hk, ↓reduceIte]

theorem sigstopLoop_stays (sched : List (List Sig)) (p : Proc) (hf : p.frozen = 1) (hk : isPending p sigkill = false) :
    (sigstopLoop p sched).1 = false ∧
    (∀ i, isPending p i = true → isPending (sigstopLoop p sched).2 i = true) ∧
    (sigstopLoop p sched).2.sigHandlerFlag = p.sigHandlerFlag := by
  induction sched generalizing p with
  | nil => simp [sigstopLoop, stopTest_of_frozen p hf, hk]
  | cons ks sched ih =>
    obtain ⟨hf', hfl, hk', hp⟩ := killSlots_keep ks p
    obtain ⟨hb, hq, hfl'⟩ := ih (ks.foldl killSlot p) (hf'.trans hf) (hk'.trans hk)
    simp only [sigstopLoop, stopTest_of_frozen p hf, hk, Bool.false_eq_true, ↓reduceIte]
    exact ⟨hb, fun i hi => hq i (hp i hi), hfl'.trans hfl⟩

end Xv6.Signal
