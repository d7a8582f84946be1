import Xv6.SignalBits

/-! A whole pass of `signalHandler` in closed form: the first signal that goes to a user handler
switches the mask for all later ones, and a default SIGSTOP can end the pass. -/
namespace Xv6.Signal

def frameSignal (p : Proc) : Option Sig :=
  (List.finRange 32).find? (fun i => isPending p i && !isBlocked p.signalMask i && isUser p i)

theorem frameSignal_eq_some (p : Proc) (f : Sig) : frameSignal p = some f ↔
      (isPending p f = true ∧ isBlocked p.signalMask f = false ∧ isUser p f = true) ∧
      ∀ k, k < f → (isPending p k && !isBlocked p.signalMask k && isUser p k) = false := by
  rw [frameSignal, find?_eq_some_of_sorted _ _ (List.pairwise_lt_finRange 32)]
  simp only [List.mem_finRange, true_and, Bool.and_eq_true, Bool.not_eq_true', forall_const]
  tauto

def maskAt (p : Proc) (k : ℕ) : SigSet :=
  match frameSignal p with
  | some f => if f.val < k then p.sigMaskArray f else p.signalMask
  | none => p.signalMask

def takesDefault (p : Proc) (i : Sig) : Bool :=
  isPending p i && !isBlocked (maskAt p i.val) i && decide (p.signalHandlers i = sigDfl)

variable {p q : Proc} {i : Sig}

theorem not_user_of_default (h : takesDefault p i = true) : isUser p i = false := by
  simp only [takesDefault, Bool.and_eq_true, decide_eq_true_eq] at h
  simp [isUser, h.2]

theorem frameSignal_ne_of_not_user (h : isUser p i = false) : frameSignal p ≠ some i := by
  intro he
  cases h.symm.trans ((frameSignal_eq_some p i).mp he).1.2.2

def consumes (p : Proc) (i : Sig) : Bool := takesDefault p i || decide (frameSignal p = some i)

def isHeld (p : Proc) : Bool := takesDefault p sigstop && !(isPending p sigkill && !consumes p sigkill)

def reaches (p : Proc) (i : Sig) : Prop := isHeld p = true → i ≤ sigstop

def actOf (p : Proc) (i : Sig) : Act :=
  if frameSignal p = some i then .frame
  else if i = sigkill then .kill
  else if i = sigstop then .stop
  else if i = sigcont then .cont
  else .kill

def framedBefore (p : Proc) (k : ℕ) : Bool := (frameSignal p).any (fun f => decide (f.val < k))

def overwritten (p : Proc) (f : Sig) (k : ℕ) : Prop := ∃ j : Sig, f < j ∧ j.val < k ∧ isPending p j = true ∧
    isBlocked (p.sigMaskArray f) j = false ∧ isUser p j = true

/-- How the process looks after the pass entered in `p` has dealt with all signals below `k`. -/
structure LoopInv (p q : Proc) (k : ℕ) : Prop where
  handlers : q.signalHandlers = p.signalHandlers
  masks : q.sigMaskArray = p.sigMaskArray
  mask : q.signalMask = maskAt p k
  flag : q.sigHandlerFlag = if framedBefore p k then 1 else 0
  pending : ∀ i, isPending q i = (isPending p i && !(decide (i.val < k) && consumes p i))
  trapframe : framedBefore p k = false → q.trapframe = p.trapframe
  saved : framedBefore p k = true → q.backupTrapframe = p.trapframe
  backup : ∀ f, frameSignal p = some f → f.val < k → (overwritten p f k → q.backupSigMask = p.sigMaskArray f) ∧
    (¬ overwritten p f k → q.backupSigMask = p.signalMask)

theorem loopInv_start (p : Proc) (hf : p.sigHandlerFlag = 0) : LoopInv p p 0 := by
  have hb : framedBefore p 0 = false := by cases h : frameSignal p <;> simp [framedBefore, h]
  have hm : maskAt p 0 = p.signalMask := by cases h : frameSignal p <;> simp [maskAt, h]
  refine ⟨rfl, rfl, hm.symm, by simp [hf, hb], fun i => by simp, fun _ => rfl, ?_, ?_⟩
  · intro h
    rw [hb] at h
    cases h
  · intro f _ hf0
    omega

theorem framedBefore_succ (p : Proc) (i : Sig) :
    framedBefore p (i.val+1) = (framedBefore p i.val || decide (frameSignal p = some i)) := by
  cases h : frameSignal p with
  | none => simp [framedBefore, h]
  | some f =>
    have he : f = i ↔ f.val = i.val := Fin.ext_iff
    simp only [framedBefore, h, Option.any_some, Option.some.injEq, he]
    by_cases h1 : f.val < i.val <;> by_cases h2 : f.val = i.val <;> simp [h1, h2] <;> omega

theorem maskAt_succ_of_ne (p : Proc) (i : Sig) (h : frameSignal p ≠ some i) : maskAt p (i.val+1) = maskAt p i.val := by
  cases hf : frameSignal p with
  | none => simp [maskAt, hf]
  | some f =>
    have hne : f.val ≠ i.val := fun he => h (by rw [hf, Fin.ext he])
    have hiff : f.val < i.val+1 ↔ f.val < i.val := by omega
    simp only [maskAt, hf, hiff]

theorem maskAt_of_not_framed (p : Proc) (k : ℕ) (h : framedBefore p k = false) : maskAt p k = p.signalMask := by
  cases hf : frameSignal p with
  | none => simp [maskAt, hf]
  | some =>
    simp only [framedBefore, hf, Option.any_some, decide_eq_false_iff_not] at h
    simp [maskAt, hf, h]

theorem framedBefore_iff (p : Proc) (k : ℕ) : framedBefore p k = true ↔ ∃ f, frameSignal p = some f ∧ f.val < k := by
  cases hf : frameSignal p <;> simp [framedBefore, hf]

theorem overwritten_succ (p : Proc) (f i : Sig) : overwritten p f (i.val+1) ↔ overwritten p f i.val ∨
      (f < i ∧ isPending p i = true ∧ isBlocked (p.sigMaskArray f) i = false ∧ isUser p i = true) := by
  constructor
  · rintro ⟨j, hfj, hj, hrest⟩
    rcases Nat.lt_succ_iff_lt_or_eq.mp hj with hlt | heq
    · exact Or.inl ⟨j, hfj, hlt, hrest⟩
    · obtain rfl := Fin.ext heq
      exact Or.inr ⟨hfj, hrest⟩
  · rintro (⟨j, hfj, hj, hrest⟩ | ⟨hfi, hrest⟩)
    · exact ⟨j, hfj, by omega, hrest⟩
    · exact ⟨i, hfi, by omega, hrest⟩

theorem pending_succ (p q : Proc) (i : Sig) (b : Bool) (hc : consumes p i = b)
    (h : ∀ j, isPending q j = (isPending p j && !(decide (j.val < i.val) && consumes p j))) (j : Sig) :
    (isPending q j && !(decide (i = j) && b)) = (isPending p j && !(decide (j.val < i.val+1) && consumes p j)) := by
  rw [h j]
  by_cases he : i = j
  · subst he
    cases b <;> simp [hc]
  · have hv : i.val ≠ j.val := fun hv => he (Fin.ext hv)
    have hiff : j.val < i.val+1 ↔ j.val < i.val := by omega
    simp [he, hiff]

theorem loopInv_skip (h : LoopInv p q i.val) (hc : consumes p i = false)
    (hu : (isPending p i && !isBlocked q.signalMask i && isUser p i) = false) :
    LoopInv p q (i.val+1) := by
  have hne : frameSignal p ≠ some i := by
    intro he
    simp [consumes, he] at hc
  have hfr : framedBefore p (i.val+1) = framedBefore p i.val := by
    rw [framedBefore_succ]
    simp [hne]
  refine ⟨h.handlers, h.masks, by rw [maskAt_succ_of_ne p i hne, h.mask], by rw [hfr, h.flag],
    fun j => ?_, by rw [hfr]; exact h.trapframe, by rw [hfr]; exact h.saved, ?_⟩
  · rw [← pending_succ p q i false hc h.pending j]
    simp
  intro f hf hlt
  have hfi : f.val < i.val := by
    have : f.val ≠ i.val := fun he => hne (by rw [hf, Fin.ext he])
    omega
  have hm : q.signalMask = p.sigMaskArray f := by
    rw [h.mask]
    simp [maskAt, hf, hfi]
  have hiff : overwritten p f (i.val+1) ↔ overwritten p f i.val := by
    rw [overwritten_succ]
    refine or_iff_left ?_
    rintro ⟨-, h1, h2, h3⟩
    rw [hm, h1, h2, h3] at hu
    cases hu
  rw [hiff]
  exact h.backup f hf hfi

theorem loopInv_default (h : LoopInv p q i.val) (ht : takesDefault p i = true) (a b : ℤ) :
    LoopInv p (clearPending { q with killed := a, frozen := b } i) (i.val+1) := by
  have hnu := not_user_of_default ht
  have hne := frameSignal_ne_of_not_user hnu
  have hfr : framedBefore p (i.val+1) = framedBefore p i.val := by
    rw [framedBefore_succ]
    simp [hne]
  refine ⟨h.handlers, h.masks, by rw [maskAt_succ_of_ne p i hne]; exact h.mask,
    by rw [hfr]; exact h.flag, fun j => ?_, by rw [hfr]; exact h.trapframe,
    by rw [hfr]; exact h.saved, ?_⟩
  · rw [← pending_succ p q i true (by simp [consumes, ht]) h.pending j]
    simp only [isPending, clearPending, getLsbD_clear, Bool.and_true]
  intro f hf hlt
  have hfi : f.val < i.val := by
    have : f.val ≠ i.val := fun he => hne (by rw [hf, Fin.ext he])
    omega
  have hiff : overwritten p f (i.val+1) ↔ overwritten p f i.val := by
    rw [overwritten_succ]
    refine or_iff_left ?_
    rintro ⟨-, -, -, h3⟩
    rw [hnu] at h3
    cases h3
  rw [hiff]
  exact h.backup f hf hfi

theorem loopInv_frame (code : List UInt8) (h : LoopInv p q i.val) (hf : frameSignal p = some i) :
    LoopInv p (userSpaceHandler code { q with backupSigMask := q.signalMask } i) (i.val+1) := by
  have hnb : framedBefore p i.val = false := by simp [framedBefore, hf]
  have hfr : framedBefore p (i.val+1) = true := by simp [framedBefore, hf]
  have hflag : q.sigHandlerFlag = 0 := by simpa [hnb] using h.flag
  have hm : q.signalMask = p.signalMask := by rw [h.mask, maskAt_of_not_framed p _ hnb]
  have hu : userSpaceHandler code { q with backupSigMask := q.signalMask } i =
      { userSpaceHandler code { q with backupSigMask := q.signalMask } i with
        sigHandlerFlag := 1, backupTrapframe := q.trapframe, backupSigMask := q.signalMask,
        signalMask := q.sigMaskArray i, pendingSignals := q.pendingSignals &&& ~~~bit i,
        signalHandlers := q.signalHandlers, sigMaskArray := q.sigMaskArray } := by
    simp [userSpaceHandler, hflag]
  rw [hu]
  refine ⟨h.handlers, h.masks, ?_, by simp [hfr], fun j => ?_, ?_, fun _ => h.trapframe hnb, ?_⟩
  · simp [maskAt, hf, h.masks]
  · rw [← pending_succ p q i true (by simp [consumes, hf]) h.pending j]
    simp only [isPending, getLsbD_clear, Bool.and_true]
  · intro hc
    rw [hfr] at hc
    cases hc
  intro f hf' hlt
  obtain rfl : i = f := by
    rw [hf] at hf'
    exact Option.some.inj hf'
  have hno : ¬ overwritten p i (i.val+1) := by
    rintro ⟨j, hij, hj, -⟩
    have : i.val < j.val := hij
    omega
  exact ⟨fun ho => absurd ho hno, fun _ => hm⟩

theorem loopInv_second {f : Sig} (code : List UInt8) (h : LoopInv p q i.val)
    (hf : frameSignal p = some f) (hfi : f < i) (hp : isPending p i = true)
    (hb : isBlocked q.signalMask i = false) (hu : isUser p i = true) :
    LoopInv p (userSpaceHandler code { q with backupSigMask := q.signalMask } i) (i.val+1) ∧
    q.sigHandlerFlag = 1 := by
  have hfi' : f.val < i.val := hfi
  have hne : frameSignal p ≠ some i := by
    rw [hf]
    intro he
    exact absurd (Option.some.inj he) (ne_of_lt hfi)
  have hfb : framedBefore p i.val = true := by simp [framedBefore, hf, hfi]
  have hfr : framedBefore p (i.val+1) = framedBefore p i.val := by
    rw [framedBefore_succ]
    simp [hne]
  have hflag : q.sigHandlerFlag = 1 := by simpa [hfb] using h.flag
  have hm : q.signalMask = p.sigMaskArray f := by
    rw [h.mask]
    simp [maskAt, hf, hfi']
  have hc : consumes p i = false := by
    have hnd : p.signalHandlers i ≠ sigDfl := by
      simp only [isUser, Bool.and_eq_true, decide_eq_true_eq] at hu
      exact hu.2
    simp [consumes, takesDefault, hnd, hne]
  have hq : userSpaceHandler code { q with backupSigMask := q.signalMask } i =
      { q with backupSigMask := q.signalMask } := by
    simp [userSpaceHandler, hflag]
  rw [hq]
  refine ⟨⟨h.handlers, h.masks, by rw [maskAt_succ_of_ne p i hne]; exact h.mask,
    by rw [hfr]; exact h.flag, fun j => ?_, by rw [hfr]; exact h.trapframe,
    by rw [hfr]; exact h.saved, ?_⟩, hflag⟩
  · rw [← pending_succ p q i false hc h.pending j]
    simp [isPending]
  intro g hg hlt
  obtain rfl : f = g := by
    rw [hf] at hg
    exact Option.some.inj hg
  have hov : overwritten p f (i.val+1) := (overwritten_succ p f i).mpr (Or.inr ⟨hfi, hp, by rwa [hm] at hb, hu⟩)
  exact ⟨fun _ => hm, fun hn => absurd hov hn⟩

end Xv6.Signal
