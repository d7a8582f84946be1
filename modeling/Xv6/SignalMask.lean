import Xv6.SignalReturn

/-! The signal mask across a pass and across a handler. -/
namespace Xv6.Signal
open Runs

/-- The mask at a pass's entry comes back after the handler exactly if the handler's own mask is the
same, or holds off every other pending user-handled signal. -/
theorem frame_keeps_mask_iff (code : List UInt8) (sched : List (List Sig)) (h : Hart) (p : Proc)
    (hflag : p.sigHandlerFlag = 0) (f : Sig) (hdone : (signalHandler code sched p).done = true)
    (hframe : (f, .frame) ∈ (signalHandler code sched p).acts) :
    ((signalHandler code sched p).proc.backupSigMask = p.signalMask ∧
      ∀ (es : List Event) (s : Life) (t : Trap) (q : Proc),
        run (step code) ⟨(usertrapret code sched h p).proc, .user, true⟩ es = some s →
        (∀ t', Event.trap t' ∈ es → intOf t'.regs.a7 ≠ sysSigprocmaskNum) →
        isSigret t = true → usertrap t s.proc = some q → q.signalMask = p.signalMask) ↔
    (p.sigMaskArray f = p.signalMask ∨ ∀ j, f < j → isPending p j = true → isUser p j = true →
      isBlocked (p.sigMaskArray f) j = true) := by
  have hany : setsFrame (usertrapret code sched h p) = true := List.any_eq_true.mpr ⟨(f, .frame), hframe, by simp⟩
  obtain ⟨g, hg, hinv, hsaved⟩ := usertrapret_saved code sched h p hflag hdone hany
  obtain ⟨-, -, -, hact⟩ := ((signalHandler_spec code sched p hflag).acts f .frame).mp hframe
  have hf : frameSignal p = some f := by
    by_contra hne
    simp only [actOf, if_neg hne] at hact
    split_ifs at hact
  obtain ⟨hover, hkept⟩ := hinv.backup f hf f.isLt
  have hiff : overwritten p f 32 ↔ ¬ ∀ j, f < j → isPending p j = true → isUser p j = true →
      isBlocked (p.sigMaskArray f) j = true := by
    simp only [overwritten, not_forall, exists_prop, Bool.not_eq_true, Fin.is_lt, true_and]
    exact exists_congr fun j => by tauto
  constructor
  · rintro ⟨hb, -⟩
    by_contra hn
    rw [not_or, ← hiff] at hn
    exact hn.1 ((hover hn.2).symm.trans hb)
  intro hc
  have hb : (signalHandler code sched p).proc.backupSigMask = p.signalMask := by
    by_cases ho : overwritten p f 32
    · rw [hover ho]
      exact hc.resolve_right (hiff.mp ho)
    · exact hkept ho
  refine ⟨hb, fun es s t q hrun _ ht hq => ?_⟩
  have hs := (saved_run code _ s es hrun (congrArg Prod.fst hsaved)).trans hsaved
  rw [(usertrap_sigret t s.proc q ht hq).2, ← hb]
  exact congrArg (fun x => x.2.2) hs

theorem mask_kept_for_single_signal : (signalHandler sigretCode [] (interrupted 0)).proc.backupSigMask = 0 :=
  ((frame_keeps_mask_iff sigretCode [] zeroHart (interrupted 0) rfl 15 (by rfl) (by decide)).mpr (Or.inl rfl)).1

def twoPending : Proc := { interrupted 0 with
    pendingSignals := bit 15 ||| bit 16
    signalHandlers := fun i => if i = 15 ∨ i = 16 then 0x1000 else sigDfl
    sigMaskArray := fun _ => bit 29 }

theorem mask_lost_for_two_signals : (signalHandler sigretCode [] twoPending).done = true ∧
    (15, .frame) ∈ (signalHandler sigretCode [] twoPending).acts ∧
    twoPending.signalMask = 0 ∧
    (signalHandler sigretCode [] twoPending).proc.backupSigMask = bit 29 ∧
    (sigret (signalHandler sigretCode [] twoPending).proc).signalMask ≠ twoPending.signalMask := by
  decide

/-- A signal blocked at the pass's entry is still pending, and nothing was done about it. -/
def BlockedStay (p : Proc) (r : Pass) : Prop := ∀ s, isBlocked p.signalMask s = true →
    (isPending p s = true → isPending r.proc s = true) ∧ ∀ a, (s, a) ∉ r.acts

theorem blockedStay_of_spec (p : Proc) (r : Pass) (h : LoopSpec p 0 p r) :
    BlockedStay p r ↔ ∀ s, isBlocked p.signalMask s = true → takesDefault p s = true → ¬ reaches p s := by
  have hacts (s : Sig) (hs : isBlocked p.signalMask s = true) :
      (∀ a, (s, a) ∉ r.acts) ↔ (takesDefault p s = true → ¬ reaches p s) := by
    have hne : frameSignal p ≠ some s := by
      intro he
      have := ((frameSignal_eq_some p s).mp he).1.2.1
      rw [hs] at this
      cases this
    have hc : consumes p s = takesDefault p s := by simp [consumes, hne]
    constructor
    · intro hno ht hr
      exact hno (actOf p s) ((h.acts s _).mpr ⟨Nat.zero_le _, hr, hc.trans ht, rfl⟩)
    · intro hn a ha
      obtain ⟨-, hr, hcs, -⟩ := (h.acts s a).mp ha
      exact hn (hc.symm.trans hcs) hr
  constructor
  · intro hb s hs
    exact (hacts s hs).mp (hb s hs).2
  · intro hn s hs
    have hno := (hacts s hs).mpr (hn s hs)
    exact ⟨fun hp => h.keeps s hp hno, hno⟩

theorem takesDefault_of_blocked (p : Proc) (s : Sig) (hs : isBlocked p.signalMask s = true) :
    takesDefault p s = true ↔ ∃ f, frameSignal p = some f ∧ f < s ∧ isPending p s = true ∧
      p.signalHandlers s = sigDfl ∧ isBlocked (p.sigMaskArray f) s = false := by
  simp only [takesDefault, Bool.and_eq_true, Bool.not_eq_true', decide_eq_true_eq]
  cases hf : frameSignal p with
  | none => simp [maskAt, hf, hs]
  | some f =>
    by_cases hlt : f < s
    · have hm : maskAt p s.val = p.sigMaskArray f := by simp [maskAt, hf, hlt]
      simp only [hm, Option.some.injEq, exists_eq_left', hlt, true_and]
      tauto
    · have hm : maskAt p s.val = p.signalMask := by simp only [maskAt, hf, Fin.val_fin_lt, hlt, ↓reduceIte]
      simp [hm, hs, hlt]

structure Keeps (p q : Proc) : Prop where
  flag : q.sigHandlerFlag = p.sigHandlerFlag
  mask : q.signalMask = p.signalMask
  pending : ∀ s, isPending p s = true → isPending q s = true

theorem keeps_sigstopLoop (sched : List (List Sig)) (p : Proc) : Keeps p (sigstopLoop p sched).2 := by
  have htest (r q : Proc) (h : stopTest r = some q) : Keeps r q := by
    unfold stopTest at h
    split_ifs at h <;> rw [← Option.some.inj h] <;> exact ⟨rfl, rfl, fun _ hs => hs⟩
  induction sched generalizing p with
  | nil =>
    cases h : stopTest p with
    | none => simpa [sigstopLoop, h] using (⟨rfl, rfl, fun _ hs => hs⟩ : Keeps p p)
    | some q => simpa [sigstopLoop, h] using htest p q h
  | cons ks sched ih =>
    cases h : stopTest p with
    | none =>
      have hk := ih (ks.foldl killSlot p)
      simp only [sigstopLoop, h]
      exact ⟨hk.flag.trans (congrArg Prod.fst (saved_killSlots ks p)), hk.mask.trans (signalMask_killSlots ks p),
        fun s hs => hk.pending s ((killSlots_keep ks p).2.2.2 s hs)⟩
    | some q => simpa [sigstopLoop, h] using htest p q h

theorem keeps_defaultAction (sched : List (List Sig)) (p : Proc) (i : Sig) : Keeps p (defaultAction sched p i).2.2 := by
  unfold defaultAction
  split_ifs
  · exact ⟨rfl, rfl, fun _ hs => hs⟩
  · have h := keeps_sigstopLoop sched { p with frozen := 1 }
    exact ⟨h.flag, h.mask, h.pending⟩
  · unfold sigcontHandler
    split_ifs <;> exact ⟨rfl, rfl, fun _ hs => hs⟩
  · exact ⟨rfl, rfl, fun _ hs => hs⟩

theorem signalLoop_blocked_of_flag (code : List UInt8) (sched : List (List Sig)) (is : List Sig)
    (p : Proc) (hf : p.sigHandlerFlag ≠ 0) : BlockedStay p (signalLoop code sched is p) := by
  have hapart {p : Proc} {i s : Sig} (hon : isPending p i = true ∧ isBlocked p.signalMask i = false)
      (hs : isBlocked p.signalMask s = true) : i ≠ s := by
    rintro rfl
    rw [hon.2] at hs
    cases hs
  have hkeep {p q : Proc} {i : Sig} {a : Act} {ends : Bool} (hd : defaultAction sched p i = (a, ends, q)) :
      Keeps p q := by simpa only [hd] using keeps_defaultAction sched p i
  refine signalLoop_induction (P := fun p r => p.sigHandlerFlag ≠ 0 → BlockedStay p r) code sched
    (fun p _ s _ => ⟨id, by simp⟩) ?_ ?_ ?_ is p hf
  · intro p i a q hon _ hd _ s hs
    refine ⟨(hkeep hd).pending s, fun c hc => ?_⟩
    simp only [List.mem_singleton, Prod.mk.injEq] at hc
    exact hapart hon hs hc.1.symm
  · intro p i a q r hon _ hd ih hf s hs
    have hk := hkeep hd
    have hne := hapart hon hs
    have hclear (hp : isPending p s = true) : isPending (clearPending q i) s = true := by
      simpa only [isPending, clearPending, getLsbD_clear, hne, decide_false, Bool.not_false,
        Bool.and_true] using hk.pending s hp
    obtain ⟨h1, h2⟩ := ih (by simpa only [clearPending, hk.flag] using hf) s
      (by simpa only [clearPending, hk.mask] using hs)
    refine ⟨fun hp => h1 (hclear hp), fun c hc => ?_⟩
    rcases List.mem_cons.mp hc with he | hc
    · exact hne (Prod.mk.inj he).1.symm
    · exact h2 c hc
  · intro p i r _ _ ih hf
    rw [userSpaceHandler, if_neg hf] at ih
    rw [if_neg hf]
    exact ih hf

/-- A pass leaves the signals of its entry mask alone exactly if no frame's mask unblocks one that
is pending with its default action before the pass is held in the stop loop. -/
theorem blocked_stay_iff (code : List UInt8) (sched : List (List Sig)) (p : Proc) :
    BlockedStay p (signalHandler code sched p) ↔ (p.sigHandlerFlag = 0 → ∀ f s, frameSignal p = some f → f < s →
        isBlocked p.signalMask s = true → isPending p s = true → p.signalHandlers s = sigDfl →
        reaches p s → isBlocked (p.sigMaskArray f) s = true) := by
  by_cases hf : p.sigHandlerFlag = 0
  · rw [blockedStay_of_spec p _ (signalHandler_spec code sched p hf)]
    simp only [hf, forall_const]
    constructor
    · intro h f s hfs hlt hs hp hd hr
      by_contra hb
      exact h s hs ((takesDefault_of_blocked p s hs).mpr ⟨f, hfs, hlt, hp, hd, by simpa using hb⟩) hr
    intro h s hs ht hr
    obtain ⟨f, hfs, hlt, hp, hd, hb⟩ := (takesDefault_of_blocked p s hs).mp ht
    have := h f s hfs hlt hs hp hd hr
    rw [hb] at this
    cases this
  · refine iff_of_true ?_ (fun h => absurd h hf)
    unfold signalHandler
    split_ifs
    · exact fun s _ => ⟨id, by simp⟩
    · exact signalLoop_blocked_of_flag code sched _ p hf

def blockedPending : Proc := { interrupted 0 with pendingSignals := bit 15 ||| bit 20, signalMask := bit 20 }

theorem blocked_signal_kills : isBlocked blockedPending.signalMask 20 = true ∧ isPending blockedPending 20 = true ∧
    (signalHandler sigretCode [] blockedPending).proc.killed = 1 ∧
    ¬ BlockedStay blockedPending (signalHandler sigretCode [] blockedPending) := by
  refine ⟨by decide, by decide, by decide, fun h => ?_⟩
  exact (h 20 (by decide)).2 .kill (by decide)

end Xv6.Signal
