import Xv6.SignalMask

/-! What a pass of `signalHandler` consumes: the signals that it acts on, of which at most one
goes to a user handler. -/
namespace Xv6.Signal

def frameFor (code : List UInt8) (t : Trapframe) (handler : Word) (i : Sig) : Trapframe := { t with
    epc := handler
    regs := { t.regs with
      sp := t.regs.sp-BitVec.ofNat 64 code.length
      ra := t.regs.sp-BitVec.ofNat 64 code.length
      a0 := BitVec.ofNat 64 i.val } }

def framesOf (r : Pass) : List Sig := (r.acts.filter (fun a => decide (a.2 = .frame))).map Prod.fst

def facing (p : Proc) : Trapframe × (Sig → Word) × ℤ := (p.trapframe, p.signalHandlers, p.sigHandlerFlag)

theorem facing_killSlots (ks : List Sig) (p : Proc) : facing (ks.foldl killSlot p) = facing p := by
  induction ks generalizing p with
  | nil => rfl
  | cons k ks ih =>
    rw [List.foldl_cons, ih]
    unfold killSlot
    split_ifs <;> rfl

variable {q : Proc}

theorem facing_stopTest {p : Proc} (h : stopTest p = some q) : facing q = facing p := by
  unfold stopTest at h
  split_ifs at h <;> exact Option.some.inj h ▸ rfl

theorem facing_sigstopLoop (sched : List (List Sig)) (p : Proc) : facing (sigstopLoop p sched).2 = facing p := by
  induction sched generalizing p with
  | nil =>
    cases h : stopTest p with
    | none => simp only [sigstopLoop, h]
    | some => simpa only [sigstopLoop, h] using facing_stopTest h
  | cons ks sched ih =>
    cases h : stopTest p with
    | none =>
      simp only [sigstopLoop, h]
      exact (ih _).trans (facing_killSlots ks p)
    | some => simpa only [sigstopLoop, h] using facing_stopTest h

theorem facing_defaultAction (sched : List (List Sig)) (p : Proc) (i : Sig) :
    facing (defaultAction sched p i).2.2 = facing p ∧ (defaultAction sched p i).1 ≠ .frame := by
  unfold defaultAction
  split_ifs
  · exact ⟨rfl, nofun⟩
  · exact ⟨facing_sigstopLoop sched { p with frozen := 1 }, nofun⟩
  · refine ⟨?_, nofun⟩
    dsimp only [sigcontHandler]
    split_ifs <;> rfl
  · exact ⟨rfl, nofun⟩

theorem framesOf_after (i : Sig) (a : Act) (r : Pass) :
    framesOf (r.after (i, a)) = if a = .frame then i :: framesOf r else framesOf r := by
  by_cases h : a = .frame <;> simp [framesOf, Pass.after, h]

theorem mem_framesOf (r : Pass) (i : Sig) : i ∈ framesOf r ↔ (i, .frame) ∈ r.acts := by simp [framesOf]

theorem userSpaceHandler_idle (code : List UInt8) (i : Sig) (h : q.sigHandlerFlag = 0) :
    (userSpaceHandler code q i).trapframe = frameFor code q.trapframe (q.signalHandlers i) i ∧
    (userSpaceHandler code q i).sigHandlerFlag = 1 := by
  rw [userSpaceHandler, if_pos h]
  exact ⟨rfl, rfl⟩

theorem userSpaceHandler_busy (code : List UInt8) (i : Sig) (h : q.sigHandlerFlag ≠ 0) :
    userSpaceHandler code q i = q := by
  rw [userSpaceHandler, if_neg h]

/-- At most one frame, on the trapframe that the loop started with, and none while a handler is
in progress. -/
def Framed (code : List UInt8) (q : Proc) (r : Pass) : Prop := (framesOf r = [] ∧ r.proc.trapframe = q.trapframe) ∨
  (q.sigHandlerFlag = 0 ∧ ∃ i, framesOf r = [i] ∧ r.proc.trapframe = frameFor code q.trapframe (q.signalHandlers i) i)

theorem Framed.of_facing {code : List UInt8} {q' : Proc} {r : Pass} (h : Framed code q' r)
    (hf : facing q' = facing q) : Framed code q r := by
  have htf : q'.trapframe = q.trapframe := congrArg Prod.fst hf
  have hh : q'.signalHandlers = q.signalHandlers := congrArg (fun x => x.2.1) hf
  have hfl : q'.sigHandlerFlag = q.sigHandlerFlag := congrArg (fun x => x.2.2) hf
  rwa [Framed, htf, hh, hfl] at h

theorem Framed.after {code : List UInt8} {r : Pass} (h : Framed code q r) (i : Sig) {a : Act}
    (ha : a ≠ .frame) : Framed code q (r.after (i, a)) := by
  rw [Framed, framesOf_after, if_neg ha]
  exact h

theorem signalLoop_framed (code : List UInt8) (sched : List (List Sig)) (is : List Sig) (q : Proc) :
    Framed code q (signalLoop code sched is q) := by
  refine signalLoop_induction code sched (fun _ => Or.inl ⟨rfl, rfl⟩) ?_ ?_ ?_ is q
  · intro q i a q' _ _ hd
    obtain ⟨hface, hact⟩ := facing_defaultAction sched q i
    rw [hd] at hface hact
    exact (Framed.after (r := ⟨q', [], false⟩) (Or.inl ⟨rfl, rfl⟩) i hact).of_facing hface
  · intro q i a q' r _ _ hd ih
    obtain ⟨hface, hact⟩ := facing_defaultAction sched q i
    rw [hd] at hface hact
    exact (ih.after i hact).of_facing hface
  intro q i r _ _ ih
  by_cases hflag : q.sigHandlerFlag = 0
  · -- the frame is built here, and the flag keeps the rest of the loop from a second one
    obtain ⟨htf, hset⟩ := userSpaceHandler_idle code (q := { q with backupSigMask := q.signalMask }) i hflag
    rw [if_pos hflag]
    rcases ih with ⟨hnil, hloop⟩ | ⟨hzero, -⟩
    · refine Or.inr ⟨hflag, i, ?_, hloop.trans htf⟩
      rw [framesOf_after, if_pos rfl, hnil]
    · exact absurd (hset.symm.trans hzero) one_ne_zero
  · have hbusy := userSpaceHandler_busy code (q := { q with backupSigMask := q.signalMask }) i hflag
    rw [if_neg hflag]
    refine ih.of_facing ?_
    rw [hbusy]
    rfl

/-- Whether a signal may be handed to a user handler by a pass entered in `p`. -/
def Deliverable (p : Proc) (i : Sig) : Prop :=
  isPending p i = true ∧ isBlocked p.signalMask i = false ∧ isUser p i = true

/-- A pass that is not stopped sets up at most one frame, for the lowest signal that may have
one, and clears the pending bits of the signals that it acts on and no others. -/
theorem pass_consumes_what_it_acts_on (code : List UInt8) (sched : List (List Sig)) (p : Proc) :
    (p.sigHandlerFlag = 0 → (∀ a ∈ (signalHandler code sched p).acts, a.2 ≠ .stop) →
      (signalHandler code sched p).done = true ∧
      ((framesOf (signalHandler code sched p) = [] ∧ (∀ i, ¬Deliverable p i) ∧
          (signalHandler code sched p).proc.trapframe = p.trapframe) ∨
        ∃ i, framesOf (signalHandler code sched p) = [i] ∧ Deliverable p i ∧ (∀ j < i, ¬Deliverable p j) ∧
          (signalHandler code sched p).proc.trapframe = frameFor code p.trapframe (p.signalHandlers i) i) ∧
      (∀ i a, (i, a) ∈ (signalHandler code sched p).acts → a ≠ .frame →
        p.signalHandlers i = sigDfl ∧ isPending p i = true) ∧
      ∀ i, isPending (signalHandler code sched p).proc i = true ↔
        isPending p i = true ∧ ∀ a, (i, a) ∉ (signalHandler code sched p).acts) ∧
    (p.sigHandlerFlag = 1 → signalHandler code sched p = ⟨p, [], true⟩) := by
  refine ⟨fun hflag hstop => ?_, fun hflag => by rw [signalHandler, if_pos hflag]⟩
  have hspec := signalHandler_spec code sched p hflag
  have hnot : takesDefault p sigstop = false := by
    by_contra ht
    have hdfl := Bool.eq_true_of_not_eq_false ht
    have hact : actOf p sigstop = .stop := by
      rw [actOf, if_neg (frameSignal_ne_of_not_user (not_user_of_default hdfl))]
      rfl
    have hmem := (hspec.acts sigstop .stop).mpr ⟨Nat.zero_le _, fun _ => le_rfl,
      by rw [consumes, hdfl, Bool.true_or], hact.symm⟩
    exact hstop _ hmem rfl
  have hheld : isHeld p = false := by rw [isHeld, hnot, Bool.false_and]
  have hacts (i : Sig) (a : Act) : (i, a) ∈ (signalHandler code sched p).acts ↔
      consumes p i = true ∧ a = actOf p i := by
    have hreach : reaches p i := fun hh => by
      rw [hheld] at hh
      cases hh
    rw [hspec.acts i a]
    exact ⟨fun h => h.2.2, fun h => ⟨Nat.zero_le _, hreach, h⟩⟩
  have hdone : (signalHandler code sched p).done = true := by rw [hspec.done, hheld, Bool.not_false]
  have hframe (i : Sig) : i ∈ framesOf (signalHandler code sched p) ↔ frameSignal p = some i := by
    rw [mem_framesOf, hacts]
    constructor
    · rintro ⟨-, ha⟩
      by_contra hne
      simp only [actOf, if_neg hne] at ha
      split_ifs at ha
    · intro hf
      exact ⟨by simp [consumes, hf], by rw [actOf, if_pos hf]⟩
  have hnone (i : Sig) (hi : (isPending p i && !isBlocked p.signalMask i && isUser p i) = false) :
      ¬Deliverable p i := by
    rintro ⟨h1, h2, h3⟩
    rw [h1, h2, h3] at hi
    cases hi
  refine ⟨hdone, ?_, fun i a hmem hne => ?_, fun i => ?_⟩
  · have hframed := signalLoop_framed code sched (List.finRange 32) p
    have hloop : signalHandler code sched p = signalLoop code sched (List.finRange 32) p := by
      rw [signalHandler, if_neg (by rw [hflag]; decide)]
    rw [← hloop] at hframed
    rcases hframed with ⟨hnil, htf⟩ | ⟨-, i, hone, htf⟩
    · refine Or.inl ⟨hnil, fun i hi => ?_, htf⟩
      have hfind : frameSignal p ≠ none := by
        rw [frameSignal, ne_eq, List.find?_eq_none]
        intro hall
        exact hall i (List.mem_finRange i) (by rw [hi.1, hi.2.1, hi.2.2]; rfl)
      obtain ⟨f, hf⟩ := Option.ne_none_iff_exists'.mp hfind
      have := (hframe f).mpr hf
      rw [hnil] at this
      exact List.not_mem_nil this
    · have hf := (hframe i).mp (by rw [hone]; exact List.mem_singleton_self i)
      obtain ⟨hdel, hlow⟩ := (frameSignal_eq_some p i).mp hf
      exact Or.inr ⟨i, hone, hdel, fun j hj => hnone j (hlow j hj), htf⟩
  · obtain ⟨hc, rfl⟩ := (hacts i a).mp hmem
    have hf : frameSignal p ≠ some i := fun hf => hne (by rw [actOf, if_pos hf])
    have ht : takesDefault p i = true := by simpa [consumes, hf] using hc
    simp only [takesDefault, Bool.and_eq_true, decide_eq_true_eq] at ht
    exact ⟨ht.2, ht.1.1⟩
  · rw [(hspec.inv hdone).pending i, Bool.and_eq_true, decide_eq_true i.isLt, Bool.true_and, Bool.not_eq_true']
    refine and_congr_right (fun _ => ⟨fun hc a ha => ?_, fun hno => ?_⟩)
    · cases hc.symm.trans ((hacts i a).mp ha).1
    · by_contra hc
      exact hno _ ((hacts i _).mpr ⟨Bool.eq_true_of_not_eq_false hc, rfl⟩)

theorem pass_consumes_first_of_two : framesOf (signalHandler sigretCode [] twoPending) = [15] ∧
    isPending (signalHandler sigretCode [] twoPending).proc 16 = true := by
  have hstop : ∀ a ∈ (signalHandler sigretCode [] twoPending).acts, a.2 ≠ .stop := by decide
  have hacts : (signalHandler sigretCode [] twoPending).acts = [(15, .frame)] := by decide
  obtain ⟨-, -, -, hpend⟩ := (pass_consumes_what_it_acts_on sigretCode [] twoPending).1 rfl hstop
  refine ⟨by rw [framesOf, hacts]; rfl, (hpend 16).mpr ⟨by decide, fun a ha => ?_⟩⟩
  rw [hacts, List.mem_singleton] at ha
  cases ha

end Xv6.Signal
