import Xv6.SignalPass

/-! The loop of `signalHandler` does what the closed form says, from every signal number on. -/
namespace Xv6.Signal
open List

structure LoopSpec (p : Proc) (k : ℕ) (q : Proc) (r : Pass) : Prop where
  acts : ∀ i a, (i, a) ∈ r.acts ↔ k ≤ i.val ∧ reaches p i ∧ consumes p i = true ∧ a = actOf p i
  done : r.done = !isHeld p
  flag : r.proc.sigHandlerFlag = if framedBefore p k || setsFrame r then 1 else 0
  inv : r.done = true → LoopInv p r.proc 32
  keeps : ∀ i, isPending q i = true → (∀ a, (i, a) ∉ r.acts) → isPending r.proc i = true

theorem loopSpec_skip {p q q' : Proc} {i : Sig} {r : Pass} (h : LoopSpec p (i.val+1) q' r)
    (hc : consumes p i = false) (hp : q'.pendingSignals = q.pendingSignals) :
    LoopSpec p i.val q r := by
  have hne : frameSignal p ≠ some i := by
    intro he
    simp [consumes, he] at hc
  have hfr : framedBefore p (i.val+1) = framedBefore p i.val := by
    rw [framedBefore_succ]
    simp [hne]
  refine ⟨fun j a => ?_, h.done, hfr ▸ h.flag, h.inv, fun j hj => h.keeps j ?_⟩
  · rw [h.acts j a]
    constructor
    · rintro ⟨hk, hrest⟩
      exact ⟨by omega, hrest⟩
    rintro ⟨hk, hr, hcj, ha⟩
    have hne : i.val ≠ j.val := by
      intro he
      rw [Fin.ext he, hcj] at hc
      cases hc
    exact ⟨by omega, hr, hcj, ha⟩
  · simpa only [isPending, hp] using hj

theorem loopSpec_act {p q q' : Proc} {i : Sig} {a : Act} {r : Pass}
    (h : LoopSpec p (i.val+1) q' r) (hc : consumes p i = true) (ha : a = actOf p i)
    (hr : reaches p i) (hp : ∀ j, j ≠ i → isPending q j = true → isPending q' j = true) :
    LoopSpec p i.val q (r.after (i, a)) := by
  have hfa : decide (a = .frame) = decide (frameSignal p = some i) := by
    by_cases he : frameSignal p = some i
    · simp [ha, actOf, he]
    · rw [ha, actOf, if_neg he, decide_eq_false he, decide_eq_false_iff_not]
      split_ifs <;> decide
  refine ⟨fun j b => ?_, h.done, ?_, h.inv, fun j hj hno => h.keeps j ?_ ?_⟩
  · simp only [Pass.after, mem_cons, Prod.mk.injEq, h.acts j b]
    constructor
    · rintro (⟨rfl, rfl⟩ | ⟨hk, hrest⟩)
      · exact ⟨le_rfl, hr, hc, ha⟩
      · exact ⟨by omega, hrest⟩
    rintro ⟨hk, hrj, hcj, hb⟩
    by_cases he : j = i
    · subst he
      exact Or.inl ⟨rfl, hb.trans ha.symm⟩
    · have : i.val ≠ j.val := fun hv => he (Fin.ext hv.symm)
      exact Or.inr ⟨by omega, hrj, hcj, hb⟩
  · have hf := h.flag
    rw [framedBefore_succ, ← hfa, Bool.or_assoc] at hf
    exact hf
  · refine hp j ?_ hj
    rintro rfl
    exact hno a (by simp [Pass.after])
  · intro b hb
    exact hno b (mem_cons_of_mem _ hb)

theorem loopSpec_held {p q q' : Proc} (ht : takesDefault p sigstop = true)
    (hheld : isHeld p = true) (hp : ∀ i, isPending q i = true → isPending q' i = true)
    (hfl : q'.sigHandlerFlag = if framedBefore p sigstop.val then 1 else 0) :
    LoopSpec p sigstop.val q ⟨q', [(sigstop, .stop)], false⟩ := by
  have hne := frameSignal_ne_of_not_user (not_user_of_default ht)
  have hact : actOf p sigstop = .stop := by
    have hks : sigstop ≠ sigkill := by decide
    simp [actOf, hne, hks]
  refine ⟨fun i a => ?_, by simp [hheld], by simp [setsFrame, hfl], by simp, fun i hi _ => hp i hi⟩
  simp only [mem_singleton, Prod.mk.injEq]
  constructor
  · rintro ⟨rfl, rfl⟩
    exact ⟨le_rfl, fun _ => le_rfl, by simp [consumes, ht], hact.symm⟩
  · rintro ⟨hk, hr, -, ha⟩
    obtain rfl : i = sigstop := le_antisymm (hr hheld) hk
    exact ⟨rfl, ha.trans hact⟩

theorem defaultAction_ends {p q : Proc} {i : Sig} (sched : List (List Sig))
    (h : LoopInv p q i.val) (ht : takesDefault p i = true) (hs : i = sigstop → isHeld p = false) :
    ∃ a b, defaultAction sched q i = (actOf p i, true, { q with killed := a, frozen := b }) := by
  have hne := frameSignal_ne_of_not_user (not_user_of_default ht)
  by_cases hk : i = sigkill
  · exact ⟨1, q.frozen, by simp only [defaultAction, actOf, if_neg hne, if_pos hk, sigkillHandler]⟩
  by_cases hst : i = sigstop
  · subst hst
    -- the SIGKILL bit decides the loop's first test, and it is as it was at the pass's entry
    have hkp : isPending q sigkill = true := by
      have hnh := hs rfl
      simp only [isHeld, ht, Bool.true_and, Bool.not_eq_eq_eq_not, Bool.not_false,
        Bool.and_eq_true, Bool.not_true] at hnh
      rw [h.pending sigkill, hnh.1, hnh.2]
      simp
    have hl := sigstopLoop_killed { q with frozen := 1 } sched rfl hkp
    exact ⟨1, 1, by simp only [defaultAction, actOf, if_neg hne, if_neg hk, ↓reduceIte, sigstopHandler, hl]⟩
  by_cases hc : i = sigcont
  · by_cases hf : q.frozen = 1
    · exact ⟨q.killed, 0, by simp only [defaultAction, actOf, if_neg hne, if_neg hk, if_neg hst,
        if_pos hc, sigcontHandler, if_pos hf]⟩
    · exact ⟨q.killed, q.frozen, by simp only [defaultAction, actOf, if_neg hne, if_neg hk,
        if_neg hst, if_pos hc, sigcontHandler, if_neg hf]⟩
  · exact ⟨1, q.frozen, by simp only [defaultAction, actOf, if_neg hne, if_neg hk, if_neg hst,
      if_neg hc, sigkillHandler]⟩

theorem frameSignal_of_not_framed {p : Proc} {i : Sig} (hp : isPending p i = true)
    (hb : isBlocked (maskAt p i.val) i = false) (hu : isUser p i = true)
    (hfb : framedBefore p i.val = false) : frameSignal p = some i := by
  rw [maskAt_of_not_framed p _ hfb] at hb
  refine (frameSignal_eq_some p i).mpr ⟨⟨hp, hb, hu⟩, fun k hk => ?_⟩
  by_contra hcon
  obtain ⟨g, hg⟩ : ∃ g, frameSignal p = some g := by
    rw [← Option.isSome_iff_exists, frameSignal, List.find?_isSome]
    exact ⟨k, mem_finRange k, (Bool.not_eq_false _).mp hcon⟩
  have hgk : g ≤ k := by
    by_contra hlt
    exact hcon (((frameSignal_eq_some p g).mp hg).2 k (not_le.mp hlt))
  have : framedBefore p i.val = true := (framedBefore_iff p i.val).mpr ⟨g, hg, lt_of_le_of_lt hgk hk⟩
  rw [hfb] at this
  cases this

section LoopEquations
variable (code : List UInt8) (sched : List (List Sig)) {q : Proc} {i : Sig} (is : List Sig)

theorem signalLoop_off (h : (isPending q i && !isBlocked q.signalMask i) = false) :
    signalLoop code sched (i :: is) q = signalLoop code sched is q := by
  have hif : ¬ (bit i &&& q.pendingSignals ≠ 0 ∧ bit i &&& q.signalMask = 0) := by
    rw [bit_and_ne_zero, bit_and_eq_zero]
    rintro ⟨h1, h2⟩
    simp only [isPending, isBlocked, h1, h2] at h
    cases h
  rw [signalLoop, if_neg hif]

variable (hon : isPending q i = true ∧ isBlocked q.signalMask i = false)
include hon

theorem signalLoop_on : bit i &&& q.pendingSignals ≠ 0 ∧ bit i &&& q.signalMask = 0 :=
  ⟨(bit_and_ne_zero i _).mpr hon.1, (bit_and_eq_zero i _).mpr hon.2⟩

theorem signalLoop_ign (h : q.signalHandlers i = sigIgn) :
    signalLoop code sched (i :: is) q = signalLoop code sched is q := by
  rw [signalLoop, if_pos (signalLoop_on hon), if_pos h]

theorem signalLoop_dfl (h : q.signalHandlers i = sigDfl) : signalLoop code sched (i :: is) q =
      match defaultAction sched q i with
      | (a, true, q') => (signalLoop code sched is (clearPending q' i)).after (i, a)
      | (a, false, q') => ⟨q', [(i, a)], false⟩ := by
  have hni : q.signalHandlers i ≠ sigIgn := by rw [h]; decide
  rcases hd : defaultAction sched q i with ⟨a, ends, q'⟩
  cases ends <;> simp only [signalLoop, if_pos (signalLoop_on hon), if_neg hni, if_pos h, hd]

theorem signalLoop_user (h : isUser q i = true) : signalLoop code sched (i :: is) q =
      if q.sigHandlerFlag = 0 then
        (signalLoop code sched is (userSpaceHandler code { q with backupSigMask := q.signalMask } i)).after (i, .frame)
      else signalLoop code sched is (userSpaceHandler code { q with backupSigMask := q.signalMask } i) := by
  simp only [isUser, Bool.and_eq_true, decide_eq_true_eq] at h
  rw [signalLoop, if_pos (signalLoop_on hon), if_neg h.1, if_neg h.2]

end LoopEquations

/-- The induction rule of the loop, with one case for each way in which a turn acts. -/
theorem signalLoop_induction {P : Proc → Pass → Prop} (code : List UInt8) (sched : List (List Sig))
    (nil : ∀ p, P p ⟨p, [], true⟩)
    (stay : ∀ p i a q, isPending p i = true ∧ isBlocked p.signalMask i = false → p.signalHandlers i = sigDfl →
      defaultAction sched p i = (a, false, q) → P p ⟨q, [(i, a)], false⟩)
    (dfl : ∀ p i a q r, isPending p i = true ∧ isBlocked p.signalMask i = false → p.signalHandlers i = sigDfl →
      defaultAction sched p i = (a, true, q) → P (clearPending q i) r → P p (r.after (i, a)))
    (user : ∀ p i r, isPending p i = true ∧ isBlocked p.signalMask i = false → isUser p i = true →
      P (userSpaceHandler code { p with backupSigMask := p.signalMask } i) r →
      P p (if p.sigHandlerFlag = 0 then r.after (i, .frame) else r))
    (is : List Sig) (p : Proc) : P p (signalLoop code sched is p) := by
  induction is generalizing p with
  | nil => exact nil p
  | cons i is ih =>
    cases hon : (isPending p i && !isBlocked p.signalMask i) with
    | false =>
      rw [signalLoop_off code sched is hon]
      exact ih p
    | true =>
      have hon' : isPending p i = true ∧ isBlocked p.signalMask i = false := by simpa using hon
      by_cases hign : p.signalHandlers i = sigIgn
      · rw [signalLoop_ign code sched is hon' hign]
        exact ih p
      by_cases hdfl : p.signalHandlers i = sigDfl
      · rw [signalLoop_dfl code sched is hon' hdfl]
        rcases hd : defaultAction sched p i with ⟨a, ends, q⟩
        cases ends with
        | false => exact stay p i a q hon' hdfl hd
        | true => exact dfl p i a q _ hon' hdfl hd (ih _)
      · have hu : isUser p i = true := by simp [isUser, hign, hdfl]
        rw [signalLoop_user code sched is hon' hu]
        exact user p i _ hon' hu (ih _)

theorem reaches_next {p : Proc} {i : Sig} (hr : reaches p i)
    (hno : takesDefault p i = true → i = sigstop → isHeld p = false) (hh : isHeld p = true) :
    i < sigstop := by
  refine lt_of_le_of_ne (hr hh) ?_
  rintro rfl
  have ht : takesDefault p sigstop = true := by
    simp only [isHeld, Bool.and_eq_true] at hh
    exact hh.1
  cases (hno ht rfl).symm.trans hh

theorem isPending_clear {q q' : Proc} {i j : Sig} (hq : q'.pendingSignals = q.pendingSignals &&& ~~~bit i)
    (hj : j ≠ i) (hp : isPending q j = true) : isPending q' j = true := by
  rw [isPending, hq, getLsbD_clear]
  simpa only [Bool.and_eq_true, Bool.not_eq_true', decide_eq_false_iff_not] using ⟨hp, Ne.symm hj⟩

section Turn
variable (code : List UInt8) (sched : List (List Sig)) {p q : Proc} {i : Sig} (is : List Sig)
  (h : LoopInv p q i.val) (hr : reaches p i)
  (ih : ∀ q', LoopInv p q' (i.val+1) → (isHeld p = true → i < sigstop) →
    LoopSpec p (i.val+1) q' (signalLoop code sched is q'))
include h hr ih

theorem signalLoop_turn_skip (hloop : signalLoop code sched (i :: is) q = signalLoop code sched is q)
    (ht : takesDefault p i = false) (hne : frameSignal p ≠ some i)
    (hu : (isPending p i && !isBlocked q.signalMask i && isUser p i) = false) :
    LoopSpec p i.val q (signalLoop code sched (i :: is) q) := by
  have hc : consumes p i = false := by simp [consumes, ht, hne]
  rw [hloop]
  refine loopSpec_skip (ih q (loopInv_skip h hc hu) (reaches_next hr fun h' => ?_)) hc rfl
  cases ht.symm.trans h'

theorem signalLoop_turn_default (hon : isPending q i = true ∧ isBlocked q.signalMask i = false)
    (hdfl : q.signalHandlers i = sigDfl) (ht : takesDefault p i = true) :
    LoopSpec p i.val q (signalLoop code sched (i :: is) q) := by
  rw [signalLoop_dfl code sched is hon hdfl]
  by_cases hheld : i = sigstop ∧ isHeld p = true
  · obtain ⟨rfl, hheld⟩ := hheld
    have hkp : isPending q sigkill = false := by
      rw [h.pending sigkill]
      simp only [isHeld, ht, Bool.true_and, Bool.not_eq_eq_eq_not, Bool.not_true] at hheld
      simpa [show sigkill.val < sigstop.val by decide] using hheld
    have hst := sigstopLoop_stays sched { q with frozen := 1 } rfl hkp
    have hda : defaultAction sched q sigstop = (.stop, false, (sigstopLoop { q with frozen := 1 } sched).2) := by
      rw [← hst.1]
      simp [defaultAction, show sigstop ≠ sigkill by decide, sigstopHandler]
    rw [hda]
    exact loopSpec_held ht hheld (fun j hj => hst.2.1 j hj) (hst.2.2.trans h.flag)
  · have hnh : i = sigstop → isHeld p = false := fun hs => by simpa using fun hh => hheld ⟨hs, hh⟩
    obtain ⟨a, b, hda⟩ := defaultAction_ends sched h ht hnh
    rw [hda]
    exact loopSpec_act (ih _ (loopInv_default h ht a b) (reaches_next hr fun _ => hnh))
      (by simp [consumes, ht]) rfl hr (fun j hj => isPending_clear rfl hj)

/-- The turn of a signal with a user handler: the first one gets the frame. -/
theorem signalLoop_turn_user (hon : isPending q i = true ∧ isBlocked q.signalMask i = false)
    (hu : isUser q i = true) : LoopSpec p i.val q (signalLoop code sched (i :: is) q) := by
  have hpq : isPending q i = isPending p i := by simpa using h.pending i
  have hup : isUser p i = true := by simpa only [isUser, h.handlers] using hu
  have ht : takesDefault p i = false := by
    by_contra hno
    cases hup.symm.trans (not_user_of_default (by simpa using hno))
  have hnext := reaches_next hr fun h' => absurd (ht.symm.trans h') (by decide)
  rw [signalLoop_user code sched is hon hu]
  cases hfb : framedBefore p i.val with
  | false =>
    have hf := frameSignal_of_not_framed (hpq ▸ hon.1) (h.mask ▸ hon.2) hup hfb
    have hflag : q.sigHandlerFlag = 0 := by simpa [hfb] using h.flag
    rw [if_pos hflag]
    refine loopSpec_act (ih _ (loopInv_frame code h hf) hnext) (by simp [consumes, hf])
      (by simp [actOf, hf]) hr (fun j hj => isPending_clear ?_ hj)
    simp [userSpaceHandler, hflag]
  | true =>
    obtain ⟨f, hf, hfi⟩ := (framedBefore_iff p i.val).mp hfb
    obtain ⟨hinv, hflag⟩ := loopInv_second code h hf hfi (hpq ▸ hon.1) hon.2 hup
    have hne : frameSignal p ≠ some i := by
      rw [hf]
      intro he
      rw [Option.some.inj he] at hfi
      omega
    rw [if_neg (by rw [hflag]; decide)]
    refine loopSpec_skip (ih _ hinv hnext) (by simp [consumes, ht, hne]) ?_
    simp [userSpaceHandler, hflag]

/-- One turn of the loop. The cases are those of the source's nested tests. -/
theorem signalLoop_step : LoopSpec p i.val q (signalLoop code sched (i :: is) q) := by
  have hpq : isPending q i = isPending p i := by simpa using h.pending i
  have hmask : q.signalMask = maskAt p i.val := h.mask
  have hhand : q.signalHandlers i = p.signalHandlers i := congrFun h.handlers i
  cases hon : (isPending q i && !isBlocked q.signalMask i) with
  | false =>
    have ht : takesDefault p i = false := by rw [takesDefault, ← hmask, ← hpq, hon, Bool.false_and]
    have hne : frameSignal p ≠ some i := by
      intro he
      obtain ⟨⟨h1, h2, -⟩, -⟩ := (frameSignal_eq_some p i).mp he
      have hmp : q.signalMask = p.signalMask := by simp [hmask, maskAt, he]
      rw [hmp, hpq, h1, h2] at hon
      cases hon
    exact signalLoop_turn_skip code sched is h hr ih (signalLoop_off code sched is hon) ht hne
      (by rw [← hpq, hon, Bool.false_and])
  | true =>
    have hon' : isPending q i = true ∧ isBlocked q.signalMask i = false := by simpa using hon
    by_cases hign : q.signalHandlers i = sigIgn
    · -- the bit of an ignored signal is left pending
      have hu : isUser p i = false := by simp [isUser, ← hhand, hign]
      have ht : takesDefault p i = false := by simp [takesDefault, ← hhand, hign, show sigIgn ≠ sigDfl by decide]
      exact signalLoop_turn_skip code sched is h hr ih (signalLoop_ign code sched is hon' hign) ht
        (frameSignal_ne_of_not_user hu) (by simp [hu])
    by_cases hdfl : q.signalHandlers i = sigDfl
    · have ht : takesDefault p i = true := by
        simp only [takesDefault, ← hmask, ← hpq, ← hhand, hon, hdfl, decide_true, Bool.and_true]
      exact signalLoop_turn_default code sched is h hr ih hon' hdfl ht
    · exact signalLoop_turn_user code sched is h hr ih hon' (by simp [isUser, hign, hdfl])

end Turn

/-- The whole loop, by downward induction on the signal number it has got to. -/
theorem signalLoop_spec (code : List UInt8) (sched : List (List Sig)) (p : Proc) (k : ℕ)
    (hk : k ≤ 32) (q : Proc) (h : LoopInv p q k) (hr : isHeld p = true → k ≤ sigstop.val) :
    LoopSpec p k q (signalLoop code sched ((List.finRange 32).drop k) q) := by
  induction hn : 32-k generalizing k q with
  | zero =>
    obtain rfl : k = 32 := by omega
    have hnh : isHeld p = false := by
      by_contra hc
      have := hr (by simpa using hc)
      simp [sigstop] at this
    rw [drop_of_length_le (by simp)]
    refine ⟨fun i a => ?_, by simp [signalLoop, hnh], by simp [signalLoop, setsFrame, h.flag],
      fun _ => h, fun i hi _ => hi⟩
    simp only [signalLoop, not_mem_nil, false_iff]
    rintro ⟨hi, -⟩
    omega
  | succ n ih =>
    have hk' : k < 32 := by omega
    have hd : (List.finRange 32).drop k = (⟨k, hk'⟩ : Sig) :: (List.finRange 32).drop (k+1) := by
      rw [drop_eq_getElem_cons (by simpa using hk')]
      simp
    rw [hd]
    exact signalLoop_step code sched _ (i := ⟨k, hk'⟩) h hr
      (fun q' hq' hlt => ih (k+1) (by omega) q' hq' hlt (by omega))

theorem signalHandler_spec (code : List UInt8) (sched : List (List Sig)) (p : Proc)
    (hf : p.sigHandlerFlag = 0) : LoopSpec p 0 p (signalHandler code sched p) := by
  have h := signalLoop_spec code sched p 0 (by omega) p (loopInv_start p hf) (fun _ => by omega)
  simpa [signalHandler, hf] using h

end Xv6.Signal
