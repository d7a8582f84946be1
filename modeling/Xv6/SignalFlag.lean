import Xv6.SignalReturn

/-! Only the set-up of a frame writes the flag of a handler in progress, so the first sigret that
ends a handler leaves it set for good. -/
namespace Xv6.Signal
open Runs

theorem killed_killSlots (ks : List Sig) (p : Proc) :
    (ks.foldl killSlot p).killed = if sigkill ∈ ks then 1 else p.killed := by
  induction ks generalizing p with
  | nil => simp
  | cons s ks ih =>
    rw [List.foldl_cons, ih, killSlot]
    by_cases hs : s = sigkill
    · simp [hs]
    · have hne : sigkill ≠ s := fun h => hs h.symm
      simp [hs, hne]

theorem usertrap_sigret_isSome (t : Trap) (p : Proc) (ht : isSigret t = true) :
    (usertrap t p).isSome = true ↔ p.killed = 0 ∧ sigkill ∉ t.killsIn := by
  simp only [isSigret, Bool.and_eq_true, decide_eq_true_eq] at ht
  have hsys := syscall_sigret t (skipEcall (saveUser t p)) ht.2
  have hkilled : (setA0 (sigret (skipEcall (saveUser t p))) 0).killed = p.killed := rfl
  have hentry : (saveUser t p).killed = p.killed := rfl
  simp only [usertrap, ht.1, hsys, Option.bind_some, checkKilled, killed_killSlots, hkilled, hentry]
  by_cases hp : p.killed = 0
  · by_cases hk : sigkill ∈ t.killsIn <;> simp [hp, hk]
  · simp [hp]

def endsHandler (s : Life) : Event → Prop
  | .kill _ => False
  | .trap t => s.mode = .user ∧ s.inHandler = true ∧ isSigret t = true ∧
      s.proc.killed = 0 ∧ sigkill ∉ t.killsIn

/-- Outside a handler the flag is 0, and the next pass is that of a process which never
ran a handler. -/
def FlagClear (s : Life) : Prop := s.inHandler = false → s.proc.sigHandlerFlag = 0 ∧
    ∀ code sched, signalHandler code sched s.proc = signalHandler code sched { s.proc with sigHandlerFlag := 0 }

def FlagTracks (s : Life) : Prop := s.proc.sigHandlerFlag = if s.inHandler then 1 else 0

variable {s : Life} {code : List UInt8}

theorem FlagTracks.clear (h : FlagTracks s) : FlagClear s := by
  intro hs
  have hf : s.proc.sigHandlerFlag = 0 := by simpa [FlagTracks, hs] using h
  have he : { s.proc with sigHandlerFlag := 0 } = s.proc := by rw [← hf]
  exact ⟨hf, fun code sched => by rw [he]⟩

theorem step_trap {u : Life} {t : Trap} (h : step code s (.trap t) = some u) : s.mode = .user ∧
    ((usertrap t s.proc = none ∧ u = { s with mode := .exited }) ∨
      ∃ q, usertrap t s.proc = some q ∧ q.sigHandlerFlag = s.proc.sigHandlerFlag ∧
        u.proc = (usertrapret code t.sched t.hart q).proc ∧
        u.inHandler = ((s.inHandler && !isSigret t) || setsFrame (usertrapret code t.sched t.hart q))) := by
  simp only [step] at h
  split_ifs at h with hm
  refine ⟨not_not.mp hm, ?_⟩
  split at h
  · rename_i hnone
    exact Or.inl ⟨hnone, (Option.some.inj h).symm⟩
  · rename_i q hq
    have hu := Option.some.inj h
    exact Or.inr ⟨q, hq, congrArg Prod.fst (saved_usertrap t s.proc q hq), by rw [← hu], by rw [← hu]⟩

theorem usertrapret_flag (code : List UInt8) (sched : List (List Sig)) (h : Hart) (p : Proc)
    (hf : p.sigHandlerFlag = 0) :
    (usertrapret code sched h p).proc.sigHandlerFlag =
      if setsFrame (usertrapret code sched h p) then 1 else 0 := by
  have hspec := (signalHandler_spec code sched p hf).flag
  have hstart : framedBefore p 0 = false := by cases hp : frameSignal p <;> simp [framedBefore, hp]
  simp only [hstart, Bool.false_or] at hspec
  have hset : setsFrame (usertrapret code sched h p) = setsFrame (signalHandler code sched p) := rfl
  rw [hset, ← hspec]
  unfold usertrapret
  dsimp only
  split <;> rfl

theorem flagTracks_step {u : Life} {e : Event} (h : FlagTracks s)
    (hu : step code s e = some u) (he : ¬ endsHandler s e) : FlagTracks u := by
  cases e with
  | kill =>
    simp only [step] at hu
    split_ifs at hu
    rw [← Option.some.inj hu, FlagTracks, killSlot_flag]
    exact h
  | trap t =>
    obtain ⟨hm, ⟨-, rfl⟩ | ⟨q, hq, hqf, hproc, hin⟩⟩ := step_trap hu
    · exact h
    rw [FlagTracks] at h ⊢
    rw [hproc, hin]
    cases hs : s.inHandler with
    | false =>
      rw [hs] at h
      rw [usertrapret_flag code _ _ q (hqf.trans h), Bool.false_and, Bool.false_or]
    | true =>
      rw [hs] at h
      rw [usertrapret_of_flag code _ _ q (hqf.trans h)]
      -- the handler is not over: this trap is not a sigret call that completes
      have hret : isSigret t = false := by
        by_contra ht
        have ht' : isSigret t = true := by simpa using ht
        have hk := (usertrap_sigret_isSome t s.proc ht').mp (by rw [hq]; rfl)
        exact he ⟨hm, hs, ht', hk.1, hk.2⟩
      simp only [hret, Bool.not_false, Bool.and_self, Bool.true_or, ↓reduceIte]
      exact hqf.trans h

theorem flag_of_inHandler {s0 : Life} {es : List Event} (h0 : Fresh s0)
    (h : run (step code) s0 es = some s) (hs : s.inHandler = true) : s.proc.sigHandlerFlag = 1 := by
  have hinv : (s.proc.sigHandlerFlag = 1) ∨ (s.proc.sigHandlerFlag = 0 ∧ s.inHandler = false) := by
    refine run_invariant (I := fun v => v.proc.sigHandlerFlag = 1 ∨
      (v.proc.sigHandlerFlag = 0 ∧ v.inHandler = false)) ?_ h (Or.inr ⟨h0.flag, h0.outside⟩)
    rintro v e w (hv | ⟨hv, hin⟩) hw
    · exact Or.inl ((congrArg Prod.fst (saved_step code v w e hw hv)).trans hv)
    have hne : ¬ endsHandler v e := by
      cases e with
      | kill => exact fun h => h
      | trap =>
        rintro ⟨-, htrue, -⟩
        rw [hin] at htrue
        cases htrue
    have hw' := flagTracks_step (by simp [FlagTracks, hv, hin]) hw hne
    rw [FlagTracks] at hw'
    cases hwi : w.inHandler with
    | false => exact Or.inr ⟨by simpa [hwi] using hw', rfl⟩
    | true => exact Or.inl (by simpa [hwi] using hw')
  rcases hinv with hf | ⟨-, hf⟩
  · exact hf
  · rw [hs] at hf
    cases hf

theorem flag_after_sigret {e : Event} (he : endsHandler s e) (hf : s.proc.sigHandlerFlag = 1) :
    ∃ u, step code s e = some u ∧ u.inHandler = false ∧ u.proc.sigHandlerFlag = 1 := by
  cases e with
  | kill => exact he.elim
  | trap t =>
    obtain ⟨hm, hin, hret, hk⟩ := he
    obtain ⟨q, hq⟩ := Option.isSome_iff_exists.mp ((usertrap_sigret_isSome t s.proc hret).mpr hk)
    have hqf : q.sigHandlerFlag = 1 := (congrArg Prod.fst (saved_usertrap t s.proc q hq)).trans hf
    simp only [step, hm, hq, usertrapret_of_flag code t.sched t.hart q hqf, ne_eq, not_true_eq_false, ↓reduceIte]
    exact ⟨_, rfl, by simp [hin, hret, setsFrame], hqf⟩

/-- Over a whole run the flag is clear outside handlers exactly as long as no handler
is ended by its sigret. -/
theorem flag_clear_iff (code : List UInt8) (s0 : Life) (h0 : Fresh s0) (es : List Event) :
    (∀ s, Visits (step code) s0 es s → FlagClear s) ↔
      ∀ pre e s, pre ++ [e] <+: es → run (step code) s0 pre = some s → ¬ endsHandler s e := by
  constructor
  · intro hall pre e s hpre hrun hend
    have hin : s.inHandler = true := by
      cases e with
      | kill => exact hend.elim
      | trap => exact hend.2.1
    obtain ⟨u, hu, hout, hset⟩ := flag_after_sigret hend (flag_of_inHandler h0 hrun hin)
    have hclear := (hall u ⟨pre ++ [e], hpre, run_snoc (step code) hrun hu⟩ hout).1
    omega
  · intro hcond s hs
    refine (Visits.invariant (I := FlagTracks) hs ?_ ?_).clear
    · simp [FlagTracks, h0.flag, h0.outside]
    · intro pre e u v hpre hrun hu hv
      exact flagTracks_step hu hv (hcond pre e u hpre hrun)

/-! A process that sets a handler for signal 15 and gets that signal. -/

def idle : Life := ⟨{ interrupted 0 with pendingSignals := 0 }, .user, false⟩

def timerTrap : Trap := { sigretTrap with regs := zeroRegs, cause := .devintr }

theorem idle_fresh : Fresh idle := ⟨rfl, rfl, rfl, rfl, rfl⟩

theorem flag_clear_one_signal : Fresh idle ∧
    ∀ s, Visits (step sigretCode) idle [.kill 15, .trap timerTrap] s → FlagClear s := by
  refine ⟨idle_fresh, (flag_clear_iff sigretCode idle idle_fresh [.kill 15, .trap timerTrap]).mpr ?_⟩
  intro pre e s hpre _ hend
  cases e with
  | kill => exact hend
  | trap t =>
    have ht : Event.trap t ∈ [Event.kill 15, .trap timerTrap] :=
      hpre.subset (List.mem_append_right _ (List.mem_singleton.mpr rfl))
    have ht' : t = timerTrap := by simpa using ht
    have hret := hend.2.2.1
    rw [ht'] at hret
    revert hret
    decide

/-- After one handler and its sigret the flag is still set, and SIGSTOP, pending and
unblocked, is not acted on. -/
theorem flag_set_after_handler : ∃ s, run (step sigretCode) idle
        [.kill 15, .trap timerTrap, .trap sigretTrap, .kill sigstop] = some s ∧
      s.mode = .user ∧ s.inHandler = false ∧ s.proc.sigHandlerFlag = 1 ∧
      isPending s.proc sigstop = true ∧ isBlocked s.proc.signalMask sigstop = false ∧
      (signalHandler sigretCode [] s.proc).acts = [] ∧
      (signalHandler sigretCode [] { s.proc with sigHandlerFlag := 0 }).acts = [(sigstop, .stop)] := by
  refine ⟨_, rfl, ?_⟩
  decide

end Xv6.Signal
