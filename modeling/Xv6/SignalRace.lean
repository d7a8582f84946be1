import Xv6.SignalReturn

/-! One pass of `signalHandler` at the grain of its accesses to `pendingSignals`, with the
kill calls of other processes between them. kill() and the set-up of a frame, under
p->lock, are one step each; the clear behind a default action is a load and a store. -/
namespace Xv6.Signal
open Runs List

/-- Where the pass is: before its first test, at the head of turn `k`, in the stop loop,
before the load and before the store that clear signal `i`, or before the locked section
of `userSpaceHandler`. -/
inductive PassPc where
  | start
  | head (k : ℕ)
  | stopped
  | load (i : Sig)
  | store (i : Sig) (loaded : SigSet)
  | frame (i : Sig)
  | ended
  deriving DecidableEq

structure Race where
  proc : Proc
  pc : PassPc

inductive RaceEvent where
  | pass
  | kill (s : Sig)
  deriving DecidableEq

-- The switch over the signal number; SIGSTOP goes on in its own loop.
def defaultStep (p : Proc) (i : Sig) : Race :=
  if i = sigkill then ⟨sigkillHandler p, .load i⟩
  else if i = sigstop then ⟨{ p with frozen := 1 }, .stopped⟩
  else if i = sigcont then ⟨sigcontHandler p, .load i⟩
  else ⟨sigkillHandler p, .load i⟩

def headStep (p : Proc) (i : Sig) : Race :=
  if bit i &&& p.pendingSignals ≠ 0 ∧ bit i &&& p.signalMask = 0 then
    if p.signalHandlers i = sigIgn then ⟨p, .head (i.val+1)⟩
    else if p.signalHandlers i = sigDfl then defaultStep p i
    else ⟨{ p with backupSigMask := p.signalMask }, .frame i⟩
  else ⟨p, .head (i.val+1)⟩

def passStep (code : List UInt8) (s : Race) : Option Race :=
  match s.pc with
  | .start => some { s with pc := if s.proc.sigHandlerFlag = 1 then .ended else .head 0 }
  | .head k => some (if h : k < 32 then headStep s.proc ⟨k, h⟩ else { s with pc := .ended })
  | .stopped =>
    match stopTest s.proc with
    | some q => some ⟨q, .load sigstop⟩
    | none => some s
  | .load i => some { s with pc := .store i s.proc.pendingSignals }
  | .store i loaded => some ⟨{ s.proc with pendingSignals := loaded &&& ~~~bit i }, .head (i.val+1)⟩
  | .frame i => some ⟨userSpaceHandler code s.proc i, .head (i.val+1)⟩
  | .ended => none

def raceStep (code : List UInt8) (s : Race) : RaceEvent → Option Race
  | .pass => passStep code s
  | .kill k => some { s with proc := killSlot s.proc k }

def PassPc.isStore : PassPc → Bool
  | .store _ _ => true
  | _ => false

def PassPc.clears : PassPc → Option Sig
  | .store i _ => some i
  | .frame i => some i
  | _ => none

theorem defaultStep_spec (p : Proc) (i : Sig) :
    (defaultStep p i).proc.pendingSignals = p.pendingSignals ∧ (defaultStep p i).pc.isStore = false := by
  unfold defaultStep
  split_ifs
  · exact ⟨rfl, rfl⟩
  · exact ⟨rfl, rfl⟩
  · unfold sigcontHandler
    split_ifs <;> exact ⟨rfl, rfl⟩
  · exact ⟨rfl, rfl⟩

theorem headStep_spec (p : Proc) (i : Sig) :
    (headStep p i).proc.pendingSignals = p.pendingSignals ∧ (headStep p i).pc.isStore = false := by
  unfold headStep
  split_ifs
  · exact ⟨rfl, rfl⟩
  · exact defaultStep_spec p i
  · exact ⟨rfl, rfl⟩
  · exact ⟨rfl, rfl⟩

theorem stopTest_pending {p q : Proc} (h : stopTest p = some q) : q.pendingSignals = p.pendingSignals := by
  unfold stopTest at h
  split_ifs at h <;> rw [← Option.some.inj h]

variable {u v : Race} {i b : Sig}

/-- What a step of the pass does to the pending set: only the store and the section of
`userSpaceHandler` write it, and only the load starts a window. -/
theorem passStep_cases {code : List UInt8} (h : passStep code u = some v) : (∃ i w, u.pc = .store i w ∧
      v = ⟨{ u.proc with pendingSignals := w &&& ~~~bit i }, .head (i.val+1)⟩) ∨
    (∃ i, u.pc = .frame i ∧ v = ⟨userSpaceHandler code u.proc i, .head (i.val+1)⟩) ∨
    (v.proc.pendingSignals = u.proc.pendingSignals ∧
      ((∃ i, v.pc = .store i u.proc.pendingSignals) ∨ v.pc.isStore = false)) := by
  rcases u with ⟨p, pc⟩
  cases pc with
  | start =>
    simp only [passStep, Option.some.injEq] at h
    subst h
    refine Or.inr (Or.inr ⟨rfl, Or.inr ?_⟩)
    dsimp only
    split <;> rfl
  | head =>
    simp only [passStep, Option.some.injEq] at h
    subst h
    refine Or.inr (Or.inr ?_)
    split
    · exact ⟨(headStep_spec p _).1, Or.inr (headStep_spec p _).2⟩
    · exact ⟨rfl, Or.inr rfl⟩
  | stopped =>
    refine Or.inr (Or.inr ?_)
    simp only [passStep] at h
    split at h
    · rename_i q hq
      cases h
      exact ⟨stopTest_pending hq, Or.inr rfl⟩
    · cases h
      exact ⟨rfl, Or.inr rfl⟩
  | load i =>
    cases h
    exact Or.inr (Or.inr ⟨rfl, Or.inl ⟨i, rfl⟩⟩)
  | store i w => exact Or.inl ⟨i, w, rfl, (Option.some.inj h).symm⟩
  | frame i => exact Or.inr (Or.inl ⟨i, rfl, (Option.some.inj h).symm⟩)
  | ended => cases h

/-- A kill of signal `k` would set a bit that the pending store does not write back. -/
def InWindow (s : Race) (k : Sig) : Prop := k ≠ sigkill ∧ ∃ i w, s.pc = .store i w ∧ k ≠ i ∧ w.getLsbD k.val = false

def Loaded (s : Race) : Prop :=
  ∀ i w, s.pc = .store i w → ∀ b, isPending s.proc b = true → b = i ∨ w.getLsbD b.val = true

theorem loaded_step {code : List UInt8} {e : RaceEvent} (hu : Loaded u)
    (h : raceStep code u e = some v) (he : ∀ k, e = .kill k → ¬ InWindow u k) : Loaded v := by
  cases e with
  | kill k =>
    cases h
    intro i w hpc b hb
    rw [isPending_killSlot, Bool.or_eq_true] at hb
    rcases hb with hb | hb
    · exact hu i w hpc b hb
    simp only [Bool.and_eq_true, decide_eq_true_eq, Bool.not_eq_true', decide_eq_false_iff_not] at hb
    obtain ⟨rfl, hk⟩ := hb
    by_contra hno
    rw [not_or, Bool.not_eq_true] at hno
    exact he k rfl ⟨hk, i, w, hpc, hno⟩
  | pass =>
    intro i w hpc b hb
    rcases passStep_cases h with ⟨j, x, -, rfl⟩ | ⟨j, -, rfl⟩ | ⟨hp, hst⟩
    · cases hpc
    · cases hpc
    rcases hst with ⟨j, hj⟩ | hst
    · rw [hj] at hpc
      obtain ⟨-, rfl⟩ := PassPc.store.inj hpc
      exact Or.inr (by rwa [isPending, hp] at hb)
    · rw [hpc] at hst
      cases hst

theorem pending_clear {x : SigSet} (hb : x.getLsbD b.val = true)
    (hc : (x &&& ~~~bit i).getLsbD b.val = false) : i = b := by
  rw [getLsbD_clear, hb, Bool.true_and] at hc
  simpa using hc

theorem clears_of_lost {code : List UInt8} {e : RaceEvent} (hu : Loaded u)
    (h : raceStep code u e = some v) (hb : isPending u.proc b = true)
    (hv : isPending v.proc b = false) : u.pc.clears = some b := by
  cases e with
  | kill =>
    cases h
    rw [isPending_killSlot, hb] at hv
    cases hv
  | pass =>
    rcases passStep_cases h with ⟨i, w, hpc, rfl⟩ | ⟨i, hpc, rfl⟩ | ⟨hp, -⟩
    · rw [hpc, PassPc.clears]
      rcases hu i w hpc b hb with rfl | hw
      · rfl
      · rw [pending_clear hw hv]
    · rw [hpc, PassPc.clears]
      by_cases hf : u.proc.sigHandlerFlag = 0
      · have hpend : (userSpaceHandler code u.proc i).pendingSignals =
            u.proc.pendingSignals &&& ~~~bit i := by simp [userSpaceHandler, hf]
        rw [isPending, hpend] at hv
        rw [pending_clear hb hv]
      · rw [userSpaceHandler, if_neg hf, hb] at hv
        cases hv
    · rw [isPending, hp] at hv
      rw [isPending, hv] at hb
      cases hb

def Alone (code : List UInt8) (u v : Race) : Prop := ∃ n, run (raceStep code) u (List.replicate n .pass) = some v

theorem Alone.single {code : List UInt8} (h : passStep code u = some v) : Alone code u v := by
  refine ⟨1, ?_⟩
  show (passStep code u).bind _ = _
  rw [h]
  rfl

theorem Alone.trans {code : List UInt8} {w : Race} (h : Alone code u v) (h' : Alone code v w) : Alone code u w := by
  obtain ⟨n, hn⟩ := h
  obtain ⟨m, hm⟩ := h'
  refine ⟨n+m, ?_⟩
  rw [replicate_add, run_append, hn, Option.bind_some, hm]

section Runs
variable (code : List UInt8) (p : Proc) (es : List RaceEvent)

/-- Along the run every step that removes a pending signal is the one that acted on it. -/
def NoneLost : Prop := ∀ pre e u v, pre ++ [e] <+: es → run (raceStep code) ⟨p, .start⟩ pre = some u →
    raceStep code u e = some v → ∀ b, isPending u.proc b = true → isPending v.proc b = false → u.pc.clears = some b

/-- Along the run no kill call falls between the load and the store of a clear, unless
its bit is one that the store writes back or clears in any case. -/
def NoneInWindow : Prop := ∀ (pre : List RaceEvent) k u, pre ++ [RaceEvent.kill k] <+: es →
    run (raceStep code) ⟨p, .start⟩ pre = some u → ¬ InWindow u k

variable {code p es}

theorem noneLost_of_noneInWindow (h : NoneInWindow code p es) : NoneLost code p es := by
  intro pre e u v hpre hu hv b
  have hvis : Visits (raceStep code) ⟨p, .start⟩ es u := ⟨pre, (prefix_append pre [e]).trans hpre, hu⟩
  refine clears_of_lost (hvis.invariant (I := Loaded) ?_ ?_) hv
  · intro i w hpc
    cases hpc
  intro pre' e' u' v' hpre' hu' hI hstep
  refine loaded_step hI hstep ?_
  rintro k rfl
  exact h pre' k u' hpre' hu'

theorem lost_at_store {fs : List RaceEvent} {s : Race} {w : SigSet}
    (hrun : run (raceStep code) u fs = some s) (hs : s.pc.isStore = false) (hpc : u.pc = .store i w)
    (hb : isPending u.proc b = true) (hw : w.getLsbD b.val = false) :
    ∃ pre x y, pre ++ [RaceEvent.pass] <+: fs ∧ run (raceStep code) u pre = some x ∧ x.pc = .store i w ∧
      raceStep code x .pass = some y ∧ isPending x.proc b = true ∧ isPending y.proc b = false := by
  induction fs generalizing u with
  | nil =>
    cases hrun
    rw [hpc] at hs
    cases hs
  | cons e fs ih =>
    rw [run_cons, Option.bind_eq_some_iff] at hrun
    obtain ⟨v, hv, hrest⟩ := hrun
    cases e with
    | pass =>
      refine ⟨[], u, v, ⟨fs, rfl⟩, rfl, hpc, hv, hb, ?_⟩
      simp only [raceStep, passStep, hpc] at hv
      cases hv
      simp only [isPending, getLsbD_clear, hw, Bool.false_and]
    | kill k =>
      cases hv
      obtain ⟨pre, x, y, hpre, hx, hrest'⟩ := ih hrest hpc (by rw [isPending_killSlot, hb, Bool.true_or])
      refine ⟨.kill k :: pre, x, y, ?_, ?_, hrest'⟩
      · rw [cons_append]
        exact (prefix_cons_inj _).mpr hpre
      · rw [run_cons]
        exact hx

/-- A run that does not break off inside a clear loses no signal exactly if no kill call
falls into the window of a clear. -/
theorem none_lost_iff {s : Race} (h : run (raceStep code) ⟨p, .start⟩ es = some s)
    (hs : s.pc.isStore = false) : NoneLost code p es ↔ NoneInWindow code p es := by
  refine ⟨fun hlost pre k u hpre hu => ?_, noneLost_of_noneInWindow⟩
  rintro ⟨hk, i, w, hpc, hki, hw⟩
  obtain ⟨fs, rfl⟩ := hpre
  have hu' : run (raceStep code) ⟨p, .start⟩ (pre ++ [RaceEvent.kill k]) = some { u with proc := killSlot u.proc k } :=
    run_snoc _ hu rfl
  rw [run_append, hu', Option.bind_some] at h
  have hset : isPending (killSlot u.proc k) k = true := by simp [isPending_killSlot, hk]
  obtain ⟨mid, x, y, hmid, hx, hxpc, hy, hxb, hyb⟩ := lost_at_store h hs hpc hset hw
  have hrun : run (raceStep code) ⟨p, .start⟩ (pre ++ [RaceEvent.kill k] ++ mid) = some x := by
    rw [run_append, hu', Option.bind_some, hx]
  have hpre : pre ++ [RaceEvent.kill k] ++ mid ++ [RaceEvent.pass] <+: pre ++ [RaceEvent.kill k] ++ fs := by
    rw [append_assoc _ mid]
    exact (prefix_append_right_inj _).mpr hmid
  have hcl := hlost _ _ _ _ hpre hrun hy k hxb hyb
  rw [hxpc, PassPc.clears, Option.some.injEq] at hcl
  exact hki hcl.symm

end Runs

theorem none_lost_early_kill : ∃ s, run (raceStep sigretCode) ⟨{ interrupted 0 with pendingSignals := 0 }, .start⟩
        [.kill 1, .pass, .pass, .pass, .pass, .pass] = some s ∧ s.pc.isStore = false ∧
      NoneLost sigretCode { interrupted 0 with pendingSignals := 0 } [.kill 1, .pass, .pass, .pass, .pass, .pass] := by
  refine ⟨_, rfl, by decide, (none_lost_iff rfl (by decide)).mpr ?_⟩
  intro pre k u ⟨t, ht⟩ hu
  cases pre with
  | nil =>
    cases hu
    rintro ⟨-, i, w, hpc, -⟩
    cases hpc
  | cons e pre =>
    -- every later event is a step of the pass
    rw [cons_append, cons_append, List.cons.injEq] at ht
    have hk : RaceEvent.kill k ∈ pre ++ [RaceEvent.kill k] ++ t := by simp
    rw [ht.2] at hk
    simp at hk

def killBeforeStore : List RaceEvent :=
  List.replicate 4 RaceEvent.pass ++ RaceEvent.kill 15 :: List.replicate 32 RaceEvent.pass

/-- The kill of signal 15 falls between the load and the store of the clear of signal 1:
the pass ends with nothing done about 15 and its bit gone. -/
theorem signal_lost_in_window : ∃ s, run (raceStep sigretCode) ⟨{ interrupted 0 with pendingSignals := bit 1 }, .start⟩
        killBeforeStore = some s ∧
      s.pc = .ended ∧ isPending s.proc 15 = false ∧ s.proc.sigHandlerFlag = 0 ∧
      ¬ NoneLost sigretCode { interrupted 0 with pendingSignals := bit 1 } killBeforeStore := by
  refine ⟨_, rfl, by decide, by decide, by decide, fun h => ?_⟩
  have hcl := h (List.replicate 4 RaceEvent.pass ++ [RaceEvent.kill 15]) RaceEvent.pass _ _
    ⟨List.replicate 31 RaceEvent.pass, rfl⟩ rfl rfl 15
    (by decide) (by decide)
  revert hcl
  decide

end Xv6.Signal
