import Xv6.ExecRun

/-! What exec does to the signal state of the process. -/
namespace Xv6.Exec
open Hoare Vm

variable {m : Machine} {p p' : Proc} {path : List UInt8} {argv : List (List UInt8)} {x y : Sys} {r : ℤ}

theorem onRam_ok {α : Type} {c : M α} {a : α} (h : onRam c x = .ok (a, y)) :
    ∃ t, c x.ram = .ok (a, t) ∧ y = ⟨t, x.calls⟩ := by
  rw [onRam] at h
  cases hc : c x.ram with
  | error =>
    rw [hc] at h
    cases h
  | ok z =>
    rw [hc] at h
    cases h
    exact ⟨z.2, rfl, rfl⟩

theorem bad_ok {b : Bad} (h : bad m p b x = .ok ((r, p'), y)) : r = -1 ∧ p' = p := by
  obtain ⟨-, u, -, h⟩ := run_bind_ok h
  split at h
  · obtain ⟨-, v, -, h⟩ := run_bind_ok h
    obtain ⟨-, w, -, h⟩ := run_bind_ok h
    cases h
    exact ⟨rfl, rfl⟩
  · cases h
    exact ⟨rfl, rfl⟩

theorem commit_ok {im : Loaded} {sp : ℕ} {s t : Ram} (h : commit m p path im sp s = .ok (p', t)) :
    p' = newProc p path im := by
  obtain ⟨-, u, -, h⟩ := run_bind_ok h
  obtain ⟨-, v, -, h⟩ := run_bind_ok h
  obtain ⟨-, w, -, h⟩ := run_bind_ok h
  obtain ⟨-, z, -, h⟩ := run_bind_ok h
  cases h
  rfl

theorem finish_ok {im : Loaded} (h : finish m p path argv im x = .ok ((r, p'), y)) :
    (r = -1 ∧ p' = p) ∨ (r = argv.length ∧ p' = newProc p path im) := by
  obtain ⟨z, u, -, h⟩ := run_bind_ok h
  cases z with
  | none => exact Or.inl (bad_ok h)
  | some =>
    obtain ⟨q, v, hv, h⟩ := run_bind_ok h
    obtain ⟨t, ht, -⟩ := onRam_ok hv
    cases h
    exact Or.inr ⟨rfl, commit_ok ht⟩

theorem exec_ok {file : Option Inode} (h : exec m p path file argv x = .ok ((r, p'), y)) :
    (r = -1 ∧ p' = p) ∨ (r = argv.length ∧ ∃ im, p' = newProc p path im) := by
  obtain ⟨-, u, -, h⟩ := run_bind_ok h
  obtain ⟨-, v, -, h⟩ := run_bind_ok h
  cases file with
  | none =>
    obtain ⟨-, w, -, h⟩ := run_bind_ok h
    cases h
    exact Or.inl ⟨rfl, rfl⟩
  | some =>
    obtain ⟨z, w, -, h⟩ := run_bind_ok h
    cases z with
    | error => exact Or.inl (bad_ok h)
    | ok im => exact (finish_ok h).imp_right (fun ⟨hr, hp⟩ => ⟨hr, im, hp⟩)

/-- What exec is to do to the signals: an ignored one stays ignored, the others have their default
action, and no handler of the old program is in progress. -/
structure SignalsReset (p p' : Proc) : Prop where
  ignored : ∀ j, p.signalHandlers j = sigIgn → p'.signalHandlers j = sigIgn
  default : ∀ j, p.signalHandlers j ≠ sigIgn → p'.signalHandlers j = sigDfl
  mask : p'.signalMask = p.signalMask
  pending : p'.pendingSignals = p.pendingSignals
  flag : p'.sigHandlerFlag = 0

theorem signalsReset_iff (p : Proc) (path : List UInt8) (im : Loaded) :
    SignalsReset p (newProc p path im) ↔ p.sigHandlerFlag = 0 := by
  have hhandler (j : Fin 32) : (newProc p path im).signalHandlers j =
      if p.signalHandlers j = sigIgn ∨ p.signalHandlers j = sigDfl then p.signalHandlers j else sigDfl := rfl
  refine ⟨fun h => h.flag, fun h => ⟨fun j hj => ?_, fun j hj => ?_, rfl, rfl, h⟩⟩
  · rw [hhandler, if_pos (Or.inl hj), hj]
  rw [hhandler]
  split_ifs with hdfl
  · exact hdfl.resolve_left hj
  · rfl

/-- A successful exec resets the signals if and only if no handler was in progress; one that fails
leaves the whole signal state as it was. -/
theorem exec_resets_signals_iff (m : Machine) (p p' : Proc) (path : List UInt8) (file : Option Inode)
    (argv : List (List UInt8)) (x y : Sys) (r : ℤ) (h : exec m p path file argv x = .ok ((r, p'), y)) :
    (r = -1 ∧ p' = p) ∨ (0 ≤ r ∧ (SignalsReset p p' ↔ p.sigHandlerFlag = 0)) := by
  rcases exec_ok h with hbad | ⟨rfl, im, rfl⟩
  · exact Or.inl hbad
  · exact Or.inr ⟨Int.natCast_nonneg _, signalsReset_iff p path im⟩

theorem small_program_starts (flag : ℤ) : ∃ s p im t, p.sigHandlerFlag = flag ∧
    exec roomy p [] (some smallFile) [] ⟨s, []⟩ = .ok ((0, newProc p [] im), ⟨t, fsCalls (some smallFile)⟩) := by
  obtain ⟨s, p, -, hr, hs, hroom⟩ := roomy_process
  have hpages : smallFile.pages = 1 := by
    rw [Inode.pages, smallFile_segments]
    decide
  obtain ⟨im, t, hrun, -⟩ := @exec_succeeds roomy {p.trapframe} s { p with sigHandlerFlag := flag } smallFile []
    (by rw [roomy_pageCount]; decide) hs (Multiset.mem_singleton_self _) smallFile_loadable hr
    (hroom smallFile.pages (by rw [hpages]; decide)) nil_accepted (by decide) [] []
  exact ⟨s, _, im, t, rfl, hrun⟩

theorem small_program_resets_signals : ∃ s p im t, p.sigHandlerFlag = 0 ∧
    exec roomy p [] (some smallFile) [] ⟨s, []⟩ = .ok ((0, newProc p [] im), ⟨t, fsCalls (some smallFile)⟩) ∧
    (((0 : ℤ) = -1 ∧ newProc p [] im = p) ∨
      ((0 : ℤ) ≤ 0 ∧ (SignalsReset p (newProc p [] im) ↔ p.sigHandlerFlag = 0))) := by
  obtain ⟨s, p, im, t, hflag, hrun⟩ := small_program_starts 0
  exact ⟨s, p, im, t, hflag, hrun, exec_resets_signals_iff roomy p _ [] (some smallFile) [] _ _ 0 hrun⟩

/-- exec from a signal handler: the new program starts with the flag of the old handler set. -/
theorem exec_in_handler_keeps_flag : ∃ s p p' t, p.sigHandlerFlag = 1 ∧
    exec roomy p [] (some smallFile) [] ⟨s, []⟩ = .ok ((0, p'), ⟨t, fsCalls (some smallFile)⟩) ∧
    p'.sigHandlerFlag = 1 ∧ ¬SignalsReset p p' := by
  obtain ⟨s, p, im, t, hflag, hrun⟩ := small_program_starts 1
  have hkeep : (newProc p [] im).sigHandlerFlag = 1 := hflag
  refine ⟨s, p, newProc p [] im, t, hflag, hrun, hkeep, fun h => ?_⟩
  rw [h.flag] at hkeep
  exact absurd hkeep (by decide)

end Xv6.Exec
