import Xv6.FileCalls

/-! The counts of open files along any sequence of calls. -/
namespace Xv6.Ftable
open Function Hoare Runs
open Vm (Panic ProcState nproc)

/-- The counts are exact, and processes that are not there have no files. -/
structure SysInv (s : Sys) : Prop where
  files : Inv s.files 0
  idle : ∀ p, ¬Running (s.state p) → ∀ fd, s.files.ofile p fd = 0

variable {s t : Sys} {p : Fin nproc}

theorem SysInv.call {files : Files} (h : SysInv s) (hp : Running (s.state p)) (hinv : Inv files 0)
    (hcall : Call p s.files files) : SysInv { s with files } := by
  refine ⟨hinv, fun q hq fd => ?_⟩
  have hqp : q ≠ p := fun heq => hq (heq ▸ hp)
  exact (congrFun (hcall.other q hqp) fd).trans (h.idle q hq fd)

theorem apply_ok {α : Type} {x : M α} {a : α} {files : Files} (h : x s.files = .ok (a, files)) :
    s.apply x = .ok { s with files } := by
  rw [Sys.apply, h]
  rfl

theorem SysInv.apply {α : Type} {x : M α} (h : SysInv s) (hp : Running (s.state p))
    (hx : ∃ r files, x s.files = .ok (r, files) ∧ Inv files 0 ∧ Call p s.files files) :
    ∃ t, s.apply x = .ok t ∧ SysInv t := by
  obtain ⟨r, files, hrun, hinv, hcall⟩ := hx
  exact ⟨_, apply_ok hrun, h.call hp hinv hcall⟩

theorem SysInv.fork (h : SysInv s) (hp : Running (s.state p)) : ∃ t, fork s p = .ok t ∧ SysInv t := by
  unfold Ftable.fork
  cases hfind : (List.finRange nproc).find? (fun c => s.state c = .unused) with
  | none => exact ⟨s, rfl, h⟩
  | some c =>
    have hc : s.state c = .unused := by simpa using List.find?_some hfind
    have hnot : ¬Running (s.state c) := fun hrun => hrun.1 hc
    have hpc : p ≠ c := fun heq => hnot (heq ▸ hp)
    obtain ⟨files, hrun, hinv, hcall, -⟩ := forkFiles_spec h.files hpc (h.idle c hnot)
    dsimp only
    rw [apply_ok hrun]
    refine ⟨_, rfl, hinv, fun q hq fd => ?_⟩
    by_cases hqc : q = c
    · rw [hqc] at hq
      refine absurd ?_ hq
      change Running (update s.state c .runnable c)
      rw [update_self]
      decide
    · have hq' : ¬Running (s.state q) := by
        change ¬Running (update s.state c .runnable q) at hq
        rwa [update_of_ne hqc] at hq
      exact (congrFun (hcall.other q hqc) fd).trans (h.idle q hq' fd)

theorem SysInv.exit (h : SysInv s) (p : Fin nproc) :
    exit s p = .error .initExiting ∨ ∃ t, exit s p = .ok t ∧ SysInv t := by
  unfold Ftable.exit
  by_cases hinit : p = s.initproc
  · exact Or.inl (if_pos hinit)
  obtain ⟨files, hrun, hinv, hcall, -, hzero⟩ := exitFiles_spec h.files p
  rw [if_neg hinit, apply_ok hrun]
  refine Or.inr ⟨_, rfl, hinv, fun q hq fd => ?_⟩
  by_cases hqp : q = p
  · rw [hqp]
    exact hzero fd
  have hq' : ¬Running (s.state q) := by
    change ¬Running (update s.state p .zombie q) at hq
    rwa [update_of_ne hqp] at hq
  exact (congrFun (hcall.other q hqp) fd).trans (h.idle q hq' fd)

theorem SysInv.reap {c : Fin nproc} (h : SysInv s) (hc : s.state c = .zombie) : SysInv (s.setState c .unused) := by
  refine ⟨h.files, fun q hq fd => ?_⟩
  by_cases hqc : q = c
  · rw [hqc]
    exact h.idle c (fun hrun => hrun.2 hc) fd
  · change ¬Running (update s.state c .unused q) at hq
    rw [update_of_ne hqc] at hq
    exact h.idle q hq fd

/-- No call panics, except the exit of init. -/
theorem SysInv.step {e : Event} {y : Except Panic Sys} (h : SysInv s) (hs : step (.ok s) e = some y) :
    y = .error .initExiting ∨ ∃ t, y = .ok t ∧ SysInv t := by
  unfold Ftable.step at hs
  dsimp only at hs
  by_cases hrun : Running (s.state e.proc)
  case neg =>
    rw [if_pos hrun] at hs
    cases hs
  rw [if_neg (not_not.mpr hrun)] at hs
  cases e with
  | «open» p omode ip =>
    cases hs
    exact Or.inr (h.apply hrun (sysOpen_spec h.files p omode ip))
  | dup p fd =>
    cases hs
    exact Or.inr (h.apply hrun (sysDup_spec h.files p fd))
  | pipe p pi copied =>
    dsimp only at hs
    split_ifs at hs with hpi
    cases hs
    exact Or.inr (h.apply hrun (sysPipe_spec h.files p hpi copied))
  | close p fd =>
    cases hs
    exact Or.inr (h.apply hrun (sysClose_spec h.files p fd))
  | fork p ok =>
    cases hs
    cases ok with
    | true => exact Or.inr (h.fork hrun)
    | false => exact Or.inr ⟨s, rfl, h⟩
  | exec =>
    cases hs
    exact Or.inr ⟨s, rfl, h⟩
  | exit p =>
    cases hs
    exact h.exit p
  | wait =>
    dsimp only at hs
    split_ifs at hs with hc
    cases hs
    exact Or.inr ⟨_, rfl, h.reap hc⟩

theorem init_inv (p : Fin nproc) : SysInv (Sys.init p) := by
  have hrefs (k : Fin nfile) : refs Files.init k = 0 := by
    refine Finset.sum_eq_zero (fun q _ => Finset.sum_eq_zero (fun fd _ => ?_))
    exact if_neg (ptr_ne_zero k).symm
  have hend (k : Fin nfile) (pi : ℕ) (w : Bool) : ¬IsEnd Files.init k pi w := fun hk => FdType.noConfusion hk.1
  refine ⟨⟨fun k => ?_, fun _ _ => Or.inl rfl, fun _ _ => rfl, fun k l pi w hk => absurd hk (hend k pi w),
    fun k pi w hk => absurd hk (hend k pi w), fun pi hpi => absurd hpi List.not_mem_nil,
    fun pi hpi => absurd hpi List.not_mem_nil, List.nodup_nil, .refl _⟩, fun _ _ _ => rfl⟩
  change 0 = refs Files.init k+0
  rw [hrefs]

/-- Every count is the number of descriptors. A pipe says of its ends whether they are open, and its page
is freed, once, when both are closed. -/
structure Exact (s : Files) : Prop where
  ref : ∀ k, (s.ftable k).ref = refs s k
  none : ∀ k, (s.ftable k).ref = 0 → (s.ftable k).type = .none
  readopen : ∀ pi ∈ s.pipes, (s.pipe pi).readopen = true ↔ ∃ k, 0 < (s.ftable k).ref ∧ IsEnd s k pi false
  writeopen : ∀ pi ∈ s.pipes, (s.pipe pi).writeopen = true ↔ ∃ k, 0 < (s.ftable k).ref ∧ IsEnd s k pi true
  freed : ∀ pi ∈ s.allocated, pi ∉ s.pipes ↔ (s.pipe pi).readopen = false ∧ (s.pipe pi).writeopen = false
  once : s.pipes.Nodup ∧ s.allocated.Perm (s.pipes ++ s.freed)

theorem Inv.exact {s : Files} (h : Inv s 0) : Exact s := by
  have hend (pi : ℕ) (hpi : pi ∈ s.pipes) (w : Bool) :
      (s.pipe pi).isOpen w = true ↔ ∃ k, 0 < (s.ftable k).ref ∧ IsEnd s k pi w := by
    rw [h.ends pi hpi w]
    refine exists_congr (fun k => (and_iff_right_of_imp (fun hk => Nat.pos_of_ne_zero (fun h0 => ?_))).symm)
    exact FdType.noConfusion ((h.none k h0).symm.trans hk.1)
  refine ⟨fun k => (h.ref k).trans (Nat.add_zero _), h.none, fun pi hpi => hend pi hpi false,
    fun pi hpi => hend pi hpi true, fun pi hpi => ?_, h.nodup, h.history⟩
  rw [Pipe.closed_iff, h.used pi hpi, not_exists]
  exact forall_congr' (fun w => Bool.not_eq_true _ ▸ Iff.rfl)

/-- After any sequence of calls the counts of open files are exact, and the only panic is that of init
exiting. -/
theorem file_counts_exact (p : Fin nproc) (x : Except Panic Sys)
    (h : Reach step (fun _ _ => True) (.ok (Sys.init p)) x) :
    x = .error .initExiting ∨ ∃ s, x = .ok s ∧ Exact s.files := by
  have hinv : x = .error .initExiting ∨ ∃ s, x = .ok s ∧ SysInv s := by
    refine h.invariant (I := fun x => x = .error .initExiting ∨ ∃ s, x = .ok s ∧ SysInv s)
      (Or.inr ⟨_, rfl, init_inv p⟩) (fun y e z hy _ hs => ?_)
    rcases hy with rfl | ⟨s, rfl, hs'⟩
    · cases hs
    · exact hs'.step hs
  exact hinv.imp_right (fun ⟨s, hx, hs⟩ => ⟨s, hx, hs.files.exact⟩)

theorem pipe_closed_at_both_ends : ∃ s,
    Reach step (fun _ _ => True) (.ok (Sys.init ⟨0, by decide⟩)) (.ok s) ∧ s.files.allocated = [4096] ∧
      s.files.freed = [4096] ∧ Exact s.files := by
  have hany : (run step (.ok (Sys.init ⟨0, by decide⟩)) [.pipe ⟨0, by decide⟩ 4096 true,
      .close ⟨0, by decide⟩ 0, .close ⟨0, by decide⟩ 1]).any (fun x =>
        x.toOption.any (fun s => decide (s.files.allocated = [4096] ∧ s.files.freed = [4096]))) = true := by
    decide
  obtain ⟨x, hx, hall⟩ := (Option.any_eq_true _ _).mp hany
  cases x with
  | error => cases hall
  | ok s =>
    obtain ⟨halloc, hfreed⟩ := of_decide_eq_true hall
    have hreach := reach_of_run hx
    rcases file_counts_exact ⟨0, by decide⟩ (.ok s) hreach with herr | ⟨t, ht, hexact⟩
    · cases herr
    · exact ⟨s, hreach, halloc, hfreed, Except.ok.inj ht ▸ hexact⟩

end Xv6.Ftable
