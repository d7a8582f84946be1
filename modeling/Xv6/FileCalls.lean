import Xv6.FileRefs

/-! The calls on open files keep the counts exact, whether they succeed or fail. -/
namespace Xv6.Ftable
open Function Hoare List
open Vm (Panic ProcState nproc)

structure Call (p : Fin nproc) (s t : Files) : Prop where
  other : ∀ q, q ≠ p → t.ofile q = s.ofile q
  allocated : s.allocated <+: t.allocated
  freed : s.freed <+: t.freed

variable {s t u : Files} {held : Multiset (Fin nfile)} {k k0 k1 : Fin nfile} {p c : Fin nproc} {fd : Fin nofile}
  {f pi : ℕ}

theorem Call.refl (p : Fin nproc) (s : Files) : Call p s s := ⟨fun _ _ => rfl, ⟨[], append_nil _⟩, ⟨[], append_nil _⟩⟩

theorem Call.trans (h : Call p s t) (h' : Call p t u) : Call p s u :=
  ⟨fun q hq => (h'.other q hq).trans (h.other q hq), h.allocated.trans h'.allocated, h.freed.trans h'.freed⟩

theorem Frame.call (h : Frame s t) : Call p s t :=
  ⟨fun _ _ => congrFun h.ofile _, ⟨[], by rw [h.allocated, append_nil]⟩, h.freed⟩

theorem call_setFd (s : Files) (p : Fin nproc) (fd : Fin nofile) (f : ℕ) : Call p s (s.setFd p fd f) :=
  ⟨fun _ hq => update_of_ne hq .., ⟨[], append_nil _⟩, ⟨[], append_nil _⟩⟩

theorem fdalloc_spec (s : Files) (p : Fin nproc) (f : ℕ) : (fdalloc p f s = .ok (none, s)) ∨
      ∃ fd, s.ofile p fd = 0 ∧ fdalloc p f s = .ok (some fd, s.setFd p fd f) := by
  unfold fdalloc
  rw [run_get]
  cases hfind : (List.finRange nofile).find? (fun fd => s.ofile p fd = 0) with
  | none => exact Or.inl rfl
  | some fd => exact Or.inr ⟨fd, by simpa using List.find?_some hfind, rfl⟩

theorem Inv.file (h : Inv s held) (hf : s.ofile p fd ≠ 0) : ∃ k, s.ofile p fd = ptr k ∧ 0 < (s.ftable k).ref := by
  obtain ⟨k, hk⟩ := (h.valid p fd).resolve_left hf
  have hpos := refs_pos hk
  exact ⟨k, hk, by rw [h.ref k]; omega⟩

theorem argfd_some {n : ℤ} (h : argfd s p n = some fd) : s.ofile p fd ≠ 0 := by
  have hfd := List.find?_some h
  exact (of_decide_eq_true hfd).2

theorem sysDup_spec (h : Inv s 0) (p : Fin nproc) (n : ℤ) :
    ∃ r t, sysDup p n s = .ok (r, t) ∧ Inv t 0 ∧ Call p s t := by
  unfold sysDup
  rw [run_get]
  cases harg : argfd s p n with
  | none => exact ⟨-1, s, rfl, h, Call.refl p s⟩
  | some i =>
    obtain ⟨k, hk, href⟩ := h.file (argfd_some harg)
    dsimp only
    rcases fdalloc_spec s p (s.ofile p i) with hfail | ⟨fd, h0, hok⟩
    · rw [run_bind hfail]
      exact ⟨-1, s, rfl, h, Call.refl p s⟩
    rw [run_bind hok, hk]
    dsimp only
    rw [run_bind (filedup_run (s := s.setFd p fd (ptr k)) href)]
    exact ⟨fd.val, _, rfl, h.filedup.setFd h0, (call_setFd s p fd (ptr k)).trans (frame_setFile _ k _).call⟩

theorem sysClose_spec (h : Inv s 0) (p : Fin nproc) (n : ℤ) :
    ∃ r t, sysClose p n s = .ok (r, t) ∧ Inv t 0 ∧ Call p s t := by
  unfold sysClose
  rw [run_get]
  cases harg : argfd s p n with
  | none => exact ⟨-1, s, rfl, h, Call.refl p s⟩
  | some i =>
    obtain ⟨k, hk, -⟩ := h.file (argfd_some harg)
    obtain ⟨t, hclose, hframe, ht⟩ := fileclose_spec (h.clearFd hk)
    dsimp only
    rw [run_bind (s := s) (t := s.setFd p i 0) rfl, hk, run_bind hclose]
    exact ⟨0, t, rfl, ht, (call_setFd s p i 0).trans hframe.call⟩

theorem sysOpen_spec (h : Inv s 0) (p : Fin nproc) (omode : BitVec 32) (ip : Option Inode) :
    ∃ r t, sysOpen p omode ip s = .ok (r, t) ∧ Inv t 0 ∧ Call p s t := by
  unfold sysOpen
  cases ip with
  | none => exact ⟨-1, s, rfl, h, Call.refl p s⟩
  | some ip =>
    dsimp only
    split_ifs with hdir hdev
    · exact ⟨-1, s, rfl, h, Call.refl p s⟩
    · exact ⟨-1, s, rfl, h, Call.refl p s⟩
    obtain ⟨f, t, halloc, hframe, hf⟩ := filealloc_spec h
    rw [run_bind halloc]
    rcases hf with ⟨rfl, rfl⟩ | ⟨k, rfl, rfl, -, hnone, ht⟩
    · rw [entry_zero]
      exact ⟨-1, t, rfl, h, Call.refl p t⟩
    rw [entry_ptr]
    dsimp only
    rcases fdalloc_spec (s.setFile k { s.ftable k with ref := 1 }) p (ptr k) with hfail | ⟨fd, h0, hok⟩
    · obtain ⟨u, hclose, hframe', hu⟩ := fileclose_spec ht
      rw [run_bind hfail]
      dsimp only
      rw [run_bind hclose]
      exact ⟨-1, u, rfl, hu, (hframe.trans hframe').call⟩
    rw [run_bind hok]
    have hset := ht.setFd h0
    refine ⟨fd.val, _, rfl, hset.setFile ?_ ?_ (hset.ref k) (fun _ _ => rfl),
      hframe.call.trans ((call_setFd _ p fd (ptr k)).trans (frame_setFile _ k _).call)⟩
    · intro pi w
      refine iff_of_false (fun hx => ?_) (fun hx => ?_)
      · have htype : (if ip.type = .device then FdType.device else .inode) = .pipe := hx.1
        split_ifs at htype
      have htype := hx.1
      change ((s.setFile k { s.ftable k with ref := 1 }).ftable k).type = .pipe at htype
      rw [setFile_self] at htype
      rw [show ({ s.ftable k with ref := 1 } : File).type = _ from hnone] at htype
      cases htype
    · intro hzero
      change ((s.setFile k { s.ftable k with ref := 1 }).ftable k).ref = 0 at hzero
      rw [setFile_self] at hzero
      cases hzero

/-! Pipes -/

theorem pipeFiles_spec (h : Inv s held) : ∃ f t, pipeFiles s = .ok (f, t) ∧ Frame s t ∧
      ((f = (0, 0) ∧ Inv t held) ∨ (∃ k0, f = (ptr k0, 0) ∧ Inv t (k0 ::ₘ held)) ∨
        ∃ k0 k1, f = (ptr k0, ptr k1) ∧ k0 ≠ k1 ∧ (t.ftable k0).type = .none ∧ (t.ftable k1).type = .none ∧
          t.pipes = s.pipes ∧ t.allocated = s.allocated ∧ Inv t (k0 ::ₘ k1 ::ₘ held)) := by
  unfold pipeFiles
  obtain ⟨f0, t, hrun, hframe, hf0⟩ := filealloc_spec h
  rw [run_bind hrun]
  rcases hf0 with ⟨rfl, rfl⟩ | ⟨k0, rfl, rfl, -, hnone0, ht⟩
  · exact ⟨(0, 0), t, rfl, hframe, Or.inl ⟨rfl, h⟩⟩
  rw [if_neg (ptr_ne_zero k0)]
  obtain ⟨f1, u, hrun', hframe', hf1⟩ := filealloc_spec ht
  rw [run_bind hrun']
  refine ⟨(ptr k0, f1), u, rfl, hframe.trans hframe', Or.inr ?_⟩
  rcases hf1 with ⟨rfl, rfl⟩ | ⟨k1, rfl, rfl, hfree1, hnone1, hu⟩
  · exact Or.inl ⟨k0, rfl, ht⟩
  have hne : k0 ≠ k1 := by
    rintro rfl
    rw [setFile_self] at hfree1
    cases hfree1
  rw [setFile_ne hne.symm] at hnone1
  refine Or.inr ⟨k0, k1, rfl, hne, ?_, ?_, rfl, rfl, Multiset.cons_swap k1 k0 held ▸ hu⟩
  · rw [setFile_ne hne, setFile_self]
    exact hnone0
  · rw [setFile_self, setFile_ne hne.symm]
    exact hnone1

def Files.newPipe (s : Files) (k0 k1 : Fin nfile) (pi : ℕ) : Files :=
  { (s.setFile k0 (asEnd (s.ftable k0) pi false)).setFile k1
      (asEnd ((s.setFile k0 (asEnd (s.ftable k0) pi false)).ftable k1) pi true) with
    pipe := update s.pipe pi ⟨true, true⟩
    pipes := pi :: s.pipes
    allocated := s.allocated ++ [pi] }

theorem newPipe_first (hne : k0 ≠ k1) : (s.newPipe k0 k1 pi).ftable k0 = asEnd (s.ftable k0) pi false :=
  (setFile_ne hne _ _).trans (setFile_self s k0 _)

theorem newPipe_second (hne : k0 ≠ k1) : (s.newPipe k0 k1 pi).ftable k1 = asEnd (s.ftable k1) pi true := by
  refine (setFile_self _ k1 _).trans ?_
  rw [setFile_ne hne.symm]

theorem newPipe_other {l : Fin nfile} (h0 : l ≠ k0) (h1 : l ≠ k1) : (s.newPipe k0 k1 pi).ftable l = s.ftable l :=
  (setFile_ne h1 _ _).trans (setFile_ne h0 s _)

theorem newPipe_isEnd (hne : k0 ≠ k1) (h0 : (s.ftable k0).type = .none) (h1 : (s.ftable k1).type = .none)
    {l : Fin nfile} {pi' : ℕ} {w : Bool} :
    IsEnd (s.newPipe k0 k1 pi) l pi' w ↔ (pi' = pi ∧ l = if w then k1 else k0) ∨ IsEnd s l pi' w := by
  have hnot {l : Fin nfile} (hl : (s.ftable l).type = .none) : ¬IsEnd s l pi' w := by
    intro hx
    rw [IsEnd, hl] at hx
    exact FdType.noConfusion hx.1
  by_cases hl0 : l = k0
  · rw [hl0, IsEnd, newPipe_first hne]
    cases w with
    | false =>
      refine ⟨fun hx => Or.inl ⟨hx.2.1.symm, rfl⟩, fun hx => ?_⟩
      exact ⟨rfl, (hx.resolve_right (hnot h0)).1.symm, rfl⟩
    | true =>
      refine iff_of_false (fun hx => Bool.false_ne_true hx.2.2) (fun hx => ?_)
      exact hne (hx.resolve_right (hnot h0)).2
  by_cases hl1 : l = k1
  · rw [hl1, IsEnd, newPipe_second hne]
    cases w with
    | false =>
      refine iff_of_false (fun hx => Bool.false_ne_true hx.2.2.symm) (fun hx => ?_)
      exact hne (hx.resolve_right (hnot h1)).2.symm
    | true =>
      refine ⟨fun hx => Or.inl ⟨hx.2.1.symm, rfl⟩, fun hx => ?_⟩
      exact ⟨rfl, (hx.resolve_right (hnot h1)).1.symm, rfl⟩
  · have hold : ¬(pi' = pi ∧ l = if w then k1 else k0) := by
      cases w with
      | false => exact fun hx => hl0 hx.2
      | true => exact fun hx => hl1 hx.2
    rw [or_iff_right hold, IsEnd, newPipe_other hl0 hl1]
    rfl

theorem Inv.newPipe (h : Inv s held) (hne : k0 ≠ k1) (h0 : (s.ftable k0).type = .none)
    (h1 : (s.ftable k1).type = .none) (hk0 : (s.ftable k0).ref ≠ 0) (hk1 : (s.ftable k1).ref ≠ 0)
    (hpi : pi ∉ s.pipes) : Inv (s.newPipe k0 k1 pi) held := by
  have hend {l : Fin nfile} {pi' : ℕ} {w : Bool} := @newPipe_isEnd s k0 k1 pi hne h0 h1 l pi' w
  have hopen (pi' : ℕ) (w : Bool) : ((s.newPipe k0 k1 pi).pipe pi').isOpen w = true ↔
      pi' = pi ∨ (s.pipe pi').isOpen w = true := by
    change (update s.pipe pi ⟨true, true⟩ pi').isOpen w = true ↔ _
    by_cases heq : pi' = pi
    · rw [heq, update_self]
      exact iff_of_true (by cases w <;> rfl) (Or.inl rfl)
    · rw [update_of_ne heq, or_iff_right heq]
  -- no entry was an end of the new pipe before
  have hnew {l : Fin nfile} {w : Bool} : ¬IsEnd s l pi w := fun hl => hpi (h.known l pi w hl)
  refine ⟨fun l => ?_, h.valid, fun l hl => ?_, fun l l' pi' w hl hl' => ?_, fun l pi' w hl => ?_,
    fun pi' hpi' w => ?_, fun pi' hpi' => ?_, nodup_cons.mpr ⟨hpi, h.nodup⟩, ?_⟩
  · have hl := h.ref l
    by_cases hl0 : l = k0
    · rw [hl0] at hl ⊢
      rw [newPipe_first hne]
      exact hl
    by_cases hl1 : l = k1
    · rw [hl1] at hl ⊢
      rw [newPipe_second hne]
      exact hl
    · rw [newPipe_other hl0 hl1]
      exact hl
  · by_cases hl0 : l = k0
    · rw [hl0, newPipe_first hne] at hl
      exact absurd hl hk0
    by_cases hl1 : l = k1
    · rw [hl1, newPipe_second hne] at hl
      exact absurd hl hk1
    · rw [newPipe_other hl0 hl1] at hl ⊢
      exact h.none l hl
  · rcases hend.mp hl with ⟨heq, hlw⟩ | hl
    · rcases hend.mp hl' with ⟨-, hlw'⟩ | hl'
      · rw [hlw, hlw']
      · exact absurd (heq ▸ hl') hnew
    · rcases hend.mp hl' with ⟨heq, -⟩ | hl'
      · exact absurd (heq ▸ hl) hnew
      · exact h.one l l' pi' w hl hl'
  · rcases hend.mp hl with ⟨heq, -⟩ | hl
    · exact heq ▸ mem_cons_self
    · exact mem_cons_of_mem _ (h.known l pi' w hl)
  · rw [hopen]
    simp only [hend]
    by_cases heq : pi' = pi
    · exact iff_of_true (Or.inl heq) ⟨_, Or.inl ⟨heq, rfl⟩⟩
    · rw [or_iff_right heq, h.ends pi' ((mem_cons.mp hpi').resolve_left heq) w]
      exact exists_congr (fun l => (or_iff_right (fun hx => heq hx.1)).symm)
  · simp only [hopen]
    by_cases heq : pi' = pi
    · exact iff_of_true (heq ▸ mem_cons_self) ⟨true, Or.inl heq⟩
    have hold : pi' ∈ s.allocated := (mem_append.mp hpi').resolve_right (fun hx => heq (mem_singleton.mp hx))
    change pi' ∈ pi :: s.pipes ↔ _
    rw [mem_cons, or_iff_right heq, h.used pi' hold]
    exact exists_congr (fun w => (or_iff_right heq).symm)
  · change (s.allocated ++ [pi]).Perm (pi :: s.pipes ++ s.freed)
    exact (perm_append_singleton pi _).trans (h.history.cons pi)

theorem closeBoth_spec (h : Inv s (k0 ::ₘ k1 ::ₘ held)) :
    ∃ t u, fileclose (ptr k0) s = .ok ((), t) ∧ fileclose (ptr k1) t = .ok ((), u) ∧ Frame s u ∧ Inv u held := by
  obtain ⟨t, ht, hframe, hinv⟩ := fileclose_spec h
  obtain ⟨u, hu, hframe', hinv'⟩ := fileclose_spec hinv
  exact ⟨t, u, ht, hu, hframe.trans hframe', hinv'⟩

theorem pipeInit_short {f : ℕ × ℕ} (pi : ℕ)
    (h : (f = (0, 0) ∧ Inv s held) ∨ ∃ k0, f = (ptr k0, 0) ∧ Inv s (k0 ::ₘ held)) :
    ∃ t, pipeInit f pi s = .ok (false, t) ∧ Frame s t ∧ Inv t held := by
  have hzero (u : Files) : closeIf 0 u = .ok ((), u) := rfl
  unfold pipeInit
  rw [run_get]
  rcases h with ⟨rfl, h⟩ | ⟨k0, rfl, h⟩
  · simp only [entry_zero]
    rw [run_bind (hzero s), run_bind (hzero s)]
    exact ⟨s, rfl, Frame.refl s, h⟩
  obtain ⟨t, hclose, hframe, ht⟩ := fileclose_spec h
  have hif : closeIf (ptr k0) s = .ok ((), t) := by rw [closeIf, if_neg (ptr_ne_zero k0), hclose]
  simp only [entry_ptr, entry_zero]
  rw [run_bind hif, run_bind (hzero t)]
  exact ⟨t, rfl, hframe, ht⟩

theorem pipeInit_spec (h : Inv s (k0 ::ₘ k1 ::ₘ held)) (hne : k0 ≠ k1) (h0 : (s.ftable k0).type = .none)
    (h1 : (s.ftable k1).type = .none) (hpi : pi ∉ s.pipes) :
    ∃ ok t, pipeInit (ptr k0, ptr k1) pi s = .ok (ok, t) ∧ ((ok = false ∧ pi = 0 ∧ Frame s t ∧ Inv t held) ∨
        (ok = true ∧ pi ≠ 0 ∧ t = s.newPipe k0 k1 pi ∧ Inv t (k0 ::ₘ k1 ::ₘ held))) := by
  unfold pipeInit
  rw [run_get]
  simp only [entry_ptr]
  by_cases hz : pi = 0
  · obtain ⟨t, u, ht, hu, hframe, hinv⟩ := closeBoth_spec h
    rw [if_pos hz, run_bind ht, run_bind hu]
    exact ⟨false, u, rfl, Or.inl ⟨rfl, hz, hframe, hinv⟩⟩
  rw [if_neg hz]
  refine ⟨true, s.newPipe k0 k1 pi, rfl, Or.inr ⟨rfl, hz, rfl, h.newPipe hne h0 h1 ?_ ?_ hpi⟩⟩
  · rw [h.ref k0, Multiset.count_cons_self]
    omega
  · rw [h.ref k1, Multiset.count_cons_of_ne hne.symm, Multiset.count_cons_self]
    omega

structure HasFds (s : Files) (p : Fin nproc) (k0 k1 : Fin nfile) (fds : Fin nofile × Fin nofile) : Prop where
  first : s.ofile p fds.1 = ptr k0
  second : s.ofile p fds.2 = ptr k1
  ne : fds.1 ≠ fds.2

theorem pipeFds_spec (h : Inv s (k0 ::ₘ k1 ::ₘ held)) (p : Fin nproc) :
    ∃ r t, pipeFds p (ptr k0, ptr k1) s = .ok (r, t) ∧ Call p s t ∧ t.allocated = s.allocated ∧ Inv t held ∧
      (r = none ∨ ∃ fds, r = some fds ∧ HasFds t p k0 k1 fds) := by
  unfold pipeFds
  rcases fdalloc_spec s p (ptr k0) with hfail | ⟨fd0, hfd0, hok⟩
  · obtain ⟨t, u, ht, hu, hframe, hinv⟩ := closeBoth_spec h
    rw [run_bind hfail]
    dsimp only
    rw [run_bind ht, run_bind hu]
    exact ⟨none, u, rfl, hframe.call, hframe.allocated, hinv, Or.inl rfl⟩
  rw [run_bind hok]
  dsimp only
  have hcall := call_setFd s p fd0 (ptr k0)
  rcases fdalloc_spec (s.setFd p fd0 (ptr k0)) p (ptr k1) with hfail | ⟨fd1, hfd1, hok1⟩
  · obtain ⟨t, u, ht, hu, hframe, hinv⟩ := closeBoth_spec ((h.setFd hfd0).clearFd (setFd_self s p fd0 (ptr k0)))
    rw [run_bind hfail]
    dsimp only
    rw [run_bind (s := s.setFd p fd0 (ptr k0)) (t := (s.setFd p fd0 (ptr k0)).setFd p fd0 0) rfl, run_bind ht,
      run_bind hu]
    exact ⟨none, u, rfl, hcall.trans ((call_setFd _ p fd0 0).trans hframe.call), hframe.allocated, hinv, Or.inl rfl⟩
  have hne : fd0 ≠ fd1 := by
    rintro rfl
    rw [setFd_self] at hfd1
    exact ptr_ne_zero k0 hfd1
  rw [run_bind hok1]
  refine ⟨some (fd0, fd1), _, rfl, hcall.trans (call_setFd _ p fd1 (ptr k1)), rfl, (h.setFd hfd0).setFd hfd1,
    Or.inr ⟨_, rfl, ?_, setFd_self _ p fd1 _, hne⟩⟩
  exact (setFd_ne (fun _ => hne)).trans (setFd_self s p fd0 _)

theorem pipeUndo_spec {fds : Fin nofile × Fin nofile} (h : Inv s held) (hfds : HasFds s p k0 k1 fds) :
    ∃ t, pipeUndo p (ptr k0, ptr k1) fds s = .ok ((), t) ∧ Call p s t ∧ t.allocated = s.allocated ∧ Inv t held := by
  have hsecond : (s.setFd p fds.1 0).ofile p fds.2 = ptr k1 := (setFd_ne (fun _ => hfds.ne.symm)).trans hfds.second
  have hclear := (h.clearFd hfds.first).clearFd hsecond
  rw [Multiset.cons_swap] at hclear
  obtain ⟨t, u, ht, hu, hframe, hinv⟩ := closeBoth_spec hclear
  refine ⟨u, ?_, (call_setFd s p fds.1 0).trans ((call_setFd _ p fds.2 0).trans hframe.call), hframe.allocated, hinv⟩
  unfold pipeUndo
  rw [run_bind (s := s) (t := (s.setFd p fds.1 0).setFd p fds.2 0) rfl, run_bind ht]
  exact hu

theorem sysPipe_spec (h : Inv s 0) (p : Fin nproc) (hpi : pi ∉ s.pipes) (copied : Bool) :
    ∃ r t, sysPipe p pi copied s = .ok (r, t) ∧ Inv t 0 ∧ Call p s t := by
  unfold sysPipe
  obtain ⟨f, t, hfiles, hframe, hf⟩ := pipeFiles_spec h
  rw [run_bind hfiles]
  rcases or_assoc.mpr hf with hshort | ⟨k0, k1, rfl, hne, h0, h1, hpipes, -, ht⟩
  · obtain ⟨u, hinit, hframe', hu⟩ := pipeInit_short pi hshort
    rw [run_bind hinit]
    exact ⟨-1, u, rfl, hu, (hframe.trans hframe').call⟩
  obtain ⟨ok, u, hinit, hok⟩ := pipeInit_spec ht hne h0 h1 (hpipes ▸ hpi)
  rw [run_bind hinit]
  rcases hok with ⟨rfl, -, hframe', hu⟩ | ⟨rfl, -, rfl, hu⟩
  · exact ⟨-1, u, rfl, hu, (hframe.trans hframe').call⟩
  have hnew : Call p t (t.newPipe k0 k1 pi) := ⟨fun _ _ => rfl, ⟨[pi], rfl⟩, ⟨[], append_nil _⟩⟩
  obtain ⟨r, v, hfds, hcall, -, hv, hr⟩ := pipeFds_spec hu p
  have hcall' : Call p s v := hframe.call.trans (hnew.trans hcall)
  rw [if_neg Bool.false_ne_true.symm, run_bind hfds]
  rcases hr with rfl | ⟨fds, rfl, hhas⟩
  · exact ⟨-1, v, rfl, hv, hcall'⟩
  dsimp only
  cases copied with
  | true => exact ⟨0, v, rfl, hv, hcall'⟩
  | false =>
    obtain ⟨w, hundo, hcall'', -, hw⟩ := pipeUndo_spec hv hhas
    rw [if_neg Bool.false_ne_true, run_bind hundo]
    exact ⟨-1, w, rfl, hw, hcall'.trans hcall''⟩

/-! The loops of fork and exit -/

theorem forkTurn_spec (h : Inv s held) (hc : s.ofile c fd = 0) :
    ∃ t, forkFd p c fd s = .ok ((), t) ∧ Inv t held ∧ t.ofile = (s.setFd c fd (s.ofile p fd)).ofile ∧
      t.allocated = s.allocated ∧ t.freed = s.freed := by
  unfold forkFd
  rw [run_get]
  by_cases hp : s.ofile p fd = 0
  · refine ⟨s, by rw [if_pos hp]; rfl, h, ?_, rfl, rfl⟩
    change s.ofile = update s.ofile c (update (s.ofile c) fd (s.ofile p fd))
    rw [hp, ← hc, update_eq_self, update_eq_self]
  · obtain ⟨k, hk, href⟩ := h.file hp
    rw [if_neg hp, hk, run_bind (filedup_run href)]
    exact ⟨_, rfl, h.filedup.setFd hc, rfl, rfl, rfl⟩

theorem forkFiles_loop (hpc : p ≠ c) (l : List (Fin nofile)) (hl : l.Nodup) (h : Inv s held)
    (hc : ∀ fd ∈ l, s.ofile c fd = 0) :
    ∃ t, l.forM (forkFd p c) s = .ok ((), t) ∧ Inv t held ∧ Call c s t ∧ t.allocated = s.allocated ∧ t.freed = s.freed ∧
      ∀ fd, t.ofile c fd = if fd ∈ l then s.ofile p fd else s.ofile c fd := by
  induction l generalizing s with
  | nil => exact ⟨s, rfl, h, Call.refl c s, rfl, rfl, fun fd => (if_neg not_mem_nil).symm⟩
  | cons fd l ih =>
    obtain ⟨hfd, hnd⟩ := nodup_cons.mp hl
    obtain ⟨u, hturn, hu, hofile, halloc, hfreed⟩ := @forkTurn_spec s held p c fd h (hc fd mem_cons_self)
    have hself : u.ofile c fd = s.ofile p fd := by rw [hofile, setFd_self]
    have hother (fd' : Fin nofile) (hne : fd' ≠ fd) : u.ofile c fd' = s.ofile c fd' := by
      rw [hofile, setFd_ne (fun _ => hne)]
    have hcall : Call c s u := ⟨fun q hq => by rw [hofile]; exact update_of_ne hq ..,
      ⟨[], by rw [halloc, append_nil]⟩, ⟨[], by rw [hfreed, append_nil]⟩⟩
    obtain ⟨t, hrun, ht, hcall', halloc', hfreed', hall⟩ := ih hnd hu (fun fd' hfd' => by
      rw [hother fd' (fun heq => hfd (heq ▸ hfd')), hc fd' (mem_cons_of_mem _ hfd')])
    refine ⟨t, (run_forM_cons hturn l).trans hrun, ht, hcall.trans hcall', halloc'.trans halloc,
      hfreed'.trans hfreed, fun fd' => ?_⟩
    rw [hall fd', hcall.other p hpc]
    by_cases heq : fd' = fd
    · rw [heq, if_neg hfd, hself, if_pos mem_cons_self]
    · rw [hother fd' heq]
      simp only [mem_cons, heq, false_or]

theorem forkFiles_spec (h : Inv s held) (hpc : p ≠ c) (hc : ∀ fd, s.ofile c fd = 0) :
    ∃ t, forkFiles p c s = .ok ((), t) ∧ Inv t held ∧ Call c s t ∧ t.allocated = s.allocated ∧
      t.freed = s.freed ∧ t.ofile c = s.ofile p := by
  obtain ⟨t, hrun, ht, hcall, halloc, hfreed, hall⟩ :=
    forkFiles_loop hpc (List.finRange nofile) (nodup_finRange _) h (fun fd _ => hc fd)
  exact ⟨t, hrun, ht, hcall, halloc, hfreed, funext (fun fd => (hall fd).trans (if_pos (mem_finRange fd)))⟩

theorem pipeclose_ofile {w : Bool} (h : pipeclose pi w s = .ok ((), t)) (o : Fin nproc → Fin nofile → ℕ) :
    pipeclose pi w { s with ofile := o } = .ok ((), { t with ofile := o }) := by
  unfold pipeclose at h ⊢
  rw [run_get] at h ⊢
  dsimp only at h ⊢
  split_ifs at h ⊢
  · cases h
    rfl
  · cases h
    rfl

theorem fileclose_ofile (h : fileclose f s = .ok ((), t)) (o : Fin nproc → Fin nofile → ℕ) :
    fileclose f { s with ofile := o } = .ok ((), { t with ofile := o }) := by
  unfold fileclose at h ⊢
  rw [run_get] at h ⊢
  cases hf : entry f with
  | none =>
    rw [hf] at h
    cases h
  | some k =>
    rw [hf] at h
    dsimp only at h ⊢
    split_ifs at h ⊢ with href hlast htype
    · cases h
    · cases h
      rfl
    · exact pipeclose_ofile (s := s.unused k) h o
    · cases h
      rfl

/-- One turn of exit's loop. The descriptor is cleared after the call of fileclose. -/
theorem exitTurn_spec (h : Inv s held) :
    ∃ t, exitFd p fd s = .ok ((), t) ∧ Inv t held ∧ Call p s t ∧ t.allocated = s.allocated ∧
      t.ofile = (s.setFd p fd 0).ofile := by
  unfold exitFd
  rw [run_get]
  by_cases hp : s.ofile p fd = 0
  · refine ⟨s, by rw [if_pos hp]; rfl, h, Call.refl p s, rfl, ?_⟩
    change s.ofile = update s.ofile p (update (s.ofile p) fd 0)
    rw [← hp, update_eq_self, update_eq_self]
  obtain ⟨k, hk, -⟩ := h.file hp
  obtain ⟨t, hclose, hframe, ht⟩ := fileclose_spec (h.clearFd hk)
  have hrun : fileclose (ptr k) s = .ok ((), { t with ofile := s.ofile }) := fileclose_ofile hclose s.ofile
  refine ⟨t, ?_, ht, (call_setFd s p fd 0).trans hframe.call, hframe.allocated, hframe.ofile⟩
  rw [if_neg hp, hk, run_bind hrun]
  change Except.ok ((), { t with ofile := (s.setFd p fd 0).ofile }) = _
  rw [← hframe.ofile]

theorem exitFiles_loop (l : List (Fin nofile)) (h : Inv s held) :
    ∃ t, l.forM (exitFd p) s = .ok ((), t) ∧ Inv t held ∧ Call p s t ∧ t.allocated = s.allocated ∧
      ∀ fd, t.ofile p fd = if fd ∈ l then 0 else s.ofile p fd := by
  induction l generalizing s with
  | nil => exact ⟨s, rfl, h, Call.refl p s, rfl, fun fd => (if_neg not_mem_nil).symm⟩
  | cons fd l ih =>
    obtain ⟨u, hturn, hu, hcall, halloc, hofile⟩ := @exitTurn_spec s held p fd h
    obtain ⟨t, hrun, ht, hcall', halloc', hall⟩ := ih hu
    refine ⟨t, (run_forM_cons hturn l).trans hrun, ht, hcall.trans hcall', halloc'.trans halloc, fun fd' => ?_⟩
    rw [hall fd', hofile]
    by_cases heq : fd' = fd
    · rw [heq, setFd_self, ite_self, if_pos mem_cons_self]
    · rw [setFd_ne (fun _ => heq)]
      simp only [mem_cons, heq, false_or]

theorem exitFiles_spec (h : Inv s held) (p : Fin nproc) :
    ∃ t, exitFiles p s = .ok ((), t) ∧ Inv t held ∧ Call p s t ∧ t.allocated = s.allocated ∧
      ∀ fd, t.ofile p fd = 0 := by
  obtain ⟨t, hrun, ht, hcall, halloc, hall⟩ := exitFiles_loop (List.finRange nofile) h
  exact ⟨t, hrun, ht, hcall, halloc, fun fd => (hall fd).trans (if_pos (mem_finRange fd))⟩

end Xv6.Ftable
