import Xv6.FileModel
import Mathlib.Algebra.BigOperators.Group.Finset.Basic

/-! Counting the references to open files. Between two statements of a call some references are in
local variables only; `held` are those. -/
namespace Xv6.Ftable
open Function Hoare List
open Vm (Panic ProcState nproc)

theorem run_get {α : Type} (f : Files → M α) (s : Files) : (get >>= f) s = f s s := rfl

theorem sum_update {ι α : Type*} [Fintype ι] [DecidableEq ι] (f : ι → α) (i : ι) (a : α) (g : α → ℕ) :
    ∑ j, g (update f i a j)+g (f i) = ∑ j, g (f j)+g a := by
  have hnew := Finset.add_sum_erase Finset.univ (fun j => g (update f i a j)) (Finset.mem_univ i)
  have hold := Finset.add_sum_erase Finset.univ (fun j => g (f j)) (Finset.mem_univ i)
  have hrest : ∑ j ∈ Finset.univ.erase i, g (update f i a j) = ∑ j ∈ Finset.univ.erase i, g (f j) := by
    apply Finset.sum_congr rfl
    intro j hj
    rw [update_of_ne (Finset.ne_of_mem_erase hj)]
  simp only [update_self] at hnew
  omega

def refs (s : Files) (k : Fin nfile) : ℕ := ∑ p, ∑ fd, if s.ofile p fd = ptr k then 1 else 0

def IsEnd (s : Files) (k : Fin nfile) (pi : ℕ) (writable : Bool) : Prop :=
  (s.ftable k).type = .pipe ∧ (s.ftable k).pipe = pi ∧ (s.ftable k).writable = writable

def Pipe.isOpen (x : Pipe) (writable : Bool) : Bool := if writable then x.writeopen else x.readopen

structure Inv (s : Files) (held : Multiset (Fin nfile)) : Prop where
  ref : ∀ k, (s.ftable k).ref = refs s k+held.count k
  valid : ∀ p fd, s.ofile p fd = 0 ∨ ∃ k, s.ofile p fd = ptr k
  none : ∀ k, (s.ftable k).ref = 0 → (s.ftable k).type = .none
  one : ∀ k l pi w, IsEnd s k pi w → IsEnd s l pi w → k = l
  known : ∀ k pi w, IsEnd s k pi w → pi ∈ s.pipes
  ends : ∀ pi ∈ s.pipes, ∀ w, (s.pipe pi).isOpen w = true ↔ ∃ k, IsEnd s k pi w
  used : ∀ pi ∈ s.allocated, pi ∈ s.pipes ↔ ∃ w, (s.pipe pi).isOpen w = true
  nodup : s.pipes.Nodup
  history : s.allocated.Perm (s.pipes ++ s.freed)

variable {s t : Files} {held : Multiset (Fin nfile)} {k : Fin nfile} {p : Fin nproc} {fd : Fin nofile} {f pi : ℕ}

theorem ptr_ne_zero (k : Fin nfile) : ptr k ≠ 0 := Nat.succ_ne_zero _

theorem ptr_inj {k l : Fin nfile} (h : ptr k = ptr l) : k = l := Fin.ext (Nat.succ.inj h)

theorem entry_ptr (k : Fin nfile) : entry (ptr k) = some k := by
  unfold entry
  cases hfind : (List.finRange nfile).find? (fun l => ptr l = ptr k) with
  | none =>
    have hno := List.find?_eq_none.mp hfind k (mem_finRange k)
    exact absurd (decide_eq_true rfl) hno
  | some =>
    have hl := List.find?_some hfind
    rw [ptr_inj (of_decide_eq_true hl)]

theorem entry_zero : entry 0 = none := by
  refine List.find?_eq_none.mpr (fun k _ => ?_)
  rw [decide_eq_true_eq]
  exact ptr_ne_zero k

theorem refs_setFd (s : Files) (p : Fin nproc) (fd : Fin nofile) (f : ℕ) (k : Fin nfile) :
    refs (s.setFd p fd f) k+(if s.ofile p fd = ptr k then 1 else 0) = refs s k+if f = ptr k then 1 else 0 := by
  have hrow := sum_update (s.ofile p) fd f (fun x => if x = ptr k then 1 else 0)
  have htable := sum_update s.ofile p (update (s.ofile p) fd f) (fun row => ∑ fd, if row fd = ptr k then 1 else 0)
  unfold refs Files.setFd
  dsimp only at hrow htable ⊢
  omega

theorem refs_pos (h : s.ofile p fd = ptr k) : 0 < refs s k := by
  have hset := refs_setFd s p fd 0 k
  rw [if_pos h, if_neg (ptr_ne_zero k).symm] at hset
  omega

theorem setFd_self (s : Files) (p : Fin nproc) (fd : Fin nofile) (f : ℕ) : (s.setFd p fd f).ofile p fd = f := by
  simp only [Files.setFd, update_self]

theorem setFd_ne {q : Fin nproc} {fd' : Fin nofile} (h : q = p → fd' ≠ fd) :
    (s.setFd p fd f).ofile q fd' = s.ofile q fd' := by
  by_cases hq : q = p
  · rw [hq]
    simp only [Files.setFd, update_self, update_of_ne (h hq)]
  · simp only [Files.setFd, update_of_ne hq]

theorem Inv.setFd (h : Inv s (k ::ₘ held)) (h0 : s.ofile p fd = 0) : Inv (s.setFd p fd (ptr k)) held := by
  refine ⟨fun l => ?_, fun q fd' => ?_, h.none, h.one, h.known, h.ends, h.used, h.nodup, h.history⟩
  · have hset := refs_setFd s p fd (ptr k) l
    have hl := h.ref l
    rw [h0, if_neg (ptr_ne_zero l).symm] at hset
    rw [Multiset.count_cons] at hl
    change (s.ftable l).ref = _
    by_cases hlk : l = k
    · rw [hlk] at hset hl ⊢
      rw [if_pos rfl] at hset hl
      omega
    · rw [if_neg (fun he => hlk (ptr_inj he).symm)] at hset
      rw [if_neg hlk] at hl
      omega
  · by_cases hq : q = p ∧ fd' = fd
    · rw [hq.1, hq.2, setFd_self]
      exact Or.inr ⟨k, rfl⟩
    · rw [setFd_ne (fun he hfd => hq ⟨he, hfd⟩)]
      exact h.valid q fd'

theorem Inv.clearFd (h : Inv s held) (hk : s.ofile p fd = ptr k) : Inv (s.setFd p fd 0) (k ::ₘ held) := by
  refine ⟨fun l => ?_, fun q fd' => ?_, h.none, h.one, h.known, h.ends, h.used, h.nodup, h.history⟩
  · have hset := refs_setFd s p fd 0 l
    have hl := h.ref l
    rw [hk, if_neg (ptr_ne_zero l).symm] at hset
    rw [Multiset.count_cons]
    change (s.ftable l).ref = _
    by_cases hlk : l = k
    · rw [hlk] at hset hl ⊢
      rw [if_pos rfl] at hset ⊢
      omega
    · rw [if_neg (fun he => hlk (ptr_inj he).symm)] at hset
      rw [if_neg hlk]
      omega
  · by_cases hq : q = p ∧ fd' = fd
    · rw [hq.1, hq.2, setFd_self]
      exact Or.inl rfl
    · rw [setFd_ne (fun he hfd => hq ⟨he, hfd⟩)]
      exact h.valid q fd'

theorem setFile_self (s : Files) (k : Fin nfile) (x : File) : (s.setFile k x).ftable k = x := update_self ..

theorem setFile_ne {l : Fin nfile} (h : l ≠ k) (s : Files) (x : File) :
    (s.setFile k x).ftable l = s.ftable l := update_of_ne h ..

theorem Inv.setFile {held' : Multiset (Fin nfile)} {x : File} (h : Inv s held)
    (hend : ∀ pi w, (x.type = .pipe ∧ x.pipe = pi ∧ x.writable = w) ↔ IsEnd s k pi w)
    (hnone : x.ref = 0 → x.type = .none) (hk : x.ref = refs s k+held'.count k)
    (hother : ∀ l, l ≠ k → held'.count l = held.count l) : Inv (s.setFile k x) held' := by
  have hsame (l : Fin nfile) (pi : ℕ) (w : Bool) : IsEnd (s.setFile k x) l pi w ↔ IsEnd s l pi w := by
    by_cases hl : l = k
    · rw [IsEnd, hl, setFile_self]
      exact hend pi w
    · rw [IsEnd, setFile_ne hl]
      rfl
  refine ⟨fun l => ?_, h.valid, fun l hl => ?_, fun l l' pi w hl hl' => ?_, fun l pi w hl => ?_,
    fun pi hpi w => ?_, h.used, h.nodup, h.history⟩
  · by_cases hlk : l = k
    · rw [hlk, setFile_self]
      exact hk
    · rw [setFile_ne hlk, hother l hlk]
      exact h.ref l
  · by_cases hlk : l = k
    · rw [hlk, setFile_self] at hl ⊢
      exact hnone hl
    · rw [setFile_ne hlk] at hl ⊢
      exact h.none l hl
  · exact h.one l l' pi w ((hsame l pi w).mp hl) ((hsame l' pi w).mp hl')
  · exact h.known l pi w ((hsame l pi w).mp hl)
  · simp only [hsame]
    exact h.ends pi hpi w

theorem Inv.recount {held' : Multiset (Fin nfile)} {n : ℕ} (h : Inv s held) (hn : n ≠ 0)
    (hk : n = refs s k+held'.count k) (hother : ∀ l, l ≠ k → held'.count l = held.count l) :
    Inv (s.setFile k { s.ftable k with ref := n }) held' :=
  h.setFile (fun _ _ => Iff.rfl) (fun h0 => absurd h0 hn) hk hother

/-- What a change of the table leaves: the descriptors, and the pages that were taken; more of them may
have been freed. -/
structure Frame (s t : Files) : Prop where
  ofile : t.ofile = s.ofile
  allocated : t.allocated = s.allocated
  freed : s.freed <+: t.freed

theorem Frame.refl (s : Files) : Frame s s := ⟨rfl, rfl, [], append_nil _⟩

theorem Frame.trans {u : Files} (h : Frame s t) (h' : Frame t u) : Frame s u :=
  ⟨h'.ofile.trans h.ofile, h'.allocated.trans h.allocated, h.freed.trans h'.freed⟩

theorem frame_setFile (s : Files) (k : Fin nfile) (x : File) : Frame s (s.setFile k x) := ⟨rfl, rfl, [], append_nil _⟩

theorem filealloc_spec (h : Inv s held) : ∃ f t, filealloc s = .ok (f, t) ∧ Frame s t ∧
      ((f = 0 ∧ t = s) ∨ ∃ k, f = ptr k ∧ t = s.setFile k { s.ftable k with ref := 1 } ∧
        (s.ftable k).ref = 0 ∧ (s.ftable k).type = .none ∧ Inv t (k ::ₘ held)) := by
  unfold filealloc
  cases hfind : (List.finRange nfile).find? (fun k => (s.ftable k).ref = 0) with
  | none =>
    refine ⟨0, s, ?_, Frame.refl s, Or.inl ⟨rfl, rfl⟩⟩
    rw [run_get]
    dsimp only
    rw [hfind]
    rfl
  | some k =>
    have href : (s.ftable k).ref = 0 := by simpa using List.find?_some hfind
    refine ⟨ptr k, s.setFile k { s.ftable k with ref := 1 }, ?_, frame_setFile s k _,
      Or.inr ⟨k, rfl, rfl, href, h.none k href, ?_⟩⟩
    · rw [run_get]
      dsimp only
      rw [hfind]
      rfl
    have hcount := h.ref k
    refine h.recount Nat.one_ne_zero ?_ (fun l hl => Multiset.count_cons_of_ne hl _)
    rw [Multiset.count_cons_self]
    omega

theorem filedup_run (hk : 0 < (s.ftable k).ref) :
    filedup (ptr k) s = .ok ((), s.setFile k { s.ftable k with ref := (s.ftable k).ref+1 }) := by
  unfold filedup
  rw [run_get, entry_ptr]
  dsimp only
  rw [if_neg (by omega)]
  rfl

theorem Inv.filedup (h : Inv s held) :
    Inv (s.setFile k { s.ftable k with ref := (s.ftable k).ref+1 }) (k ::ₘ held) := by
  have hcount := h.ref k
  refine h.recount (Nat.succ_ne_zero _) ?_ (fun l hl => Multiset.count_cons_of_ne hl _)
  rw [Multiset.count_cons_self]
  omega

theorem Pipe.isOpen_close (x : Pipe) (w w' : Bool) : (x.close w).isOpen w' = if w' = w then false else x.isOpen w' := by
  cases w <;> cases w' <;> rfl

theorem Pipe.closed_iff (x : Pipe) : x.readopen = false ∧ x.writeopen = false ↔ ∀ w, x.isOpen w = false :=
  ⟨fun h w => by cases w; exacts [h.1, h.2], fun h => ⟨h false, h true⟩⟩

def Files.unused (s : Files) (k : Fin nfile) : Files := s.setFile k { s.ftable k with ref := 0, type := .none }

theorem isEnd_unused {l : Fin nfile} {w : Bool} : IsEnd (s.unused k) l pi w ↔ l ≠ k ∧ IsEnd s l pi w := by
  by_cases hl : l = k
  · rw [hl, IsEnd, Files.unused, setFile_self]
    exact iff_of_false (fun h => FdType.noConfusion h.1) (fun h => h.1 rfl)
  · rw [IsEnd, Files.unused, setFile_ne hl]
    exact (and_iff_right hl).symm

theorem Inv.unused_ref (h : Inv s (k ::ₘ held)) (hk : (s.ftable k).ref = 1) (l : Fin nfile) :
    ((s.unused k).ftable l).ref = refs s l+held.count l := by
  have hl := h.ref l
  by_cases hlk : l = k
  · rw [hlk] at hl ⊢
    rw [Multiset.count_cons_self] at hl
    rw [Files.unused, setFile_self]
    dsimp only
    omega
  · rw [Multiset.count_cons_of_ne hlk] at hl
    rw [Files.unused, setFile_ne hlk, hl]

theorem Inv.unused_none (h : Inv s held) (l : Fin nfile) (hl : ((s.unused k).ftable l).ref = 0) :
    ((s.unused k).ftable l).type = .none := by
  by_cases hlk : l = k
  · rw [hlk, Files.unused, setFile_self]
  · rw [Files.unused, setFile_ne hlk] at hl ⊢
    exact h.none l hl

theorem Inv.drop (h : Inv s (k ::ₘ held)) (hk : (s.ftable k).ref = 1) (ht : (s.ftable k).type ≠ .pipe) :
    Inv (s.unused k) held := by
  have href := h.unused_ref hk k
  rw [Files.unused, setFile_self] at href
  refine h.setFile (fun pi w => ?_) (fun _ => rfl) href (fun l hl => (Multiset.count_cons_of_ne hl _).symm)
  exact iff_of_false (fun hx => FdType.noConfusion hx.1) (fun hx => ht hx.1)

def Files.closeEnd (s : Files) (pi : ℕ) (w : Bool) : Files := { s with pipe := update s.pipe pi ((s.pipe pi).close w) }

theorem closeEnd_pipe (s : Files) (pi : ℕ) (w : Bool) :
    (s.closeEnd pi w).pipe = update s.pipe pi ((s.pipe pi).close w) := rfl

theorem closeEnd_isOpen (s : Files) (pi pi' : ℕ) (w w' : Bool) :
    ((s.closeEnd pi w).pipe pi').isOpen w' = if pi' = pi ∧ w' = w then false else (s.pipe pi').isOpen w' := by
  by_cases hpi : pi' = pi
  · rw [hpi, closeEnd_pipe, update_self, Pipe.isOpen_close]
    simp only [true_and]
  · rw [closeEnd_pipe, update_of_ne hpi, if_neg (fun h => hpi h.1)]

section CloseEnd
variable {w : Bool}

theorem Inv.isEnd_closed (h : Inv s held) (hk : IsEnd s k pi w) {l : Fin nfile} {pi' : ℕ} {w' : Bool} :
    IsEnd (s.unused k) l pi' w' ↔ ¬(pi' = pi ∧ w' = w) ∧ IsEnd s l pi' w' := by
  rw [isEnd_unused]
  refine and_congr_left (fun hl => not_congr ⟨fun hlk => ?_, fun ⟨hpi, hw⟩ => ?_⟩)
  · rw [hlk] at hl
    exact ⟨hl.2.1.symm.trans hk.2.1, hl.2.2.symm.trans hk.2.2⟩
  · rw [hpi, hw] at hl
    exact h.one l k pi w hl hk

theorem Inv.ends_closed (h : Inv s held) (hk : IsEnd s k pi w) {pi' : ℕ} (hpi' : pi' ∈ s.pipes) (w' : Bool) :
    (((s.unused k).closeEnd pi w).pipe pi').isOpen w' = true ↔ ∃ l, IsEnd (s.unused k) l pi' w' := by
  rw [closeEnd_isOpen]
  simp only [h.isEnd_closed hk]
  by_cases hc : pi' = pi ∧ w' = w
  · rw [if_pos hc]
    exact iff_of_false Bool.false_ne_true (fun ⟨l, hl, _⟩ => hl hc)
  · rw [if_neg hc]
    exact (h.ends pi' hpi' w').trans (exists_congr (fun l => (and_iff_right hc).symm))

section
variable (h : Inv s (k ::ₘ held)) (href : (s.ftable k).ref = 1) (hk : IsEnd s k pi w)
include h href hk

theorem Inv.closeEnd (hopen : ∃ w', (((s.unused k).closeEnd pi w).pipe pi).isOpen w' = true) :
    Inv ((s.unused k).closeEnd pi w) held := by
  refine ⟨h.unused_ref href, h.valid, h.unused_none, fun l l' pi' w' hl hl' => ?_, fun l pi' w' hl => ?_,
    fun pi' hpi' w' => h.ends_closed hk hpi' w', fun pi' hpi' => ?_, h.nodup, h.history⟩
  · exact h.one l l' pi' w' (isEnd_unused.mp hl).2 (isEnd_unused.mp hl').2
  · exact h.known l pi' w' (isEnd_unused.mp hl).2
  by_cases heq : pi' = pi
  · rw [heq]
    exact iff_of_true (h.known k pi w hk) hopen
  · refine (h.used pi' hpi').trans (exists_congr (fun w' => ?_))
    rw [closeEnd_isOpen, if_neg (fun hc => heq hc.1)]
    rfl

theorem Inv.freePipe (hclosed : ∀ w', (((s.unused k).closeEnd pi w).pipe pi).isOpen w' = false) :
    Inv { (s.unused k).closeEnd pi w with pipes := s.pipes.erase pi, freed := s.freed ++ [pi] } held := by
  have hmem := h.known k pi w hk
  have hne {pi' : ℕ} : pi' ∈ s.pipes.erase pi ↔ pi' ≠ pi ∧ pi' ∈ s.pipes := h.nodup.mem_erase_iff
  refine ⟨h.unused_ref href, h.valid, h.unused_none, fun l l' pi' w' hl hl' => ?_, fun l pi' w' hl => ?_,
    fun pi' hpi' w' => h.ends_closed hk (hne.mp hpi').2 w', fun pi' hpi' => ?_, h.nodup.erase pi, ?_⟩
  · exact h.one l l' pi' w' (isEnd_unused.mp hl).2 (isEnd_unused.mp hl').2
  · refine hne.mpr ⟨fun heq => ?_, h.known l pi' w' (isEnd_unused.mp hl).2⟩
    -- an end that is left would be open
    rw [heq] at hl
    have hopen := (h.ends_closed hk hmem w').mpr ⟨l, hl⟩
    rw [hclosed w'] at hopen
    cases hopen
  · change pi' ∈ s.pipes.erase pi ↔ _
    rw [hne]
    by_cases heq : pi' = pi
    · refine iff_of_false (fun hc => hc.1 heq) (fun ⟨w', hw'⟩ => ?_)
      change (((s.unused k).closeEnd pi w).pipe pi').isOpen w' = true at hw'
      rw [heq, hclosed w'] at hw'
      cases hw'
    refine (and_iff_right heq).trans ((h.used pi' hpi').trans (exists_congr (fun w' => ?_)))
    change _ ↔ (((s.unused k).closeEnd pi w).pipe pi').isOpen w' = true
    rw [closeEnd_isOpen, if_neg (fun hc => heq hc.1)]
    rfl
  · change s.allocated.Perm (s.pipes.erase pi ++ (s.freed ++ [pi]))
    refine h.history.trans ?_
    rw [← append_assoc]
    exact ((perm_cons_erase hmem).append_right _).trans (perm_append_singleton pi _).symm

theorem pipeclose_spec : ∃ t, pipeclose pi w (s.unused k) = .ok ((), t) ∧ Frame s t ∧ Inv t held := by
  unfold pipeclose
  rw [run_get]
  by_cases hc : ((s.pipe pi).close w).readopen = false ∧ ((s.pipe pi).close w).writeopen = false
  · refine ⟨{ (s.unused k).closeEnd pi w with pipes := s.pipes.erase pi, freed := s.freed ++ [pi] }, ?_,
      ⟨rfl, rfl, [pi], rfl⟩, h.freePipe href hk ?_⟩
    · exact congrFun (if_pos hc) _
    · rw [closeEnd_pipe, update_self]
      exact (Pipe.closed_iff _).mp hc
  refine ⟨(s.unused k).closeEnd pi w, ?_, ⟨rfl, rfl, [], append_nil _⟩, h.closeEnd href hk ?_⟩
  · exact congrFun (if_neg hc) _
  · rw [closeEnd_pipe, update_self]
    by_contra hno
    refine hc ((Pipe.closed_iff _).mpr (fun w' => Bool.eq_false_of_not_eq_true (fun hw' => hno ⟨w', hw'⟩)))

end

end CloseEnd

theorem fileclose_spec (h : Inv s (k ::ₘ held)) : ∃ t, fileclose (ptr k) s = .ok ((), t) ∧ Frame s t ∧ Inv t held := by
  have hcount := h.ref k
  rw [Multiset.count_cons_self] at hcount
  unfold fileclose
  rw [run_get, entry_ptr]
  dsimp only
  rw [if_neg (by omega)]
  by_cases hlast : (s.ftable k).ref-1 > 0
  · refine ⟨s.setFile k { s.ftable k with ref := (s.ftable k).ref-1 }, ?_, frame_setFile s k _, ?_⟩
    · rw [if_pos hlast]
      rfl
    · exact h.recount hlast.ne' (by omega) (fun l hl => (Multiset.count_cons_of_ne hl _).symm)
  have href : (s.ftable k).ref = 1 := by omega
  rw [if_neg hlast, run_bind (s := s) (t := s.unused k) rfl]
  by_cases htype : (s.ftable k).type = .pipe
  · rw [if_pos htype]
    exact pipeclose_spec h href ⟨htype, rfl, rfl⟩
  · exact ⟨s.unused k, by rw [if_neg htype]; rfl, frame_setFile s k _, h.drop href htype⟩

end Xv6.Ftable
