import Xv6.ProcNumber
import Xv6.ProcWake

/-! wait returns every exited process at most once, to its parent. -/
namespace Xv6.Sched
open Signal Runs List
variable {κ : Type} [DecidableEq κ] {n : ℕ} {s t : Sys κ n} {e : Event κ n}

theorem Effect.zombie_kept (h : Effect s e t) (hc : OnCpu s) (hf : Forking s) {k : Idx n}
    (hz : (s.slot k).state = .zombie) (hu : (t.slot k).state ≠ .unused) :
    (t.slot k).state = .zombie := by
  have hm := h.slotMove k
  generalize t.slot k = q at hm hu
  cases hm with
  | stay => exact hz
  | pick _ hj => cases hz.symm.trans hj
  | enter => exact hz
  | away c hrun => cases hz.symm.trans (hc.runs hrun)
  | wake _ hj => cases hz.symm.trans hj
  | allocFail => exact absurd rfl hu
  | alloc _ _ _ _ hj => cases hz.symm.trans hj
  | setParent => exact hz
  | ready c p pid _ hpc => cases hz.symm.trans (hf.used p k pid (by rw [hpc]; rfl)).1
  | adopt => exact hz
  | reap => exact absurd rfl hu
  | kill _ _ _ _ signum =>
    rcases (kill_eq (s.slot k) signum).1 with hst | ⟨hst, -⟩
    · exact hst.trans hz
    · cases hz.symm.trans hst
  | fault => exact hz

structure Records (s : Sys κ n) : Prop where
  forked : ∀ i, i ≠ 0 → Published s i → Entry.forked (s.slot i).gen (s.slot i).pid ∈ s.hist
  pid : ∀ gen pid, Entry.forked gen pid ∈ s.hist → pid = pidOf gen
  exited : ∀ i, (s.slot i).state = .zombie → Entry.exited (s.slot i).gen (s.slot i).xstate ∈ s.hist
  bound : ∀ gen status, Entry.exited gen status ∈ s.hist → gen < s.nextgen
  zombie : ∀ i status, Entry.exited (s.slot i).gen status ∈ s.hist → (s.slot i).state ≠ .unused →
    (s.slot i).state = .zombie
  status : ∀ gen x y, Entry.exited gen x ∈ s.hist → Entry.exited gen y ∈ s.hist → x = y
  gone : ∀ gen, gen ∈ s.reaps → gen < s.nextgen ∧ ∀ i, (s.slot i).state ≠ .unused → (s.slot i).gen ≠ gen
  once : s.reaps.Nodup
  reaped : ∀ gen pid status i parent, Entry.reaped gen pid status i parent ∈ s.hist →
    parent = some i ∧ Entry.forked gen pid ∈ s.hist ∧
    ∃ x, Entry.exited gen x ∈ s.hist ∧ (status = none ∨ status = some x)

omit [DecidableEq κ] in
theorem records_boot : Records (Sys.boot κ n) := by
  have hz {i : Idx n} (hi : i ≠ 0) : ((Sys.boot κ n).slot i).state = .unused := by
    simp [Sys.boot, hi, zeroSlot, zeroProc]
  have hinit : ((Sys.boot κ n).slot 0).state = .runnable := by simp [Sys.boot, userinit]
  have hreaps : (Sys.boot κ n).reaps = [] := rfl
  refine ⟨fun i hi hp => absurd (hz hi) hp.1, fun gen pid h => ?_, fun i hi => ?_, fun gen x h => ?_,
    fun i x h => ?_, fun gen x y h => ?_, fun gen h => ?_, ?_, fun gen pid st i par h => ?_⟩
  · simp [Sys.boot] at h
  · by_cases h0 : i = 0
    · rw [h0, hinit] at hi
      cases hi
    · rw [hz h0] at hi
      cases hi
  · simp [Sys.boot] at h
  · simp [Sys.boot] at h
  · simp [Sys.boot] at h
  · rw [hreaps] at h
    cases h
  · rw [hreaps]
    exact nodup_nil
  · simp [Sys.boot] at h

namespace Records

theorem forked_step (hc : OnCpu s) (hf : Forking s) (hs : Records s) (h : Effect s e t) {i : Idx n}
    (hi : i ≠ 0) (hp : Published t i) : Entry.forked (t.slot i).gen (t.slot i).pid ∈ t.hist := by
  rcases h.published hc hp with hold | ⟨p, pid, hpc, hist⟩
  · rcases h.occupant hc hf hp.1 with ⟨-, hg, hpid⟩ | ⟨hu, -⟩
    · rw [hg, hpid]
      exact h.histMove.kept (hs.forked i hi hold)
    · exact absurd hu hold.1
  obtain ⟨hused, hpid⟩ := hf.used p i pid (by rw [hpc]; rfl)
  rcases h.occupant hc hf hp.1 with ⟨-, hg, hpid'⟩ | ⟨hu, -⟩
  · rw [hg, hpid', hpid]
    exact hist
  · cases hu.symm.trans hused

variable {gen : ℕ}

theorem pid_step (hf : Forking s) (hn : Numbered s) (hs : Records s) (h : Effect s e t)
    {pid : ℤ} (hx : Entry.forked gen pid ∈ t.hist) : pid = pidOf gen := by
  rcases h.histMove.forked_mem hx with hold | ⟨p, np, hpc, rfl⟩
  · exact hs.pid gen pid hold
  · obtain ⟨hused, hpid⟩ := hf.used p np pid (by rw [hpc]; rfl)
    rw [← hpid]
    exact hn.pid np (by rw [hused]; decide)

theorem exited_step (hs : Records s) (h : Effect s e t) {i : Idx n}
    (hi : (t.slot i).state = .zombie) : Entry.exited (t.slot i).gen (t.slot i).xstate ∈ t.hist := by
  have hm := h.slotMove i
  have hkept := h.histMove.kept (x := .exited (s.slot i).gen (s.slot i).xstate)
  generalize t.slot i = q at hm hi
  cases hm with
  | stay | enter => exact hkept (hs.exited i hi)
  | away c _ q _ _ _ _ ha _ hist =>
    cases ha with
    | exit =>
      rw [hist]
      exact mem_append_right _ (mem_singleton_self _)
    | _ => cases hi
  | setParent | adopt => exact hkept (hs.exited i hi)
  | kill _ _ _ _ signum =>
    obtain ⟨hst, -, -, hx, -, hg⟩ := kill_eq (s.slot i) signum
    rw [hx, hg]
    rcases hst with hst | ⟨-, hst⟩
    · exact hkept (hs.exited i (hst.symm.trans hi))
    · cases hst.symm.trans hi
  | fault => exact hkept (hs.exited i hi)
  | _ => cases hi

theorem bound_step (hc : OnCpu s) (hn : Numbered s) (hs : Records s) (h : Effect s e t)
    {status : ℤ} (hx : Entry.exited gen status ∈ t.hist) : gen < t.nextgen := by
  refine lt_of_lt_of_le ?_ h.nextgen_le
  rcases h.histMove.exited_mem hx with hold | ⟨c, k, hrun, -, rfl, -⟩
  · exact hs.bound gen status hold
  · exact hn.bound k (by rw [hc.runs hrun]; decide)

theorem zombie_step (hc : OnCpu s) (hf : Forking s) (hn : Numbered s) (hs : Records s)
    (h : Effect s e t) {i : Idx n} {status : ℤ} (hx : Entry.exited (t.slot i).gen status ∈ t.hist)
    (hi : (t.slot i).state ≠ .unused) : (t.slot i).state = .zombie := by
  rcases h.occupant hc hf hi with ⟨hu, hg, -⟩ | ⟨-, hg, -⟩
  · rw [hg] at hx
    rcases h.histMove.exited_mem hx with hold | ⟨c, k, hrun, hk, heq, -⟩
    · exact h.zombie_kept hc hf (hs.zombie i status hold hu) hi
    · rwa [hn.distinct i k hu (by rw [hc.runs hrun]; decide) heq]
  -- the process is new, and nothing is recorded about its number
  rw [hg] at hx
  rcases h.histMove.exited_mem hx with hold | ⟨c, k, hrun, -, heq, -⟩
  · exact absurd (hs.bound _ status hold) (lt_irrefl _)
  · have := hn.bound k (by rw [hc.runs hrun]; decide)
    omega

theorem status_step (hc : OnCpu s) (hs : Records s) (h : Effect s e t) {x y : ℤ}
    (hx : Entry.exited gen x ∈ t.hist) (hy : Entry.exited gen y ∈ t.hist) : x = y := by
  -- a process that runs has no exit on record
  have hfresh {c : κ} {k : Idx n} (hrun : (s.cpu c).phase = .running k) {z : ℤ} :
      Entry.exited (s.slot k).gen z ∉ s.hist := by
    intro hz
    have hst := hc.runs hrun
    cases hst.symm.trans (hs.zombie k z hz (by rw [hst]; decide))
  rcases h.histMove.exited_mem hx with hox | ⟨c, k, hrun, -, rfl, hnew⟩
  · rcases h.histMove.exited_mem hy with hoy | ⟨c, k, hrun, -, rfl, -⟩
    · exact hs.status gen x y hox hoy
    · exact absurd hox (hfresh hrun)
  · exact ((hnew y hy).resolve_left (hfresh hrun)).symm

theorem gone_step (hc : OnCpu s) (hf : Forking s) (hn : Numbered s) (hs : Records s)
    (h : Effect s e t) (hg : gen ∈ t.reaps) :
    gen < t.nextgen ∧ ∀ i, (t.slot i).state ≠ .unused → (t.slot i).gen ≠ gen := by
  obtain ⟨pid, status, w, parent, hx⟩ := mem_reaps.mp hg
  rcases h.histMove.reaped_mem hx with hold | ⟨k, addr, -, hz, hu, rfl, -⟩
  · obtain ⟨hlt, hno⟩ := hs.gone gen (mem_reaps.mpr ⟨pid, status, w, parent, hold⟩)
    refine ⟨lt_of_lt_of_le hlt h.nextgen_le, fun i hi => ?_⟩
    rcases h.occupant hc hf hi with ⟨hlive, heq, -⟩ | ⟨-, heq, -⟩
    · rw [heq]
      exact hno i hlive
    · omega
  have hlive : (s.slot k).state ≠ .unused := by rw [hz]; decide
  have hlt := hn.bound k hlive
  refine ⟨lt_of_lt_of_le hlt h.nextgen_le, fun i hi => ?_⟩
  rcases h.occupant hc hf hi with ⟨hlive', heq, -⟩ | ⟨-, heq, -⟩
  · rw [heq]
    intro hik
    rw [hn.distinct i k hlive' hlive hik] at hi
    exact hi hu
  · omega

theorem once_step (hs : Records s) (h : Effect s e t) : t.reaps.Nodup := by
  rcases h.histMove.reaps with heq | ⟨k, hz, heq⟩
  · rw [heq]
    exact hs.once
  rw [heq, nodup_append]
  refine ⟨hs.once, nodup_singleton _, fun g hg g' hg' hgg => ?_⟩
  rw [hgg, mem_singleton.mp hg'] at hg
  exact (hs.gone _ hg).2 k (by rw [hz]; decide) rfl

theorem reaped_step (hfam : Family s) (hs : Records s) (h : Effect s e t) {pid : ℤ}
    {status : Option ℤ} {i : Idx n} {parent : Option (Idx n)}
    (hx : Entry.reaped gen pid status i parent ∈ t.hist) :
    parent = some i ∧ Entry.forked gen pid ∈ t.hist ∧
      ∃ x, Entry.exited gen x ∈ t.hist ∧ (status = none ∨ status = some x) := by
  have hkept {x : Entry κ n} (hx : x ∈ s.hist) : x ∈ t.hist := h.histMove.kept hx
  rcases h.histMove.reaped_mem hx with hold | ⟨k, addr, hk, hz, -, rfl, rfl, rfl, rfl⟩
  · obtain ⟨hpar, hfork, x, hex, hst⟩ := hs.reaped gen pid status i parent hold
    exact ⟨hpar, hkept hfork, x, hkept hex, hst⟩
  have hk0 : k ≠ 0 := by
    rintro rfl
    exact hfam.init.2 hz
  have hpub : Published s k := ⟨by rw [hz]; decide, by rw [hz]; decide⟩
  refine ⟨hk, hkept (hs.forked k hk0 hpub), _, hkept (hs.exited k hz), ?_⟩
  cases addr with
  | false => exact Or.inl rfl
  | true => exact Or.inr rfl

theorem step (hc : OnCpu s) (hf : Forking s) (hfam : Family s) (hn : Numbered s) (hs : Records s)
    (h : Effect s e t) : Records t where
  forked _ := hs.forked_step hc hf h
  pid _ _ := hs.pid_step hf hn h
  exited _ := hs.exited_step h
  bound _ _ := hs.bound_step hc hn h
  zombie _ _ := hs.zombie_step hc hf hn h
  status _ _ _ := hs.status_step hc h
  gone _ := hs.gone_step hc hf hn h
  once := hs.once_step h
  reaped _ _ _ _ _ := hs.reaped_step hfam h

end Records

structure Sound (s : Sys κ n) : Prop where
  cpu : OnCpu s
  forking : Forking s
  busy : Busy s
  held : HeldBy s
  family : Family s
  told : Told s
  numbered : Numbered s
  records : Records s

theorem sound_reached (h : Reached s) : Sound s := by
  refine h.invariant (I := Sound) ?_ fun t e u ht _ hst => ?_
  · refine ⟨onCpu_boot, forking_boot, fun p hp => ?_, fun p => ?_, family_boot, told_boot, numbered_boot, records_boot⟩
    · cases hp
    · exact iff_of_false (fun hp => by cases hp) (fun hp => by cases hp)
  have heff := step_effect hst
  exact ⟨ht.cpu.step ht.forking heff, ht.forking.step ht.cpu heff, ht.busy.step ht.cpu ht.forking heff,
    ht.held.step ht.busy heff, ht.family.step ht.cpu ht.forking ht.held heff,
    ht.told.step ht.cpu ht.busy ht.held ht.family heff, ht.numbered.step ht.cpu ht.forking heff,
    ht.records.step ht.cpu ht.forking ht.family ht.numbered heff⟩

/-- For any interleaving with fewer than 2^31 forks after init, wait returns no process twice, and
each to its parent with the pid that fork gave and the status that was passed to exit. -/
theorem wait_reaps_each_child_once (s : Sys κ n) (h : Reached s) (hforks : s.nextgen ≤ 2^31) :
    (∀ i j, (s.slot i).state ≠ .unused → (s.slot j).state ≠ .unused → (s.slot i).pid = (s.slot j).pid → i = j) ∧
    (∀ i, i ≠ 0 → Published s i → ∃ r, (s.slot i).parent = some r ∧
      (s.slot r).state ≠ .unused ∧ (s.slot r).state ≠ .zombie) ∧
    s.reaps.Nodup ∧
    (∀ gen pid status i parent, Entry.reaped gen pid status i parent ∈ s.hist → parent = some i ∧
      (∀ pid', Entry.forked gen pid' ∈ s.hist ↔ pid' = pid) ∧
      ∃ x, (∀ y, Entry.exited gen y ∈ s.hist ↔ y = x) ∧ (status = none ∨ status = some x)) ∧
    (s.waitLock = none → ∀ i k, Asleep s i → (s.slot k).parent = some i → (s.slot k).state ≠ .zombie) := by
  have hs := sound_reached h
  refine ⟨fun i j hi hj hij => hs.numbered.pid_inj hforks hi hj hij, fun i hi hp => ?_,
    hs.records.once, fun gen pid status i parent hx => ?_, fun hw i k hi hk hz => ?_⟩
  · obtain ⟨r, hr⟩ := Option.ne_none_iff_exists'.mp (hs.family.published i hi hp)
    exact ⟨r, hr, hs.family.alive i r hr⟩
  · obtain ⟨hpar, hfork, x, hex, hst⟩ := hs.records.reaped gen pid status i parent hx
    refine ⟨hpar, fun pid' => ⟨fun hpid' => ?_, fun heq => heq ▸ hfork⟩, x,
      fun y => ⟨fun hy => hs.records.status gen y x hy hex, fun heq => heq ▸ hex⟩, hst⟩
    rw [hs.records.pid gen pid' hpid', hs.records.pid gen pid hfork]
  · obtain ⟨-, p, status, m, hpc⟩ := hs.told.awake i k hi hk hz
    cases hw.symm.trans ((hs.held p).mp (by rw [hpc]; rfl))

def oneChild : List (Event Unit 1) :=
  let acts (k : ℕ) : List (Event Unit 1) := List.replicate k (.act () .ok)
  [[.pick () 0, .enter (), .call () .fork], acts 4, [.call () (.wait true)], acts 4,
    [.leave (), .drop (), .pick () 1, .enter (), .call () (.exit 7)], acts 8,
    [.leave (), .drop (), .pick () 0, .enter ()], acts 3].flatten

def childReaped : Entry Unit 1 → Bool
  | .reaped gen pid status i parent => decide (gen = 1 ∧ pid = 2 ∧ status = some 7 ∧ i = 0 ∧ parent = some 0)
  | _ => false

/-- wait has returned the child once, and the status it has copied out is the child's. -/
theorem one_child_reaped : ∃ s, run step (Sys.boot Unit 1) oneChild = some s ∧ s.reaps = [1] ∧
    Entry.reaped 1 2 (some 7) 0 (some 0) ∈ s.hist ∧ Entry.exited 1 7 ∈ s.hist := by
  have hrun : (run step (Sys.boot Unit 1) oneChild).any (fun s => decide (s.reaps = [1]) &&
      decide (s.nextgen ≤ 2^31) && s.hist.any childReaped) = true := by decide
  obtain ⟨s, hs, hrest⟩ := (Option.any_eq_true _ _).mp hrun
  rw [Bool.and_eq_true, Bool.and_eq_true, decide_eq_true_iff, decide_eq_true_iff] at hrest
  obtain ⟨⟨hreaps, hgen⟩, hany⟩ := hrest
  obtain ⟨x, hx, hxe⟩ := any_eq_true.mp hany
  have hmem : Entry.reaped 1 2 (some 7) 0 (some 0) ∈ s.hist := by
    cases x with
    | reaped =>
      obtain ⟨rfl, rfl, rfl, rfl, rfl⟩ := of_decide_eq_true hxe
      exact hx
    | _ => cases hxe
  refine ⟨s, hs, hreaps, hmem, ?_⟩
  obtain ⟨-, -, x, hex, hst⟩ := (wait_reaps_each_child_once s (reach_of_run hs) hgen).2.2.2.1 _ _ _ _ _ hmem
  rcases hst with hst | hst
  · cases hst
  · exact (hex 7).mpr (Option.some.inj hst)

end Xv6.Sched
