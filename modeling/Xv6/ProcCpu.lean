import Xv6.ProcMove

/-! A process runs on at most one CPU. p->lock goes from the scheduler to the process and
back across swtch, so what holds whenever it is free is carried by the phases of the CPUs. -/
namespace Xv6.Sched
open Function Signal Runs
variable {κ : Type} {n : ℕ}

def Phase.current : Phase n → Option (Idx n)
  | .picked i | .running i | .leaving i => some i
  | .idle | .left _ => none

def Phase.holds : Phase n → Option (Idx n)
  | .picked i | .leaving i | .left i => some i
  | .idle | .running _ => none

def Phase.active : Phase n → Option (Idx n)
  | .picked i | .running i => some i
  | _ => none

def Phase.parting : Phase n → Option (Idx n)
  | .leaving i | .left i => some i
  | _ => none

structure OnCpu (s : Sys κ n) : Prop where
  proc : ∀ c, (s.cpu c).proc = (s.cpu c).phase.current
  lock : ∀ c i, s.lock i = some c ↔ (s.cpu c).phase.holds = some i
  active : ∀ c i, (s.cpu c).phase.active = some i → (s.slot i).state = .running
  parting : ∀ c i, (s.cpu c).phase.parting = some i → (s.slot i).state ≠ .running
  unique : ∀ c d i, (s.cpu c).phase.current = some i → (s.cpu d).phase.current = some i → c = d
  running : ∀ i, (s.slot i).state = .running → ∃ c, (s.cpu c).phase.active = some i

structure Forking (s : Sys κ n) : Prop where
  used : ∀ p np pid, (s.pc p).child = some (np, pid) → (s.slot np).state = .used ∧ (s.slot np).pid = pid
  unique : ∀ p q np pid pid', (s.pc p).child = some (np, pid) → (s.pc q).child = some (np, pid') → p = q

theorem active_cases {x : Phase n} {i : Idx n} (h : x.current = some i) : x.active = some i ∨ x = .leaving i := by
  cases x with
  | picked | running => exact Or.inl h
  | leaving => exact Or.inr (by rw [Option.some.inj h])
  | _ => cases h

theorem current_of_active {x : Phase n} {i : Idx n} (h : x.active = some i) : x.current = some i := by
  cases x <;> first | exact h | cases h

theorem running_of_current {x : Phase n} {i : Idx n} (h : x.current = some i) (hno : x.holds ≠ some i) :
    x = .running i := by
  cases x with
  | running => rw [Option.some.inj h]
  | picked | leaving => exact absurd h hno
  | _ => cases h

section
variable {s : Sys κ n}

theorem OnCpu.running_iff (hs : OnCpu s) {i : Idx n} (hl : s.lock i = none) :
    (s.slot i).state = .running ↔ ∃ c, (s.cpu c).proc = some i := by
  constructor
  · intro hi
    obtain ⟨c, hc⟩ := hs.running i hi
    exact ⟨c, by rw [hs.proc, current_of_active hc]⟩
  rintro ⟨c, hc⟩
  rw [hs.proc] at hc
  rcases active_cases hc with ha | hlv
  · exact hs.active c i ha
  · have hold : s.lock i = some c := (hs.lock c i).mpr (by rw [hlv]; rfl)
    rw [hl] at hold
    cases hold

theorem OnCpu.off (hs : OnCpu s) {i : Idx n} (hl : s.lock i = none) (hi : (s.slot i).state ≠ .running)
    (c : κ) : (s.cpu c).phase.current ≠ some i := by
  intro hc
  refine hi ((hs.running_iff hl).mpr ⟨c, ?_⟩)
  rw [hs.proc, hc]

theorem OnCpu.runs (hs : OnCpu s) {c : κ} {i : Idx n} (hc : (s.cpu c).phase = .running i) :
    (s.slot i).state = .running :=
  hs.active c i (by rw [hc]; rfl)

theorem onCpu_boot : OnCpu (Sys.boot κ n) where
  proc _ := rfl
  lock c i := by constructor <;> intro h <;> cases h
  active c i h := by cases h
  parting c i h := by cases h
  unique c d i h := by cases h
  running i hi := by
    have hne : (Sys.boot κ n).slot i = userinit ((zeroSlot n).alloc 1 0) ∨ (Sys.boot κ n).slot i = zeroSlot n := by
      simp only [Sys.boot]
      split_ifs
      · exact Or.inl rfl
      · exact Or.inr rfl
    rcases hne with h | h <;> rw [h] at hi <;> cases hi

theorem forking_boot : Forking (Sys.boot κ n) where
  used p np pid h := by cases h
  unique p q np pid pid' h := by cases h

theorem OnCpu.quiet {t : Sys κ n} (hs : OnCpu s) (hcpu : t.cpu = s.cpu) (hlock : t.lock = s.lock)
    (hst : ∀ j, (t.slot j).state = (s.slot j).state ∨
      ((s.slot j).state ≠ .running ∧ (t.slot j).state ≠ .running)) : OnCpu t where
  proc c := by rw [hcpu]; exact hs.proc c
  lock c i := by rw [hcpu, hlock]; exact hs.lock c i
  active c i h := by
    rw [hcpu] at h
    have hi := hs.active c i h
    rcases hst i with he | ⟨hn, -⟩
    · exact he.trans hi
    · exact absurd hi hn
  parting c i h := by
    rw [hcpu] at h
    rcases hst i with he | ⟨-, hn⟩
    · rw [he]
      exact hs.parting c i h
    · exact hn
  unique c d i h h' := by
    rw [hcpu] at h h'
    exact hs.unique c d i h h'
  running i hi := by
    rw [hcpu]
    rcases hst i with he | ⟨-, hn⟩
    · exact hs.running i (he.symm.trans hi)
    · exact absurd hi hn

theorem holds_of_parting {x : Phase n} {i : Idx n} (h : x.parting = some i) : x.holds = some i ∧ x.active ≠ some i := by
  cases x with
  | leaving | left => exact ⟨h, by simp [Phase.active]⟩
  | _ => cases h

theorem OnCpu.others (hs : OnCpu s) {c : κ} {i : Idx n} (hc : (s.cpu c).phase.holds = some i) (d : κ)
    (hd : d ≠ c) : (s.cpu d).phase.current ≠ some i := by
  have hl := (hs.lock c i).mpr hc
  intro hcur
  -- a CPU that has the process and not its lock is running it
  have hno : (s.cpu d).phase.holds ≠ some i := by
    intro hh
    rw [← hs.lock d i, hl] at hh
    exact hd (Option.some.inj hh).symm
  have hst := hs.runs (running_of_current hcur hno)
  cases hx : (s.cpu c).phase with
  | picked =>
    rw [hx] at hc
    have hcc : (s.cpu c).phase.current = some i := by rw [hx]; exact hc
    exact hd (hs.unique d c i hcur hcc)
  | leaving | left => exact hs.parting c i (by rw [hx] at hc ⊢; exact hc) hst
  | _ => rw [hx] at hc; cases hc

variable {t : Sys κ n}

def Offstage (q q' : Slot n) : Prop := q'.state = q.state ∨ (q.state ≠ .running ∧ q'.state ≠ .running)

theorem OnCpu.quiet_update (hs : OnCpu s) {k : Idx n} {q : Slot n} (hcpu : t.cpu = s.cpu)
    (hlock : t.lock = s.lock) (hslot : t.slot = update s.slot k q)
    (hq : Offstage (s.slot k) q) : OnCpu t := by
  refine hs.quiet hcpu hlock fun j => ?_
  rw [hslot]
  by_cases hj : j = k
  · subst hj
    rw [update_self]
    exact hq
  · rw [update_of_ne hj]
    exact Or.inl rfl

theorem offstage_wakeup (q : Slot n) (chan : Option (Chan n)) : Offstage q (q.wakeup chan) := by
  unfold Slot.wakeup
  split_ifs with h
  · exact Or.inr ⟨by rw [h.1]; decide, by simp⟩
  · exact Or.inl rfl

theorem offstage_kill (q : Slot n) (signum : Sig) : Offstage q (q.kill signum) := by
  unfold Offstage Slot.kill killSlot
  dsimp only
  split_ifs with hs hst
  · exact Or.inr ⟨by rw [hst]; decide, by simp⟩
  · exact Or.inl rfl
  · exact Or.inl rfl

theorem Away.not_running {i : Idx n} {q : Slot n} {w : Option (Idx n)} {x : Pc n} {b : Bool}
    {l : List (Entry κ n)} (h : Away s i q w x b l) : q.state ≠ .running := by
  cases h <;> simp

variable [DecidableEq κ]

theorem OnCpu.switch (hs : OnCpu s) (c : κ) (i : Idx n) (y : Cpu n) (o : Option κ)
    (hcpu : t.cpu = update s.cpu c y) (hlock : t.lock = update s.lock i o)
    (hst : ∀ j, j ≠ i → (t.slot j).state = (s.slot j).state) (hproc : y.proc = y.phase.current)
    (hfree : ∀ d, d ≠ c → s.lock i ≠ some d)
    (hothers : ∀ d, d ≠ c → (s.cpu d).phase.current ≠ some i)
    (hbefore : ∀ j, (s.cpu c).phase.holds = some j ∨ (s.cpu c).phase.current = some j → j = i)
    (ho : ∀ d, o = some d → d = c) (hhold : ∀ j, y.phase.holds = some j ↔ j = i ∧ o = some c)
    (hcur : ∀ j, y.phase.current = some j → j = i)
    (hact : y.phase.active = some i ↔ (t.slot i).state = .running) : OnCpu t := by
  have hself : t.cpu c = y := by rw [hcpu, update_self]
  have hne {d : κ} (hd : d ≠ c) : t.cpu d = s.cpu d := by rw [hcpu, update_of_ne hd]
  have hslot {d : κ} {j : Idx n} (hd : d ≠ c) (hj : (s.cpu d).phase.current = some j) : j ≠ i := by
    rintro rfl
    exact hothers d hd hj
  refine ⟨?proc, ?lock, ?active, ?parting, ?unique, ?running⟩
  case proc =>
    intro d
    by_cases hd : d = c
    · rw [hd, hself, hproc]
    · rw [hne hd]
      exact hs.proc d
  case lock =>
    intro d j
    rw [hlock]
    by_cases hj : j = i
    · subst hj
      rw [update_self]
      by_cases hd : d = c
      · rw [hd, hself, hhold j]
        simp
      · rw [hne hd, ← hs.lock d j]
        exact iff_of_false (fun h => hd (ho d h)) (hfree d hd)
    · rw [update_of_ne hj]
      by_cases hd : d = c
      · rw [hd, hself, hhold j, hs.lock c j]
        exact iff_of_false (fun h => hj (hbefore j (Or.inl h))) (fun h => hj h.1)
      · rw [hne hd]
        exact hs.lock d j
  case active =>
    intro d j h
    by_cases hd : d = c
    · rw [hd, hself] at h
      obtain rfl := hcur j (current_of_active h)
      exact hact.mp h
    · rw [hne hd] at h
      rw [hst j (hslot hd (current_of_active h))]
      exact hs.active d j h
  case parting =>
    intro d j h
    by_cases hd : d = c
    · rw [hd, hself] at h
      obtain ⟨hh, hna⟩ := holds_of_parting h
      obtain rfl := ((hhold j).mp hh).1
      exact fun hrun => hna (hact.mpr hrun)
    rw [hne hd] at h
    have hji : j ≠ i := by
      rintro rfl
      exact hfree d hd ((hs.lock d j).mpr (holds_of_parting h).1)
    rw [hst j hji]
    exact hs.parting d j h
  case unique =>
    -- the process of `c` is on no other CPU
    have hnot {d : κ} {j : Idx n} (hd : d ≠ c) (hy : y.phase.current = some j) : (s.cpu d).phase.current ≠ some j := by
      obtain rfl := hcur j hy
      exact hothers d hd
    intro d e j h h'
    by_cases hd : d = c
    · by_cases he : e = c
      · rw [hd, he]
      · rw [hd, hself] at h
        rw [hne he] at h'
        exact absurd h' (hnot he h)
    rw [hne hd] at h
    by_cases he : e = c
    · rw [he, hself] at h'
      exact absurd h (hnot hd h')
    · rw [hne he] at h'
      exact hs.unique d e j h h'
  case running =>
    intro j hj
    by_cases hji : j = i
    · subst hji
      exact ⟨c, by rw [hself]; exact hact.mpr hj⟩
    rw [hst j hji] at hj
    obtain ⟨d, hd⟩ := hs.running j hj
    have hdc : d ≠ c := by
      rintro rfl
      exact hji (hbefore j (Or.inr (current_of_active hd)))
    exact ⟨d, by rw [hne hdc]; exact hd⟩

section
variable (hs : OnCpu s) {c : κ} {i : Idx n}
include hs

theorem OnCpu.pick (hc : (s.cpu c).phase = .idle) (hl : s.lock i = none) (hi : (s.slot i).state = .runnable)
    (hcpu : t.cpu = update s.cpu c ⟨some i, .picked i⟩)
    (hlock : t.lock = update s.lock i (some c))
    (hslot : t.slot = update s.slot i { s.slot i with state := .running }) : OnCpu t := by
  refine hs.switch c i _ _ hcpu hlock (fun j hj => by rw [hslot, update_of_ne hj]) rfl
    (fun d _ => by rw [hl]; simp) (fun d _ => hs.off hl (by rw [hi]; decide) d) ?_
    (fun d hd => (Option.some.inj hd).symm) ?_ ?_ ?_
  · intro j hj
    rw [hc] at hj
    rcases hj with hj | hj <;> cases hj
  · intro j
    simp [Phase.holds, eq_comm]
  · intro j hj
    exact (Option.some.inj hj).symm
  · rw [hslot, update_self]
    simp [Phase.active]

theorem OnCpu.enter {q : Slot n} (hc : (s.cpu c).phase = .picked i)
    (hcpu : t.cpu = update s.cpu c { s.cpu c with phase := .running i })
    (hlock : t.lock = update s.lock i none)
    (hslot : t.slot = update s.slot i q) (hq : q.state = (s.slot i).state) : OnCpu t := by
  have hholds : (s.cpu c).phase.holds = some i := by rw [hc]; rfl
  have hrun : (s.slot i).state = .running := hs.active c i (by rw [hc]; rfl)
  refine hs.switch c i _ _ hcpu hlock (fun j hj => by rw [hslot, update_of_ne hj]) ?_
    (fun d hd => ?_) (hs.others hholds) ?_ (fun d hd => by cases hd) ?_ ?_ ?_
  · rw [hs.proc, hc]
    rfl
  · rw [(hs.lock c i).mpr hholds]
    exact fun h => hd (Option.some.inj h).symm
  · intro j hj
    rw [hc] at hj
    rcases hj with hj | hj <;> exact (Option.some.inj hj).symm
  · intro j
    simp [Phase.holds]
  · intro j hj
    exact (Option.some.inj hj).symm
  · rw [hslot, update_self, hq, hrun]
    simp [Phase.active]

theorem OnCpu.away {q : Slot n} (hc : (s.cpu c).phase = .running i)
    (hl : s.lock i = none) (hcpu : t.cpu = update s.cpu c { s.cpu c with phase := .leaving i })
    (hlock : t.lock = update s.lock i (some c))
    (hslot : t.slot = update s.slot i q) (hq : q.state ≠ .running) : OnCpu t := by
  have hcur : (s.cpu c).phase.current = some i := by rw [hc]; rfl
  refine hs.switch c i _ _ hcpu hlock (fun j hj => by rw [hslot, update_of_ne hj]) ?_
    (fun d _ => by rw [hl]; simp) (fun d hd h => hd (hs.unique d c i h hcur)) ?_
    (fun d hd => (Option.some.inj hd).symm) ?_ ?_ ?_
  · rw [hs.proc, hc]
    rfl
  · intro j hj
    rw [hc] at hj
    rcases hj with hj | hj
    · cases hj
    · exact (Option.some.inj hj).symm
  · intro j
    simp [Phase.holds, eq_comm]
  · intro j hj
    exact (Option.some.inj hj).symm
  · rw [hslot, update_self]
    exact iff_of_false (by simp [Phase.active]) hq

theorem OnCpu.part {y : Cpu n} {o : Option κ} (hc : (s.cpu c).phase.parting = some i)
    (hy : y = ⟨none, .left i⟩ ∧ o = some c ∨ y = ⟨none, .idle⟩ ∧ o = none)
    (hcpu : t.cpu = update s.cpu c y) (hlock : t.lock = update s.lock i o)
    (hslot : t.slot = s.slot) : OnCpu t := by
  have hholds := (holds_of_parting hc).1
  refine hs.switch c i y o hcpu hlock (fun j _ => by rw [hslot]) ?_ (fun d hd => ?_) (hs.others hholds) ?_ ?_ ?_ ?_ ?_
  · rcases hy with ⟨rfl, -⟩ | ⟨rfl, -⟩ <;> rfl
  · rw [(hs.lock c i).mpr hholds]
    exact fun h => hd (Option.some.inj h).symm
  · intro j hj
    cases hx : (s.cpu c).phase with
    | leaving =>
      rw [hx] at hc hj
      rcases hj with hj | hj <;> exact Option.some.inj (hj.symm.trans hc)
    | left =>
      rw [hx] at hc hj
      rcases hj with hj | hj
      · exact Option.some.inj (hj.symm.trans hc)
      · cases hj
    | _ => rw [hx] at hc; cases hc
  · rcases hy with ⟨-, rfl⟩ | ⟨-, rfl⟩
    · exact fun d hd => (Option.some.inj hd).symm
    · intro d hd
      cases hd
  · rcases hy with ⟨rfl, rfl⟩ | ⟨rfl, rfl⟩ <;> simp [Phase.holds, eq_comm]
  · rcases hy with ⟨rfl, -⟩ | ⟨rfl, -⟩ <;> intro j hj <;> cases hj
  · rw [hslot]
    refine iff_of_false ?_ (hs.parting c i hc)
    rcases hy with ⟨rfl, -⟩ | ⟨rfl, -⟩ <;> simp [Phase.active]

end

end

/-! The CPUs and the children under construction over whole runs. -/

variable [DecidableEq κ] {s t : Sys κ n} {e : Event κ n}

section
variable (hs : OnCpu s) (hf : Forking s) (h : Effect s e t)
include hs hf h

theorem OnCpu.step : OnCpu t := by
  cases h with
  | pick c i hc hl hi => exact hs.pick hc hl hi rfl rfl rfl
  | enter c i hc =>
    refine hs.enter hc rfl rfl rfl ?_
    split_ifs <;> rfl
  | away _ c i q w x b l hc hl h => exact hs.away hc hl rfl rfl rfl h.not_running
  | leave c i hc =>
    have hp : (s.cpu c).phase.parting = some i := by rw [hc]; rfl
    refine hs.part hp (Or.inl ⟨rfl, rfl⟩) rfl ?_ rfl
    rw [← (hs.lock c i).mpr (holds_of_parting hp).1, Function.update_eq_self]
  | drop c i hc =>
    have hp : (s.cpu c).phase.parting = some i := by rw [hc]; rfl
    have hproc : (s.cpu c).proc = none := by rw [hs.proc, hc]; rfl
    exact hs.part hp (Or.inr ⟨by rw [← hproc], rfl⟩) rfl rfl rfl
  | next | take | giveUp => exact hs.quiet rfl rfl fun _ => Or.inl rfl
  | wakeOther | turn => exact hs.quiet_update rfl rfl rfl (offstage_wakeup _ _)
  | ownTurn => exact hs.quiet rfl rfl fun _ => Or.inl rfl
  | allocFail _ c i k q l _ _ _ hk => exact hs.quiet_update rfl rfl rfl (Or.inl hk.symm)
  | alloc _ c i k _ _ _ hk =>
    exact hs.quiet_update rfl rfl rfl (Or.inr ⟨by rw [hk]; decide, by simp [Slot.copyFrom, Slot.alloc]⟩)
  | setParent => exact hs.quiet_update rfl rfl rfl (Or.inl rfl)
  | ready _ c i np pid _ hpc =>
    have hu := (hf.used i np pid (by rw [hpc]; rfl)).1
    exact hs.quiet_update rfl rfl rfl (Or.inr ⟨by rw [hu]; decide, by simp⟩)
  | adopt => exact hs.quiet_update rfl rfl rfl (Or.inl rfl)
  | reap _ c i k _ _ _ _ _ _ hz =>
    exact hs.quiet_update rfl rfl rfl (Or.inr ⟨by rw [hz]; decide, by simp [Slot.freeproc]⟩)
  | kill => exact hs.quiet_update rfl rfl rfl (offstage_kill _ _)
  | fault => exact hs.quiet_update rfl rfl rfl (Or.inl rfl)

theorem Forking.kept {p np : Idx n} {pid : ℤ}
    (hp : (t.pc p).child = some (np, pid)) (hsp : (s.pc p).child = some (np, pid)) :
    (t.slot np).state = .used ∧ (t.slot np).pid = pid := by
  obtain ⟨hst, hpid⟩ := hf.used p np pid hsp
  have hm := h.slotMove np
  generalize t.slot np = q at hm
  cases hm with
  | stay => exact ⟨hst, hpid⟩
  | pick _ hj => cases hst.symm.trans hj
  | enter c hc => cases hst.symm.trans (hs.active c np (by rw [hc]; rfl))
  | away c hc => cases hst.symm.trans (hs.runs hc)
  | wake _ hj => cases hst.symm.trans hj
  | allocFail _ hj => cases hst.symm.trans hj
  | alloc _ _ _ _ hj => cases hst.symm.trans hj
  | setParent => exact ⟨hst, hpid⟩
  | ready c i pid' _ hpc hrun =>
    -- this fork is the only one that has the child, and it is over
    obtain rfl := hf.unique i p np pid' pid (by rw [hpc]; rfl) hsp
    rw [hrun] at hp
    cases hp
  | adopt => exact ⟨hst, hpid⟩
  | reap _ _ _ _ _ _ _ hj => cases hst.symm.trans hj
  | kill _ _ _ _ signum =>
    obtain ⟨hk, hkp, -⟩ := kill_eq (s.slot np) signum
    rcases hk with hk | ⟨hk, -⟩
    · exact ⟨hk.trans hst, hkp.trans hpid⟩
    · cases hst.symm.trans hk
  | fault => exact ⟨hst, hpid⟩

theorem Forking.step : Forking t where
  used p np pid hp := by
    rcases h.child hp with hsp | ⟨-, hu, hpid, -⟩
    · exact hf.kept hs h hp hsp
    · exact ⟨hu, hpid⟩
  unique p q np pid pid' hp hq := by
    rcases h.child hp with hsp | ⟨hun, -, -, hold⟩
    · rcases h.child hq with hsq | ⟨hun, -⟩
      · exact hf.unique p q np pid pid' hsp hsq
      · cases hun.symm.trans (hf.used p np pid hsp).1
    · by_contra hne
      have hsq := hold q _ (Ne.symm hne) hq
      cases hun.symm.trans (hf.used q np pid' hsq).1

end

/-- freeproc is applied to no process that a CPU has in `proc`. -/
def FreedOff (s : Sys κ n) : Prop := ∀ i procs, Entry.freed i procs ∈ s.hist → ∀ c, procs c ≠ some i

theorem FreedOff.step (hs : OnCpu s) (hf : FreedOff s) (h : Effect s e t) : FreedOff t := by
  have hnew {k : Idx n} (hl : s.lock k = none) (hk : (s.slot k).state ≠ .running) (c : κ) :
      (s.cpu c).proc ≠ some k := by
    rw [hs.proc]
    exact hs.off hl hk c
  intro j procs hj
  cases h with
  | away _ c i q w x b l _ _ h =>
    refine hf j procs ?_
    dsimp only at hj
    rw [List.mem_append] at hj
    refine hj.resolve_right fun hl => ?_
    cases h <;> simp at hl
  | allocFail _ c i k q l _ _ hl hk h =>
    simp only [List.mem_append, List.mem_singleton] at hj
    rcases hj with (hj | hj) | hj
    · exact hf j procs hj
    · rcases h with ⟨-, rfl⟩ | ⟨-, rfl⟩ <;> simp at hj
    · obtain ⟨rfl, rfl⟩ := Entry.freed.inj hj
      exact hnew hl (by rw [hk]; decide)
  | alloc | ready => exact hf j procs (by simpa using hj)
  | reap _ c i k _ _ _ _ _ hl hz =>
    simp only [List.mem_append, List.mem_singleton] at hj
    rcases hj with (hj | hj) | hj
    · exact hf j procs hj
    · cases hj
    · obtain ⟨rfl, rfl⟩ := Entry.freed.inj hj
      exact hnew hl (by rw [hz]; decide)
  | _ => exact hf j procs hj

def Reached (s : Sys κ n) : Prop := Reach step (fun _ _ => True) (Sys.boot κ n) s

theorem onCpu_reached (h : Reached s) : OnCpu s ∧ Forking s := by
  refine h.invariant (I := fun s => OnCpu s ∧ Forking s) ⟨onCpu_boot, forking_boot⟩ ?_
  rintro t e u ⟨ht, hf⟩ - hst
  exact ⟨ht.step hf (step_effect hst), hf.step ht (step_effect hst)⟩

theorem freedOff_reached (h : Reached s) : FreedOff s := by
  refine (h.invariant (I := fun s => (OnCpu s ∧ Forking s) ∧ FreedOff s) ⟨⟨onCpu_boot, forking_boot⟩, ?_⟩ ?_).2
  · intro i procs hi
    simp [Sys.boot] at hi
  · rintro t e u ⟨⟨ht, hf⟩, hfree⟩ - hst
    exact ⟨⟨ht.step hf (step_effect hst), hf.step ht (step_effect hst)⟩, hfree.step ht (step_effect hst)⟩

/-- A process is on at most one CPU; while its lock is free it is RUNNING exactly if it
is on one; and freeproc only ever gets a process that is on none. -/
theorem process_on_one_cpu (s : Sys κ n) (h : Reached s) :
    (∀ i c d, (s.cpu c).proc = some i → (s.cpu d).proc = some i → c = d) ∧
    (∀ i, s.lock i = none → ((s.slot i).state = .running ↔ ∃ c, (s.cpu c).proc = some i)) ∧
    ∀ i procs, Entry.freed i procs ∈ s.hist → ∀ c, procs c ≠ some i := by
  obtain ⟨hs, -⟩ := onCpu_reached h
  refine ⟨fun i c d hc hd => ?_, fun i hl => hs.running_iff hl, freedOff_reached h⟩
  rw [hs.proc] at hc hd
  exact hs.unique c d i hc hd

theorem init_on_one_cpu : ∃ s, run step (Sys.boot Bool 1) [.pick true 0, .enter true] = some s ∧
    s.lock 0 = none ∧ ((s.slot 0).state = .running ↔ ∃ c, (s.cpu c).proc = some 0) := by
  have hrun : (run step (Sys.boot Bool 1) [.pick true 0, .enter true]).any
      (fun s => decide (s.lock 0 = none)) = true := by decide
  obtain ⟨s, hs, hl⟩ := (Option.any_eq_true _ _).mp hrun
  have hl' := of_decide_eq_true hl
  exact ⟨s, hs, hl', (process_on_one_cpu s (reach_of_run hs)).2.1 0 hl'⟩

end Xv6.Sched
