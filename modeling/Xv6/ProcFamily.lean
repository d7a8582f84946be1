import Xv6.ProcHold

/-! Parents and children. Parents change only under wait_lock, and exit has given all its
children to init before the process becomes a zombie. -/
namespace Xv6.Sched
open Signal Runs
variable {κ : Type} {n : ℕ}

def Pc.cleared : Pc n → ℕ
  | .exitReparent _ k => k
  | .exitWakeInit _ k _ => k+1
  | .exitWakeParent _ _ _ => n+1
  | .exitZombie _ => n+1
  | _ => 0

def Alive (s : Sys κ n) (i : Idx n) : Prop := (s.slot i).state ≠ .unused ∧ (s.slot i).state ≠ .zombie

def Published (s : Sys κ n) (i : Idx n) : Prop := (s.slot i).state ≠ .unused ∧ (s.slot i).state ≠ .used

structure Family (s : Sys κ n) : Prop where
  init : Alive s 0
  alive : ∀ i r, (s.slot i).parent = some r → Alive s r
  unused : ∀ i, (s.slot i).state = .unused → (s.slot i).parent = none
  published : ∀ i, i ≠ 0 → Published s i → (s.slot i).parent ≠ none
  ready : ∀ p np pid, s.pc p = .forkReady np pid → (s.slot np).parent ≠ none
  exits : ∀ p, (s.pc p).isExit = true → p ≠ 0
  cleared : ∀ p i, i.val < (s.pc p).cleared → (s.slot i).parent ≠ some p

theorem family_boot : Family (Sys.boot κ n) := by
  have hz {i : Idx n} (hi : i ≠ 0) : (Sys.boot κ n).slot i = zeroSlot n := by simp [Sys.boot, hi]
  have hinit : (Sys.boot κ n).slot 0 = userinit ((zeroSlot n).alloc 1 0) := by simp [Sys.boot]
  have hparent (i : Idx n) : ((Sys.boot κ n).slot i).parent = none := by
    by_cases hi : i = 0
    · rw [hi, hinit]
      rfl
    · rw [hz hi]
      rfl
  refine ⟨?_, fun i r hr => ?_, fun i _ => hparent i, fun i hi hu => ?_, fun p np pid hp => ?_,
    fun p hp => ?_, fun p i hi => ?_⟩
  · rw [Alive, hinit]
    exact ⟨by simp [userinit], by simp [userinit]⟩
  · rw [hparent] at hr
    cases hr
  · rw [Published, hz hi] at hu
    exact absurd rfl hu.1
  · cases hp
  · cases hp
  · exact absurd hi (Nat.not_lt_zero _)

section Moves
variable {s t : Sys κ n} {e : Event κ n} [DecidableEq κ]

section
variable (h : Effect s e t)
include h

theorem Effect.parent {k r : Idx n} (hr : (t.slot k).parent = some r) : (s.slot k).parent = some r ∨
    (∃ c pid, (s.cpu c).phase = .running r ∧ s.pc r = .forkParent k pid ∧ s.waitLock = none ∧
      (t.slot k).state = (s.slot k).state) ∨
    (r = 0 ∧ ∃ i status, s.pc i = .exitReparent status k.val ∧
      t.pc i = .exitWakeInit status k.val 0 ∧ t.waitLock = s.waitLock) := by
  have hm := h.slotMove k
  generalize t.slot k = q at hm hr
  cases hm with
  | away c _ q _ _ _ _ ha => exact Or.inl (by cases ha <;> exact hr)
  | allocFail => cases hr
  | setParent c i pid hc hpc hw =>
    cases hr
    exact Or.inr (Or.inl ⟨c, pid, hc, hpc, hw, rfl⟩)
  | adopt c i status _ hpc _ hnext hw =>
    cases hr
    exact Or.inr (Or.inr ⟨rfl, i, status, hpc, hnext, hw⟩)
  | reap => cases hr
  | kill _ _ _ _ signum =>
    rw [(kill_eq (s.slot k) signum).2.2.2.2.1] at hr
    exact Or.inl hr
  | _ => exact Or.inl hr

theorem Effect.zombie {k : Idx n} (hk : (t.slot k).state = .zombie) : (s.slot k).state = .zombie ∨
      ∃ status, s.pc k = .exitZombie status ∧ (t.slot k).parent = (s.slot k).parent := by
  have hm := h.slotMove k
  generalize t.slot k = q at hm hk
  cases hm with
  | stay | enter => exact Or.inl hk
  | away c _ q _ _ _ _ ha =>
    cases ha with
    | exit status hpc => exact Or.inr ⟨status, hpc, rfl⟩
    | _ => cases hk
  | setParent | adopt => exact Or.inl hk
  | kill _ _ _ _ signum =>
    rcases (kill_eq (s.slot k) signum).1 with h' | ⟨-, h'⟩
    · exact Or.inl (h'.symm.trans hk)
    · cases h'.symm.trans hk
  | fault => exact Or.inl hk
  | _ => cases hk

theorem Effect.unused {k : Idx n} (hk : (t.slot k).state = .unused) :
    (s.slot k).state = .unused ∨ (s.slot k).state = .zombie := by
  have hm := h.slotMove k
  generalize t.slot k = q at hm hk
  cases hm with
  | stay | enter => exact Or.inl hk
  | away c _ q _ _ _ _ ha => cases ha <;> cases hk
  | allocFail _ hj => exact Or.inl hj
  | setParent | adopt => exact Or.inl hk
  | reap _ _ _ _ _ _ _ hj => exact Or.inr hj
  | kill _ _ _ _ signum =>
    rcases (kill_eq (s.slot k) signum).1 with h' | ⟨-, h'⟩
    · exact Or.inl (h'.symm.trans hk)
    · cases h'.symm.trans hk
  | fault => exact Or.inl hk
  | _ => cases hk

theorem Effect.alive {r : Idx n} (hr : Alive s r) (hex : ∀ status, s.pc r ≠ .exitZombie status) : Alive t r := by
  constructor
  · intro hu
    rcases h.unused hu with hu | hz
    · exact hr.1 hu
    · exact hr.2 hz
  intro hz
  rcases h.zombie hz with hz | ⟨status, hpc, -⟩
  · exact hr.2 hz
  · exact hex status hpc

theorem Effect.isExit {p : Idx n} (hp : (t.pc p).isExit = true) : (s.pc p).isExit = true ∨ p ≠ 0 := by
  have hm := h.pcMove p
  generalize t.pc p = y at hm hp
  cases hm with
  | stay => exact Or.inl hp
  | back => cases hp
  | away q w y b l ha => cases ha <;> first | exact Or.inl hp | cases hp
  | next y hn =>
    cases hn with
    | plain y _ hplain => cases y <;> first | cases hp; done | cases hplain
    | exit status _ hi => exact Or.inr hi
    | notChild _ _ hpc => exact Or.inl (by rw [hpc]; rfl)
    | reparented _ _ hpc => exact Or.inl (by rw [hpc]; rfl)
    | wokeInit _ _ _ hpc => exact Or.inl (by rw [hpc]; rfl)
    | wokeParent _ _ _ hpc => exact Or.inl (by rw [hpc]; rfl)
    | scan => cases hp
  | take c y _ ht =>
    cases ht with
    | exit status hpc => exact Or.inl (by rw [hpc]; rfl)
    | wait => cases hp
  | turn j chan y ht =>
    cases ht with
    | init _ _ _ hpc => exact Or.inl (by rw [hpc]; rfl)
    | parent _ _ _ hpc => exact Or.inl (by rw [hpc]; rfl)
  | alloc | setParent => cases hp
  | adopt status k hpc => exact Or.inl (by rw [hpc]; rfl)

theorem Effect.forkReady {p np : Idx n} {pid : ℤ} (hp : t.pc p = .forkReady np pid) :
    s.pc p = .forkReady np pid ∨ (t.slot np).parent = some p := by
  have hm := h.pcMove p
  generalize t.pc p = y at hm hp
  cases hm with
  | stay => exact Or.inl hp
  | away q w y b l ha =>
    cases ha with
    | yield => exact Or.inl hp
    | _ => cases hp
  | next y hn =>
    rw [hp] at hn
    cases hn.child
  | take c y _ ht => cases ht <;> cases hp
  | turn j chan y ht => cases ht <;> cases hp
  | setParent np' pid' _ hpar =>
    obtain ⟨rfl, rfl⟩ := Pc.forkReady.inj hp
    exact Or.inr hpar
  | _ => cases hp

end

end Moves

/-! No process is left with a dead parent: the family invariant is kept by every step. -/

variable {s t : Sys κ n}

theorem isExit_of_cleared {x : Pc n} (h : 0 < x.cleared) : x.isExit = true ∧ x.holdsWait = true := by
  cases x <;> first | exact ⟨rfl, rfl⟩ | exact absurd h (lt_irrefl 0)

theorem HoldMove.held_of_cleared {p : Idx n} {x : Pc n} (h : HoldMove s t p x) (hx : 0 < x.cleared) :
    (s.pc p).holdsWait = true := by
  rcases h.held with hp | ⟨-, ⟨status, rfl⟩ | ⟨addr, rfl⟩⟩
  · exact hp
  · exact absurd hx (lt_irrefl 0)
  · exact absurd hx (lt_irrefl 0)

theorem HoldMove.cleared {p i : Idx n} {x : Pc n} (h : HoldMove s t p x) (hs : Family s)
    (hi : i.val < x.cleared) (hkept : (s.slot i).parent = some p) (hp : (t.slot i).parent = some p) :
    p = 0 := by
  have hold {y : Pc n} (hpc : s.pc p = y) (hy : i.val < y.cleared) : p = 0 :=
    absurd hkept (hs.cleared p i (by rwa [hpc]))
  cases h with
  | stay => exact hold rfl hi
  | takeExit | takeWait => exact absurd hi (Nat.not_lt_zero _)
  | notChild status k hpc hk =>
    rcases Nat.lt_succ_iff_lt_or_eq.mp hi with hlt | heq
    · exact hold hpc hlt
    · rw [Fin.ext heq] at hkept
      exact absurd hkept hk
  | adopt status k hpc hslot =>
    rcases Nat.lt_succ_iff_lt_or_eq.mp hi with hlt | heq
    · exact hold hpc hlt
    · rw [Fin.ext heq, hslot, Function.update_self] at hp
      exact (Option.some.inj hp).symm
  | turnInit _ _ _ hpc => exact hold hpc hi
  | wokeInit _ _ _ hpc => exact hold hpc hi
  | reparented _ k hpc => exact hold hpc (show i.val < k by have := i.isLt; omega)
  | turnParent _ _ _ hpc => exact hold hpc hi
  | wokeParent _ _ _ hpc => exact hold hpc hi
  | scan => exact absurd hi (Nat.not_lt_zero _)

variable [DecidableEq κ] {e : Event κ n}

theorem Effect.parent_kept (h : Effect s e t) {k : Idx n} (hs : (s.slot k).state ≠ .unused)
    (ht : (t.slot k).state ≠ .unused) (hp : (s.slot k).parent ≠ none) : (t.slot k).parent ≠ none := by
  have hm := h.slotMove k
  generalize t.slot k = q at hm ht
  cases hm with
  | away c _ q _ _ _ _ ha => cases ha <;> exact hp
  | allocFail => exact absurd rfl ht
  | alloc _ _ _ _ hj => exact absurd hj hs
  | setParent | adopt => simp
  | reap => exact absurd rfl ht
  | kill _ _ _ _ signum => rwa [(kill_eq (s.slot k) signum).2.2.2.2.1]
  | _ => exact hp

theorem Effect.published (h : Effect s e t) (hc : OnCpu s) {i : Idx n} (hi : Published t i) : Published s i ∨
      ∃ p pid, s.pc p = .forkReady i pid ∧ Entry.forked (s.slot i).gen pid ∈ t.hist := by
  have hold {st : ProcState} (hst : (s.slot i).state = st) (h1 : st ≠ .unused) (h2 : st ≠ .used) : Published s i := by
    subst hst
    exact ⟨h1, h2⟩
  obtain ⟨hu, hused⟩ := hi
  have hm := h.slotMove i
  generalize t.slot i = q at hm hu hused
  cases hm with
  | pick _ hj => exact Or.inl (hold hj (by decide) (by decide))
  | away c hrun => exact Or.inl (hold (hc.runs hrun) (by decide) (by decide))
  | wake _ hj => exact Or.inl (hold hj (by decide) (by decide))
  | allocFail => exact absurd rfl hu
  | alloc => exact absurd rfl hused
  | ready c j pid _ hpc _ hist => exact Or.inr ⟨j, pid, hpc, hist⟩
  | reap => exact absurd rfl hu
  | kill _ _ _ _ signum =>
    left
    rcases (kill_eq (s.slot i) signum).1 with hst | ⟨hst, -⟩
    · rw [hst] at hu hused
      exact ⟨hu, hused⟩
    · exact hold hst (by decide) (by decide)
  | _ => exact Or.inl ⟨hu, hused⟩

namespace Family

theorem alive_step (hc : OnCpu s) (hs : Family s) (h : Effect s e t) {i r : Idx n}
    (hr : (t.slot i).parent = some r) : Alive t r := by
  rcases h.parent hr with hp | ⟨c, pid, hrun, hpc, -, -⟩ | ⟨rfl, -⟩
  · refine h.alive (hs.alive i r hp) fun status hpc => hs.cleared r i ?_ hp
    rw [hpc]
    exact i.isLt
  · have hst := hc.runs hrun
    refine h.alive ⟨by rw [hst]; decide, by rw [hst]; decide⟩ fun status hz => ?_
    cases hpc.symm.trans hz
  · exact h.alive hs.init fun status hz => hs.exits 0 (by rw [hz]; rfl) rfl

theorem unused_step (hf : Forking s) (hs : Family s) (h : Effect s e t) {i : Idx n}
    (hi : (t.slot i).state = .unused) : (t.slot i).parent = none := by
  have hm := h.slotMove i
  generalize t.slot i = q at hm hi
  cases hm with
  | stay | enter => exact hs.unused i hi
  | away c _ q _ _ _ _ ha => cases ha <;> cases hi
  | allocFail => rfl
  | setParent c j pid _ hpc => cases hi.symm.trans (hf.used j i pid (by rw [hpc]; rfl)).1
  | adopt c j status _ _ hj => cases hj.symm.trans (hs.unused i hi)
  | reap => rfl
  | kill _ _ _ _ signum =>
    obtain ⟨hst, -, -, -, hparent, -⟩ := kill_eq (s.slot i) signum
    rcases hst with hst | ⟨-, hst⟩
    · exact hparent.trans (hs.unused i (hst.symm.trans hi))
    · cases hst.symm.trans hi
  | fault => exact hs.unused i hi
  | _ => cases hi

theorem published_step (hc : OnCpu s) (hf : Forking s) (hs : Family s) (h : Effect s e t) {i : Idx n}
    (hi : i ≠ 0) (hu : Published t i) : (t.slot i).parent ≠ none := by
  rcases h.published hc hu with hold | ⟨p, pid, hpc, -⟩
  · exact h.parent_kept hold.1 hu.1 (hs.published i hi hold)
  · have hused := (hf.used p i pid (by rw [hpc]; rfl)).1
    exact h.parent_kept (by rw [hused]; decide) hu.1 (hs.ready p i pid hpc)

theorem cleared_step (hw : HeldBy s) (hs : Family s) (h : Effect s e t) {p i : Idx n}
    (hi : i.val < (t.pc p).cleared) : (t.slot i).parent ≠ some p := by
  intro hp
  have hpos : 0 < (t.pc p).cleared := Nat.zero_lt_of_lt hi
  have hm := h.holdMove (isExit_of_cleared hpos).2
  have hheld := (hw p).mp (hm.held_of_cleared hpos)
  have hp0 : p ≠ 0 := by
    rcases h.isExit (isExit_of_cleared hpos).1 with hex | hne
    · exact hs.exits p hex
    · exact hne
  rcases h.parent hp with hold | ⟨_, _, _, _, hfree, _⟩ | ⟨hzero, _⟩
  · exact hp0 (hm.cleared hs hi hold hp)
  · cases hheld.symm.trans hfree
  · exact hp0 hzero

theorem step (hc : OnCpu s) (hf : Forking s) (hw : HeldBy s) (hs : Family s) (h : Effect s e t) : Family t where
  init := h.alive hs.init fun status hz => hs.exits 0 (by rw [hz]; rfl) rfl
  alive _ _ := hs.alive_step hc h
  unused _ := hs.unused_step hf h
  published _ := hs.published_step hc hf h
  ready p np pid hp := by
    rcases h.forkReady hp with hsp | hpar
    · -- nothing happens to the child before its fork makes it runnable
      have hu := (hf.used p np pid (by rw [hsp]; rfl)).1
      have hu' := (hf.kept hc h (by rw [hp]; rfl) (by rw [hsp]; rfl)).1
      exact h.parent_kept (by rw [hu]; decide) (by rw [hu']; decide) (hs.ready p np pid hsp)
    · rw [hpar]
      simp
  exits p hp := (h.isExit hp).elim (hs.exits p) id
  cleared _ _ := hs.cleared_step hw h

end Family

end Xv6.Sched
