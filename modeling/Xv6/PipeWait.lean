import Xv6.PipeStep

/-! Who waits on a pipe. One path of pipewrite strands readers: a writer that finds itself killed
after it has stored bytes returns without the wakeup. -/
namespace Xv6.Pipes
open Function Runs
variable {n : ℕ}

/-- What a process asleep on the channel waits for is missing. -/
def Pipe.Blocks (pi : Pipe) : Chan → Prop
  | .nread => pi.isEmpty ∧ pi.writeopen = true
  | .nwrite => pi.isFull ∧ pi.readopen = true

def Pc.holds : Pc → Bool
  | .writing _ _ _ => true
  | .waiting _ => true
  | .reading _ _ => true
  | .waking _ _ _ => true
  | _ => false

def Pc.blockedOn : Pc → Option Chan
  | .parking b => some b.chan
  | .sleeping b => some b.chan
  | _ => none

/-- A process here will call wakeup for the channel, or is in it and has not come to process
number `j`. -/
def Pc.Owes (c : Chan) (j : ℕ) : Pc → Prop
  | .writing _ _ k => c = .nread ∧ 0 < k
  | .reading _ _ => c = .nwrite
  | .waking d k _ => d = c ∧ k ≤ j
  | _ => False

def Pc.midWrite : Pc → Bool
  | .writing i m k => decide (0 < k ∧ (i : ℤ) < m)
  | _ => false

/-- No process is killed between a byte that it stores in pipewrite and its next test. -/
def Spared (s : Sys n) : Event n → Prop
  | .kill q => (s.pc q).midWrite = false
  | _ => True

instance (s : Sys n) (e : Event n) : Decidable (Spared s e) := by cases e <;> unfold Spared <;> infer_instance

/-- What the holder of pi->lock has seen of the pipe and of its own flag still holds. -/
def Pc.Fits (pi : Pipe) (killed : Bool) : Pc → Prop
  | .writing i m k => 0 < k → pi.readopen = true ∧ ((i : ℤ) < m → killed = false)
  | .waking _ _ (.sleep _ _) => pi.Blocks .nwrite
  | _ => True

structure WaitInv (s : Sys n) : Prop where
  lock : ∀ p, (s.pc p).holds = true ↔ s.lock = some p
  fits : ∀ p, (s.pc p).Fits s.pipe (s.killed p)
  covered : ∀ p c, (s.pc p).blockedOn = some c → s.pipe.Blocks c ∨ ∃ q, (s.pc q).Owes c p.val

variable {c : Chan} {j : ℕ} {x : Pc} {b : Bool}

theorem Pc.Owes.holds (h : x.Owes c j) : x.holds = true := by
  cases x with
  | writing | reading | waking => rfl
  | _ => exact h.elim

theorem Pc.fits_of_not_holds {pi : Pipe} {k : Bool} (h : x.holds = false) : x.Fits pi k := by
  cases x with
  | writing | waking => cases h
  | _ => trivial

theorem Enters.holds {y : Pc} (h : Enters x y) : y.holds = true ∧ y.blockedOn = none ∧ ∀ pi k, y.Fits pi k := by
  cases h with
  | write | read => simp [Pc.holds, Pc.blockedOn, Pc.Fits]
  | back b => cases b <;> simp [Blocked.back, Pc.holds, Pc.blockedOn, Pc.Fits]

section Step
variable {s t : Sys n} {e : Event n}

section
variable (hs : WaitInv s)
include hs

theorem WaitInv.not_owed (hl : s.lock = none) (q : Fin n) : ¬ (s.pc q).Owes c j := by
  intro ho
  have hq := (hs.lock q).mp ho.holds
  rw [hl] at hq
  cases hq

theorem WaitInv.blocks_of_free (hl : s.lock = none) {p : Fin n}
    (hp : (s.pc p).blockedOn = some c) : s.pipe.Blocks c := by
  rcases hs.covered p c hp with h | ⟨q, hq⟩
  · exact h
  · exact absurd hq (hs.not_owed hl q)

theorem WaitInv.eq_holder {p q : Fin n} (hp : (s.pc p).holds = true) (hq : s.lock = some q) : q = p := by
  have hqp : some q = some p := by rw [← hq, (hs.lock p).mp hp]
  exact Option.some.inj hqp

theorem WaitInv.owed_by_holder {p q : Fin n} (hp : (s.pc p).holds = true) (hq : (s.pc q).blockedOn = some c) :
    s.pipe.Blocks c ∨ (s.pc p).Owes c q.val := by
  rcases hs.covered q c hq with h | ⟨r, hr⟩
  · exact Or.inl h
  · exact Or.inr (hs.eq_holder hp ((hs.lock r).mp hr.holds) ▸ hr)

theorem WaitInv.lock_enter (hl : s.lock = none) {p : Fin n} {c : Pc} (hc : c.holds = true) (q : Fin n) :
    (update s.pc p c q).holds = true ↔ some p = some q := by
  by_cases hq : q = p
  · subst hq
    simp [hc]
  have hnot : (s.pc q).holds ≠ true := by
    intro hh
    rw [(hs.lock q).mp hh] at hl
    cases hl
  rw [update_of_ne hq]
  exact iff_of_false hnot (fun he => hq (Option.some.inj he).symm)

theorem WaitInv.lock_leave {p : Fin n} {c : Pc} (hp : (s.pc p).holds = true) (hc : c.holds = false) (q : Fin n) :
    (update s.pc p c q).holds = true ↔ none = some q := by
  by_cases hq : q = p
  · subst hq
    simp [hc]
  · rw [update_of_ne hq]
    exact iff_of_false (fun hh => hq (hs.eq_holder hp ((hs.lock q).mp hh))) (by simp)

theorem WaitInv.lock_keep {p : Fin n} {c : Pc} (hc : c.holds = (s.pc p).holds)
    (q : Fin n) : (update s.pc p c q).holds = true ↔ s.lock = some q := by
  by_cases hq : q = p
  · subst hq
    rw [update_self, hc]
    exact hs.lock q
  · rw [update_of_ne hq]
    exact hs.lock q

end

theorem Leaves.holds {p : Fin n} {c : Pc} (h : Leaves s p c b) : (s.pc p).holds = true ∧ c.holds = false := by
  cases h with
  | gone i m k hp => rw [hp]; exact ⟨rfl, rfl⟩
  | killed m hp => rw [hp]; exact ⟨rfl, rfl⟩
  | empty m hp => rw [hp]; exact ⟨rfl, rfl⟩
  | asleep c k i m hp => rw [hp]; exact ⟨rfl, rfl⟩
  | ret c k r hp => rw [hp]; exact ⟨rfl, rfl⟩
  | close c k hp => rw [hp]; exact ⟨rfl, rfl⟩

theorem Calls.holds {pi : Pipe} {y : Pc} (h : Calls pi x y) : x.holds = true ∧ y.holds = true ∧ y.blockedOn = none := by
  cases h <;> exact ⟨rfl, rfl, rfl⟩

theorem wake_holds (c : Chan) (x : Pc) : (x.wake c).holds = x.holds := by
  cases x with
  | sleeping =>
    simp only [Pc.wake]
    split_ifs <;> rfl
  | _ => rfl

theorem WaitInv.lock_step (hs : WaitInv s) (h : Effect s e t) (q : Fin n) :
    (t.pc q).holds = true ↔ t.lock = some q := by
  cases h with
  | enter _ p c hp hl => exact hs.lock_enter hl hp.holds.1 q
  | closeWrite p r hp hl => exact hs.lock_enter hl rfl q
  | closeRead p r hp hl => exact hs.lock_enter hl rfl q
  | leave _ p c b hl => exact hs.lock_leave hl.holds.1 hl.holds.2 q
  | store p i m k ch hp => exact hs.lock_keep (by rw [hp]; rfl) q
  | take p i m ok hp => exact hs.lock_keep (by rw [hp]; cases ok <;> rfl) q
  | call _ p c hp => exact hs.lock_keep (hp.holds.2.1.trans hp.holds.1.symm) q
  | copy p m hp => exact hs.lock_keep (by rw [hp]; rfl) q
  | turn p r c a hp =>
    by_cases hq : q = p
    · subst hq
      have hlock := (hs.lock q).mp (by rw [hp]; rfl)
      simp [Pc.holds, hlock]
    · simp only [update_of_ne hq]
      exact hs.lock_keep (wake_holds c _) q
  | park p b hp => exact hs.lock_keep (by rw [hp]; rfl) q
  | kill => exact hs.lock q
  | killSleeper p b hp => exact hs.lock_keep (by rw [hp]; rfl) q
  | recycle => exact hs.lock q

theorem blockedOn_update {f : Fin n → Pc} {p q : Fin n}
    (hx : x.blockedOn = none) (h : (update f p x q).blockedOn = some c) :
    q ≠ p ∧ (f q).blockedOn = some c := by
  by_cases hq : q = p
  · subst hq
    rw [update_self, hx] at h
    cases h
  · rw [update_of_ne hq] at h
    exact ⟨hq, h⟩

theorem owes_update {f : Fin n → Pc} {p : Fin n} (hp : (f p).holds = false) (h : ∃ q, (f q).Owes c j) :
    ∃ q, (update f p x q).Owes c j := by
  obtain ⟨q, hq⟩ := h
  have hne : q ≠ p := by
    rintro rfl
    rw [hq.holds] at hp
    cases hp
  exact ⟨q, by rwa [update_of_ne hne]⟩

theorem WaitInv.leaves_not_owes (hs : WaitInv s) {p : Fin n}
    (h : Leaves s p x b) {q : Fin n} : ¬ (s.pc p).Owes c q.val := by
  intro ho
  cases h with
  | gone i m k hp him hgone =>
    have hfits := hs.fits p
    rw [hp] at ho hfits
    obtain ⟨hro, hk⟩ := hfits ho.2
    rcases hgone with hclosed | hkilled
    · rw [hro] at hclosed
      cases hclosed
    · rw [hk him] at hkilled
      cases hkilled
  | killed m hp => rw [hp] at ho; exact ho
  | empty m hp => rw [hp] at ho; exact ho
  | asleep c k i m hp hk => rw [hp] at ho; exact absurd q.isLt (not_lt.mpr (hk.trans ho.2))
  | ret c k r hp hk => rw [hp] at ho; exact absurd q.isLt (not_lt.mpr (hk.trans ho.2))
  | close c k hp hk => rw [hp] at ho; exact absurd q.isLt (not_lt.mpr (hk.trans ho.2))

theorem WaitInv.leaves_blocks (hs : WaitInv s) {p : Fin n}
    (h : Leaves s p x b) (hx : x.blockedOn = some c) : s.pipe.Blocks c := by
  cases h with
  | empty m hp he hwo =>
    cases hx
    exact ⟨he, hwo⟩
  | asleep d k i m hp =>
    have hfits := hs.fits p
    rw [hp] at hfits
    cases hx
    exact hfits
  | _ => cases hx

theorem WaitInv.covered_turn (hs : WaitInv s) {p r q : Fin n} {d : Chan} {a : After}
    (hp : s.pc p = .waking c r.val a) (hr : (s.pc r).isParking = false)
    (hq : (update (update s.pc r ((s.pc r).wake c)) p (.waking c (r.val+1) a) q).blockedOn = some d) :
    s.pipe.Blocks d ∨ (c = d ∧ r.val+1 ≤ q.val) := by
  obtain ⟨hqp, hq⟩ := blockedOn_update rfl hq
  have hholds : (s.pc p).holds = true := by rw [hp]; rfl
  by_cases hqr : q = r
  · -- the process looked at is not parking; if it still sleeps, it is on the other channel
    subst hqr
    rw [update_self] at hq
    have hsleeps : c ≠ d ∧ (s.pc q).blockedOn = some d := by
      generalize s.pc q = x at hq hr
      cases x with
      | sleeping =>
        simp only [Pc.wake] at hq
        split_ifs at hq with hb
        · cases hq
        · refine ⟨?_, hq⟩
          rintro rfl
          exact hb (Option.some.inj hq)
      | parking => cases hr
      | _ => cases hq
    rcases hs.owed_by_holder hholds hsleeps.2 with hb | ho
    · exact Or.inl hb
    · rw [hp] at ho
      exact absurd ho.1 hsleeps.1
  · rw [update_of_ne hqr] at hq
    rcases hs.owed_by_holder hholds hq with hb | ho
    · exact Or.inl hb
    · rw [hp] at ho
      have hne : q.val ≠ r.val := fun he => hqr (Fin.ext he)
      exact Or.inr ⟨ho.1, by have := ho.2; omega⟩

theorem WaitInv.covered_step (hs : WaitInv s) (h : Effect s e t) (q : Fin n) (d : Chan)
    (hq : (t.pc q).blockedOn = some d) : t.pipe.Blocks d ∨ ∃ p, (t.pc p).Owes d q.val := by
  cases h with
  | enter _ p c hp hl => exact Or.inl (hs.blocks_of_free hl (blockedOn_update hp.holds.2.1 hq).2)
  | closeWrite p r hp hl =>
    cases d with
    | nread => exact Or.inr ⟨p, by simp [Pc.Owes]⟩
    | nwrite => exact Or.inl (hs.blocks_of_free hl (blockedOn_update rfl hq).2)
  | closeRead p r hp hl =>
    cases d with
    | nread => exact Or.inl (hs.blocks_of_free hl (blockedOn_update rfl hq).2)
    | nwrite => exact Or.inr ⟨p, by simp [Pc.Owes]⟩
  | leave _ p c b hl =>
    by_cases hqp : q = p
    · subst hqp
      exact Or.inl (hs.leaves_blocks hl (by simpa using hq))
    · have hq' : (s.pc q).blockedOn = some d := by simpa [update_of_ne hqp] using hq
      exact Or.inl ((hs.owed_by_holder hl.holds.1 hq').resolve_right (hs.leaves_not_owes hl))
  | store p i m k ch hp _ _ hfull =>
    cases d with
    | nread => exact Or.inr ⟨p, by simp [Pc.Owes]⟩
    | nwrite =>
      -- the pipe was not full, so nobody waits for room
      have hq' := (blockedOn_update rfl hq).2
      rcases hs.owed_by_holder (by rw [hp]; rfl) hq' with hb | ho
      · exact absurd hb.1 hfull
      · rw [hp] at ho
        cases ho.1
  | take p i m ok hp he =>
    cases d with
    | nread =>
      have hq' := (blockedOn_update (by cases ok <;> rfl) hq).2
      rcases hs.owed_by_holder (by rw [hp]; rfl) hq' with hb | ho
      · exact absurd hb.1 he
      · rw [hp] at ho
        cases ho
    | nwrite => exact Or.inr ⟨p, by cases ok <;> simp [Pc.Owes]⟩
  | call _ p c hp =>
    obtain ⟨hx, -, hc⟩ := hp.holds
    rcases hs.owed_by_holder hx (blockedOn_update hc hq).2 with hb | ho
    · exact Or.inl hb
    refine Or.inr ⟨p, ?_⟩
    simp only [update_self]
    generalize s.pc p = x at hp ho
    cases hp with
    | full | wrote => exact ⟨ho.1.symm, Nat.zero_le _⟩
    | took => exact ⟨ho.symm, Nat.zero_le _⟩
  | copy p m hp =>
    rcases hs.owed_by_holder (by rw [hp]; rfl) (blockedOn_update rfl hq).2 with hb | ho
    · exact Or.inl hb
    · rw [hp] at ho
      exact ho.elim
  | turn p r c a hp hr =>
    rcases hs.covered_turn hp hr hq with hb | ho
    · exact Or.inl hb
    · exact Or.inr ⟨p, by simpa [Pc.Owes] using ho⟩
  | park p b hp =>
    have hq' : (s.pc q).blockedOn = some d := by
      by_cases hqp : q = p
      · subst hqp
        simp only [update_self] at hq
        rw [hp]
        exact hq
      · simpa [update_of_ne hqp] using hq
    exact (hs.covered q d hq').imp id (owes_update (by rw [hp]; rfl))
  | kill => exact hs.covered q d hq
  | killSleeper p b hp => exact (hs.covered q d (blockedOn_update rfl hq).2).imp id (owes_update (by rw [hp]; rfl))
  | recycle => exact hs.covered q d hq

theorem WaitInv.fits_step (hs : WaitInv s) (hsp : Spared s e) (h : Effect s e t) (q : Fin n) :
    (t.pc q).Fits t.pipe (t.killed q) := by
  cases hh : (t.pc q).holds with
  | false => exact Pc.fits_of_not_holds hh
  | true =>
    -- the holder after the step is the process that made it, or nothing it has seen changed
    have hl := (hs.lock_step h q).mp hh
    cases h with
    | enter _ p c hp =>
      obtain rfl : p = q := Option.some.inj hl
      simpa using hp.holds.2.2 _ _
    | closeWrite p =>
      obtain rfl : p = q := Option.some.inj hl
      simp [Pc.Fits]
    | closeRead p =>
      obtain rfl : p = q := Option.some.inj hl
      simp [Pc.Fits]
    | leave => cases hl
    | store p i m k ch hp hro hk =>
      obtain rfl := hs.eq_holder (by rw [hp]; rfl) hl
      simp [Pc.Fits, Pipe.store, hro, hk]
    | take p i m ok hp =>
      obtain rfl := hs.eq_holder (by rw [hp]; rfl) hl
      cases ok <;> simp [Pc.Fits]
    | call _ p c hp =>
      obtain rfl := hs.eq_holder hp.holds.1 hl
      simp only [update_self]
      generalize s.pc q = x at hp
      cases hp with
      | full i m k hfull hro => exact ⟨hfull, hro⟩
      | _ => trivial
    | copy p m hp =>
      obtain rfl := hs.eq_holder (by rw [hp]; rfl) hl
      simp [Pc.Fits]
    | turn p r c a hp =>
      obtain rfl := hs.eq_holder (by rw [hp]; rfl) hl
      have hfits := hs.fits q
      rw [hp] at hfits
      cases a with
      | sleep => simpa [Pc.Fits] using hfits
      | _ => simp [Pc.Fits]
    | park p =>
      have hqp : q ≠ p := by
        rintro rfl
        simp [Pc.holds] at hh
      simpa only [update_of_ne hqp] using hs.fits q
    | kill p =>
      by_cases hqp : q = p
      · subst hqp
        have hmid : (s.pc q).midWrite = false := hsp
        have hfits := hs.fits q
        show (s.pc q).Fits s.pipe _
        generalize s.pc q = x at hmid hfits
        cases x with
        | writing =>
          intro hk
          refine ⟨(hfits hk).1, fun him => ?_⟩
          simp [Pc.midWrite, hk, him] at hmid
        | waking c j a =>
          cases a with
          | sleep => exact hfits
          | _ => trivial
        | _ => trivial
      · simpa only [update_of_ne hqp] using hs.fits q
    | killSleeper p =>
      have hqp : q ≠ p := by
        rintro rfl
        simp [Pc.holds] at hh
      simpa only [update_of_ne hqp] using hs.fits q
    | recycle p r hp =>
      have hqp : q ≠ p := by
        rintro rfl
        have hout : (s.pc q).holds = true := hh
        rw [hp] at hout
        cases hout
      simpa only [update_of_ne hqp] using hs.fits q

theorem WaitInv.step (hs : WaitInv s) (hsp : Spared s e) (h : Effect s e t) : WaitInv t :=
  ⟨hs.lock_step h, hs.fits_step hsp h, hs.covered_step h⟩

end Step

theorem waitInv_init (data : Fin pipeSize → UInt8) : WaitInv (Sys.init data n) where
  lock p := by simp [Sys.init, Pc.holds]
  fits p := trivial
  covered p c hp := by cases hp

end Xv6.Pipes
