import Xv6.BsemStep

/-! The callers of bsem_down that wait for a slot. bsem_free resets a slot without regard to them,
and bsem_down takes a slot by its id alone, which is 0 in every free slot. -/
namespace Xv6.Bsem
open Function Runs
variable {n : ℕ}

/-- A bsem_down(b) by `p` has found slot `i` and has not locked it yet. -/
def Waits (s : Sys n) (p : Fin n) (b : CInt) (i : Slot) : Prop := s.pc p = .sleeping b i ∨ s.pc p = .woken b i

def Pc.waitsOn : Pc → Option Slot
  | .sleeping _ i => some i
  | .woken _ i => some i
  | _ => none

/-- No bsem_free of a slot on which a bsem_down waits, and no bsem_down on a slot that is
not in use. -/
def Careful (s : Sys n) : Event n → Prop
  | .free _ b => ∀ i ∈ s.slotOf b, ∀ p, (s.pc p).waitsOn ≠ some i
  | .down _ b => ∀ i ∈ s.slotOf b, (s.sem i).isUsed ≠ 0
  | _ => True

instance (s : Sys n) (e : Event n) : Decidable (Careful s e) := by
  rcases e with _ | _ | _ | _ | _ | _ | _ | _ <;> dsimp only [Careful] <;> infer_instance

structure WaitInv (s : Sys n) : Prop where
  used : ∀ i, (s.sem i).isUsed = 0 ∨ (s.sem i).isUsed = 1
  unused : ∀ i, (s.sem i).isUsed = 0 → s.sem i = ⟨0, 0, 0⟩
  waiter : ∀ p b i, Waits s p b i → (s.sem i).isUsed = 1 ∧ (s.sem i).id = b
  covered : ∀ p b i, s.pc p = .sleeping b i → (s.sem i).isLocked = 1 ∨ ∃ q k, s.pc q = .waking i k ∧ k ≤ p.val
  locked : ∀ b x, Entry.down b x ∈ s.hist → x.isUsed = 1 ∧ x.id = b

section Step
variable {s t : Sys n} {e : Event n}

variable {b : CInt} {i : Slot}

theorem WaitInv.atTest (hs : WaitInv s) (hc : Careful s e) {p : Fin n}
    (h : AtTest s p b i e) : (s.sem i).isUsed = 1 ∧ (s.sem i).id = b := by
  cases h with
  | found hp hi => exact ⟨(hs.used i).resolve_left (hc i hi), slotOf_id hi⟩
  | woken hp => exact hs.waiter p b i (Or.inr hp)

theorem wake_eq_sleeping {j : Slot} {c : Pc} (h : c.wake i = .sleeping b j) : c = .sleeping b j ∧ j ≠ i := by
  cases c with
  | sleeping =>
    simp only [Pc.wake] at h
    split_ifs at h with hl
    obtain ⟨rfl, rfl⟩ := Pc.sleeping.inj h
    exact ⟨rfl, hl⟩
  | _ => cases h

theorem Effect.waits (h : Effect s e t) {p : Fin n} (hw : Waits t p b i) : Waits s p b i ∨ AtTest s p b i e := by
  have hm := h.pcMove p
  rcases hw with hw | hw
  · rw [hw] at hm
    generalize hx : Pc.sleeping b i = x at hm
    cases hm with
    | stay => exact Or.inl (Or.inl hx.symm)
    | sleep c j he =>
      obtain ⟨rfl, rfl⟩ := Pc.sleeping.inj hx
      exact Or.inr he
    | _ => cases hx
  rw [hw] at hm
  generalize hx : Pc.woken b i = x at hm
  cases hm with
  | stay => exact Or.inl (Or.inr hx.symm)
  | wake c j hr =>
    obtain ⟨rfl, rfl⟩ := Pc.woken.inj hx
    exact Or.inl (Or.inl hr)
  | _ => cases hx

theorem Effect.keeps (h : Effect s e t) (hu : (s.sem i).isUsed = 1)
    (hfree : ∀ p b, e = .free p b → s.slotOf b ≠ some i) :
    (t.sem i).isUsed = 1 ∧ (t.sem i).id = (s.sem i).id := by
  have hm := h.semMove i
  generalize t.sem i = x at hm
  cases hm with
  | stay => exact ⟨hu, rfl⟩
  | assign hi =>
    rw [hi] at hu
    cases hu
  | free p b hi he => exact absurd hi (hfree p b he)
  | lock | unlock => exact ⟨hu, rfl⟩

theorem Effect.unlocked (h : Effect s e t) (hl : (s.sem i).isLocked = 1)
    (hu : (s.sem i).isUsed = 1) (hfree : ∀ p b, e = .free p b → s.slotOf b ≠ some i) :
    (t.sem i).isLocked = 1 ∨ ∃ q, t.pc q = .waking i 0 := by
  cases h with
  | assign p j _ hj =>
    have hne : i ≠ j := by
      rintro rfl
      rw [hj] at hu
      cases hu
    left
    simpa only [update_of_ne hne] using hl
  | free p b j hj =>
    have hne : i ≠ j := by
      rintro rfl
      exact hfree p b rfl hj
    left
    simpa only [update_of_ne hne] using hl
  | lock _ p b j _ hj =>
    have hne : i ≠ j := by
      rintro rfl
      exact hj hl
    left
    simpa only [update_of_ne hne] using hl
  | unlock p b j =>
    by_cases hij : i = j
    · subst hij
      exact Or.inr ⟨p, update_self ..⟩
    · left
      simpa only [update_of_ne hij] using hl
  | _ => exact Or.inl hl

theorem Effect.waking (h : Effect s e t) {q : Fin n} {k : ℕ} (hq : s.pc q = .waking i k) :
    t.pc q = .waking i k ∨ n ≤ k ∨ (t.pc q = .waking i (k+1) ∧ ∀ p b, p.val = k → t.pc p ≠ .sleeping b i) := by
  have hstay {p : Fin n} {x : Pc} (hp : s.pc p ≠ .waking i k) : update s.pc p x q = .waking i k := by
    have hne : q ≠ p := by
      rintro rfl
      exact hp hq
    rw [update_of_ne hne, hq]
  cases h with
  | assign p j hp => exact Or.inl (hstay (by simp [hp]))
  | allocReturn p j sid hp => exact Or.inl (hstay (by simp [hp]))
  | sleep _ p b j he => exact Or.inl (hstay (by rcases he.pc with hp | hp <;> simp [hp]))
  | lock _ p b j he => exact Or.inl (hstay (by rcases he.pc with hp | hp <;> simp [hp]))
  | unlock p b j hp => exact Or.inl (hstay (by simp [hp]))
  | turn p r j hp =>
    by_cases hqp : q = p
    · subst hqp
      rw [hp] at hq
      obtain ⟨rfl, rfl⟩ := Pc.waking.inj hq
      refine Or.inr (Or.inr ⟨update_self .., fun p b hpr hsl => ?_⟩)
      obtain rfl : p = r := Fin.ext hpr
      -- the process whose turn it was is not the caller, which is not asleep
      by_cases hpq : p = q
      · subst hpq
        simp at hsl
      · simp only [update_of_ne hpq, update_self] at hsl
        exact (wake_eq_sleeping hsl).2 rfl
    · left
      by_cases hqr : q = r
      · subst hqr
        simp [update_of_ne hqp, hq, Pc.wake]
      · simpa only [update_of_ne hqp, update_of_ne hqr] using hq
  | scanned p j l hp hl =>
    by_cases hqp : q = p
    · subst hqp
      rw [hp] at hq
      obtain ⟨rfl, rfl⟩ := Pc.waking.inj hq
      exact Or.inr (Or.inl hl)
    · left
      simpa only [update_of_ne hqp] using hq
  | kill p b j hp => exact Or.inl (hstay (by simp [hp]))
  | _ => exact Or.inl hq

theorem Careful.not_freed (hc : Careful s e) {p : Fin n} (hw : Waits s p b i)
    (q : Fin n) (c : CInt) (he : e = .free q c) : s.slotOf c ≠ some i := by
  subst he
  intro hi
  refine hc i hi p ?_
  rcases hw with hw | hw <;> rw [hw] <;> rfl

section
variable (hs : WaitInv s) (hc : Careful s e) (h : Effect s e t)
include hs hc h

theorem WaitInv.covered_step {p : Fin n} (hp : t.pc p = .sleeping b i) :
    (t.sem i).isLocked = 1 ∨ ∃ q k, t.pc q = .waking i k ∧ k ≤ p.val := by
  -- what it takes is that the lock was held before the step, or wakeup was on its way
  have hlocked (hl : (s.sem i).isLocked = 1) (hu : (s.sem i).isUsed = 1)
      (hfree : ∀ q c, e = .free q c → s.slotOf c ≠ some i) :
      (t.sem i).isLocked = 1 ∨ ∃ q k, t.pc q = .waking i k ∧ k ≤ p.val := by
    rcases h.unlocked hl hu hfree with hl | ⟨q, hq⟩
    · exact Or.inl hl
    · exact Or.inr ⟨q, 0, hq, Nat.zero_le _⟩
  have hm := h.pcMove p
  rw [hp] at hm
  generalize hx : Pc.sleeping b i = x at hm
  cases hm with
  | stay =>
    have hw : Waits s p b i := Or.inl hx.symm
    rcases hs.covered p b i hx.symm with hl | ⟨q, k, hq, hk⟩
    · exact hlocked hl (hs.waiter p b i hw).1 (hc.not_freed hw)
    rcases h.waking hq with hq' | hn | ⟨hq', hno⟩
    · exact Or.inr ⟨q, k, hq', hk⟩
    · exact absurd p.isLt (not_lt.mpr (hn.trans hk))
    · have hne : p.val ≠ k := fun he => hno p b he hp
      exact Or.inr ⟨q, k+1, hq', by omega⟩
  | sleep c j he hl =>
    obtain ⟨rfl, rfl⟩ := Pc.sleeping.inj hx
    refine hlocked hl (hs.atTest hc he).1 ?_
    rintro q d rfl
    cases he
  | _ => cases hx

theorem WaitInv.used_step (i : Slot) :
    ((t.sem i).isUsed = 0 ∨ (t.sem i).isUsed = 1) ∧ ((t.sem i).isUsed = 0 → t.sem i = ⟨0, 0, 0⟩) := by
  have hm := h.semMove i
  generalize t.sem i = x at hm
  cases hm with
  | stay => exact ⟨hs.used i, hs.unused i⟩
  | assign => exact ⟨Or.inr rfl, fun h0 => absurd h0 one_ne_zero⟩
  | free => exact ⟨Or.inl rfl, fun _ => rfl⟩
  | lock p b he =>
    have hu := (hs.atTest hc he).1
    exact ⟨Or.inr hu, fun h0 => absurd (h0.symm.trans hu) zero_ne_one⟩
  | unlock p _ hl =>
    -- a free slot is not locked
    have hu : (s.sem i).isUsed = 1 := by
      refine (hs.used i).resolve_left fun h0 => ?_
      rw [hs.unused i h0] at hl
      cases hl
    exact ⟨Or.inr hu, fun h0 => absurd (h0.symm.trans hu) zero_ne_one⟩

theorem WaitInv.step : WaitInv t where
  used i := (hs.used_step hc h i).1
  unused i := (hs.used_step hc h i).2
  waiter p b i hw := by
    rcases h.waits hw with hw | he
    · obtain ⟨hu, hb⟩ := hs.waiter p b i hw
      obtain ⟨hu', hid⟩ := h.keeps hu (hc.not_freed hw)
      exact ⟨hu', hid.trans hb⟩
    obtain ⟨hu, hb⟩ := hs.atTest hc he
    have hfree (q : Fin n) (c : CInt) (hq : e = .free q c) : s.slotOf c ≠ some i := by
      subst hq
      cases he
    obtain ⟨hu', hid⟩ := h.keeps hu hfree
    exact ⟨hu', hid.trans hb⟩
  covered p b i hp := hs.covered_step hc h hp
  locked b x hx := by
    obtain ⟨l, hl, hm⟩ := h.histMove
    rw [hl, List.mem_append] at hx
    rcases hx with hx | hx
    · exact hs.locked b x hx
    cases hm with
    | down p c i he =>
      obtain ⟨rfl, rfl⟩ := Entry.down.inj (List.mem_singleton.mp hx)
      exact hs.atTest hc he
    | _ => simp at hx

end

end Step

theorem waitInv_init (n : ℕ) : WaitInv (Sys.init n) where
  used _ := Or.inl rfl
  unused _ _ := rfl
  waiter p b i hw := by rcases hw with hw | hw <;> cases hw
  covered p b i hp := by cases hp
  locked b x hx := by cases hx

theorem waitInv_reach {s : Sys n} (h : Reach step Careful (Sys.init n) s) : WaitInv s :=
  h.invariant (waitInv_init n) (fun _ _ _ hs hc hst => hs.step hc (step_effect hst))

end Xv6.Bsem
