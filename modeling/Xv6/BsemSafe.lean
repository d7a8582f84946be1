import Xv6.BsemWait

/-! Which slot bsem_down locks, who sleeps, and what calls with unallocated ids do. -/
namespace Xv6.Bsem
open Runs
variable {n : ℕ}

def carefulRun (n : ℕ) (es : List (Event n)) : Option (Sys n) :=
  run (fun u e => if Careful u e then step u e else none) (Sys.init n) es

/-- Whatever slot a bsem_down(b) has locked in a careful run, the slot was in use and had the id `b`. -/
theorem down_locks_its_semaphore (s : Sys n) (h : Reach step Careful (Sys.init n) s) (b : CInt)
    (x : Semaphore) (hx : Entry.down b x ∈ s.hist) : x.isUsed = 1 ∧ x.id = b :=
  (waitInv_reach h).locked b x hx

def Entry.isDown (b : CInt) (P : Semaphore → Bool) : Entry → Bool
  | .down c x => decide (c = b) && P x
  | _ => false

theorem mem_of_isDown {b : CInt} {P : Semaphore → Bool} {l : List Entry}
    (h : l.any (Entry.isDown b P) = true) : ∃ x, Entry.down b x ∈ l ∧ P x = true := by
  obtain ⟨e, he, hd⟩ := List.any_eq_true.mp h
  cases e with
  | down c x =>
    rw [Entry.isDown, Bool.and_eq_true, decide_eq_true_eq] at hd
    obtain ⟨rfl, hP⟩ := hd
    exact ⟨x, he, hP⟩
  | _ => cases hd

theorem down_locks_its_semaphore_once : ∃ s, carefulRun 1 [.alloc 0, .allocReturn 0, .down 0 1] = some s ∧
    ∃ x, Entry.down 1 x ∈ s.hist ∧ x.isUsed = 1 ∧ x.id = 1 := by
  have hrun : (carefulRun 1 [.alloc 0, .allocReturn 0, .down 0 1]).any
      (fun s => s.hist.any (Entry.isDown 1 (fun _ => true))) = true := by decide
  obtain ⟨s, hs, hany⟩ := (Option.any_eq_true _ _).mp hrun
  obtain ⟨x, hx, -⟩ := mem_of_isDown hany
  exact ⟨s, hs, x, hx, down_locks_its_semaphore s (Reach.of_run hs) 1 x hx⟩

/-- Semaphore 1 is freed while process 1 sleeps in bsem_down(1), and its slot goes to
semaphore 2: the next bsem_up(2) lets process 1 lock semaphore 2. -/
theorem down_locks_recycled_slot :
    ∃ s, run step (Sys.init 3) [.alloc 0, .allocReturn 0, .down 0 1, .down 1 1, .free 0 1,
        .alloc 2, .allocReturn 2, .down 2 2, .up 2 2, .scan 2, .scan 2, .retest 1] = some s ∧
      ∃ x, Entry.down 1 x ∈ s.hist ∧ x.id = 2 := by
  have hrun : (run step (Sys.init 3) [.alloc 0, .allocReturn 0, .down 0 1, .down 1 1, .free 0 1,
      .alloc 2, .allocReturn 2, .down 2 2, .up 2 2, .scan 2, .scan 2, .retest 1]).any
      (fun s => s.hist.any (Entry.isDown 1 (fun x => decide (x.id = 2)))) = true := by decide
  obtain ⟨s, hs, hany⟩ := (Option.any_eq_true _ _).mp hrun
  obtain ⟨x, hx, hid⟩ := mem_of_isDown hany
  exact ⟨s, hs, x, hx, of_decide_eq_true hid⟩

/-- In a careful run a sleeper's slot is in use and locked, or a bsem_up of it is in wakeup. -/
theorem sleeper_not_stranded (s : Sys n) (h : Reach step Careful (Sys.init n) s) (p : Fin n) (b : CInt)
    (i : Slot) (hp : s.pc p = .sleeping b i) :
    ((s.sem i).isUsed = 1 ∧ (s.sem i).isLocked = 1) ∨ ∃ q k, s.pc q = .waking i k := by
  have hs := waitInv_reach h
  rcases hs.covered p b i hp with hl | ⟨q, k, hq, -⟩
  · exact Or.inl ⟨(hs.waiter p b i (Or.inl hp)).1, hl⟩
  · exact Or.inr ⟨q, k, hq⟩

theorem sleeper_not_stranded_locked : ∃ s, carefulRun 2 [.alloc 0, .allocReturn 0, .down 0 1, .down 1 1] = some s ∧
      s.pc 1 = .sleeping 1 0 ∧
      (((s.sem 0).isUsed = 1 ∧ (s.sem 0).isLocked = 1) ∨ ∃ q k, s.pc q = .waking 0 k) := by
  have hrun : (carefulRun 2 [.alloc 0, .allocReturn 0, .down 0 1, .down 1 1]).any
      (fun s => decide (s.pc 1 = .sleeping 1 0)) = true := by decide
  obtain ⟨s, hs, hp⟩ := (Option.any_eq_true _ _).mp hrun
  have hp' := of_decide_eq_true hp
  exact ⟨s, hs, hp', sleeper_not_stranded s (Reach.of_run hs) 1 1 0 hp'⟩

/-- bsem_free takes the slot from under the process that sleeps on it. -/
theorem sleeper_stranded_by_free :
    ∃ s, run step (Sys.init 2) [.alloc 0, .allocReturn 0, .down 0 1, .down 1 1, .free 0 1] = some s ∧
      s.pc 1 = .sleeping 1 0 ∧ (s.sem 0).isUsed = 0 ∧ ∀ q i k, s.pc q ≠ .waking i k := by
  have hrun : (run step (Sys.init 2) [.alloc 0, .allocReturn 0, .down 0 1, .down 1 1, .free 0 1]).any
      (fun s => decide (s.pc 0 = .idle) && decide (s.pc 1 = .sleeping 1 0) &&
        decide ((s.sem 0).isUsed = 0)) = true := by decide
  obtain ⟨s, hs, hp⟩ := (Option.any_eq_true _ _).mp hrun
  simp only [Bool.and_eq_true, decide_eq_true_eq] at hp
  obtain ⟨⟨h0, h1⟩, hu⟩ := hp
  refine ⟨s, hs, h1, hu, fun q i k hq => ?_⟩
  fin_cases q
  · exact absurd (h0.symm.trans hq) (by simp)
  · exact absurd (h1.symm.trans hq) (by simp)

/-- After a careful run a call with an id that no slot in use has changes nothing and returns,
bsem_down(0) apart. -/
theorem unallocated_calls (s : Sys n) (h : Reach step Careful (Sys.init n) s) :
    (∀ i, (s.sem i).isUsed = 0 → (s.sem i).id = 0 ∧ (s.sem i).isLocked = 0) ∧
    ∀ p b, s.pc p = .idle → (∀ i, (s.sem i).isUsed = 1 → (s.sem i).id ≠ b) →
      step s (.up p b) = some s ∧ step s (.free p b) = some s ∧
      (step s (.down p b) = some s ↔ (b = 0 → ∀ i, (s.sem i).isUsed ≠ 0)) := by
  have hs := waitInv_reach h
  refine ⟨fun i hi => by rw [hs.unused i hi]; exact ⟨rfl, rfl⟩, fun p b hp hb => ?_⟩
  have hfree {i : Slot} (hi : (s.sem i).id = b) : s.sem i = ⟨0, 0, 0⟩ :=
    hs.unused i ((hs.used i).resolve_right fun hu => hb i hu hi)
  refine ⟨?_, ?_, ?_⟩
  · -- a slot with this id is free, so it is not locked
    have hnone : s.find (fun x => decide (x.id = b) && decide (x.isLocked = 1)) = none := by
      rw [find_eq_none]
      intro i
      by_cases hi : (s.sem i).id = b
      · simp [hfree hi]
      · simp [hi]
    simp [step, hp, bsemUp, hnone]
  · simp only [step, hp, ↓reduceIte, bsemFree, Option.some.injEq]
    split
    · rename_i i hi
      have hz := hfree (slotOf_id hi)
      rw [Sys.setSem, ← hz, Function.update_eq_self]
    · rfl
  simp only [step, hp, ↓reduceIte, bsemDown, Option.some.injEq]
  split
  · rename_i i hi
    have hz := hfree (slotOf_id hi)
    have hb0 : b = 0 := by rw [← slotOf_id hi, hz]
    have hl : (s.sem i).isLocked ≠ 1 := by simp [hz]
    rw [downLoop, if_neg hl]
    constructor
    · intro he
      have hh := congrArg (fun u => u.hist.length) he
      simp [Sys.setPc, Sys.log, Sys.setSem] at hh
    · intro hall
      exact absurd (by rw [hz]) (hall hb0 i)
  · rename_i hnone
    refine iff_of_true rfl ?_
    rintro rfl i hi
    exact slotOf_eq_none.mp hnone i (by rw [hs.unused i hi])

theorem unallocated_calls_at_start : step (Sys.init 1) (.up 0 7) = some (Sys.init 1) ∧
    step (Sys.init 1) (.free 0 7) = some (Sys.init 1) ∧
    step (Sys.init 1) (.down 0 7) = some (Sys.init 1) := by
  obtain ⟨-, hcalls⟩ := unallocated_calls (Sys.init 1) Reach.start
  obtain ⟨hup, hfree, hdown⟩ := hcalls 0 7 rfl (fun i hi => absurd (show (0 : ℤ) = 1 from hi) (by decide))
  exact ⟨hup, hfree, hdown.mpr (fun h7 => absurd h7 (by decide))⟩

/-- bsem_down(0) locks a slot that is not in use, and the next one blocks. -/
theorem down_zero_locks_free_slot : (∀ i, ((Sys.init 1).sem i).isUsed = 0) ∧
    ∃ s, run step (Sys.init 1) [.down 0 0, .down 0 0] = some s ∧ s.sem 0 = ⟨0, 1, 0⟩ ∧ s.pc 0 = .sleeping 0 0 := by
  have hrun : (run step (Sys.init 1) [.down 0 0, .down 0 0]).any
      (fun s => decide (s.sem 0 = ⟨0, 1, 0⟩) && decide (s.pc 0 = .sleeping 0 0)) = true := by
    decide
  obtain ⟨s, hs, hp⟩ := (Option.any_eq_true _ _).mp hrun
  simp only [Bool.and_eq_true, decide_eq_true_eq] at hp
  exact ⟨fun _ => rfl, s, hs, hp⟩

end Xv6.Bsem
