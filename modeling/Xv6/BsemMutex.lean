import Xv6.BsemWait

/-! Without bsem_free the completed downs of a semaphore and the ups that found it locked take
turns. -/
namespace Xv6.Bsem
open Function Runs List
variable {n : ℕ}

def Entry.isDownOf (b : CInt) : Entry → Bool
  | .down c _ => decide (c = b)
  | _ => false

def Entry.isUpOf (b : CInt) : Entry → Bool
  | .up c => decide (c = b)
  | _ => false

/-- The number of bsem_down(b) calls that found `b` and have completed, minus the number
of bsem_up(b) calls that found it locked. -/
def balance (b : CInt) (l : List Entry) : ℤ := l.countP (Entry.isDownOf b)-l.countP (Entry.isUpOf b)

theorem balance_append (b : CInt) (l m : List Entry) : balance b (l ++ m) = balance b l+balance b m := by
  simp only [balance, countP_append]
  push_cast
  ring

theorem balance_down (b c : CInt) (x : Semaphore) : balance b [.down c x] = if c = b then 1 else 0 := by
  by_cases h : c = b <;> simp [balance, Entry.isDownOf, Entry.isUpOf, h]

theorem balance_up (b c : CInt) : balance b [.up c] = if c = b then -1 else 0 := by
  by_cases h : c = b <;> simp [balance, Entry.isDownOf, Entry.isUpOf, h]

variable {b : CInt} {i : Slot}

/-- bsem_free is not called, and the other calls are on nonzero ids. -/
def Nonzero (_ : Sys n) : Event n → Prop
  | .free _ _ => False
  | .down _ b => b ≠ 0
  | .up _ b => b ≠ 0
  | _ => True

instance (s : Sys n) (e : Event n) : Decidable (Nonzero s e) := by
  rcases e with _ | _ | _ | _ | _ | _ | _ | _ <;> dsimp only [Nonzero] <;> infer_instance

theorem sidOf_inj {j : Slot} (h : sidOf i.val = sidOf j.val) : i = j := by
  have hi : i.val < 128 := i.isLt
  have hj : j.val < 128 := j.isLt
  exact Fin.ext (sidOf_inj_of_lt (by omega) (by omega) h)

/-- The state after `k` allocations: the first `k` slots are in use, in order of their ids. -/
structure MutexInv (k : ℕ) (s : Sys n) : Prop where
  nextsid : s.nextsid = sidOf k
  inUse : ∀ i : Slot, i.val < k → (s.sem i).isUsed = 1 ∧ (s.sem i).id = sidOf i.val
  free : ∀ i : Slot, k ≤ i.val → s.sem i = ⟨0, 0, 0⟩
  waiter : ∀ p b i, Waits s p b i → i.val < k ∧ b = sidOf i.val
  bit : ∀ i, (s.sem i).isLocked = 0 ∨ (s.sem i).isLocked = 1
  balanced : ∀ i : Slot, balance (sidOf i.val) s.hist = (s.sem i).isLocked
  others : ∀ b, (∀ i : Slot, sidOf i.val ≠ b) → balance b s.hist = 0
  before : ∀ l, l <+: s.hist → ∀ b, balance b l = 0 ∨ balance b l = 1
  assigned : ∀ b, Entry.assigned b ∈ s.hist → ∃ i : Slot, i.val < k ∧ b = sidOf i.val

section Step
variable {s t : Sys n} {e : Event n} {k : ℕ}

theorem MutexInv.atTest (hs : MutexInv k s) (hc : Nonzero s e) {p : Fin n}
    (h : AtTest s p b i e) : i.val < k ∧ b = sidOf i.val := by
  cases h with
  | found hp hi =>
    have hid := slotOf_id hi
    have hk : i.val < k := by
      by_contra hge
      rw [hs.free i (not_lt.mp hge)] at hid
      exact hc hid.symm
    exact ⟨hk, hid.symm.trans (hs.inUse i hk).2⟩
  | woken hp => exact hs.waiter p b i (Or.inr hp)

theorem MutexInv.waiter_step (hs : MutexInv k s) (hc : Nonzero s e) (h : Effect s e t) {p : Fin n}
    (hw : Waits t p b i) : i.val < k ∧ b = sidOf i.val := by
  rcases h.waits hw with hw | he
  · exact hs.waiter p b i hw
  · exact hs.atTest hc he

theorem HistMove.length_le {l : List Entry} (h : HistMove s e l) : l.length ≤ 1 := by cases h <;> simp

theorem before_append {P : List Entry → Prop} {h l : List Entry} (hb : ∀ m, m <+: h → P m)
    (hx : P (h ++ l)) (hl : l.length ≤ 1) (m : List Entry) (hm : m <+: h ++ l) : P m := by
  rcases l with _ | ⟨x, l⟩
  · rw [append_nil] at hm
    exact hb m hm
  obtain rfl : l = [] := length_eq_zero_iff.mp (by simpa using hl)
  rcases prefix_concat_iff.mp hm with rfl | hm
  · exact hx
  · exact hb m hm

section
variable (hs : MutexInv k s) (hc : Nonzero s e) (h : Effect s e t)
include hs hc h

theorem MutexInv.relock (i : Slot) (v : ℤ) (hsid : t.nextsid = s.nextsid)
    (hsem : t.sem = update s.sem i { s.sem i with isLocked := v })
    (hv : v = 0 ∨ v = 1) (hk : k ≤ i.val → v = 0) (l : List Entry) (hl : t.hist = s.hist ++ l)
    (hbal : ∀ c, balance c l = if c = sidOf i.val then v-(s.sem i).isLocked else 0)
    (hasg : ∀ b, Entry.assigned b ∉ l) : MutexInv k t := by
  have hlen : l.length ≤ 1 := by
    obtain ⟨m, hm, hmove⟩ := h.histMove
    rw [append_cancel_left (hl.symm.trans hm)]
    exact hmove.length_le
  have hkept (j : Slot) : (t.sem j).isUsed = (s.sem j).isUsed ∧ (t.sem j).id = (s.sem j).id := by
    rw [hsem]
    by_cases hj : j = i
    · subst hj
      rw [update_self]
      exact ⟨rfl, rfl⟩
    · rw [update_of_ne hj]
      exact ⟨rfl, rfl⟩
  have hlocked (j : Slot) : (t.sem j).isLocked = if j = i then v else (s.sem j).isLocked := by
    rw [hsem]
    by_cases hj : j = i
    · subst hj
      rw [update_self, if_pos rfl]
    · rw [update_of_ne hj, if_neg hj]
  have hbit (j : Slot) : (t.sem j).isLocked = 0 ∨ (t.sem j).isLocked = 1 := by
    rw [hlocked]
    split_ifs
    · exact hv
    · exact hs.bit j
  have hbalanced (j : Slot) : balance (sidOf j.val) t.hist = (t.sem j).isLocked := by
    rw [hl, balance_append, hs.balanced j, hbal, hlocked]
    by_cases hj : j = i
    · subst hj
      simp
    · have hne : sidOf j.val ≠ sidOf i.val := fun he => hj (sidOf_inj he)
      simp [hj, hne]
  have hothers (b : CInt) (hb : ∀ j : Slot, sidOf j.val ≠ b) : balance b t.hist = 0 := by
    rw [hl, balance_append, hs.others b hb, hbal, if_neg fun he => hb i he.symm, add_zero]
  refine ⟨hsid.trans hs.nextsid, ?_, ?_, fun p b j hw => hs.waiter_step hc h hw, hbit, hbalanced,
    hothers, fun m hm b => ?_, fun b hb => ?_⟩
  · intro j hj
    rw [(hkept j).1, (hkept j).2]
    exact hs.inUse j hj
  · intro j hj
    have hz := hs.free j hj
    have hlz : (t.sem j).isLocked = 0 := by
      rw [hlocked]
      split_ifs with hji
      · exact hk (hji ▸ hj)
      · rw [hz]
    obtain ⟨hu, hid⟩ := hkept j
    rw [hz] at hu hid
    calc t.sem j = ⟨(t.sem j).id, (t.sem j).isLocked, (t.sem j).isUsed⟩ := rfl
      _ = ⟨0, 0, 0⟩ := by rw [hu, hid, hlz]
  · rw [hl] at hm
    refine before_append (P := fun m => balance b m = 0 ∨ balance b m = 1) (fun m hm => hs.before m hm b) ?_ hlen m hm
    rw [← hl]
    by_cases hb : ∃ j : Slot, sidOf j.val = b
    · obtain ⟨j, rfl⟩ := hb
      rw [hbalanced j]
      exact hbit j
    · exact Or.inl (hothers b fun j hj => hb ⟨j, hj⟩)
  · rw [hl, mem_append] at hb
    exact hs.assigned b (hb.resolve_right (hasg b))

theorem MutexInv.quiet (hsid : t.nextsid = s.nextsid) (hsem : t.sem = s.sem) (l : List Entry)
    (hl : t.hist = s.hist ++ l) (hbal : ∀ c, balance c l = 0) (hasg : ∀ b, Entry.assigned b ∉ l) :
    MutexInv k t := by
  refine hs.relock hc h 0 (s.sem 0).isLocked hsid ?_ (hs.bit 0) ?_ l hl ?_ hasg
  · rw [hsem, update_eq_self]
  · intro hk
    rw [hs.free 0 hk]
  · intro c
    rw [hbal c, sub_self, ite_self]

theorem MutexInv.still (hsid : t.nextsid = s.nextsid) (hsem : t.sem = s.sem) (hl : t.hist = s.hist) : MutexInv k t :=
  hs.quiet hc h hsid hsem [] (hl.trans (append_nil _).symm) (fun _ => rfl) (by simp)

end

theorem MutexInv.first_unused (hs : MutexInv k s) (hi : (s.sem i).isUsed = 0)
    (hfirst : ∀ j, j < i → (s.sem j).isUsed ≠ 0) : i.val = k := by
  have hge : ¬ i.val < k := by
    intro hlt
    rw [(hs.inUse i hlt).1] at hi
    cases hi
  have hle : ¬ k < i.val := by
    intro hlt
    refine hfirst ⟨k, hlt.trans i.isLt⟩ hlt ?_
    rw [hs.free ⟨k, hlt.trans i.isLt⟩ le_rfl]
  omega

theorem MutexInv.assign (hs : MutexInv k s) (hc : Nonzero s e) (h : Effect s e t)
    (hi : i.val = k) (hsid : t.nextsid = s.nextsid+1)
    (hsem : t.sem = update s.sem i ⟨s.nextsid, 0, 1⟩)
    (hl : t.hist = s.hist ++ [.assigned s.nextsid]) : MutexInv (k+1) t := by
  have hself : t.sem i = ⟨sidOf i.val, 0, 1⟩ := by rw [hsem, update_self, hs.nextsid, hi]
  have hother (j : Slot) (hj : j ≠ i) : t.sem j = s.sem j := by rw [hsem, update_of_ne hj]
  have hz : s.sem i = ⟨0, 0, 0⟩ := hs.free i hi.ge
  have hbal (b : CInt) : balance b t.hist = balance b s.hist := by
    rw [hl, balance_append, add_eq_left]
    rfl
  have hlock (j : Slot) : (t.sem j).isLocked = (s.sem j).isLocked := by
    by_cases hj : j = i
    · subst hj
      rw [hself, hz]
    · rw [hother j hj]
  refine ⟨?_, ?_, ?_, ?_, fun j => ?_, fun j => ?_, fun b hb => ?_, fun m hm b => ?_, fun b hb => ?_⟩
  · rw [hsid, hs.nextsid, sidOf_succ]
  · intro j hj
    by_cases hji : j = i
    · subst hji
      rw [hself]
      exact ⟨rfl, rfl⟩
    · have hlt : j.val ≠ k := fun he => hji (Fin.ext (he.trans hi.symm))
      rw [hother j hji]
      exact hs.inUse j (by omega)
  · intro j hj
    have hji : j ≠ i := by
      rintro rfl
      omega
    rw [hother j hji]
    exact hs.free j (by omega)
  · intro p b j hw
    obtain ⟨hlt, hb⟩ := hs.waiter_step hc h hw
    exact ⟨hlt.trans (Nat.lt_succ_self k), hb⟩
  · rw [hlock]
    exact hs.bit j
  · rw [hbal, hlock, hs.balanced]
  · rw [hbal, hs.others b hb]
  · rw [hl] at hm
    rcases prefix_concat_iff.mp hm with rfl | hm
    · rw [← hl, hbal]
      exact hs.before _ (prefix_refl _) b
    · exact hs.before m hm b
  · rw [hl, mem_append, mem_singleton] at hb
    rcases hb with hb | hb
    · obtain ⟨j, hj, hbj⟩ := hs.assigned b hb
      exact ⟨j, hj.trans (Nat.lt_succ_self k), hbj⟩
    · refine ⟨i, by omega, ?_⟩
      rw [Entry.assigned.inj hb, hs.nextsid, hi]

theorem MutexInv.step (hs : MutexInv k s) (hc : Nonzero s e) (h : Effect s e t) : ∃ k', MutexInv k' t := by
  cases h with
  | full p hfull => exact ⟨k, hs.quiet hc (.full p hfull) rfl rfl _ rfl (fun _ => rfl) (by simp)⟩
  | assign p i hp hi hfirst =>
    exact ⟨k+1, hs.assign hc (.assign p i hp hi hfirst) (hs.first_unused hi hfirst) rfl rfl rfl⟩
  | allocReturn p i sid hp => exact ⟨k, hs.quiet hc (.allocReturn p i sid hp) rfl rfl _ rfl (fun _ => rfl) (by simp)⟩
  | free => exact hc.elim
  | sleep _ p b i he hl => exact ⟨k, hs.still hc (.sleep e p b i he hl) rfl rfl rfl⟩
  | lock _ p b i he hl =>
    obtain ⟨hk, rfl⟩ := hs.atTest hc he
    have h0 : (s.sem i).isLocked = 0 := (hs.bit i).resolve_right hl
    refine ⟨k, hs.relock hc (.lock e p _ i he hl) i 1 rfl rfl (Or.inr rfl) (by omega) _ rfl ?_ (by simp)⟩
    intro c
    rw [balance_down, h0]
    exact if_congr eq_comm rfl rfl
  | unlock p b i hp hb hl =>
    have hk : i.val < k := by
      by_contra hge
      rw [hs.free i (not_lt.mp hge)] at hl
      cases hl
    refine ⟨k, hs.relock hc (.unlock p b i hp hb hl) i 0 rfl rfl (Or.inl rfl) (fun _ => rfl) _ rfl ?_ (by simp)⟩
    intro c
    rw [balance_up, hl, ← hb, (hs.inUse i hk).2]
    exact if_congr eq_comm rfl rfl
  | turn p q i hp => exact ⟨k, hs.still hc (.turn p q i hp) rfl rfl rfl⟩
  | scanned p i l hp hl => exact ⟨k, hs.still hc (.scanned p i l hp hl) rfl rfl rfl⟩
  | kill q b i hq => exact ⟨k, hs.still hc (.kill q b i hq) rfl rfl rfl⟩
  | noSlot => exact ⟨k, hs⟩

end Step

end Xv6.Bsem
