import Xv6.LogModel
import Xv6.Runs
import Mathlib.Algebra.BigOperators.Group.Finset.Basic

/-! Processes running file system operations side by side. begin_op reserves MAXOPBLOCKS
blocks of the header for each operation, but log_write refuses the last of its LOGSIZE
entries on a log of LOGSIZE blocks. -/
namespace Xv6.Logging
open Function Runs List Finset

/-- The processes between begin_op and end_op, with the distinct blocks that each has
passed to log_write. -/
structure Ops where
  log : Log
  active : Finset ℕ
  written : ℕ → Finset ℕ

inductive OpEvent where
  | beginOp (p : ℕ)
  | logWrite (p b : ℕ)
  | endOp (p : ℕ)
  | commitDone

/-- The operation of `p` may log block `b`: it stays within MAXOPBLOCKS distinct blocks. -/
def mayWrite (s : Ops) (p b : ℕ) : Prop := p ∈ s.active ∧ (insert b (s.written p)).card ≤ maxOpBlocks

instance (s : Ops) (p b : ℕ) : Decidable (mayWrite s p b) := inferInstanceAs (Decidable (_ ∧ _))

-- A begin_op that sleeps is a step that cannot be taken yet; so is one after a panic.
def opStep (s : Ops) : OpEvent → Option Ops
  | .beginOp p =>
    if p ∈ s.active then none
    else (beginOp s.log).map (fun l => ⟨l, insert p s.active, update s.written p ∅⟩)
  | .logWrite p b =>
    if mayWrite s p b then
      match logWrite s.log b with
      | .ok l => some ⟨l, s.active, update s.written p (insert b (s.written p))⟩
      | .error _ => none
    else none
  | .endOp p =>
    if p ∈ s.active then
      match endOp s.log with
      | .ok (l, _) => some ⟨l, s.active.erase p, s.written⟩
      | .error _ => none
    else none
  | .commitDone =>
    if s.log.committing then some { s with log := endCommit { s.log with lh := [] } } else none

def initialOps (start size : ℕ) : Ops := ⟨⟨start, size, 0, false, []⟩, ∅, fun _ => ∅⟩

/-- No log_write that an operation may make now panics for lack of room. -/
def HasRoom (s : Ops) : Prop := ∀ p b, mayWrite s p b → logWrite s.log b ≠ .error .tooBigTransaction

def reserved (s : Ops) : ℕ := s.log.lh.length+∑ p ∈ s.active, (maxOpBlocks-(s.written p).card)

/-- begin_op is let through only if one more operation leaves two entries of the log's
`size` blocks unclaimed. -/
def Reserves (s : Ops) : OpEvent → Prop
  | .beginOp _ => reserved s+maxOpBlocks+2 ≤ s.log.size
  | _ => True

theorem sum_update_written (s : Ops) (p b : ℕ) (hp : p ∈ s.active) :
    (∑ q ∈ s.active, (maxOpBlocks-(update s.written p (insert b (s.written p)) q).card)) +
      (maxOpBlocks-(s.written p).card) =
    (∑ q ∈ s.active, (maxOpBlocks-(s.written q).card)) + (maxOpBlocks-(insert b (s.written p)).card) := by
  rw [← add_sum_erase _ _ hp, ← add_sum_erase _ (fun q => maxOpBlocks-(s.written q).card) hp]
  have hrest : ∑ q ∈ s.active.erase p, (maxOpBlocks-(update s.written p (insert b (s.written p)) q).card) =
      ∑ q ∈ s.active.erase p, (maxOpBlocks-(s.written q).card) := by
    apply sum_congr rfl
    intro q hq
    rw [update_of_ne (ne_of_mem_erase hq)]
  rw [hrest, update_self]
  omega

variable {l l' : Log} {b p : ℕ} {s t : Ops} {e : OpEvent}

theorem beginOp_eq_some (h : beginOp l = some l') :
    l.committing = false ∧ (l.lh.length : ℤ)+(l.outstanding+1)*maxOpBlocks ≤ logSize ∧
      l' = { l with outstanding := l.outstanding+1 } := by
  unfold beginOp at h
  split_ifs at h with hc hr
  exact ⟨by simpa using hc, by omega, (Option.some.inj h).symm⟩

theorem logWrite_eq_ok (h : logWrite l b = .ok l') :
    (l.lh.length < logSize ∧ l.lh.length+1 < l.size) ∧ 1 ≤ l.outstanding ∧
      l' = { l with lh := if b ∈ l.lh then l.lh else l.lh ++ [b] } := by
  unfold logWrite at h
  split_ifs at h with hr ho hm
  · cases h
    exact ⟨by omega, by omega, by rw [if_pos hm]⟩
  · cases h
    exact ⟨by omega, by omega, by rw [if_neg hm]⟩

theorem logWrite_tooBig : logWrite l b = .error .tooBigTransaction ↔
      l.lh.length ≥ logSize ∨ (l.lh.length : ℤ) ≥ (l.size : ℤ)-1 := by
  unfold logWrite
  split_ifs with hr
  · exact ⟨fun _ => hr, fun _ => rfl⟩
  all_goals exact ⟨fun h => (by cases h), fun h => absurd h hr⟩

theorem endOp_eq_ok {c : Bool} (h : endOp l = .ok (l', c)) : l.committing = false ∧
      l' = { l with outstanding := l.outstanding-1, committing := decide (l.outstanding-1 = 0) } := by
  unfold endOp at h
  dsimp only at h
  split_ifs at h with hc ho
  · cases h
    exact ⟨by simpa using hc, by simp [ho]⟩
  · cases h
    have hc' : l.committing = false := by simpa using hc
    exact ⟨hc', by simp [ho, hc']⟩

theorem opStep_cases (h : opStep s e = some t) : (∃ p, e = .beginOp p ∧ p ∉ s.active ∧ s.log.committing = false ∧
      (s.log.lh.length : ℤ)+(s.log.outstanding+1)*maxOpBlocks ≤ logSize ∧
      t = ⟨{ s.log with outstanding := s.log.outstanding+1 }, insert p s.active, update s.written p ∅⟩) ∨
    (∃ p b, e = .logWrite p b ∧ mayWrite s p b ∧ (s.log.lh.length < logSize ∧ s.log.lh.length+1 < s.log.size) ∧
      t = ⟨{ s.log with lh := if b ∈ s.log.lh then s.log.lh else s.log.lh ++ [b] }, s.active,
        update s.written p (insert b (s.written p))⟩) ∨
    (∃ p, e = .endOp p ∧ p ∈ s.active ∧ t = ⟨{ s.log with
          outstanding := s.log.outstanding-1, committing := decide (s.log.outstanding-1 = 0) },
        s.active.erase p, s.written⟩) ∨
    (e = .commitDone ∧ s.log.committing = true ∧
      t = { s with log := { s.log with lh := [], committing := false } }) := by
  cases e with
  | beginOp p =>
    simp only [opStep] at h
    split_ifs at h with hp
    obtain ⟨l, hl, ht⟩ := Option.map_eq_some_iff.mp h
    obtain ⟨hc, hr, rfl⟩ := beginOp_eq_some hl
    exact Or.inl ⟨p, rfl, hp, hc, hr, ht.symm⟩
  | logWrite p b =>
    simp only [opStep] at h
    split_ifs at h with hp
    split at h
    · rename_i l hl
      obtain ⟨hr, -, rfl⟩ := logWrite_eq_ok hl
      exact Or.inr (Or.inl ⟨p, b, rfl, hp, hr, (Option.some.inj h).symm⟩)
    · cases h
  | endOp p =>
    simp only [opStep] at h
    split_ifs at h with hp
    split at h
    · rename_i l c hl
      obtain ⟨-, rfl⟩ := endOp_eq_ok hl
      exact Or.inr (Or.inr (Or.inl ⟨p, rfl, hp, (Option.some.inj h).symm⟩))
    · cases h
  | commitDone =>
    simp only [opStep] at h
    split_ifs at h with hc
    exact Or.inr (Or.inr (Or.inr ⟨rfl, hc, (Option.some.inj h).symm⟩))

structure OpsInv (s : Ops) : Prop where
  size : s.log.size = logSize
  outstanding : s.log.outstanding = s.active.card
  idle : s.log.committing = true → s.active = ∅
  budget : ∀ p ∈ s.active, (s.written p).card ≤ maxOpBlocks
  logged : ∀ p ∈ s.active, ∀ b ∈ s.written p, b ∈ s.log.lh
  length : s.log.lh.length < s.log.size

theorem opsInv_initial (start : ℕ) : OpsInv (initialOps start logSize) where
  size := rfl
  outstanding := rfl
  idle := by simp [initialOps]
  budget := by simp [initialOps]
  logged := by simp [initialOps]
  length := by simp [initialOps, logSize, maxOpBlocks]

theorem opsInv_begin (h : OpsInv s) (hp : p ∉ s.active) (hc : s.log.committing = false) :
    OpsInv ⟨{ s.log with outstanding := s.log.outstanding+1 }, insert p s.active, update s.written p ∅⟩ := by
  have hout := h.outstanding
  have hold (q : ℕ) (hq : q ∈ insert p s.active) (hne : q ≠ p) : q ∈ s.active := mem_of_mem_insert_of_ne hq hne
  refine ⟨h.size, ?_, ?_, fun q hq => ?_, fun q hq b hb => ?_, h.length⟩
  · simp only [card_insert_of_notMem hp, hout]
    omega
  · intro hcom
    simp only [hc, Bool.false_eq_true] at hcom
  · dsimp only
    by_cases hqp : q = p
    · simp [hqp]
    · rw [update_of_ne hqp]
      exact h.budget q (hold q hq hqp)
  dsimp only at hb
  by_cases hqp : q = p
  · simp [hqp] at hb
  · rw [update_of_ne hqp] at hb
    exact h.logged q (hold q hq hqp) b hb

theorem opsInv_write (h : OpsInv s) (hp : mayWrite s p b) (hr : s.log.lh.length+1 < s.log.size) :
    OpsInv ⟨{ s.log with lh := if b ∈ s.log.lh then s.log.lh else s.log.lh ++ [b] }, s.active,
      update s.written p (insert b (s.written p))⟩ := by
  have hin (c : ℕ) (hc : c ∈ s.log.lh ∨ c = b) : c ∈ if b ∈ s.log.lh then s.log.lh else s.log.lh ++ [b] := by
    split_ifs with hb
    · rcases hc with hc | rfl
      · exact hc
      · exact hb
    · simpa using hc
  refine ⟨h.size, h.outstanding, h.idle, fun q hq => ?_, fun q hq c hc => ?_, ?_⟩
  · dsimp only
    by_cases hqp : q = p
    · rw [hqp, update_self]
      exact hp.2
    · rw [update_of_ne hqp]
      exact h.budget q hq
  · dsimp only at hc ⊢
    apply hin
    by_cases hqp : q = p
    · rw [hqp, update_self, mem_insert] at hc
      rcases hc with hc | hc
      · exact Or.inr hc
      · exact Or.inl (h.logged p hp.1 c hc)
    · rw [update_of_ne hqp] at hc
      exact Or.inl (h.logged q hq c hc)
  · dsimp only
    split_ifs
    · exact h.length
    · simp only [length_append, length_singleton]
      omega

theorem opsInv_step (h : OpsInv s) (hs : opStep s e = some t) : OpsInv t := by
  have hout := h.outstanding
  obtain ⟨p, -, hp, hc, -, rfl⟩ | ⟨p, b, -, hp, hr, rfl⟩ | ⟨p, -, hp, rfl⟩ | ⟨-, hc, rfl⟩ := opStep_cases hs
  · exact opsInv_begin h hp hc
  · exact opsInv_write h hp hr.2
  · have hpos : 0 < s.active.card := card_pos.mpr ⟨p, hp⟩
    have hold (q : ℕ) (hq : q ∈ s.active.erase p) : q ∈ s.active := mem_of_mem_erase hq
    refine ⟨h.size, ?_, ?_, fun q hq => h.budget q (hold q hq), fun q hq => h.logged q (hold q hq), h.length⟩
    · simp only [card_erase_of_mem hp, hout]
      omega
    intro hz
    have hz' : s.log.outstanding-1 = 0 := by simpa using hz
    apply card_eq_zero.mp
    rw [card_erase_of_mem hp]
    omega
  · have hnone := h.idle hc
    refine ⟨h.size, hout, fun hf => (by cases hf), h.budget, ?_, ?_⟩
    · simp [hnone]
    · have hsz := h.length
      simp only [length_nil]
      omega

theorem reserved_write (h : OpsInv s) (hp : mayWrite s p b) :
    reserved ⟨{ s.log with lh := if b ∈ s.log.lh then s.log.lh else s.log.lh ++ [b] }, s.active,
      update s.written p (insert b (s.written p))⟩ ≤ reserved s ∧
    (b ∉ s.log.lh → reserved ⟨{ s.log with lh := s.log.lh ++ [b] }, s.active,
      update s.written p (insert b (s.written p))⟩ = reserved s) := by
  have hsum := sum_update_written s p b hp.1
  have hcard := hp.2
  have hmono := card_le_card (subset_insert b (s.written p))
  have hnew (hb : b ∉ s.log.lh) : (insert b (s.written p)).card = (s.written p).card+1 :=
    card_insert_of_notMem (fun hm => hb (h.logged p hp.1 b hm))
  have hequal (hb : b ∉ s.log.lh) : reserved ⟨{ s.log with lh := s.log.lh ++ [b] }, s.active,
      update s.written p (insert b (s.written p))⟩ = reserved s := by
    have := hnew hb
    simp only [reserved, length_append, length_singleton]
    omega
  refine ⟨?_, hequal⟩
  split_ifs with hb
  · simp only [reserved]
    omega
  · exact (hequal hb).le

theorem reserved_begin (s : Ops) (hp : p ∉ s.active) (n : ℤ) :
    reserved ⟨{ s.log with outstanding := n }, insert p s.active, update s.written p ∅⟩ = reserved s+maxOpBlocks := by
  have hrest : ∑ q ∈ s.active, (maxOpBlocks-(update s.written p ∅ q).card) =
      ∑ q ∈ s.active, (maxOpBlocks-(s.written q).card) := by
    apply sum_congr rfl
    intro q hq
    rw [update_of_ne (fun he : q = p => hp (he ▸ hq))]
  simp only [reserved, sum_insert hp, hrest, update_self, card_empty]
  omega

theorem reserved_step (hi : OpsInv s) (h : reserved s+2 ≤ s.log.size)
    (hc : Reserves s e) (hs : opStep s e = some t) : reserved t+2 ≤ t.log.size := by
  obtain ⟨p, rfl, hp, -, -, rfl⟩ | ⟨p, b, -, hp, -, rfl⟩ | ⟨p, -, hp, rfl⟩ | ⟨-, -, rfl⟩ := opStep_cases hs
  · rw [reserved_begin s hp]
    exact hc
  · have hw := (reserved_write hi hp).1
    change _ ≤ s.log.size
    omega
  · have hsum := add_sum_erase s.active (fun q => maxOpBlocks-(s.written q).card) hp
    simp only [reserved] at h ⊢
    omega
  · simp only [reserved, length_nil] at h ⊢
    omega

theorem hasRoom_of_reserved (hi : OpsInv s) (h : reserved s+2 ≤ s.log.size) : HasRoom s := by
  intro p b _ hpanic
  have hsize := hi.size
  rw [logWrite_tooBig] at hpanic
  simp only [reserved] at h
  omega

theorem exists_mayWrite (hi : OpsInv s) (hp : p ∈ s.active) : ∃ b, mayWrite s p b := by
  have hbudget := hi.budget p hp
  rcases (s.written p).eq_empty_or_nonempty with he | ⟨b, hb⟩
  · exact ⟨0, hp, by simp [he, maxOpBlocks]⟩
  · exact ⟨b, hp, by rwa [insert_eq_of_mem hb]⟩

/-- With fewer than two entries unclaimed, the active operations can fill the log and run
into the panic, each within its own budget. -/
theorem panic_of_overcommitted (hi : OpsInv s) (hne : s.active.Nonempty) (h : s.log.size ≤ reserved s+1) :
    ∃ es t, (∀ e ∈ es, ∃ p b, e = .logWrite p b) ∧ run opStep s es = some t ∧ ¬ HasRoom t := by
  have hsize := hi.size
  have hlen := hi.length
  induction hk : s.log.size-1-s.log.lh.length generalizing s with
  | zero =>
    obtain ⟨p, hp⟩ := hne
    obtain ⟨b, hb⟩ := exists_mayWrite hi hp
    refine ⟨[], s, by simp, rfl, fun hroom => hroom p b hb ?_⟩
    rw [logWrite_tooBig]
    omega
  | succ k ih =>
    -- some operation has budget left, and a block that is not in the log uses it up
    obtain ⟨p, hp, hleft⟩ : ∃ p ∈ s.active, maxOpBlocks-(s.written p).card ≠ 0 := by
      apply exists_ne_zero_of_sum_ne_zero
      simp only [reserved] at h
      omega
    obtain ⟨b, hb⟩ := Infinite.exists_notMem_finset s.log.lh.toFinset
    rw [mem_toFinset] at hb
    have hmay : mayWrite s p b := by
      have := card_insert_le b (s.written p)
      exact ⟨hp, by omega⟩
    have hcard : 0 < s.active.card := card_pos.mpr ⟨p, hp⟩
    have hout := hi.outstanding
    have hstep : opStep s (.logWrite p b) = some ⟨{ s.log with lh := s.log.lh ++ [b] }, s.active,
        update s.written p (insert b (s.written p))⟩ := by
      have hroom : ¬ (s.log.lh.length ≥ logSize ∨ (s.log.lh.length : ℤ) ≥ (s.log.size : ℤ)-1) := by omega
      have hin : ¬ s.log.outstanding < 1 := by omega
      simp only [opStep, if_pos hmay, logWrite, if_neg hroom, if_neg hin, if_neg hb]
    have hres := (reserved_write hi hmay).2 hb
    obtain ⟨es, t, hes, hrun, ht⟩ := ih (opsInv_step hi hstep) hne (by rw [hres]; exact h) hsize
      (opsInv_step hi hstep).length (by simp only [length_append, length_singleton]; omega)
    refine ⟨.logWrite p b :: es, t, ?_, ?_, ht⟩
    · intro e he
      rcases mem_cons.mp he with rfl | he
      · exact ⟨p, b, rfl⟩
      · exact hes e he
    · rw [run_cons, hstep, Option.bind_some, hrun]

/-- Runs in which begin_op keeps two entries unclaimed never meet the panic; once it lets an
operation through that does not, the operations then active can. -/
theorem log_room_of_reserves (start : ℕ) : (∀ s, Reach opStep Reserves (initialOps start logSize) s → HasRoom s) ∧
    (∀ s p t, Reach opStep (fun _ _ => True) (initialOps start logSize) s →
      opStep s (.beginOp p) = some t → ¬ Reserves s (.beginOp p) →
      ∃ es u, (∀ e ∈ es, ∃ q b, e = .logWrite q b) ∧ run opStep t es = some u ∧ ¬ HasRoom u) := by
  constructor
  · intro s hs
    have hinv : OpsInv s ∧ reserved s+2 ≤ s.log.size := by
      refine hs.invariant (I := fun u => OpsInv u ∧ reserved u+2 ≤ u.log.size)
        ⟨opsInv_initial start, by simp [initialOps, reserved, logSize, maxOpBlocks]⟩ ?_
      intro u e v hu hc hv
      exact ⟨opsInv_step hu.1 hv, reserved_step hu.1 hu.2 hc hv⟩
    exact hasRoom_of_reserved hinv.1 hinv.2
  intro s p t hs ht hnot
  have hinv : OpsInv s := hs.invariant (opsInv_initial start) (fun u e v hu _ hv => opsInv_step hu hv)
  have htinv := opsInv_step hinv ht
  obtain ⟨q, hq, hp, -, -, rfl⟩ | ⟨_, _, hq, -⟩ | ⟨_, hq, -⟩ | ⟨hq, -⟩ := opStep_cases ht
  · apply panic_of_overcommitted htinv ⟨q, mem_insert_self q _⟩
    rw [reserved_begin s hp]
    simp only [Reserves] at hnot
    change s.log.size ≤ _
    omega
  all_goals cases hq

/-- Three operations of ten blocks each on the log that mkfs lays out: the last block of
the third has no room, though begin_op let all three through. -/
def threeOps : List OpEvent := [.beginOp 0, .beginOp 1, .beginOp 2] ++
    (List.range 29).map (fun i => .logWrite (i/10) (100+i))

theorem threeOps_panic : ∃ s, run opStep (initialOps 2 logSize) threeOps = some s ∧
    mayWrite s 2 129 ∧ logWrite s.log 129 = .error .tooBigTransaction := by
  refine ⟨_, rfl, ?_⟩
  decide

end Xv6.Logging
