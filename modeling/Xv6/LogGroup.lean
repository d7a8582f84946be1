import Xv6.LogTxn

/-! A commit, stage by stage: it writes the blocks of the operations begun since the one
before it, all of them ended. -/
namespace Xv6.Logging
open Function Runs List

section Step
variable {s t : Txn} {p : ℕ}

theorem take_succ_of_getElem? {bs : List ℕ} {k b : ℕ} (h : bs[k]? = some b) : bs.take (k+1) = bs.take k ++ [b] := by
  rw [take_add_one, h]
  rfl

theorem goto_eq {c : Stage} {ws : List Write} (ht : some (s.goto p c ws) = some t) :
    t = { s.goto p c ws with log := { s.log with lh := s.log.lh } } :=
  (Option.some.inj ht).symm

theorem Phase.turn {bs : List ℕ} (h : Phase bs (s.stage p) s.log.lh s.writes)
    (hfin : s.stage p ≠ .finish) (ht : commitTurn s p = some t) :
    ∃ c ws lh, t = { s.goto p c ws with log := { s.log with lh := lh } } ∧ Phase bs c lh (s.writes ++ ws) := by
  unfold commitTurn at ht
  have hgoto := @goto_eq s t p
  generalize hc : s.stage p = c at h hfin ht
  generalize s.log.lh = lh at h ht hgoto
  generalize s.writes = ws at h
  cases h with
  | commit =>
    refine ⟨_, _, _, hgoto ht, ?_⟩
    split_ifs with hlen
    · exact Phase.copy 0 (ne_nil_of_length_pos hlen)
    · obtain rfl : bs = [] := eq_nil_of_length_eq_zero (by omega)
      exact Phase.finish
  | copy k hne =>
    dsimp only at ht
    cases hk : bs[k]? with
    | some =>
      rw [hk] at ht
      refine ⟨_, _, _, hgoto ht, ?_⟩
      have hnext := Phase.copy (k+1) hne
      rwa [take_succ_of_getElem? hk, map_append] at hnext
    | none =>
      rw [hk] at ht
      refine ⟨_, _, _, hgoto ht, ?_⟩
      rw [take_of_length_le (List.getElem?_eq_none_iff.mp hk), append_nil]
      exact Phase.head hne
  | head hne =>
    refine ⟨_, _, _, hgoto ht, ?_⟩
    simpa using Phase.install 0 hne
  | install k hne =>
    dsimp only at ht
    cases hk : bs[k]? with
    | some =>
      rw [hk] at ht
      refine ⟨_, _, _, hgoto ht, ?_⟩
      have hnext := Phase.install (k+1) hne
      rwa [take_succ_of_getElem? hk, map_append, ← append_assoc] at hnext
    | none =>
      rw [hk] at ht
      refine ⟨_, _, _, hgoto ht, ?_⟩
      rw [take_of_length_le (List.getElem?_eq_none_iff.mp hk), append_nil]
      exact Phase.clear hne
  | clear hne =>
    refine ⟨_, _, [], (Option.some.inj ht).symm, ?_⟩
    simpa using Phase.erase hne
  | erase hne =>
    refine ⟨_, _, _, hgoto ht, ?_⟩
    simpa [commitWrites, hne] using @Phase.finish bs
  | finish => exact absurd rfl hfin

theorem GroupInv.turn_step (hs : GroupInv s) (ht : commitTurn s p = some t) : GroupInv t := by
  have hcommits : (s.stage p).commits = true := by
    unfold commitTurn at ht
    generalize s.stage p = c at ht
    cases c with
    | out | asleep | woken | inOp => cases ht
    | _ => rfl
  obtain ⟨bs, hnd, hlists, hset⟩ := hs.progress
  have hmine (x : Stage) (hx : x ≠ .inOp) (q : ℕ) : s.group.countP (Op.runsBy q) =
      if update s.stage p x q = .inOp then 1 else 0 := by
    rw [hs.mine q]
    by_cases hqp : q = p
    · have hin : s.stage p ≠ .inOp := by
        intro h
        rw [h] at hcommits
        cases hcommits
      simp [hqp, hx, hin]
    · rw [update_of_ne hqp]
  cases hset with
  | quiet hc hlh hw hno =>
    rw [hno p] at hcommits
    cases hcommits
  | busy r hc hall hph hno =>
    obtain rfl : p = r := by
      by_contra hpr
      rw [hno p hpr] at hcommits
      cases hcommits
    by_cases hfin : s.stage p = .finish
    · -- the last section of end_op: the commit is over, and its operations with it
      simp only [commitTurn, hfin, Option.some.injEq] at ht
      subst ht
      have hzero : s.group.countP Op.runs = 0 := countP_eq_zero.mpr (fun o ho => by simp [Op.runs, hall o ho])
      have hwrites : s.log.lh = [] ∧ s.writes = commitWrites bs := by
        rw [hfin] at hph
        generalize s.log.lh = lh at hph
        generalize s.writes = ws at hph
        cases hph
        exact ⟨rfl, rfl⟩
      refine ⟨hs.panic, ?_, fun q => ?_, ⟨[], nodup_nil, by simp [Lists], ?_⟩, ?_⟩
      · simp [endCommit, hs.outstanding, hzero]
      · rw [← hmine .out (by simp) q]
        have hle : s.group.countP (Op.runsBy q) ≤ s.group.countP Op.runs :=
          countP_mono_left (fun o _ h => by simp [Op.runsBy, Op.runs] at h ⊢; exact h.2)
        simp only [countP_nil]
        omega
      · refine Progress.quiet rfl hwrites.1 rfl (fun q => ?_)
        by_cases hqp : q = p
        · simp [hqp, Stage.commits]
        · simpa only [update_of_ne hqp] using hno q hqp
      intro c hc
      rcases mem_append.mp hc with hc | hc
      · exact hs.commits c hc
      · obtain rfl := mem_singleton.mp hc
        exact ⟨hall, bs, hnd, hlists, hwrites.2⟩
    · obtain ⟨c, ws, lh, rfl, hnext⟩ := hph.turn hfin ht
      have hc' : c ≠ .inOp := by
        rintro rfl
        cases hnext
      refine ⟨hs.panic, hs.outstanding, hmine c hc', ⟨bs, hnd, hlists, ?_⟩, hs.commits⟩
      refine Progress.busy p hc hall ?_ (fun q hq => ?_)
      · simpa [Txn.goto] using hnext
      · simpa only [Txn.goto, update_of_ne hq] using hno q hq

theorem GroupInv.step {e : TxnEvent} (hs : GroupInv s) (h : txnStep s e = some t) : GroupInv t := by
  unfold txnStep at h
  split_ifs at h
  cases e with
  | begin =>
    dsimp only at h
    split_ifs at h with hp
    cases h
    exact hs.begin_step (Or.inl hp)
  | wake p =>
    dsimp only at h
    split_ifs at h with hp
    cases h
    obtain ⟨bs, hnd, hlists, hset⟩ := hs.progress
    refine ⟨hs.panic, hs.outstanding, fun q => ?_, ⟨bs, hnd, hlists, hset.of_stage (by rw [hp]; rfl) rfl⟩, hs.commits⟩
    rw [hs.mine q]
    by_cases hqp : q = p
    · simp [hqp, hp]
    · simp [update_of_ne hqp]
  | retry =>
    dsimp only at h
    split_ifs at h with hp
    cases h
    exact hs.begin_step (Or.inr hp)
  | logWrite p b =>
    dsimp only at h
    split_ifs at h with hp
    cases h
    exact hs.logWrite_step hp b
  | endOp =>
    dsimp only at h
    split_ifs at h with hp
    cases h
    exact hs.endOp_step hp
  | turn => exact hs.turn_step h

end Step

theorem groupInv_initial (start size : ℕ) : GroupInv (initialTxn start size) where
  panic := by simp [initialTxn]
  outstanding := rfl
  mine p := by simp [initialTxn]
  progress := ⟨[], nodup_nil, by simp [Lists, initialTxn], Progress.quiet rfl rfl rfl (fun _ => rfl)⟩
  commits := by simp [initialTxn]

theorem GroupInv.committing {s : Txn} (hs : GroupInv s) (hc : s.log.committing = true) :
    s.log.outstanding = 0 ∧ ∀ p, s.stage p ≠ .inOp := by
  refine ⟨?_, fun p hp => ?_⟩
  · obtain ⟨bs, -, -, hset⟩ := hs.progress
    cases hset with
    | quiet hq =>
      rw [hc] at hq
      cases hq
    | busy r _ hall =>
      rw [hs.outstanding, countP_eq_zero.mpr (fun o ho => by simp [Op.runs, hall o ho])]
      rfl
  · have hq := (hs.quiet_of_inOp hp).1
    rw [hc] at hq
    cases hq

theorem GroupInv.nodup {s : Txn} (hs : GroupInv s) : s.log.lh.Nodup := by
  obtain ⟨bs, hnd, -, hset⟩ := hs.progress
  cases hset with
  | quiet _ hlh => exact hlh ▸ hnd
  | busy r _ _ hph =>
    generalize s.log.lh = lh at hph
    generalize s.stage r = c at hph
    generalize s.writes = ws at hph
    cases hph with
    | erase | finish => exact nodup_nil
    | _ => exact hnd

/-- In every order of begin_op, log_write, end_op, sleeps and wakeups, each commit is of the
operations begun since the one before, which have all ended. -/
theorem commits_group_whole_operations (start size : ℕ) (s : Txn)
    (h : Reach txnStep (fun _ _ => True) (initialTxn start size) s) :
    (s.log.committing = true → s.log.outstanding = 0 ∧
      (∀ p t, txnStep s (.begin p) = some t ∨ txnStep s (.retry p) = some t → t.stage p = .asleep) ∧
      (∀ p b, txnStep s (.logWrite p b) = none)) ∧
    s.panic ≠ some .logCommitting ∧ s.log.lh.Nodup ∧
    ∀ c ∈ s.commits, (∀ o ∈ c.group, o.ended = true) ∧
      ∃ bs, bs.Nodup ∧ (∀ b, b ∈ bs ↔ ∃ o ∈ c.group, b ∈ o.blocks) ∧ c.writes = commitWrites bs := by
  have hs : GroupInv s := by
    refine h.invariant (groupInv_initial start size) ?_
    intro t e u ht _ hstep
    exact ht.step hstep
  refine ⟨fun hc => ⟨(hs.committing hc).1, fun p t ht => ?_, fun p b => ?_⟩, hs.panic, hs.nodup, hs.commits⟩
  · have hloop : t = beginLoop s p := by
      rcases ht with ht | ht
      · simp only [txnStep] at ht
        split_ifs at ht
        exact (Option.some.inj ht).symm
      · simp only [txnStep] at ht
        split_ifs at ht
        exact (Option.some.inj ht).symm
    rw [hloop, beginLoop, beginOp, hc]
    simp
  · simp only [txnStep, if_neg ((hs.committing hc).2 p), ite_self]

def twoOps : List TxnEvent :=
  [.begin 0, .begin 1, .logWrite 0 40, .logWrite 1 41, .logWrite 1 40, .endOp 0, .endOp 1, .begin 2] ++
    List.replicate 11 (.turn 1)

theorem commits_group_two_operations : ∃ s, run txnStep (initialTxn 2 logSize) twoOps = some s ∧
    (∃ c, s.commits = [c] ∧ c.group = [⟨0, [40], true⟩, ⟨1, [41, 40], true⟩] ∧
      ∃ bs, bs.Nodup ∧ (∀ b, b ∈ bs ↔ ∃ o ∈ c.group, b ∈ o.blocks) ∧ c.writes = commitWrites bs) ∧
    s.stage 2 = .asleep := by
  have hrun : (run txnStep (initialTxn 2 logSize) twoOps).any (fun s =>
      decide (s.commits.map Commit.group = [[⟨0, [40], true⟩, ⟨1, [41, 40], true⟩]]) &&
        decide (s.stage 2 = .asleep)) = true := by decide
  obtain ⟨s, hs, hp⟩ := (Option.any_eq_true _ _).mp hrun
  simp only [Bool.and_eq_true, decide_eq_true_eq] at hp
  obtain ⟨hgroups, hasleep⟩ := hp
  obtain ⟨-, -, -, hcommits⟩ := commits_group_whole_operations 2 logSize s (reach_of_run hs)
  obtain ⟨c, hc, hgroup⟩ := map_eq_singleton_iff.mp hgroups
  exact ⟨s, hs, ⟨c, hc, hgroup, (hcommits c (by simp [hc])).2⟩, hasleep⟩

/-- While an operation is under way nothing is committed. -/
theorem no_commit_during_operation (start size : ℕ) (s : Txn)
    (h : Reach txnStep (fun _ _ => True) (initialTxn start size) s) (p : ℕ) (hp : s.stage p = .inOp) :
    s.log.committing = false ∧ s.writes = [] ∧ ∀ q, (s.stage q).commits = false := by
  have hs : GroupInv s := h.invariant (groupInv_initial start size) (fun _ _ _ ht _ hstep => ht.step hstep)
  obtain ⟨hc, -, -, hw, hq, -⟩ := hs.quiet_of_inOp hp
  exact ⟨hc, hw, hq⟩

theorem no_commit_after_begin : ∃ s, run txnStep (initialTxn 2 logSize) [.begin 0] = some s ∧ s.writes = [] :=
  ⟨_, rfl, (no_commit_during_operation 2 logSize _ (@reach_of_run _ _ _ _ _ [.begin 0] rfl) 0 rfl).2.1⟩

end Xv6.Logging
