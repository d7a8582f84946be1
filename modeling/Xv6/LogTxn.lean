import Xv6.LogReserve

/-! Processes in begin_op, log_write and end_op in any order. What a call does under log.lock
is one step; commit runs without the lock, one block write at a time, while other processes
call begin_op, sleep and wake up. -/
namespace Xv6.Logging
open Function Runs List

/-- Where a process is. `asleep` and `woken` are in begin_op, `inOp` is between begin_op and
end_op, and the stages from `commit` on are those of the end_op that commits: the test at
the start of commit, write_log, write_head, install_trans, the assignment to lh.n, the second
write_head and the last section of end_op. -/
inductive Stage where
  | out
  | asleep
  | woken
  | inOp
  | commit
  | copy (tail : ℕ)
  | head
  | install (tail : ℕ)
  | clear
  | erase
  | finish
  deriving DecidableEq

/-- An operation from its begin_op on, with the blocks it has passed to log_write. -/
structure Op where
  proc : ℕ
  blocks : List ℕ
  ended : Bool
  deriving DecidableEq

/-- The disk writes of a commit: a block copied to the log, a header that lists blocks, and a
block written to its home location. -/
inductive Write where
  | log (b : ℕ)
  | head (bs : List ℕ)
  | home (b : ℕ)
  deriving DecidableEq

structure Commit where
  writes : List Write
  group : List Op
  deriving DecidableEq

/-- The log and the processes. `group` are the operations begun since the last commit,
`writes` the writes of the commit under way and `commits` the commits so far. -/
structure Txn where
  log : Log
  stage : ℕ → Stage
  panic : Option Panic
  group : List Op
  writes : List Write
  commits : List Commit

inductive TxnEvent where
  | begin (p : ℕ)
  | wake (p : ℕ)
  | retry (p : ℕ)
  | logWrite (p b : ℕ)
  | endOp (p : ℕ)
  | turn (p : ℕ)

def Op.logs (p b : ℕ) (o : Op) : Op :=
  if o.proc = p ∧ o.ended = false then { o with blocks := o.blocks ++ [b] } else o

def Op.ends (p : ℕ) (o : Op) : Op := if o.proc = p then { o with ended := true } else o

def beginLoop (s : Txn) (p : ℕ) : Txn :=
  match beginOp s.log with
  | some l => { s with
      log := l
      stage := update s.stage p .inOp
      group := s.group ++ [⟨p, [], false⟩] }
  | none => { s with stage := update s.stage p .asleep }

def Txn.goto (s : Txn) (p : ℕ) (c : Stage) (ws : List Write) : Txn :=
  { s with stage := update s.stage p c, writes := s.writes ++ ws }

def commitTurn (s : Txn) (p : ℕ) : Option Txn :=
  match s.stage p with
  | .commit => some (s.goto p (if s.log.lh.length > 0 then .copy 0 else .finish) [])
  | .copy k => some (match s.log.lh[k]? with
    | some b => s.goto p (.copy (k+1)) [.log b]
    | none => s.goto p .head [])
  | .head => some (s.goto p (.install 0) [.head s.log.lh])
  | .install k => some (match s.log.lh[k]? with
    | some b => s.goto p (.install (k+1)) [.home b]
    | none => s.goto p .clear [])
  | .clear => some { s.goto p .erase [] with log := { s.log with lh := [] } }
  | .erase => some (s.goto p .finish [.head s.log.lh])
  | .finish => some { s with
      log := endCommit s.log
      stage := update s.stage p .out
      group := []
      writes := []
      commits := s.commits ++ [⟨s.writes, s.group⟩] }
  | _ => none

def logWriteStep (s : Txn) (p b : ℕ) : Txn :=
  match logWrite s.log b with
  | .ok l => { s with log := l, group := s.group.map (Op.logs p b) }
  | .error e => { s with panic := some e }

def endOpStep (s : Txn) (p : ℕ) : Txn :=
  match endOp s.log with
  | .ok (l, doCommit) => { s with
      log := l
      stage := update s.stage p (if doCommit then .commit else .out)
      group := s.group.map (Op.ends p) }
  | .error e => { s with panic := some e }

-- wakeup(&log) and every other reason to wake up are the event wake
def txnStep (s : Txn) (e : TxnEvent) : Option Txn :=
  if s.panic.isSome then none else
  match e with
  | .begin p => if s.stage p = .out then some (beginLoop s p) else none
  | .wake p =>
    if s.stage p = .asleep then some { s with stage := update s.stage p .woken } else none
  | .retry p => if s.stage p = .woken then some (beginLoop s p) else none
  | .logWrite p b => if s.stage p = .inOp then some (logWriteStep s p b) else none
  | .endOp p => if s.stage p = .inOp then some (endOpStep s p) else none
  | .turn p => commitTurn s p

def initialTxn (start size : ℕ) : Txn := ⟨⟨start, size, 0, false, []⟩, fun _ => .out, none, [], [], []⟩

/-! What holds between two steps of the operations: no commit is under way and the header
lists what they have logged, or they have all ended and one process commits that list. -/

def Stage.commits : Stage → Bool
  | .out => false
  | .asleep => false
  | .woken => false
  | .inOp => false
  | _ => true

def Lists (bs : List ℕ) (group : List Op) : Prop := ∀ b, b ∈ bs ↔ ∃ o ∈ group, b ∈ o.blocks

def commitWrites (bs : List ℕ) : List Write :=
  if bs = [] then [] else bs.map .log ++ [.head bs] ++ bs.map .home ++ [.head []]

/-- The commit was of the blocks of its operations, and they had all ended. -/
def Commit.Complete (c : Commit) : Prop := (∀ o ∈ c.group, o.ended = true) ∧
    ∃ bs, bs.Nodup ∧ Lists bs c.group ∧ c.writes = commitWrites bs

inductive Phase (bs : List ℕ) : Stage → List ℕ → List Write → Prop
  | commit : Phase bs .commit bs []
  | copy (k : ℕ) (hne : bs ≠ []) : Phase bs (.copy k) bs ((bs.take k).map .log)
  | head (hne : bs ≠ []) : Phase bs .head bs (bs.map .log)
  | install (k : ℕ) (hne : bs ≠ []) :
      Phase bs (.install k) bs (bs.map .log ++ [.head bs] ++ (bs.take k).map .home)
  | clear (hne : bs ≠ []) : Phase bs .clear bs (bs.map .log ++ [.head bs] ++ bs.map .home)
  | erase (hne : bs ≠ []) : Phase bs .erase [] (bs.map .log ++ [.head bs] ++ bs.map .home)
  | finish : Phase bs .finish [] (commitWrites bs)

inductive Progress (bs : List ℕ) (s : Txn) : Prop
  | quiet (hc : s.log.committing = false) (hlh : s.log.lh = bs) (hw : s.writes = [])
      (hno : ∀ p, (s.stage p).commits = false)
  | busy (p : ℕ) (hc : s.log.committing = true) (hall : ∀ o ∈ s.group, o.ended = true)
      (hph : Phase bs (s.stage p) s.log.lh s.writes) (hno : ∀ q, q ≠ p → (s.stage q).commits = false)

def Op.runs (o : Op) : Bool := !o.ended

def Op.runsBy (p : ℕ) (o : Op) : Bool := decide (o.proc = p) && !o.ended

structure GroupInv (s : Txn) : Prop where
  panic : s.panic ≠ some .logCommitting
  outstanding : s.log.outstanding = (s.group.countP Op.runs : ℕ)
  mine : ∀ p, s.group.countP (Op.runsBy p) = if s.stage p = .inOp then 1 else 0
  progress : ∃ bs, bs.Nodup ∧ Lists bs s.group ∧ Progress bs s
  commits : ∀ c ∈ s.commits, c.Complete

section Ops
variable {g : List Op} {p q b : ℕ}

theorem runs_logs (o : Op) : (o.logs p b).runs = o.runs ∧ (o.logs p b).runsBy q = o.runsBy q := by
  unfold Op.logs
  split_ifs <;> exact ⟨rfl, rfl⟩

theorem countP_runs_logs : (g.map (Op.logs p b)).countP Op.runs = g.countP Op.runs := by
  rw [countP_map]
  exact countP_congr (fun o _ => by simp [(runs_logs (p := p) (q := 0) (b := b) o).1])

theorem countP_runsBy_logs : (g.map (Op.logs p b)).countP (Op.runsBy q) = g.countP (Op.runsBy q) := by
  rw [countP_map]
  exact countP_congr (fun o _ => by simp [(runs_logs (p := p) (q := q) (b := b) o).2])

theorem countP_runs_ends : (g.map (Op.ends p)).countP Op.runs + g.countP (Op.runsBy p) = g.countP Op.runs := by
  induction g with
  | nil => rfl
  | cons o =>
    simp only [map_cons, countP_cons]
    have ho : (if (o.ends p).runs = true then 1 else 0) + (if o.runsBy p = true then 1 else 0)
        = if o.runs = true then 1 else 0 := by
      by_cases hp : o.proc = p <;> cases he : o.ended <;> simp [Op.ends, Op.runs, Op.runsBy, hp, he]
    omega

theorem countP_runsBy_ends : (g.map (Op.ends p)).countP (Op.runsBy q) =
    if q = p then 0 else g.countP (Op.runsBy q) := by
  rw [countP_map]
  split_ifs with hqp
  · rw [countP_eq_zero]
    intro o _
    by_cases hp : o.proc = p <;> simp [Op.ends, Op.runsBy, hp, hqp]
  apply countP_congr
  intro o _
  by_cases hp : o.proc = p
  · have hne : o.proc ≠ q := fun h => hqp (h.symm.trans hp)
    simp [Op.ends, Op.runsBy, hp, Ne.symm hqp]
  · simp [Op.ends, Op.runsBy, hp]

variable {bs : List ℕ} {c : Stage}

theorem lists_append_new (h : Lists bs g) : Lists bs (g ++ [⟨p, [], false⟩]) := by
  intro c
  rw [h c]
  simp

theorem lists_ends (h : Lists bs g) : Lists bs (g.map (Op.ends p)) := by
  intro c
  rw [h c]
  have hsame (o : Op) : (o.ends p).blocks = o.blocks := by
    unfold Op.ends
    split_ifs <;> rfl
  simp [hsame]

theorem lists_logs (h : Lists bs g) (hp : 0 < g.countP (Op.runsBy p)) :
    Lists (if b ∈ bs then bs else bs ++ [b]) (g.map (Op.logs p b)) := by
  obtain ⟨o, ho, hrun⟩ := countP_pos_iff.mp hp
  have hown : o.proc = p ∧ o.ended = false := by simpa [Op.runsBy] using hrun
  have hmem (c : ℕ) : c ∈ (if b ∈ bs then bs else bs ++ [b]) ↔ c ∈ bs ∨ c = b := by
    split_ifs with hb
    · exact ⟨Or.inl, fun hc => hc.elim id (fun he => he ▸ hb)⟩
    · simp
  have hblocks (x : Op) (c : ℕ) : c ∈ (x.logs p b).blocks ↔ c ∈ x.blocks ∨ (c = b ∧ x.proc = p ∧ x.ended = false) := by
    unfold Op.logs
    split_ifs with hx
    · simp [hx]
    · simp only [hx, and_false, or_false]
  intro c
  rw [hmem, h c]
  simp only [mem_map, exists_exists_and_eq_and, hblocks]
  constructor
  · rintro (⟨x, hx, hc⟩ | rfl)
    · exact ⟨x, hx, Or.inl hc⟩
    · exact ⟨o, ho, Or.inr ⟨rfl, hown⟩⟩
  · rintro ⟨x, hx, hc | ⟨rfl, -⟩⟩
    · exact Or.inl ⟨x, hx, hc⟩
    · exact Or.inr rfl

end Ops

section Step
variable {s t : Txn} {p : ℕ}

theorem commits_update {f : ℕ → Stage} {q : ℕ} (hq : (f q).commits = false)
    (hc : c.commits = false) : (update f p c q).commits = false := by
  by_cases hqp : q = p
  · rw [hqp, update_self, hc]
  · rwa [update_of_ne hqp]

theorem Phase.commits {lh : List ℕ} {ws : List Write} (h : Phase bs c lh ws) : c.commits = true := by cases h <;> rfl

theorem Progress.of_stage (h : Progress bs s) (hp : (s.stage p).commits = false)
    (hc : c.commits = false) : Progress bs { s with stage := update s.stage p c } := by
  cases h with
  | quiet hcom hlh hw hno => exact Progress.quiet hcom hlh hw (fun q => commits_update (hno q) hc)
  | busy r hcom hall hph hno =>
    have hrp : r ≠ p := by
      rintro rfl
      rw [hph.commits] at hp
      cases hp
    refine Progress.busy r hcom hall ?_ (fun q hq => commits_update (hno q hq) hc)
    simpa only [update_of_ne hrp] using hph

theorem GroupInv.begin_step (hs : GroupInv s) (hp : s.stage p = .out ∨ s.stage p = .woken) :
    GroupInv (beginLoop s p) := by
  have hout : s.stage p ≠ .inOp ∧ (s.stage p).commits = false := by
    rcases hp with hp | hp <;> rw [hp] <;> exact ⟨by simp, rfl⟩
  obtain ⟨bs, hnd, hlists, hset⟩ := hs.progress
  unfold beginLoop
  cases hb : beginOp s.log with
  | none =>
    refine ⟨hs.panic, hs.outstanding, fun q => ?_, ⟨bs, hnd, hlists, hset.of_stage hout.2 rfl⟩, hs.commits⟩
    rw [hs.mine q]
    by_cases hqp : q = p
    · subst hqp
      simp [hout.1]
    · simp [update_of_ne hqp]
  | some =>
    obtain ⟨hc, -, rfl⟩ := beginOp_eq_some hb
    refine ⟨hs.panic, ?_, fun q => ?_, ⟨bs, hnd, lists_append_new hlists, ?_⟩, hs.commits⟩
    · simp [hs.outstanding, countP_append, Op.runs]
    · simp only [countP_append, hs.mine q]
      by_cases hqp : q = p
      · subst hqp
        simp [hout.1, Op.runsBy]
      · simp [update_of_ne hqp, Op.runsBy, Ne.symm hqp]
    -- begin_op gets through only while nobody commits
    cases hset with
    | quiet hcom hlh hw hno => exact Progress.quiet hcom hlh hw (fun q => commits_update (hno q) rfl)
    | busy r hcom =>
      rw [hc] at hcom
      cases hcom

theorem GroupInv.quiet_of_inOp (hs : GroupInv s) (hp : s.stage p = .inOp) :
    s.log.committing = false ∧ s.log.lh.Nodup ∧ Lists s.log.lh s.group ∧ s.writes = [] ∧
      (∀ q, (s.stage q).commits = false) ∧ s.group.countP (Op.runsBy p) = 1 := by
  have hmine : s.group.countP (Op.runsBy p) = 1 := by rw [hs.mine p, if_pos hp]
  obtain ⟨bs, hnd, hlists, hset⟩ := hs.progress
  cases hset with
  | quiet hc hlh hw hno => exact ⟨hc, hlh ▸ hnd, hlh ▸ hlists, hw, hno, hmine⟩
  | busy r hc hall =>
    obtain ⟨o, ho, hrun⟩ := countP_pos_iff.mp (hmine ▸ Nat.one_pos)
    simp [Op.runsBy, hall o ho] at hrun

theorem GroupInv.logWrite_step (hs : GroupInv s) (hp : s.stage p = .inOp) (b : ℕ) : GroupInv (logWriteStep s p b) := by
  obtain ⟨hc, hnd, hlists, hw, hno, hmine⟩ := hs.quiet_of_inOp hp
  unfold logWriteStep
  cases hl : logWrite s.log b with
  | error e =>
    have hother : e ≠ .logCommitting := by
      rintro rfl
      unfold logWrite at hl
      split_ifs at hl <;> cases hl
    have hset : Progress s.log.lh { s with panic := some e } := Progress.quiet hc rfl hw hno
    exact ⟨fun h => hother (Option.some.inj h), hs.outstanding, hs.mine, ⟨_, hnd, hlists, hset⟩, hs.commits⟩
  | ok =>
    obtain ⟨-, -, rfl⟩ := logWrite_eq_ok hl
    refine ⟨hs.panic, ?_, fun q => ?_, ⟨_, ?_, lists_logs hlists (by omega), ?_⟩, hs.commits⟩
    · rw [countP_runs_logs]
      exact hs.outstanding
    · rw [countP_runsBy_logs]
      exact hs.mine q
    · split_ifs with hb
      · exact hnd
      · simpa using hnd.append (nodup_singleton b) (by simpa using hb)
    · exact Progress.quiet hc rfl hw hno

theorem GroupInv.endOp_step (hs : GroupInv s) (hp : s.stage p = .inOp) : GroupInv (endOpStep s p) := by
  obtain ⟨hc, hnd, hlists, hw, hno, hmine⟩ := hs.quiet_of_inOp hp
  have hcount := countP_runs_ends (g := s.group) (p := p)
  have hout := hs.outstanding
  have hmine' (x : Stage) (hx : x ≠ .inOp) (q : ℕ) : (s.group.map (Op.ends p)).countP (Op.runsBy q) =
      if update s.stage p x q = .inOp then 1 else 0 := by
    rw [countP_runsBy_ends]
    by_cases hqp : q = p
    · subst hqp
      simp [hx]
    · rw [if_neg hqp, update_of_ne hqp, hs.mine q]
  unfold endOpStep
  rw [endOp, hc]
  simp only [Bool.false_eq_true, ↓reduceIte]
  by_cases h0 : s.log.outstanding - 1 = 0
  · -- the last operation: all of them have ended, and the header is what they logged
    rw [if_pos h0]
    dsimp only
    refine ⟨hs.panic, ?_, hmine' _ (by simp), ⟨s.log.lh, hnd, lists_ends hlists, ?_⟩, hs.commits⟩
    · show s.log.outstanding - 1 = ((s.group.map (Op.ends p)).countP Op.runs : ℕ)
      omega
    refine Progress.busy p rfl ?_ ?_ (fun q hq => ?_)
    · have hzero : (s.group.map (Op.ends p)).countP Op.runs = 0 := by omega
      intro o ho
      simpa [Op.runs] using countP_eq_zero.mp hzero o ho
    · simpa [hw] using @Phase.commit s.log.lh
    · simpa only [update_of_ne hq] using hno q
  · rw [if_neg h0]
    dsimp only
    refine ⟨hs.panic, ?_, hmine' _ (by simp), ⟨s.log.lh, hnd, lists_ends hlists, ?_⟩, hs.commits⟩
    · show s.log.outstanding - 1 = ((s.group.map (Op.ends p)).countP Op.runs : ℕ)
      omega
    · exact Progress.quiet rfl rfl hw (fun q => commits_update (hno q) rfl)

end Step

end Xv6.Logging
