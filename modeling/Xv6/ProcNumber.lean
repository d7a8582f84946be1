import Xv6.ProcFamily

/-! Every call of allocpid takes the next number, and the pid is that number plus one as an int. -/
namespace Xv6.Sched
open Signal Runs List
variable {κ : Type} {n : ℕ} {s t : Sys κ n}

def pidOf (gen : ℕ) : ℤ := (BitVec.ofNat 32 (gen+1)).toInt

theorem pidOf_inj {g g' : ℕ} (hg : g < 2^31) (hg' : g' < 2^31) (h : pidOf g = pidOf g') : g = g' := by
  have heq := congrArg BitVec.toNat (BitVec.eq_of_toInt_eq h)
  rw [BitVec.toNat_ofNat, BitVec.toNat_ofNat, Nat.mod_eq_of_lt (by omega), Nat.mod_eq_of_lt (by omega)] at heq
  exact Nat.succ.inj heq

structure Numbered (s : Sys κ n) : Prop where
  next : s.nextpid = BitVec.ofNat 32 (s.nextgen+1)
  bound : ∀ i, (s.slot i).state ≠ .unused → (s.slot i).gen < s.nextgen
  distinct : ∀ i j, (s.slot i).state ≠ .unused → (s.slot j).state ≠ .unused → (s.slot i).gen = (s.slot j).gen → i = j
  pid : ∀ i, (s.slot i).state ≠ .unused → (s.slot i).pid = pidOf (s.slot i).gen

theorem numbered_boot : Numbered (Sys.boot κ n) := by
  have hlive {i : Idx n} (hi : ((Sys.boot κ n).slot i).state ≠ .unused) : i = 0 := by
    by_contra h0
    simp [Sys.boot, h0, zeroSlot, zeroProc] at hi
  refine ⟨rfl, fun i hi => ?_, fun i j hi hj _ => (hlive hi).trans (hlive hj).symm, fun i hi => ?_⟩
  · obtain rfl := hlive hi
    simp [Sys.boot, userinit, Slot.alloc]
  · obtain rfl := hlive hi
    simp [Sys.boot, userinit, Slot.alloc, pidOf]

theorem Numbered.pid_inj (hs : Numbered s) (hgen : s.nextgen ≤ 2^31) {i j : Idx n}
    (hi : (s.slot i).state ≠ .unused) (hj : (s.slot j).state ≠ .unused)
    (h : (s.slot i).pid = (s.slot j).pid) : i = j := by
  rw [hs.pid i hi, hs.pid j hj] at h
  have hbi := hs.bound i hi
  have hbj := hs.bound j hj
  exact hs.distinct i j hi hj (pidOf_inj (by omega) (by omega) h)

section
variable [DecidableEq κ] {e : Event κ n}

theorem Effect.occupant (h : Effect s e t) (hc : OnCpu s) (hf : Forking s) {i : Idx n}
    (hi : (t.slot i).state ≠ .unused) :
    ((s.slot i).state ≠ .unused ∧ (t.slot i).gen = (s.slot i).gen ∧ (t.slot i).pid = (s.slot i).pid) ∨
    ((s.slot i).state = .unused ∧ (t.slot i).gen = s.nextgen ∧ (t.slot i).pid = s.nextpid.toInt ∧
      t.nextgen = s.nextgen+1 ∧ ∀ k, k ≠ i → t.slot k = s.slot k) := by
  have hm := h.slotMove i
  generalize t.slot i = q at hm hi
  cases hm with
  | stay => exact Or.inl ⟨hi, rfl, rfl⟩
  | pick _ hj => exact Or.inl ⟨by rw [hj]; decide, rfl, rfl⟩
  | enter => exact Or.inl ⟨hi, rfl, rfl⟩
  | away c hrun q _ _ _ _ ha =>
    have hlive : (s.slot i).state ≠ .unused := by rw [hc.runs hrun]; decide
    cases ha <;> exact Or.inl ⟨hlive, rfl, rfl⟩
  | wake _ hj => exact Or.inl ⟨by rw [hj]; decide, rfl, rfl⟩
  | allocFail => exact absurd rfl hi
  | alloc _ _ _ _ hj hgen hrest => exact Or.inr ⟨hj, rfl, rfl, hgen, hrest⟩
  | setParent => exact Or.inl ⟨hi, rfl, rfl⟩
  | ready c p pid _ hpc => exact Or.inl ⟨by rw [(hf.used p i pid (by rw [hpc]; rfl)).1]; decide, rfl, rfl⟩
  | adopt => exact Or.inl ⟨hi, rfl, rfl⟩
  | reap => exact absurd rfl hi
  | kill _ _ _ _ signum =>
    obtain ⟨hst, hpid, -, -, -, hgen⟩ := kill_eq (s.slot i) signum
    refine Or.inl ⟨?_, hgen, hpid⟩
    rcases hst with hst | ⟨hst, -⟩
    · rwa [hst] at hi
    · rw [hst]
      decide
  | fault => exact Or.inl ⟨hi, rfl, rfl⟩

theorem Effect.counter (h : Effect s e t) : (t.nextgen = s.nextgen ∧ t.nextpid = s.nextpid) ∨
      (t.nextgen = s.nextgen+1 ∧ t.nextpid = s.nextpid+1) := by
  cases h with
  | allocFail | alloc => exact Or.inr ⟨rfl, rfl⟩
  | _ => exact Or.inl ⟨rfl, rfl⟩

theorem Effect.nextgen_le (h : Effect s e t) : s.nextgen ≤ t.nextgen := by
  rcases h.counter with ⟨hg, -⟩ | ⟨hg, -⟩ <;> omega

theorem Numbered.step (hc : OnCpu s) (hf : Forking s) (hs : Numbered s) (h : Effect s e t) : Numbered t where
  next := by
    rcases h.counter with ⟨hg, hp⟩ | ⟨hg, hp⟩
    · rw [hg, hp, hs.next]
    · rw [hg, hp, hs.next, BitVec.ofNat_add (s.nextgen+1) 1]
      rfl
  bound i hi := by
    rcases h.occupant hc hf hi with ⟨hold, hg, -⟩ | ⟨-, hg, -, hnext, -⟩
    · rw [hg]
      exact lt_of_lt_of_le (hs.bound i hold) h.nextgen_le
    · omega
  distinct i j hi hj hij := by
    rcases h.occupant hc hf hi with ⟨hoi, hgi, -⟩ | ⟨-, hgi, -, -, hrest⟩
    · rcases h.occupant hc hf hj with ⟨hoj, hgj, -⟩ | ⟨-, hgj, -⟩
      · exact hs.distinct i j hoi hoj (by rw [← hgi, ← hgj, hij])
      · have := hs.bound i hoi
        omega
    by_contra hne
    rw [hrest j (Ne.symm hne)] at hj hij
    have := hs.bound j hj
    omega
  pid i hi := by
    rcases h.occupant hc hf hi with ⟨hold, hg, hp⟩ | ⟨-, hg, hp, -⟩
    · rw [hg, hp, hs.pid i hold]
    · rw [hg, hp, hs.next, pidOf]

end

/-! How the history grows: with a fork that publishes its child, with an exit and with a wait
that returns a child. -/

def Entry.isSilent : Entry κ n → Bool
  | .alloced _ | .freed _ _ => true
  | _ => false

def Entry.reapedGen : Entry κ n → Option ℕ
  | .reaped gen _ _ _ _ => some gen
  | _ => none

def Sys.reaps (s : Sys κ n) : List ℕ := s.hist.filterMap Entry.reapedGen

inductive HistMove (s t : Sys κ n) : Prop
  | silent (l : List (Entry κ n)) (hl : ∀ x ∈ l, x.isSilent = true) (hist : t.hist = s.hist ++ l)
  | forked (p np : Idx n) (pid : ℤ) (hpc : s.pc p = .forkReady np pid)
      (hist : t.hist = s.hist ++ [.forked (s.slot np).gen pid])
  | exited (c : κ) (k : Idx n) (status : ℤ) (hc : (s.cpu c).phase = .running k)
      (hk : (t.slot k).state = .zombie) (hist : t.hist = s.hist ++ [.exited (s.slot k).gen status])
  | reaped (i k : Idx n) (addr : Bool) (procs : κ → Option (Idx n)) (hk : (s.slot k).parent = some i)
      (hz : (s.slot k).state = .zombie) (hu : (t.slot k).state = .unused)
      (hist : t.hist = s.hist ++ [.reaped (s.slot k).gen (s.slot k).pid ((s.slot k).statusFor addr) i
        (s.slot k).parent] ++ [.freed k procs])

theorem HistMove.kept (h : HistMove s t) {x : Entry κ n} (hx : x ∈ s.hist) : x ∈ t.hist := by
  cases h with
  | silent l _ hist => rw [hist]; exact mem_append_left _ hx
  | forked _ _ _ _ hist => rw [hist]; exact mem_append_left _ hx
  | exited _ _ _ _ _ hist => rw [hist]; exact mem_append_left _ hx
  | reaped _ _ _ _ _ _ _ hist =>
    rw [hist]
    exact mem_append_left _ (mem_append_left _ hx)

variable {gen : ℕ}

theorem HistMove.forked_mem (h : HistMove s t) {pid : ℤ} (hx : Entry.forked gen pid ∈ t.hist) :
    Entry.forked gen pid ∈ s.hist ∨ ∃ p np, s.pc p = .forkReady np pid ∧ gen = (s.slot np).gen := by
  cases h with
  | silent l hl hist =>
    rw [hist, mem_append] at hx
    exact Or.inl (hx.resolve_right fun hmem => by cases hl _ hmem)
  | forked p np pid' hpc hist =>
    rw [hist, mem_append, mem_singleton] at hx
    refine hx.imp_right fun heq => ?_
    obtain ⟨rfl, rfl⟩ := Entry.forked.inj heq
    exact ⟨p, np, hpc, rfl⟩
  | exited _ _ _ _ _ hist => exact Or.inl (by simpa [hist] using hx)
  | reaped _ _ _ _ _ _ _ hist => exact Or.inl (by simpa [hist] using hx)

theorem HistMove.exited_mem (h : HistMove s t) {status : ℤ} (hx : Entry.exited gen status ∈ t.hist) :
    Entry.exited gen status ∈ s.hist ∨ ∃ c k, (s.cpu c).phase = .running k ∧
      (t.slot k).state = .zombie ∧ gen = (s.slot k).gen ∧
      ∀ status', Entry.exited gen status' ∈ t.hist → Entry.exited gen status' ∈ s.hist ∨ status' = status := by
  cases h with
  | silent l hl hist =>
    rw [hist, mem_append] at hx
    exact Or.inl (hx.resolve_right fun hmem => by cases hl _ hmem)
  | forked _ _ _ _ hist => exact Or.inl (by simpa [hist] using hx)
  | exited c k status' hc hk hist =>
    rw [hist, mem_append, mem_singleton] at hx
    refine hx.imp_right fun heq => ?_
    obtain ⟨rfl, rfl⟩ := Entry.exited.inj heq
    refine ⟨c, k, hc, hk, rfl, fun x hx => ?_⟩
    rw [hist, mem_append, mem_singleton] at hx
    exact hx.imp_right fun heq => (Entry.exited.inj heq).2
  | reaped _ _ _ _ _ _ _ hist => exact Or.inl (by simpa [hist] using hx)

theorem HistMove.reaped_mem (h : HistMove s t) {pid : ℤ} {status : Option ℤ} {i : Idx n}
    {parent : Option (Idx n)} (hx : Entry.reaped gen pid status i parent ∈ t.hist) :
    Entry.reaped gen pid status i parent ∈ s.hist ∨ ∃ k addr, (s.slot k).parent = some i ∧
      (s.slot k).state = .zombie ∧ (t.slot k).state = .unused ∧ gen = (s.slot k).gen ∧
      pid = (s.slot k).pid ∧ status = (s.slot k).statusFor addr ∧ parent = (s.slot k).parent := by
  cases h with
  | silent l hl hist =>
    rw [hist, mem_append] at hx
    exact Or.inl (hx.resolve_right fun hmem => by cases hl _ hmem)
  | forked _ _ _ _ hist => exact Or.inl (by simpa [hist] using hx)
  | exited _ _ _ _ _ hist => exact Or.inl (by simpa [hist] using hx)
  | reaped i' k addr procs hk hz hu hist =>
    rw [hist, mem_append, mem_append, mem_singleton, mem_singleton] at hx
    rcases hx with (hx | hx) | hx
    · exact Or.inl hx
    · obtain ⟨rfl, rfl, rfl, rfl, rfl⟩ := Entry.reaped.inj hx
      exact Or.inr ⟨k, addr, hk, hz, hu, rfl, rfl, rfl, rfl⟩
    · cases hx

theorem mem_reaps : gen ∈ s.reaps ↔ ∃ pid status i parent, Entry.reaped gen pid status i parent ∈ s.hist := by
  rw [Sys.reaps, mem_filterMap]
  constructor
  · rintro ⟨x, hx, hg⟩
    cases x with
    | reaped g pid status i parent =>
      cases hg
      exact ⟨pid, status, i, parent, hx⟩
    | _ => cases hg
  · rintro ⟨pid, status, i, parent, hx⟩
    exact ⟨_, hx, rfl⟩

theorem reaps_append {l : List (Entry κ n)} (hist : t.hist = s.hist ++ l) :
    t.reaps = s.reaps ++ l.filterMap Entry.reapedGen := by
  rw [Sys.reaps, hist, filterMap_append]
  rfl

theorem HistMove.reaps (h : HistMove s t) :
    t.reaps = s.reaps ∨ ∃ k, (s.slot k).state = .zombie ∧ t.reaps = s.reaps ++ [(s.slot k).gen] := by
  cases h with
  | silent l hl hist =>
    have hnone : l.filterMap Entry.reapedGen = [] := by
      rw [filterMap_eq_nil_iff]
      intro x hx
      have := hl x hx
      cases x <;> first | rfl | cases this
    rw [reaps_append hist, hnone, append_nil]
    exact Or.inl rfl
  | forked _ _ _ _ hist => exact Or.inl ((reaps_append hist).trans (append_nil _))
  | exited _ _ _ _ _ hist => exact Or.inl ((reaps_append hist).trans (append_nil _))
  | reaped i k addr procs _ hz _ hist =>
    rw [append_assoc] at hist
    exact Or.inr ⟨k, hz, reaps_append hist⟩

variable [DecidableEq κ] {e : Event κ n}

theorem Effect.histMove (h : Effect s e t) : HistMove s t := by
  have hsame (hist : t.hist = s.hist) : HistMove s t := .silent [] (fun _ hx => by cases hx) (by rw [hist, append_nil])
  cases h with
  | away _ c i q w x b l hc _ h =>
    cases h with
    | exit status => exact .exited c i status hc (by simp) rfl
    | _ => exact .silent [] (fun _ hx => by cases hx) rfl
  | allocFail _ c i k q l _ _ _ _ h =>
    refine .silent (l ++ [.freed k (fun c => (s.cpu c).proc)]) (fun x hx => ?_) (append_assoc ..)
    rcases mem_append.mp hx with hx | hx
    · rcases h with ⟨-, rfl⟩ | ⟨-, rfl⟩
      · cases hx
      · rw [mem_singleton.mp hx]
        rfl
    · rw [mem_singleton.mp hx]
      rfl
  | alloc =>
    refine .silent [_] (fun x hx => ?_) rfl
    rw [mem_singleton.mp hx]
    rfl
  | ready _ c i np pid _ hpc => exact .forked i np pid hpc rfl
  | reap _ c i k addr b _ _ hk _ hz => exact .reaped i k addr _ hk hz (by simp [Slot.freeproc]) rfl
  | _ => exact hsame rfl

end Xv6.Sched
