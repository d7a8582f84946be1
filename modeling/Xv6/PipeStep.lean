import Xv6.PipeModel

/-! What one step of the pipe code can do, and who holds pi->lock. -/
namespace Xv6.Pipes
open Function Runs
variable {n : ℕ}

inductive Enters : Pc → Pc → Prop
  | write (r : ℤ) (m : ℤ) : Enters (.out r) (.writing 0 m 0)
  | read (r : ℤ) (m : ℤ) : Enters (.out r) (.waiting m)
  | back (b : Blocked) : Enters (.woken b) b.back

inductive Calls (pi : Pipe) : Pc → Pc → Prop
  | full (i : ℕ) (m : ℤ) (k : ℕ) (hfull : pi.isFull) (hro : pi.readopen = true) :
      Calls pi (.writing i m k) (.waking .nread 0 (.sleep i m))
  | wrote (i : ℕ) (m : ℤ) (k : ℕ) : Calls pi (.writing i m k) (.waking .nread 0 (.ret i))
  | took (i : ℕ) (m : ℤ) : Calls pi (.reading i m) (.waking .nwrite 0 (.ret i))

inductive Leaves (s : Sys n) (p : Fin n) : Pc → Bool → Prop
  | gone (i : ℕ) (m : ℤ) (k : ℕ) (hp : s.pc p = .writing i m k) (him : (i : ℤ) < m)
      (h : s.pipe.readopen = false ∨ s.killed p = true) : Leaves s p (.out (-1)) s.freed
  | killed (m : ℤ) (hp : s.pc p = .waiting m) : Leaves s p (.out (-1)) s.freed
  | empty (m : ℤ) (hp : s.pc p = .waiting m) (he : s.pipe.isEmpty) (hwo : s.pipe.writeopen = true) :
      Leaves s p (.parking (.reader m)) s.freed
  | asleep (c : Chan) (k i : ℕ) (m : ℤ) (hp : s.pc p = .waking c k (.sleep i m)) (hk : n ≤ k) :
      Leaves s p (.parking (.writer i m)) s.freed
  | ret (c : Chan) (k : ℕ) (r : ℤ) (hp : s.pc p = .waking c k (.ret r)) (hk : n ≤ k) :
      Leaves s p (.out r) s.freed
  | close (c : Chan) (k : ℕ) (hp : s.pc p = .waking c k .close) (hk : n ≤ k) :
      Leaves s p (.out 0) (!s.pipe.readopen && !s.pipe.writeopen)

/-- The effects of a step, one constructor for each way through the code that differs in
what it writes. -/
inductive Effect (s : Sys n) : Event n → Sys n → Prop
  | enter (e : Event n) (p : Fin n) (c : Pc) (hp : Enters (s.pc p) c) (hl : s.lock = none) :
      Effect s e { s with lock := some p, pc := update s.pc p c }
  | closeWrite (p : Fin n) (r : ℤ) (hp : s.pc p = .out r) (hl : s.lock = none) :
      Effect s (.callClose p true) { s with
        pipe := { s.pipe with writeopen := false }
        lock := some p
        pc := update s.pc p (.waking .nread 0 .close) }
  | closeRead (p : Fin n) (r : ℤ) (hp : s.pc p = .out r) (hl : s.lock = none) :
      Effect s (.callClose p false) { s with
        pipe := { s.pipe with readopen := false }
        lock := some p
        pc := update s.pc p (.waking .nwrite 0 .close) }
  | leave (e : Event n) (p : Fin n) (c : Pc) (b : Bool) (h : Leaves s p c b) :
      Effect s e { s with lock := none, freed := b, pc := update s.pc p c }
  | store (p : Fin n) (i : ℕ) (m : ℤ) (k : ℕ) (ch : UInt8) (hp : s.pc p = .writing i m k)
      (hro : s.pipe.readopen = true) (hk : s.killed p = false) (hfull : ¬ s.pipe.isFull) :
      Effect s (.writeTurn p (some ch)) { s with
        pipe := s.pipe.store ch
        pc := update s.pc p (.writing (i+1) m (k+1))
        put := s.put ++ [ch] }
  | take (p : Fin n) (i : ℕ) (m : ℤ) (ok : Bool) (hp : s.pc p = .reading i m)
      (he : ¬ s.pipe.isEmpty) :
      Effect s (.readTurn p ok) { s with
        pipe := { s.pipe with nread := s.pipe.nread+1 }
        pc := update s.pc p (if ok then .reading (i+1) m else .waking .nwrite 0 (.ret i))
        taken := s.taken ++ [s.pipe.next] }
  | call (e : Event n) (p : Fin n) (c : Pc) (hp : Calls s.pipe (s.pc p) c) :
      Effect s e { s with pc := update s.pc p c }
  | copy (p : Fin n) (m : ℤ) (hp : s.pc p = .waiting m) :
      Effect s (.waitTurn p) { s with pc := update s.pc p (.reading 0 m) }
  | turn (p q : Fin n) (c : Chan) (a : After) (hp : s.pc p = .waking c q.val a)
      (hq : (s.pc q).isParking = false) :
      Effect s (.scan p) { s with
        pc := update (update s.pc q ((s.pc q).wake c)) p (.waking c (q.val+1) a) }
  | park (p : Fin n) (b : Blocked) (hp : s.pc p = .parking b) :
      Effect s (.park p) { s with pc := update s.pc p (.sleeping b) }
  | kill (q : Fin n) :
      Effect s (.kill q) { s with killed := update s.killed q true }
  | killSleeper (q : Fin n) (b : Blocked) (hq : s.pc q = .sleeping b) :
      Effect s (.kill q) { s with
        pc := update s.pc q (.woken b)
        killed := update s.killed q true }
  | recycle (q : Fin n) (r : ℤ) (hq : s.pc q = .out r) :
      Effect s (.recycle q) { s with killed := update s.killed q false }

section
variable {s t : Sys n} {p : Fin n}

theorem acquire_effect {e : Event n} {c : Pc} (hp : Enters (s.pc p) c) (h : s.acquire p c = some t) : Effect s e t := by
  unfold Sys.acquire at h
  split_ifs at h with hl
  cases h
  exact Effect.enter e p c hp hl.1

theorem pipeclose_effect {r : ℤ} {b : Bool} (hp : s.pc p = .out r)
    (h : pipeclose s p b = some t) : Effect s (.callClose p b) t := by
  unfold pipeclose at h
  cases b with
  | true =>
    obtain ⟨u, hu, rfl⟩ := Option.map_eq_some_iff.mp h
    unfold Sys.acquire at hu
    split_ifs at hu with hl
    cases hu
    exact Effect.closeWrite p r hp hl.1
  | false =>
    obtain ⟨u, hu, rfl⟩ := Option.map_eq_some_iff.mp h
    unfold Sys.acquire at hu
    split_ifs at hu with hl
    cases hu
    exact Effect.closeRead p r hp hl.1

variable {m : ℤ}

theorem pipewriteTurn_effect {i : ℕ} {k : ℕ} {ch : Option UInt8} (hp : s.pc p = .writing i m k) :
    Effect s (.writeTurn p ch) (pipewriteTurn s p i m k ch) := by
  unfold pipewriteTurn
  split_ifs with him hgone hfull
  · exact Effect.leave _ p _ _ (Leaves.gone i m k hp him hgone)
  · have hro : s.pipe.readopen = true := by simpa using (not_or.mp hgone).1
    exact Effect.call _ p _ (hp ▸ Calls.full i m k hfull hro)
  · have hro : s.pipe.readopen = true := by simpa using (not_or.mp hgone).1
    have hk : s.killed p = false := by simpa using (not_or.mp hgone).2
    cases ch with
    | none => exact Effect.call _ p _ (hp ▸ Calls.wrote i m k)
    | some c => exact Effect.store p i m k c hp hro hk hfull
  · exact Effect.call _ p _ (hp ▸ Calls.wrote i m k)

theorem pipereadWait_effect (hp : s.pc p = .waiting m) : Effect s (.waitTurn p) (pipereadWait s p m) := by
  unfold pipereadWait
  split_ifs with he hk
  · exact Effect.leave _ p _ _ (Leaves.killed m hp)
  · exact Effect.leave _ p _ _ (Leaves.empty m hp he.1 he.2)
  · exact Effect.copy p m hp

theorem pipereadTurn_effect {i : ℕ} {ok : Bool} (hp : s.pc p = .reading i m) :
    Effect s (.readTurn p ok) (pipereadTurn s p i m ok) := by
  unfold pipereadTurn
  by_cases h : (i : ℤ) < m ∧ ¬ s.pipe.isEmpty
  · rw [if_pos h]
    exact Effect.take p i m ok hp h.2
  · rw [if_neg h]
    exact Effect.call _ p _ (hp ▸ Calls.took i m)

theorem wakeupTurn_effect {c : Chan} {k : ℕ} {a : After} (hp : s.pc p = .waking c k a)
    (h : wakeupTurn s p c k a = some t) : Effect s (.scan p) t := by
  unfold wakeupTurn at h
  dsimp only at h
  split_ifs at h with hk hq hpark
  · -- the caller itself is not asleep, so passing over it changes nothing
    cases h
    have hv : p.val = k := by rw [← hq]
    have hturn := Effect.turn p p c a (hv ▸ hp) (by rw [hp]; rfl)
    have hself : (s.pc p).wake c = s.pc p := by rw [hp]; rfl
    rw [hself, update_eq_self, hv] at hturn
    exact hturn
  · cases h
    exact Effect.turn p ⟨k, hk⟩ c a hp (by simpa using hpark)
  · cases h
    have hk := not_lt.mp hk
    cases a with
    | sleep i m => exact Effect.leave _ p _ _ (Leaves.asleep c k i m hp hk)
    | ret r => exact Effect.leave _ p _ _ (Leaves.ret c k r hp hk)
    | close => exact Effect.leave _ p _ _ (Leaves.close c k hp hk)

theorem killProc_effect (h : killProc s p = some t) : Effect s (.kill p) t := by
  unfold killProc at h
  split at h
  · cases h
  · rename_i b hb
    cases h
    exact Effect.killSleeper p b hb
  · cases h
    exact Effect.kill p

end

theorem step_effect {s t : Sys n} {e : Event n} (h : step s e = some t) : Effect s e t := by
  cases e with
  | callWrite p m =>
    simp only [step] at h
    split at h
    · rename_i r hp
      exact acquire_effect (hp ▸ Enters.write r m) h
    · cases h
  | callRead p m =>
    simp only [step] at h
    split at h
    · rename_i r hp
      exact acquire_effect (hp ▸ Enters.read r m) h
    · cases h
  | callClose p b =>
    simp only [step] at h
    split at h
    · rename_i r hp
      exact pipeclose_effect hp h
    · cases h
  | writeTurn p ch =>
    simp only [step] at h
    split at h
    · rename_i i m k hp
      cases h
      exact pipewriteTurn_effect hp
    · cases h
  | waitTurn p =>
    simp only [step] at h
    split at h
    · rename_i m hp
      cases h
      exact pipereadWait_effect hp
    · cases h
  | readTurn p ok =>
    simp only [step] at h
    split at h
    · rename_i i m hp
      cases h
      exact pipereadTurn_effect hp
    · cases h
  | scan p =>
    simp only [step] at h
    split at h
    · rename_i c k a hp
      exact wakeupTurn_effect hp h
    · cases h
  | park p =>
    simp only [step] at h
    split at h
    · rename_i b hp
      cases h
      exact Effect.park p b hp
    · cases h
  | resume p =>
    simp only [step] at h
    split at h
    · rename_i b hp
      exact acquire_effect (hp ▸ Enters.back b) h
    · cases h
  | kill => exact killProc_effect h
  | recycle q =>
    simp only [step] at h
    split at h
    · rename_i r hq
      cases h
      exact Effect.recycle q r hq
    · cases h

/-! The bytes of a pipe come out in the order in which they went in, also after the counters
have wrapped. -/

def Pipe.count (pi : Pipe) : ℕ := (pi.nwrite-pi.nread).toNat

def Pipe.contents (pi : Pipe) : List UInt8 := Ring.window pi.data pi.nread pi.count

theorem pipeSize_dvd : pipeSize ∣ 2^32 := ⟨2^23, by norm_num⟩

theorem Pipe.isFull_iff (pi : Pipe) : pi.isFull ↔ pi.count = pipeSize := by
  unfold Pipe.isFull Pipe.count
  constructor
  · intro h
    rw [h]
    have hsub : pi.nread + BitVec.ofNat 32 pipeSize - pi.nread = BitVec.ofNat 32 pipeSize := by ring
    rw [hsub]
    rfl
  · intro h
    have hsub : pi.nwrite - pi.nread = BitVec.ofNat 32 pipeSize := BitVec.eq_of_toNat_eq (by rw [h]; rfl)
    rw [← hsub]
    ring

theorem Pipe.isEmpty_iff (pi : Pipe) : pi.isEmpty ↔ pi.count = 0 := by
  unfold Pipe.isEmpty Pipe.count
  constructor
  · intro h
    rw [h, BitVec.sub_self]
    rfl
  · intro h
    exact (sub_eq_zero.mp (BitVec.eq_of_toNat_eq (by simpa using h))).symm

section
variable {pi : Pipe}

theorem Pipe.count_store (hle : pi.count ≤ pipeSize) (hfull : ¬ pi.isFull) (ch : UInt8) :
    (pi.store ch).count = pi.count + 1 ∧ pi.count < pipeSize := by
  have hlt : pi.count < pipeSize := lt_of_le_of_ne hle (fun h => hfull (pi.isFull_iff.mpr h))
  have hwrap : (pi.nwrite-pi.nread).toNat + 1 < 2^32 := lt_of_le_of_lt hlt (by norm_num)
  exact ⟨Ring.count_push pi.nread pi.nwrite hwrap, hlt⟩

theorem Pipe.contents_store (hle : pi.count ≤ pipeSize) (hfull : ¬ pi.isFull) (ch : UInt8) :
    (pi.store ch).contents = pi.contents ++ [ch] := by
  obtain ⟨hcount, hlt⟩ := pi.count_store hle hfull ch
  have hend : pi.nwrite = pi.nread + BitVec.ofNat 32 pi.count := (Ring.add_count pi.nread pi.nwrite).symm
  calc (pi.store ch).contents
      = Ring.window (Function.update pi.data (Ring.cell pipeSize pi.nwrite) ch) pi.nread (pi.count+1) := by
        rw [Pipe.contents, hcount]
        rfl
    _ = pi.contents ++ [ch] := by
        rw [hend]
        exact Ring.window_push pipeSize_dvd pi.data pi.nread hlt ch

theorem Pipe.contents_take (he : ¬ pi.isEmpty) :
    pi.contents = pi.next :: Pipe.contents { pi with nread := pi.nread+1 } ∧
    pi.count = Pipe.count { pi with nread := pi.nread+1 } + 1 := by
  have hcount : pi.count = Pipe.count { pi with nread := pi.nread+1 } + 1 := Ring.count_pop pi.nread pi.nwrite he
  refine ⟨?_, hcount⟩
  rw [Pipe.contents, hcount]
  exact Ring.window_pop pi.data pi.nread _

end

structure RingInv (s : Sys n) : Prop where
  count_le : s.pipe.count ≤ pipeSize
  put_eq : s.put = s.taken ++ s.pipe.contents

theorem RingInv.step {s t : Sys n} {e : Event n} (hs : RingInv s) (h : Effect s e t) : RingInv t := by
  obtain ⟨hle, hput⟩ := hs
  cases h with
  | store p i m k ch hp hro hk hfull =>
    obtain ⟨hcount, hlt⟩ := s.pipe.count_store hle hfull ch
    refine ⟨by rw [hcount]; exact hlt, ?_⟩
    rw [s.pipe.contents_store hle hfull ch, hput, List.append_assoc]
  | take p i m ok hp he =>
    obtain ⟨hcont, hcount⟩ := s.pipe.contents_take he
    rw [hcount] at hle
    refine ⟨(Nat.le_succ _).trans hle, ?_⟩
    rw [hput, hcont, List.append_assoc]
    rfl
  | _ => exact ⟨hle, hput⟩

/-- Whatever the number of readers and writers and of bytes, what has been put in is what has
been taken out followed by what the ring holds. -/
theorem pipe_is_fifo (data : Fin pipeSize → UInt8) (s : Sys n) (h : Reach step (fun _ _ => True) (Sys.init data n) s) :
    (s.pipe.nwrite - s.pipe.nread).toNat ≤ pipeSize ∧ s.taken <+: s.put ∧
      s.put = s.taken ++ Ring.window s.pipe.data s.pipe.nread (s.pipe.nwrite - s.pipe.nread).toNat := by
  have hinv : RingInv s := by
    refine h.invariant ⟨by simp [Sys.init, Pipe.count], by simp [Sys.init, Pipe.contents, Pipe.count]⟩ ?_
    intro t e u ht _ hstep
    exact ht.step (step_effect hstep)
  exact ⟨hinv.count_le, ⟨s.pipe.contents, hinv.put_eq.symm⟩, hinv.put_eq⟩

theorem pipe_is_fifo_two_bytes :
    ∃ s, run step (Sys.init (fun _ => 0) 2) [.callWrite 0 2, .writeTurn 0 (some 7), .writeTurn 0 (some 8),
        .writeTurn 0 none, .scan 0, .scan 0, .scan 0, .callRead 1 1, .waitTurn 1, .readTurn 1 true] = some s ∧
      s.taken = [7] ∧ s.put = [7] ++ Ring.window s.pipe.data s.pipe.nread (s.pipe.nwrite - s.pipe.nread).toNat := by
  have hrun : (run step (Sys.init (fun _ => 0) 2) [.callWrite 0 2, .writeTurn 0 (some 7),
      .writeTurn 0 (some 8), .writeTurn 0 none, .scan 0, .scan 0, .scan 0, .callRead 1 1, .waitTurn 1,
      .readTurn 1 true]).any (fun s => decide (s.taken = [7])) = true := by decide
  obtain ⟨s, hs, ht⟩ := (Option.any_eq_true _ _).mp hrun
  have htaken := of_decide_eq_true ht
  obtain ⟨-, -, hput⟩ := pipe_is_fifo (fun _ => 0) s (reach_of_run hs)
  rw [htaken] at hput
  exact ⟨s, hs, htaken, hput⟩

end Xv6.Pipes
