import Xv6.PipeStep
import Xv6.VmCopy

/-! A byte leaves the pipe before copyout is called for it, so that a failed copyout loses it. -/
namespace Xv6.Pipes
open Function Hoare Runs Vm List

def Pipe.skip (pi : Pipe) : Pipe := { pi with nread := pi.nread+1 }

/-- The second loop of piperead with `left` turns to go, where `i` bytes are copied. -/
def pipereadLoop (pagetable addr : ℕ) : ℕ → ℕ → Pipe → M (ℕ × Pipe)
  | 0, i, pi => return (i, pi)
  | left+1, i, pi =>
    if pi.isEmpty then return (i, pi)
    else do
      let r ← copyout pagetable ((addr+i)%2^64) [pi.next]
      if r = -1 then return (i, pi.skip)
      else pipereadLoop pagetable addr left (i+1) pi.skip

/-- piperead from the top of its first loop on; `none` if it goes to sleep, to come back here. -/
def piperead (pagetable addr : ℕ) (n : ℤ) (killed : Bool) (pi : Pipe) : M (Option ℤ × Pipe) :=
  if pi.isEmpty ∧ pi.writeopen = true then
    if killed then return (some (-1), pi) else return (none, pi)
  else do
    let r ← pipereadLoop pagetable addr n.toNat 0 pi
    return (some (r.1 : ℤ), r.2)

/-- What piperead is to do: the bytes that it takes out are those that it stores, as many as it
returns. -/
def LosesNothing (s t : Ram) (pt addr : ℕ) (pi pi' : Pipe) : Option ℤ → Prop
  | none => pi' = pi ∧ t = s
  | some r => (r = -1 ∧ pi' = pi) ∨
    ∃ i : ℕ, r = (i : ℤ) ∧ i ≤ pi.count ∧ pi' = { pi with nread := pi.nread+BitVec.ofNat 32 i } ∧
      Written s t pt addr (pi.contents.take i)

variable {s t : Ram} {pt addr left i : ℕ} {pi : Pipe}

theorem Pipe.skip_add (pi : Pipe) (j : ℕ) : pi.skip.nread+BitVec.ofNat 32 j = pi.nread+BitVec.ofNat 32 (j+1) := by
  rw [Nat.add_comm j, BitVec.ofNat_add, ← BitVec.add_assoc]
  rfl

/-- How far the loop gets: to the end of the pipe or of the turns, or to a byte that cannot be
stored, which is gone then. -/
theorem pipereadLoop_spec (hs : UserSpace s pt) (ha : addr+i < 2^64) :
    ∃ j pi' t, pipereadLoop pt addr left i pi s = .ok ((i+j, pi'), t) ∧ Written s t pt (addr+i) (pi.contents.take j) ∧
      (∀ k < j, UserMapped s pt (addr+i+k)) ∧
      ((j = min left pi.count ∧ pi' = { pi with nread := pi.nread+BitVec.ofNat 32 j }) ∨
        (j < min left pi.count ∧ ¬UserMapped s pt ((addr+i+j)%2^64) ∧
          pi' = { pi with nread := pi.nread+BitVec.ofNat 32 (j+1) })) := by
  induction left generalizing i pi s with
  | zero =>
    refine ⟨0, pi, s, rfl, Written.nil s pt _, fun k hk => absurd hk (Nat.not_lt_zero k), Or.inl ⟨?_, ?_⟩⟩
    · rw [Nat.zero_min]
    · rw [BitVec.add_zero]
  | succ left ih =>
    by_cases he : pi.isEmpty
    · refine ⟨0, pi, s, ?_, Written.nil s pt _, fun k hk => absurd hk (Nat.not_lt_zero k), Or.inl ⟨?_, ?_⟩⟩
      · rw [pipereadLoop, if_pos he]
        rfl
      · rw [pi.isEmpty_iff.mp he, Nat.min_zero]
      · rw [BitVec.add_zero]
    obtain ⟨hcont, hcount⟩ : pi.contents = pi.next :: pi.skip.contents ∧ pi.count = pi.skip.count+1 :=
      pi.contents_take he
    obtain ⟨r, u, m, hout, hw, hc⟩ := copyout_spec hs ha [pi.next]
    rw [pipereadLoop, if_neg he, Nat.mod_eq_of_lt ha, run_bind hout]
    rcases hc.result with ⟨rfl, rfl⟩ | ⟨rfl, hm, hbad⟩
    · -- the byte is stored, and the loop goes on with the next address
      have hlt := (hc.mapped 0 Nat.one_pos).lt
      have ha' : addr+(i+1) < 2^64 := by
        rw [maxva] at hlt
        omega
      obtain ⟨j, pi', t, hrun, hwt, hmap, hend⟩ := @ih u (i+1) pi.skip (hs.congr hw) ha'
      rw [if_neg (by decide)]
      have hmap' (k : ℕ) (hk : k < j+1) : UserMapped s pt (addr+i+k) := by
        cases k with
        | zero => exact hc.mapped 0 Nat.one_pos
        | succ k =>
          have hk' := hw.mapped.mp (hmap k (Nat.lt_of_succ_lt_succ hk))
          rwa [← Nat.add_assoc addr, Nat.add_assoc (addr+i), Nat.add_comm 1] at hk'
      refine ⟨j+1, pi', t, ?_, ?_, hmap', hend.imp (fun h => ⟨?_, ?_⟩) (fun h => ⟨?_, fun hm => h.2.1 ?_, ?_⟩)⟩
      · rw [hrun, Nat.add_assoc, Nat.add_comm 1]
      · have happ := hw.append (by rw [take_length, length_singleton, Nat.add_assoc]; exact hwt)
        rwa [take_length, singleton_append, ← take_succ_cons, ← hcont] at happ
      · rw [hcount, Nat.succ_min_succ, h.1]
      · rw [h.2, pi.skip_add]
        rfl
      · rw [hcount, Nat.succ_min_succ]
        exact Nat.succ_lt_succ h.1
      · rw [h.2.2, pi.skip_add]
        rfl
      · rw [hw.mapped, ← Nat.add_assoc, Nat.add_assoc (addr+i), Nat.add_comm 1]
        exact hm
    · have hm0 : m = 0 := Nat.lt_one_iff.mp hm
      subst hm0
      rw [if_pos rfl]
      refine ⟨0, pi.skip, u, rfl, hw, fun k hk => absurd hk (Nat.not_lt_zero k), Or.inr ⟨?_, hbad, rfl⟩⟩
      rw [hcount, Nat.succ_min_succ]
      exact Nat.succ_pos _

theorem nread_succ_ne (r : Uint) (i : ℕ) : r+BitVec.ofNat 32 (i+1) ≠ r+BitVec.ofNat 32 i := by
  intro h
  rw [BitVec.ofNat_add, ← BitVec.add_assoc] at h
  have hone : (1 : Uint) = 0 := by
    have := add_left_cancel (a := r+BitVec.ofNat 32 i) (b := BitVec.ofNat 32 1) (c := 0) (by rwa [add_zero])
    exact this
  exact absurd hone (by decide)

/-- piperead loses nothing if and only if every byte that it takes out can be stored. -/
theorem piperead_loses_nothing_iff (s : Ram) (pt addr : ℕ) (n : ℤ) (killed : Bool) (pi : Pipe)
    (hs : UserSpace s pt) (ha : addr < 2^64) :
    ∃ r pi' t, piperead pt addr n killed pi s = .ok ((r, pi'), t) ∧ (LosesNothing s t pt addr pi pi' r ↔
        ∀ k < min n.toNat pi.count, UserMapped s pt ((addr+k)%2^64)) := by
  by_cases hwait : pi.isEmpty ∧ pi.writeopen = true
  · have hnone : ∀ k < min n.toNat pi.count, UserMapped s pt ((addr+k)%2^64) := by
      intro k hk
      rw [pi.isEmpty_iff.mp hwait.1, Nat.min_zero] at hk
      exact absurd hk (Nat.not_lt_zero k)
    cases killed with
    | true =>
      refine ⟨some (-1), pi, s, ?_, iff_of_true (Or.inl ⟨rfl, rfl⟩) hnone⟩
      rw [piperead, if_pos hwait]
      rfl
    | false =>
      refine ⟨none, pi, s, ?_, iff_of_true ⟨rfl, rfl⟩ hnone⟩
      rw [piperead, if_pos hwait]
      rfl
  · obtain ⟨j, pi', t, hrun, hw, hmap, hend⟩ := @pipereadLoop_spec s pt addr n.toNat 0 pi hs ha
    rw [Nat.zero_add] at hrun
    rw [Nat.add_zero] at hw hmap hend
    refine ⟨some (j : ℤ), pi', t, ?_, ?_⟩
    · rw [piperead, if_neg hwait, run_bind hrun]
      rfl
    rcases hend with ⟨hj, hpi⟩ | ⟨hj, hbad, hpi⟩
    · refine iff_of_true (Or.inr ⟨j, rfl, hj ▸ Nat.min_le_right _ _, hpi, hw⟩) (fun k hk => ?_)
      have hk' := hmap k (hj ▸ hk)
      have hlt := hk'.lt
      rw [maxva] at hlt
      rwa [Nat.mod_eq_of_lt (by omega)]
    refine iff_of_false ?_ (fun hall => hbad (hall j hj))
    rintro (⟨hneg, -⟩ | ⟨i, hi, -, hpi', -⟩)
    · omega
    have hij : i = j := by omega
    have hnread := congrArg Pipe.nread (hpi.symm.trans hpi')
    rw [hij] at hnread
    exact nread_succ_ne pi.nread j hnread

def oneByte : Pipe := ⟨fun _ => 7, 0, 1, true, true⟩

theorem one_byte_read : ∃ r pi' t, piperead 4096 4095 1 false oneByte (onePage 16384) = .ok ((r, pi'), t) ∧
      (LosesNothing (onePage 16384) t 4096 4095 oneByte pi' r ↔
        ∀ k < min (1 : ℤ).toNat oneByte.count, UserMapped (onePage 16384) 4096 ((4095+k)%2^64)) :=
  piperead_loses_nothing_iff (onePage 16384) 4096 4095 1 false oneByte onePage_userSpace (by decide)

/-- A read of one byte to an address that is not mapped returns 0, and the pipe is empty then. -/
theorem byte_lost_at_unmapped :
    piperead 4096 4096 1 false oneByte (onePage 16384) = .ok ((some 0, oneByte.skip), onePage 16384) ∧
    ¬LosesNothing (onePage 16384) (onePage 16384) 4096 4096 oneByte oneByte.skip (some 0) := by
  constructor
  · have hframe : userFrame (onePage 16384) 4096 4096 = none := userFrame_onePage (by decide) (by decide) 4096
    have hout : copyout 4096 ((4096+0)%2^64) [oneByte.next] (onePage 16384) = .ok (-1, onePage 16384) := by
      rw [copyout, length_singleton, copyoutLoop, if_neg (cons_ne_nil _ _),
        run_bind (walkaddr_user _ _ _), Nat.add_zero, Nat.mod_eq_of_lt (by decide), hframe]
      rfl
    have hloop : pipereadLoop 4096 4096 (1 : ℤ).toNat 0 oneByte (onePage 16384) =
        .ok ((0, oneByte.skip), onePage 16384) := by
      rw [Int.toNat_one, pipereadLoop, if_neg (by decide), run_bind hout]
      rfl
    rw [piperead, if_neg (by decide), run_bind hloop]
    rfl
  · rintro (⟨h, -⟩ | ⟨i, hi, -, hpi, -⟩)
    · exact absurd h (by decide)
    · have hi0 : i = 0 := by omega
      rw [hi0] at hpi
      exact absurd (congrArg Pipe.nread hpi) (by decide)

section Turns
variable {n : ℕ} {p : Fin n} {m : ℤ}

end Turns

end Xv6.Pipes
