import Xv6.VmCopy
import Xv6.VmLife
import Xv6.VmGrow

/-! The user memories of two address spaces that share no pages: a write in one leaves the other. -/
namespace Xv6.Vm
open Hoare Radix Bytes Multiset

variable {m : Machine} {top : ℕ → Option ℕ} {R : Multiset ℕ} {s t : Ram} {pt pt' n va f tf : ℕ} {bs : List UInt8}

theorem frames_inj (h : (frames s pt 0 n).Nodup) {i j : ℕ} (hi : i < n) (hj : j < n)
    (he : frame s pt (pgsize*i) = frame s pt (pgsize*j)) : i = j := by
  induction n with
  | zero => exact absurd hi (Nat.not_lt_zero i)
  | succ n ih =>
    rw [frames_succ, Nat.zero_add, nodup_cons] at h
    rcases Nat.lt_succ_iff_lt_or_eq.mp hi with hi' | rfl
    · rcases Nat.lt_succ_iff_lt_or_eq.mp hj with hj' | rfl
      · exact ih h.2 hi' hj'
      · exact absurd (he ▸ frame_mem hi') h.1
    · rcases Nat.lt_succ_iff_lt_or_eq.mp hj with hj' | rfl
      · exact absurd (he.symm ▸ frame_mem hj') h.1
      · rfl

theorem procMap_not_user {k w : ℕ} (h : procMap m tf k = some w) : w &&& pteU = 0 := by
  have htramp : trampolinePte m &&& pteU = 0 := by
    rw [trampolinePte, and_flags (by decide), pteFlags_pte (by decide)]
    decide
  have htrap : trapframePte tf &&& pteU = 0 := by
    rw [trapframePte, and_flags (by decide), pteFlags_pte (by decide)]
    decide
  rw [procMap, setTop, setTop] at h
  split_ifs at h with h1 h2
  · cases h
    exact htrap
  · cases h
    exact htramp

theorem Space.userFrame (h : Space m (procMap m tf) R s pt n) (hf : userFrame s pt va = some f) :
    va < pgsize*n ∧ f = frame s pt (pgsize*(va/pgsize)) ∧ f ∈ frames s pt 0 n := by
  have hva : va < 2^39 := (userFrame_lt hf).trans (by decide)
  rw [Vm.userFrame, if_pos (userFrame_lt hf)] at hf
  obtain ⟨w, hw, rfl⟩ := Option.map_eq_some_iff.mp hf
  rw [Option.filter_eq_some_iff] at hw
  have hlt : va < pgsize*n := by
    by_contra hge
    have htop := (h.above va hva (not_lt.mp hge)).symm.trans hw.1
    exact absurd (procMap_not_user htop) (of_decide_eq_true hw.2)
  refine ⟨hlt, ?_, frame_of_pte hva hlt hw.1⟩
  rw [frame, pteOf_page hva, hw.1, Option.getD_some]

theorem Space.userSpace (h : Space m (procMap m tf) R s pt n) : UserSpace s pt := by
  have hnd := nodup_add.mp h.heap.nodup
  refine ⟨fun va hf => ?_, fun va f hf htab => ?_, fun va va' f hf hf' => ?_⟩
  · exact h.heap.ne_zero (mem_add.mpr (Or.inr (mem_add.mpr (Or.inl (h.userFrame hf).2.2)))) rfl
  · exact disjoint_left.mp hnd.2.2 htab (mem_add.mpr (Or.inl (h.userFrame hf).2.2))
  obtain ⟨hlt, hfr, -⟩ := h.userFrame hf
  obtain ⟨hlt', hfr', -⟩ := h.userFrame hf'
  exact frames_inj (nodup_add.mp hnd.2.1).1 (Nat.div_lt_of_lt_mul hlt) (Nat.div_lt_of_lt_mul hlt') (hfr.symm.trans hfr')

/-- The user pages of `pt` are neither tables nor user pages of `pt'`. -/
def Apart (s : Ram) (pt pt' : ℕ) : Prop :=
  ∀ va f, userFrame s pt va = some f → f ∉ tables s pt' ∧ ∀ va', userFrame s pt' va' ≠ some f

structure TwoSpaces (s : Ram) (pt pt' : ℕ) : Prop where
  left : UserSpace s pt
  right : UserSpace s pt'
  apart : Apart s pt pt'
  apart' : Apart s pt' pt

theorem TwoSpaces.symm (h : TwoSpaces s pt pt') : TwoSpaces s pt' pt := ⟨h.right, h.left, h.apart', h.apart⟩

/-- A write in one space leaves the other one alone, with the page tables of both. -/
theorem TwoSpaces.written {a : ℕ} (h : TwoSpaces s pt pt') (hw : Written s t pt a bs) : TwoSpaces t pt pt' ∧
    ∀ va, pteOf t pt' va = pteOf s pt' va ∧ userByte t pt' va = userByte s pt' va := by
  have hother (q : ℕ) (hq : ∀ va, userFrame s pt va ≠ some q) : t.word q = s.word q := hw.word q (fun k _ => hq (a+k))
  have htab : ∀ q ∈ tables s pt', t.word q = s.word q := fun q hq => hother q (fun va hva => (h.apart va q hva).1 hq)
  have hframe := userFrame_congr htab
  have hnodes : tables t pt' = tables s pt' := nodes_congr htab
  refine ⟨⟨h.left.congr hw, ⟨fun va => ?_, fun va f hf => ?_, fun va va' f hf hf' => ?_⟩, fun va f hf => ?_,
    fun va f hf => ?_⟩, fun va => ⟨look_congr htab va, ?_⟩⟩
  · rw [hframe]
    exact h.right.ne_zero va
  · rw [hnodes]
    exact h.right.apart va f ((hframe va).symm.trans hf)
  · exact h.right.inj va va' f ((hframe va).symm.trans hf) ((hframe va').symm.trans hf')
  · rw [hw.frame] at hf
    obtain ⟨h1, h2⟩ := h.apart va f hf
    exact ⟨by rwa [hnodes], fun va' => by rw [hframe]; exact h2 va'⟩
  · rw [hframe] at hf
    obtain ⟨h1, h2⟩ := h.apart' va f hf
    exact ⟨by rwa [hw.tables], fun va' => by rw [hw.frame]; exact h2 va'⟩
  rw [userByte, userByte, hframe]
  cases hva : userFrame s pt' va with
  | none => rfl
  | some f =>
    rw [Option.map_some, Option.map_some, byte_of_word (userFrame_aligned hva) (Nat.mod_lt _ (by decide))
      (hother f (h.apart' va f hva).2)]

theorem Space.twoSpaces {R' : Multiset ℕ} {tf' n' : ℕ} (h : Space m (procMap m tf) R s pt n)
    (h' : Space m (procMap m tf') R' s pt' n') (hR : tables s pt'+frames s pt' 0 n' ≤ R) : TwoSpaces s pt pt' := by
  have hnd := nodup_add.mp h.heap.nodup
  have hnd' := nodup_add.mp hnd.2.1
  have hR' {q : ℕ} (hq : q ∈ tables s pt' ∨ q ∈ frames s pt' 0 n') : q ∈ R := mem_of_le hR (mem_add.mpr hq)
  refine ⟨h.userSpace, h'.userSpace, fun va f hf => ?_, fun va f hf => ?_⟩
  · have hmem := (h.userFrame hf).2.2
    have hout : f ∉ R := fun hR => disjoint_left.mp hnd'.2.2 hmem hR
    exact ⟨fun hq => hout (hR' (Or.inl hq)), fun va' hf' => hout (hR' (Or.inr (h'.userFrame hf').2.2))⟩
  have hmem := hR' (Or.inr (h'.userFrame hf).2.2)
  refine ⟨fun hq => ?_, fun va' hf' => ?_⟩
  · exact disjoint_left.mp hnd.2.2 hq (mem_add.mpr (Or.inr hmem))
  · exact disjoint_left.mp hnd'.2.2 (h.userFrame hf').2.2 hmem

/-- A store by user code, which needs a page with PTE_W. -/
def userStore (s : Ram) (pt va : ℕ) (b : UInt8) : Ram :=
  match userFrame s pt va with
  | none => s
  | some f => if (pteOf s pt va).getD 0 &&& pteW = 0 then s else s.setByte (f+va%pgsize) b

/-- What changes the memory of the two processes: stores of their own and copyouts of the kernel. -/
inductive Access where
  | store (va : ℕ) (b : UInt8)
  | copyout (va : BitVec 64) (src : List UInt8)

def Access.apply (s : Ram) (pt : ℕ) : Access → Ram
  | .store va b => userStore s pt va b
  | .copyout va src =>
    match Vm.copyout pt va.toNat src s with
    | .ok (_, t) => t
    | .error _ => s

theorem Access.written (hs : UserSpace s pt) (e : Access) : ∃ a bs, Written s (e.apply s pt) pt a bs := by
  cases e with
  | store va b =>
    rw [Access.apply, userStore]
    cases hf : userFrame s pt va with
    | none => exact ⟨0, [], Written.nil s pt 0⟩
    | some =>
      by_cases hW : (pteOf s pt va).getD 0 &&& pteW = 0
      · simp only [hW, ↓reduceIte]
        exact ⟨0, [], Written.nil s pt 0⟩
      · simp only [hW, ↓reduceIte]
        have hroom : [b].length ≤ pgsize-va%pgsize := Nat.sub_pos_of_lt (Nat.mod_lt _ (by decide))
        exact ⟨va, [b], hs.memmove hf hroom⟩
  | copyout va src =>
    obtain ⟨r, t, k, hrun, hw, -⟩ := copyout_spec hs va.isLt src
    refine ⟨va.toNat, src.take k, ?_⟩
    rw [Access.apply, hrun]
    exact hw

/-- Accesses of two processes, one after the other; `true` is the first process. -/
def accesses (s : Ram) (pt pt' : ℕ) (es : List (Bool × Access)) : Ram :=
  es.foldl (fun u e => e.2.apply u (if e.1 then pt else pt')) s

theorem TwoSpaces.step (h : TwoSpaces s pt pt') (e : Bool × Access) :
    TwoSpaces (e.2.apply s (if e.1 then pt else pt')) pt pt' ∧
    ∀ va, pteOf (e.2.apply s (if e.1 then pt else pt')) (if e.1 then pt' else pt) va =
        pteOf s (if e.1 then pt' else pt) va ∧
      userByte (e.2.apply s (if e.1 then pt else pt')) (if e.1 then pt' else pt) va =
        userByte s (if e.1 then pt' else pt) va := by
  obtain ⟨b, e⟩ := e
  cases b with
  | true =>
    obtain ⟨a, bs, hw⟩ := Access.written h.left e
    exact h.written hw
  | false =>
    obtain ⟨a, bs, hw⟩ := Access.written h.right e
    obtain ⟨h2, hbyte⟩ := h.symm.written hw
    exact ⟨h2.symm, hbyte⟩

theorem TwoSpaces.run (h : TwoSpaces s pt pt') (es : List (Bool × Access)) :
    TwoSpaces (accesses s pt pt' es) pt pt' := by
  induction es generalizing s with
  | nil => exact h
  | cons e es ih => exact ih (h.step e).1

end Xv6.Vm
