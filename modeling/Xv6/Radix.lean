import Mathlib.Tactic
import Mathlib.Algebra.BigOperators.Group.Multiset.Basic
import Mathlib.Algebra.Order.BigOperators.Group.Finset

/-! Radix trees held in the numbered nodes of a memory. A tree of level 0 is one node of
entries; an inner node refers to its subtrees through its valid entries. -/
namespace Xv6.Radix

open Function Multiset
variable {b : ℕ} {W K : Type*}

/-- When an entry is valid, the node it refers to, and the entry that a key selects at a level. -/
structure Format (b : ℕ) (W K : Type*) where
  valid : W → Bool
  next : W → ℕ
  digit : ℕ → K → Fin b

variable (F : Format b W K) (mem : ℕ → Fin b → W)

def nodes : ℕ → ℕ → Multiset ℕ
  | 0, p => {p}
  | l+1, p => p ::ₘ ∑ i, if F.valid (mem p i) then nodes l (F.next (mem p i)) else 0

def branch (l p : ℕ) (i : Fin b) : Multiset ℕ :=
  if F.valid (mem p i) then nodes F mem l (F.next (mem p i)) else 0

def rest (l p : ℕ) (i : Fin b) : Multiset ℕ := p ::ₘ ∑ j ∈ Finset.univ.erase i, branch F mem l p j

def slot : ℕ → ℕ → K → Option ℕ
  | 0, p, _ => some p
  | l+1, p, k => if F.valid (mem p (F.digit (l+1) k)) then slot l (F.next (mem p (F.digit (l+1) k))) k
    else none

def look (l p : ℕ) (k : K) : Option W := ((slot F mem l p k).map (fun q => mem q (F.digit 0 k))).filter F.valid

def Inner (P : W → Prop) : ℕ → ℕ → Prop
  | 0, _ => True
  | l+1, p => ∀ i, F.valid (mem p i) → P (mem p i) ∧ Inner P l (F.next (mem p i))

def Bare : ℕ → ℕ → Prop
  | 0, p => ∀ i, ¬F.valid (mem p i)
  | l+1, p => ∀ i, F.valid (mem p i) → Bare l (F.next (mem p i))

def Same (l : ℕ) (k k' : K) : Prop := ∀ j ≤ l, F.digit j k = F.digit j k'

def Off (mem' : ℕ → Fin b → W) (l p : ℕ) (i : Fin b) : Prop :=
  ∀ j, j ≠ i → mem' p j = mem p j ∧ ∀ q ∈ branch F mem l p j, mem' q = mem q

variable {F mem} {mem' : ℕ → Fin b → W} {l p q : ℕ} {i : Fin b} {k k' : K} {P : W → Prop}

theorem nodes_zero : nodes F mem 0 p = {p} := rfl

theorem nodes_succ : nodes F mem (l+1) p = p ::ₘ ∑ i, branch F mem l p i := rfl

theorem rest_eq : rest F mem l p i = p ::ₘ ∑ j ∈ Finset.univ.erase i, branch F mem l p j := rfl

-- The sums are over all entries of a node and must not be unfolded by unification.
attribute [irreducible] nodes rest

theorem nodes_split (i : Fin b) : nodes F mem (l+1) p = rest F mem l p i + branch F mem l p i := by
  rw [nodes_succ, rest_eq, cons_add, Finset.sum_erase_add _ _ (Finset.mem_univ i)]

theorem branch_valid (h : F.valid (mem p i)) : branch F mem l p i = nodes F mem l (F.next (mem p i)) := if_pos h

theorem branch_invalid (h : ¬F.valid (mem p i)) : branch F mem l p i = 0 := if_neg h

theorem branch_le : branch F mem l p i ≤ nodes F mem (l+1) p := by
  rw [nodes_split i]
  exact le_add_left _ _

theorem mem_nodes_of_valid (h : F.valid (mem p i)) (hq : q ∈ nodes F mem l (F.next (mem p i))) :
    q ∈ nodes F mem (l+1) p := by
  rw [← branch_valid h] at hq
  exact mem_of_le branch_le hq

theorem self_mem_nodes : p ∈ nodes F mem l p := by
  cases l with
  | zero =>
    rw [nodes_zero]
    exact mem_singleton_self p
  | succ =>
    rw [nodes_succ]
    exact mem_cons_self p _

theorem slot_valid (h : F.valid (mem p (F.digit (l+1) k))) :
    slot F mem (l+1) p k = slot F mem l (F.next (mem p (F.digit (l+1) k))) k := if_pos h

theorem slot_invalid (h : ¬F.valid (mem p (F.digit (l+1) k))) : slot F mem (l+1) p k = none := if_neg h

theorem slot_mem (h : slot F mem l p k = some q) : q ∈ nodes F mem l p := by
  induction l generalizing p with
  | zero => exact Option.some.inj h ▸ self_mem_nodes
  | succ l ih =>
    by_cases hv : F.valid (mem p (F.digit (l+1) k))
    · rw [slot_valid hv] at h
      exact mem_nodes_of_valid hv (ih h)
    · rw [slot_invalid hv] at h
      cases h

theorem look_eq (h : slot F mem l p k = some q) : look F mem l p k = (some (mem q (F.digit 0 k))).filter F.valid := by
  rw [look, h, Option.map_some]

theorem look_zero : look F mem 0 p k = (some (mem p (F.digit 0 k))).filter F.valid := rfl

theorem look_of_none (h : slot F mem l p k = none) : look F mem l p k = none := by
  rw [look, h, Option.map_none, Option.filter_none]

theorem look_valid (h : F.valid (mem p (F.digit (l+1) k))) :
    look F mem (l+1) p k = look F mem l (F.next (mem p (F.digit (l+1) k))) k := by
  rw [look, look, slot_valid h]

theorem look_invalid (h : ¬F.valid (mem p (F.digit (l+1) k))) : look F mem (l+1) p k = none :=
  look_of_none (slot_invalid h)

theorem look_some {w : W} (h : look F mem l p k = some w) :
    ∃ q, slot F mem l p k = some q ∧ mem q (F.digit 0 k) = w ∧ F.valid w := by
  rw [look, Option.filter_eq_some_iff, Option.map_eq_some_iff] at h
  obtain ⟨⟨q, hq, hw⟩, hv⟩ := h
  exact ⟨q, hq, hw, hv⟩

theorem slot_same (h : ∀ j, 0 < j → j ≤ l → F.digit j k = F.digit j k') : slot F mem l p k = slot F mem l p k' := by
  induction l generalizing p with
  | zero => rfl
  | succ l ih =>
    have hd := h (l+1) (Nat.succ_pos l) le_rfl
    have hrest := @ih (F.next (mem p (F.digit (l+1) k'))) (fun j h0 hj => h j h0 (Nat.le_succ_of_le hj))
    by_cases hv : F.valid (mem p (F.digit (l+1) k'))
    · rw [slot_valid hv, slot_valid (by rwa [hd]), hd, hrest]
    · rw [slot_invalid hv, slot_invalid (by rwa [hd])]

theorem look_same (h : Same F l k k') : look F mem l p k = look F mem l p k' := by
  rw [look, look, slot_same (fun j _ hj => h j hj), h 0 (Nat.zero_le l)]

section Congr

section
variable (h : ∀ q ∈ nodes F mem l p, mem' q = mem q)
include h

theorem congr : nodes F mem' l p = nodes F mem l p ∧ ∀ k, slot F mem' l p k = slot F mem l p k := by
  induction l generalizing p with
  | zero => exact ⟨by rw [nodes_zero, nodes_zero], fun _ => rfl⟩
  | succ l ih =>
    have hp : mem' p = mem p := h p self_mem_nodes
    have hchild (i : Fin b) (hv : F.valid (mem p i)) :=
      @ih (F.next (mem p i)) (fun q hq => h q (mem_nodes_of_valid hv hq))
    constructor
    · rw [nodes_succ, nodes_succ]
      refine congrArg _ (Finset.sum_congr rfl (fun i _ => ?_))
      by_cases hv : F.valid (mem p i)
      · rw [branch_valid hv, branch_valid (by rwa [hp]), hp, (hchild i hv).1]
      · rw [branch_invalid hv, branch_invalid (by rwa [hp])]
    · intro k
      by_cases hv : F.valid (mem p (F.digit (l+1) k))
      · rw [slot_valid hv, slot_valid (by rwa [hp]), hp, (hchild _ hv).2]
      · rw [slot_invalid hv, slot_invalid (by rwa [hp])]

theorem nodes_congr : nodes F mem' l p = nodes F mem l p := (congr h).1

theorem look_congr (k : K) : look F mem' l p k = look F mem l p k := by
  rw [look, look, (congr h).2]
  cases hs : slot F mem l p k with
  | none => rfl
  | some q => rw [Option.map_some, Option.map_some, h q (slot_mem hs)]

end

theorem Inner.congr (hi : Inner F mem P l p) (h : ∀ q ∈ nodes F mem l p, mem' q = mem q) : Inner F mem' P l p := by
  induction l generalizing p with
  | zero => trivial
  | succ l ih =>
    intro i hv
    have hp : mem' p = mem p := h p self_mem_nodes
    rw [hp] at hv ⊢
    exact ⟨(hi i hv).1, ih (hi i hv).2 (fun q hq => h q (mem_nodes_of_valid hv hq))⟩

theorem Bare.congr (hb : Bare F mem l p) (h : ∀ q ∈ nodes F mem l p, mem' q = mem q) : Bare F mem' l p := by
  induction l generalizing p with
  | zero =>
    intro i
    rw [h p self_mem_nodes]
    exact hb i
  | succ l ih =>
    intro i hv
    have hp : mem' p = mem p := h p self_mem_nodes
    rw [hp] at hv ⊢
    exact ih (hb i hv) (fun q hq => h q (mem_nodes_of_valid hv hq))

end Congr

section Subtree

theorem self_mem_rest : p ∈ rest F mem l p i := by
  rw [rest_eq]
  exact mem_cons_self p _

theorem Off.of_rest (h : ∀ q ∈ rest F mem l p i, mem' q = mem q) : Off F mem mem' l p i := by
  intro j hj
  refine ⟨by rw [h p self_mem_rest], fun q hq => h q ?_⟩
  rw [rest_eq]
  apply mem_cons_of_mem
  exact mem_sum.mpr ⟨j, Finset.mem_erase.mpr ⟨hj, Finset.mem_univ j⟩, hq⟩

theorem rest_off (h : Off F mem mem' l p i) : rest F mem' l p i = rest F mem l p i := by
  rw [rest_eq, rest_eq]
  refine congrArg _ (Finset.sum_congr rfl (fun j hj => ?_))
  obtain ⟨hj, hsub⟩ := h j (Finset.ne_of_mem_erase hj)
  by_cases hv : F.valid (mem p j)
  · rw [branch_valid hv, branch_valid (by rwa [hj]), hj]
    exact nodes_congr (fun q hq => hsub q (by rwa [branch_valid hv]))
  · rw [branch_invalid hv, branch_invalid (by rwa [hj])]

theorem look_off (h : Off F mem mem' l p i) (hk : F.digit (l+1) k ≠ i) :
    look F mem' (l+1) p k = look F mem (l+1) p k := by
  obtain ⟨hj, hsub⟩ := h _ hk
  by_cases hv : F.valid (mem p (F.digit (l+1) k))
  · rw [look_valid hv, look_valid (by rwa [hj]), hj]
    exact look_congr (fun q hq => hsub q (by rwa [branch_valid hv])) k
  · rw [look_invalid hv, look_invalid (by rwa [hj])]

theorem Inner.off (hi : Inner F mem P (l+1) p) (h : Off F mem mem' l p i)
    (hnew : F.valid (mem' p i) → P (mem' p i) ∧ Inner F mem' P l (F.next (mem' p i))) :
    Inner F mem' P (l+1) p := by
  intro j hv
  by_cases hji : j = i
  · exact hji ▸ hnew (hji ▸ hv)
  · obtain ⟨hj, hsub⟩ := h j hji
    rw [hj] at hv ⊢
    exact ⟨(hi j hv).1, (hi j hv).2.congr (fun q hq => hsub q (by rwa [branch_valid hv]))⟩

theorem rest_branch (hnd : (nodes F mem (l+1) p).Nodup) (hq : q ∈ branch F mem l p i) : q ∉ rest F mem l p i := by
  rw [nodes_split i, nodup_add] at hnd
  exact fun h => disjoint_left.mp hnd.2.2 h hq

theorem branch_nodup (hnd : (nodes F mem (l+1) p).Nodup) : (branch F mem l p i).Nodup := nodup_of_le branch_le hnd

end Subtree

section Blank

theorem nodes_blank (h : ∀ i, ¬F.valid (mem p i)) : nodes F mem l p = {p} := by
  cases l with
  | zero => exact nodes_zero
  | succ =>
    rw [nodes_succ, Finset.sum_eq_zero (fun i _ => branch_invalid (h i))]
    rfl

theorem look_blank (h : ∀ i, ¬F.valid (mem p i)) : look F mem l p k = none := by
  cases l with
  | zero => rw [look_zero, Option.filter_some_neg (Bool.eq_false_iff.mpr (h _))]
  | succ => exact look_invalid (h _)

theorem Inner.blank (h : ∀ i, ¬F.valid (mem p i)) : Inner F mem P l p := by
  cases l with
  | zero => trivial
  | succ => exact fun i hv => absurd hv (h i)

end Blank

theorem nodes_single (hv : F.valid (mem p i)) (h : ∀ j, j ≠ i → ¬F.valid (mem p j)) :
    nodes F mem (l+1) p = p ::ₘ nodes F mem l (F.next (mem p i)) := by
  rw [nodes_succ, Finset.sum_eq_single i (fun j _ hj => branch_invalid (h j hj))
    (fun hi => absurd (Finset.mem_univ i) hi), branch_valid hv]

section Write

def write (mem : ℕ → Fin b → W) (q : ℕ) (i : Fin b) (w : W) : ℕ → Fin b → W := update mem q (update (mem q) i w)

theorem write_self (w : W) : write mem q i w q i = w := by rw [write, update_self, update_self]

theorem write_entry {j : Fin b} (hj : j ≠ i) (w : W) : write mem q i w p j = mem p j := by
  by_cases hp : p = q
  · rw [write, hp, update_self, update_of_ne hj]
  · rw [write, update_of_ne hp]

theorem write_node (h : p ≠ q) (w : W) : write mem q i w p = mem p := update_of_ne h _ _

theorem write_slot (hnd : (nodes F mem l p).Nodup) (hs : slot F mem l p k = some q) (w : W) :
    nodes F (write mem q (F.digit 0 k) w) l p = nodes F mem l p ∧
    slot F (write mem q (F.digit 0 k) w) l p k = some q ∧
    (Inner F mem P l p → Inner F (write mem q (F.digit 0 k) w) P l p) ∧
    ∀ k', ¬Same F l k k' → look F (write mem q (F.digit 0 k) w) l p k' = look F mem l p k' := by
  induction l generalizing p with
  | zero =>
    cases hs
    refine ⟨by rw [nodes_zero, nodes_zero], rfl, fun _ => trivial, fun k' hne => ?_⟩
    have hd : F.digit 0 k' ≠ F.digit 0 k := by
      intro he
      exact hne (fun j hj => by rw [Nat.le_zero.mp hj, he])
    rw [look_zero, look_zero, write_entry hd]
  | succ l ih =>
    by_cases hv : F.valid (mem p (F.digit (l+1) k))
    · rw [slot_valid hv] at hs
      have hsub : q ∈ branch F mem l p (F.digit (l+1) k) := by
        rw [branch_valid hv]
        exact slot_mem hs
      obtain ⟨hn, hq, hi, hl⟩ := ih (by rw [← branch_valid hv]; exact branch_nodup hnd) hs
      have hkeep : ∀ r ∈ rest F mem l p (F.digit (l+1) k), write mem q (F.digit 0 k) w r = mem r :=
        fun r hr => write_node (by rintro rfl; exact rest_branch hnd hsub hr) w
      have hoff := Off.of_rest hkeep
      have hp := hkeep p self_mem_rest
      have hv' : F.valid (write mem q (F.digit 0 k) w p (F.digit (l+1) k)) := by rwa [hp]
      refine ⟨?_, ?_, fun hin => hin.off hoff (fun _ => ?_), fun k' hne => ?_⟩
      · rw [nodes_split (F.digit (l+1) k), rest_off hoff, branch_valid hv', hp, hn, ← branch_valid hv, ← nodes_split]
      · rw [slot_valid hv', hp, hq]
      · rw [hp]
        exact ⟨(hin _ hv).1, hi (hin _ hv).2⟩
      by_cases hd : F.digit (l+1) k' = F.digit (l+1) k
      · rw [look_valid (by rwa [hd]), look_valid (by rwa [hd]), hd, hp]
        refine hl k' (fun hsame => hne (fun j hj => ?_))
        rcases Nat.le_succ_iff.mp hj with hle | rfl
        · exact hsame j hle
        · exact hd.symm
      · exact look_off hoff hd
    · rw [slot_invalid hv] at hs
      cases hs

theorem Off.graft (hnd : (nodes F mem (l+1) p).Nodup) (hq : q ∉ nodes F mem (l+1) p)
    (page : Fin b → W) (w : W) : Off F mem (write (update mem q page) p i w) l p i := by
  have hpq : p ≠ q := fun h => hq (h ▸ self_mem_nodes)
  intro j hj
  refine ⟨by rw [write_entry hj, update_of_ne hpq], fun r hr => ?_⟩
  have hrp : r ≠ p := by
    rintro rfl
    exact rest_branch hnd hr self_mem_rest
  have hrq : r ≠ q := by
    rintro rfl
    exact hq (mem_of_le branch_le hr)
  rw [write_node hrp, update_of_ne hrq]

theorem graft {page : Fin b → W} {w : W} (hnd : (nodes F mem (l+1) p).Nodup)
    (hq : q ∉ nodes F mem (l+1) p) (hv : ¬F.valid (mem p i)) (hpage : ∀ j, ¬F.valid (page j))
    (hw : F.valid w) (hnext : F.next w = q) :
    nodes F (write (update mem q page) p i w) (l+1) p = nodes F mem (l+1) p+{q} ∧
    (∀ k, look F (write (update mem q page) p i w) (l+1) p k = look F mem (l+1) p k) ∧
    (Inner F mem P (l+1) p → P w → Inner F (write (update mem q page) p i w) P (l+1) p) := by
  have hoff := @Off.graft b W K F mem l p q i hnd hq page w
  have hqp : q ≠ p := fun h => hq (h ▸ self_mem_nodes)
  obtain ⟨mem', hmem⟩ : ∃ mem', mem' = write (update mem q page) p i w := ⟨_, rfl⟩
  have hent : mem' p i = w := by rw [hmem, write_self]
  have hblank (j : Fin b) : ¬F.valid (mem' q j) := by
    rw [hmem, write_node hqp, update_self]
    exact hpage j
  rw [← hmem] at hoff ⊢
  rw [← hent] at hw hnext
  refine ⟨?_, fun k => ?_, fun hin hP => hin.off hoff (fun _ => ⟨by rwa [hent], ?_⟩)⟩
  · rw [nodes_split i, rest_off hoff, branch_valid hw, hnext, nodes_blank hblank, nodes_split i,
      branch_invalid hv, add_zero]
  · by_cases hd : F.digit (l+1) k = i
    · rw [@look_invalid b W K F mem l p k (by rwa [hd]), look_valid (by rwa [hd]), hd, hnext, look_blank hblank]
    · exact look_off hoff hd
  · rw [hnext]
    exact Inner.blank hblank

end Write

section Size

def size (b : ℕ) : ℕ → ℕ
  | 0 => 1
  | l+1 => b*size b l+1

theorem card_nodes_le : (nodes F mem l p).card ≤ size b l := by
  induction l generalizing p with
  | zero =>
    rw [nodes_zero]
    exact le_of_eq (card_singleton p)
  | succ l ih =>
    rw [nodes_succ, card_cons, card_sum, size]
    have hsum : ∑ i : Fin b, (branch F mem l p i).card ≤ ∑ _i : Fin b, size b l := by
      refine Finset.sum_le_sum (fun i _ => ?_)
      by_cases hv : F.valid (mem p i)
      · rw [branch_valid hv]
        exact ih
      · rw [branch_invalid hv]
        exact Nat.zero_le _
    rw [Finset.sum_const, Finset.card_univ, Fintype.card_fin, smul_eq_mul] at hsum
    omega

theorem lt_card_nodes (h : slot F mem l p k = some q) : l < (nodes F mem l p).card := by
  induction l generalizing p with
  | zero =>
    rw [nodes_zero, card_singleton]
    exact Nat.one_pos
  | succ l ih =>
    by_cases hv : F.valid (mem p (F.digit (l+1) k))
    · rw [slot_valid hv] at h
      have hlt := ih h
      rw [nodes_split (F.digit (l+1) k), branch_valid hv, rest_eq, card_add, card_cons]
      omega
    · rw [slot_invalid hv] at h
      cases h

end Size

end Xv6.Radix
