import Mathlib.Tactic
import Mathlib.Data.List.Nodup

/-! Circular doubly linked lists with a head node, as two functions that give the neighbours of
a node. -/
namespace Xv6.Circular

open Function List
variable {α : Type*} [DecidableEq α]

structure Links (α : Type*) where
  next : α → α
  prev : α → α

def Seg (L : Links α) : α → List α → α → Prop
  | a, [], z => L.next a = z ∧ L.prev z = a
  | a, b :: l, z => (L.next a = b ∧ L.prev b = a) ∧ Seg L b l z

def Cycle (L : Links α) (h : α) (l : List α) : Prop := Seg L h l h ∧ (h :: l).Nodup

def Links.setNext (L : Links α) (a b : α) : Links α := { L with next := update L.next a b }
def Links.setPrev (L : Links α) (a b : α) : Links α := { L with prev := update L.prev a b }

def Links.unlink (L : Links α) (b : α) : Links α :=
  let L := L.setPrev (L.next b) (L.prev b)
  L.setNext (L.prev b) (L.next b)

def Links.pushFront (L : Links α) (h b : α) : Links α :=
  let L := L.setNext b (L.next h)
  let L := L.setPrev b h
  let L := L.setPrev (L.next h) b
  L.setNext h b

def follow (step : α → α) (h : α) : ℕ → α → List α
  | 0, _ => []
  | n+1, a => if a = h then [] else a :: follow step h n (step a)

variable {L L' : Links α} {a b h z : α} {l m : List α}

omit [DecidableEq α] in
theorem seg_append : Seg L a (l ++ b :: m) z ↔ Seg L a l b ∧ Seg L b m z := by
  induction l generalizing a with
  | nil => rfl
  | cons c l ih => simp only [cons_append, Seg, ih, and_assoc]

omit [DecidableEq α] in
theorem Seg.congr (hs : Seg L a l z) (hnext : ∀ x ∈ a :: l, L'.next x = L.next x)
    (hprev : ∀ x ∈ l ++ [z], L'.prev x = L.prev x) : Seg L' a l z := by
  induction l generalizing a with
  | nil =>
    rw [Seg, hnext a mem_cons_self, hprev z (by simp)]
    exact hs
  | cons b l ih =>
    refine ⟨?_, ih hs.2 (fun x hx => hnext x (mem_cons_of_mem _ hx)) (fun x hx => hprev x (mem_cons_of_mem _ hx))⟩
    rw [hnext a mem_cons_self, hprev b (by simp)]
    exact hs.1

omit [DecidableEq α] in
theorem Seg.last (hs : Seg L a l z) : L.next ((a :: l).getLast (by simp)) = z ∧
    L.prev z = (a :: l).getLast (by simp) := by
  induction l generalizing a with
  | nil => exact hs
  | cons b l ih =>
    rw [getLast_cons (by simp)]
    exact ih hs.2

omit [DecidableEq α] in
theorem Seg.first (hs : Seg L a l z) : L.next a = (l ++ [z]).head (by simp) ∧
    L.prev ((l ++ [z]).head (by simp)) = a := by
  cases l with
  | nil => exact hs
  | cons => exact hs.1

omit [DecidableEq α] in
theorem Seg.retarget (hs : Seg L a l z) {w : α}
    (hlast : L'.next ((a :: l).getLast (by simp)) = w ∧ L'.prev w = (a :: l).getLast (by simp))
    (hnext : ∀ x ∈ a :: l, x ≠ (a :: l).getLast (by simp) → L'.next x = L.next x)
    (hprev : ∀ x ∈ l, L'.prev x = L.prev x) (hnd : (a :: l).Nodup) : Seg L' a l w := by
  induction l generalizing a with
  | nil => exact hlast
  | cons b l ih =>
    have hne : a ≠ (a :: b :: l).getLast (by simp) := by
      intro heq
      have hmem : a ∈ b :: l := by
        rw [getLast_cons (by simp)] at heq
        exact heq ▸ getLast_mem _
      exact (nodup_cons.mp hnd).1 hmem
    refine ⟨?_, ih hs.2 hlast (fun x hx hxl => hnext x (mem_cons_of_mem _ hx) hxl)
      (fun x hx => hprev x (mem_cons_of_mem _ hx)) (nodup_cons.mp hnd).2⟩
    rw [hnext a mem_cons_self hne, hprev b mem_cons_self]
    exact hs.1

theorem Cycle.unlink (hc : Cycle L h (l ++ b :: m)) : Cycle (L.unlink b) h (l ++ m) := by
  obtain ⟨hs, hnd⟩ := hc
  obtain ⟨hl, hm⟩ := seg_append.mp hs
  obtain ⟨-, hp⟩ := hl.last
  obtain ⟨hq, -⟩ := hm.first
  have hnd' : ((h :: l) ++ b :: m).Nodup := hnd
  have hsplit := nodup_append.mp hnd'
  have hbm := nodup_cons.mp hsplit.2.1
  -- the neighbours of b, and the links that change
  generalize hpe : (h :: l).getLast (by simp) = p at hp
  generalize hqe : (m ++ [h]).head (by simp) = q at hq
  have hpmem : p ∈ h :: l := hpe ▸ getLast_mem _
  have hqb : q ≠ b := by
    rintro rfl
    have hmem : q ∈ m ++ [h] := hqe ▸ head_mem _
    rcases mem_append.mp hmem with hq' | hq'
    · exact hbm.1 hq'
    · exact hsplit.2.2 h mem_cons_self q mem_cons_self (mem_singleton.mp hq').symm
  have hnext : (L.unlink b).next = update L.next p q := by
    simp only [Links.unlink, Links.setNext, Links.setPrev, hp, hq, update_of_ne hqb.symm]
  have hprev : (L.unlink b).prev = update L.prev q p := by
    simp only [Links.unlink, Links.setNext, Links.setPrev, hp, hq]
  have hlast : (L.unlink b).next p = q ∧ (L.unlink b).prev q = p := by
    rw [hnext, hprev, update_self, update_self]
    exact ⟨rfl, rfl⟩
  have hfirst {w : α} (hw : w = q) (hwl : w ∉ l) : Seg (L.unlink b) h l w := by
    subst hw
    apply hl.retarget
    · rwa [hpe]
    · intro x _ hx
      rw [hpe] at hx
      rw [hnext, update_of_ne hx]
    · intro x hx
      have hxw : x ≠ w := fun heq => hwl (heq ▸ hx)
      rw [hprev, update_of_ne hxw]
    · exact hsplit.1
  have hrest : (h :: (l ++ m)).Nodup := by
    rw [← cons_append]
    refine nodup_append.mpr ⟨hsplit.1, hbm.2, fun x hx y hy => ?_⟩
    exact hsplit.2.2 x hx y (mem_cons_of_mem _ hy)
  refine ⟨?_, hrest⟩
  cases m with
  | nil =>
    rw [append_nil]
    exact hfirst hqe (nodup_cons.mp hsplit.1).1
  | cons c =>
    have hcm := nodup_cons.mp hbm.2
    refine seg_append.mpr ⟨hfirst hqe (fun hc => hsplit.2.2 c (mem_cons_of_mem _ hc) c (by simp) rfl), ?_⟩
    have hqc : c = q := hqe
    apply hm.2.congr
    · intro x hx
      rw [hnext, update_of_ne]
      rintro rfl
      exact hsplit.2.2 x hpmem x (mem_cons_of_mem _ hx) rfl
    intro x hx
    rw [hprev, ← hqc, update_of_ne]
    rintro rfl
    rcases mem_append.mp hx with hx | hx
    · exact hcm.1 hx
    · exact hsplit.2.2 h mem_cons_self x (by simp) (mem_singleton.mp hx).symm

theorem Cycle.pushFront (hc : Cycle L h l) (hb : b ∉ h :: l) : Cycle (L.pushFront h b) h (b :: l) := by
  obtain ⟨hs, hnd⟩ := hc
  obtain ⟨hq, -⟩ := hs.first
  generalize hqe : (l ++ [h]).head (by simp) = q at hq
  have hqmem : q ∈ h :: l := by
    have hmem : q ∈ l ++ [h] := hqe ▸ head_mem _
    simpa [or_comm] using hmem
  have hbh : b ≠ h := fun heq => hb (heq ▸ mem_cons_self)
  have hbq : b ≠ q := fun heq => hb (heq ▸ hqmem)
  have hnext : (L.pushFront h b).next = update (update L.next b q) h b := by
    simp only [Links.pushFront, Links.setNext, Links.setPrev, hq]
  have hprev : (L.pushFront h b).prev = update (update L.prev b h) q b := by
    simp only [Links.pushFront, Links.setNext, Links.setPrev, hq, update_of_ne hbh.symm]
  have hfirst : (L.pushFront h b).next b = q ∧ (L.pushFront h b).prev q = b := by
    rw [hnext, hprev, update_of_ne hbh, update_self, update_self]
    exact ⟨rfl, rfl⟩
  refine ⟨⟨?_, ?_⟩, ?_⟩
  · rw [hnext, hprev, update_self, update_of_ne hbq, update_self]
    exact ⟨rfl, rfl⟩
  · cases l with
    | nil =>
      have hqh : h = q := hqe
      rw [Seg]
      rwa [← hqh] at hfirst
    | cons c =>
      have hqc : c = q := hqe
      have hcl := nodup_cons.mp (nodup_cons.mp hnd).2
      refine ⟨hqc ▸ hfirst, ?_⟩
      apply hs.2.congr
      · intro x hx
        have hxh : x ≠ h := fun heq => (nodup_cons.mp hnd).1 (heq ▸ hx)
        have hxb : x ≠ b := fun heq => hb (heq ▸ mem_cons_of_mem _ hx)
        rw [hnext, update_of_ne hxh, update_of_ne hxb]
      intro x hx
      have hxb : x ≠ b := by
        rintro rfl
        rcases mem_append.mp hx with hx | hx
        · exact hb (by simp [hx])
        · exact hbh (mem_singleton.mp hx)
      have hxc : x ≠ q := by
        rw [← hqc]
        rintro rfl
        rcases mem_append.mp hx with hx | hx
        · exact hcl.1 hx
        · exact (nodup_cons.mp hnd).1 (by simp [mem_singleton.mp hx])
      rw [hprev, update_of_ne hxc, update_of_ne hxb]
  · refine nodup_cons.mpr ⟨?_, nodup_cons.mpr ⟨fun hm => hb (mem_cons_of_mem _ hm), (nodup_cons.mp hnd).2⟩⟩
    intro hm
    rcases mem_cons.mp hm with heq | hm
    · exact hbh heq.symm
    · exact (nodup_cons.mp hnd).1 hm

theorem Cycle.toFront (hc : Cycle L h (l ++ b :: m)) : Cycle ((L.unlink b).pushFront h b) h (b :: (l ++ m)) := by
  have hnd := nodup_cons.mp hc.2
  have hsplit := nodup_append.mp hnd.2
  apply hc.unlink.pushFront
  intro hm
  rcases mem_cons.mp hm with heq | hm
  · exact hnd.1 (heq ▸ by simp)
  · rcases mem_append.mp hm with hm | hm
    · exact hsplit.2.2 b hm b mem_cons_self rfl
    · exact (nodup_cons.mp hsplit.2.1).1 hm

theorem Seg.follow_next (hs : Seg L a l h) (hh : h ∉ l) {n : ℕ} (hn : l.length < n) :
    follow L.next h n (L.next a) = l := by
  induction l generalizing a n with
  | nil =>
    obtain ⟨n, rfl⟩ : ∃ m, n = m+1 := ⟨n-1, by simp at hn; omega⟩
    rw [hs.1, follow, if_pos rfl]
  | cons b l ih =>
    obtain ⟨n, rfl⟩ : ∃ m, n = m+1 := ⟨n-1, by simp at hn; omega⟩
    have hbh : b ≠ h := fun heq => hh (heq ▸ mem_cons_self)
    rw [hs.1.1, follow, if_neg hbh, ih hs.2 (fun hm => hh (mem_cons_of_mem _ hm))]
    simp only [length_cons] at hn
    omega

theorem Cycle.forward (hc : Cycle L h l) {n : ℕ} (hn : l.length < n) : follow L.next h n (L.next h) = l :=
  hc.1.follow_next (nodup_cons.mp hc.2).1 hn

end Xv6.Circular
