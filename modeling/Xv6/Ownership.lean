import Mathlib.Tactic
import Mathlib.Data.Set.Basic

/-! Owners of numbered resources under an allocation bitmap. A slot holds the number of a
resource or 0; the resources from `lo` to `hi` are handed out, those below `lo` never are. -/
namespace Xv6.Ownership

open Function
variable {σ : Type*}

/-- Every resource in use has one slot and its bit set, and every bit stands for a slot. The
slots in `X` do not count any more, the resources in `P` have no slot yet. -/
structure Owns (lo hi : ℕ) (use : σ → ℕ) (bit : ℕ → Bool) (X : Set σ) (P : Set ℕ) : Prop where
  pos : 0 < lo
  range : ∀ a ∉ X, use a ≠ 0 → lo ≤ use a ∧ use a < hi
  inj : ∀ a ∉ X, ∀ c ∉ X, use a ≠ 0 → use a = use c → a = c
  reserved : ∀ b, b < lo → b < hi → bit b = true
  bits : ∀ b, lo ≤ b → b < hi → (bit b = true ↔ (∃ a ∉ X, use a = b) ∨ b ∈ P)
  pending : ∀ b ∈ P, lo ≤ b ∧ b < hi ∧ ∀ a ∉ X, use a ≠ b

variable {lo hi : ℕ} {use use' : σ → ℕ} {bit : ℕ → Bool} {X : Set σ} {P : Set ℕ}

theorem Owns.of_list (l : List (σ × ℕ)) (hpos : 0 < lo) (hin : ∀ x ∈ l, use x.1 = x.2)
    (hout : ∀ a, use a ≠ 0 → (a, use a) ∈ l) (hrange : ∀ x ∈ l, lo ≤ x.2 ∧ x.2 < hi)
    (hvals : (l.map Prod.snd).Nodup)
    (hbit : ∀ b < hi, bit b = decide (b < lo ∨ b ∈ l.map Prod.snd)) :
    Owns lo hi use bit ∅ ∅ := by
  refine ⟨hpos, fun a _ h0 => hrange _ (hout a h0), fun a _ c _ h0 heq => ?_, fun b hb hbh => ?_,
    fun b hb hbh => ?_, fun b hb => absurd hb (Set.notMem_empty b)⟩
  · have ha := hout a h0
    have hc := hout c (heq ▸ h0)
    exact congrArg Prod.fst (List.inj_on_of_nodup_map hvals ha hc heq)
  · rw [hbit b hbh, decide_eq_true_eq]
    exact Or.inl hb
  rw [hbit b hbh, decide_eq_true_eq]
  constructor
  · rintro (hlt | hmem)
    · omega
    · obtain ⟨x, hx, rfl⟩ := List.mem_map.mp hmem
      exact Or.inl ⟨x.1, Set.notMem_empty _, hin x hx⟩
  · rintro (⟨a, -, rfl⟩ | hb)
    · exact Or.inr (List.mem_map.mpr ⟨_, hout a (by omega), rfl⟩)
    · exact absurd hb (Set.notMem_empty b)

variable {b : ℕ}

theorem Owns.unused (h : Owns lo hi use bit X P) (hb : b < hi) (hbit : bit b = false) :
    lo ≤ b ∧ (∀ a ∉ X, use a ≠ b) ∧ b ∉ P := by
  have hlo : lo ≤ b := by
    by_contra hlt
    have := h.reserved b (by omega) hb
    rw [hbit] at this
    cases this
  have hno : ¬((∃ a ∉ X, use a = b) ∨ b ∈ P) := by
    intro hor
    have := (h.bits b hlo hb).mpr hor
    rw [hbit] at this
    cases this
  exact ⟨hlo, fun a ha hu => hno (Or.inl ⟨a, ha, hu⟩), fun hp => hno (Or.inr hp)⟩

theorem Owns.alloc (h : Owns lo hi use bit X P) (hb : b < hi) (hbit : bit b = false) :
    Owns lo hi use (update bit b true) X (insert b P) := by
  obtain ⟨hlo, hun, -⟩ := h.unused hb hbit
  refine ⟨h.pos, h.range, h.inj, fun c hc hch => ?_, fun c hc hch => ?_, fun c hc => ?_⟩
  · rw [update_of_ne (by omega)]
    exact h.reserved c hc hch
  · by_cases hcb : c = b
    · subst hcb
      simp
    · rw [update_of_ne hcb, h.bits c hc hch, Set.mem_insert_iff]
      simp only [hcb, false_or]
  · rcases hc with rfl | hc
    · exact ⟨hlo, hb, hun⟩
    · exact h.pending c hc

theorem Owns.assign [DecidableEq σ] (h : Owns lo hi use bit X P) {a : σ} (ha : use a = 0)
    (haX : a ∉ X) (hb : b ∈ P) : Owns lo hi (update use a b) bit X (P \ {b}) := by
  obtain ⟨hlo, hhi, hun⟩ := h.pending b hb
  have hpos := h.pos
  refine ⟨h.pos, fun c hc hu => ?_, fun c hc e he hu hce => ?_, h.reserved, fun c hc hch => ?_, fun c hc => ?_⟩
  · by_cases hca : c = a
    · subst hca
      rw [update_self]
      exact ⟨hlo, hhi⟩
    · rw [update_of_ne hca] at hu ⊢
      exact h.range c hc hu
  · by_cases hca : c = a
    · by_cases hea : e = a
      · rw [hca, hea]
      · rw [hca, update_self, update_of_ne hea] at hce
        exact absurd hce.symm (hun e he)
    rw [update_of_ne hca] at hu hce
    by_cases hea : e = a
    · rw [hea, update_self] at hce
      exact absurd hce (hun c hc)
    · rw [update_of_ne hea] at hce
      exact h.inj c hc e he hu hce
  · rw [h.bits c hc hch]
    constructor
    · rintro (⟨e, he, rfl⟩ | hcP)
      · refine Or.inl ⟨e, he, update_of_ne ?_ ..⟩
        rintro rfl
        omega
      · by_cases hcb : c = b
        · exact Or.inl ⟨a, haX, by rw [update_self, hcb]⟩
        · exact Or.inr ⟨hcP, hcb⟩
    rintro (⟨e, he, hec⟩ | hcP)
    · by_cases hea : e = a
      · rw [hea, update_self] at hec
        exact Or.inr (hec ▸ hb)
      · rw [update_of_ne hea] at hec
        exact Or.inl ⟨e, he, hec⟩
    · exact Or.inr hcP.1
  · obtain ⟨hc1, hc2, hc3⟩ := h.pending c hc.1
    refine ⟨hc1, hc2, fun e he hec => ?_⟩
    by_cases hea : e = a
    · rw [hea, update_self] at hec
      exact hc.2 hec.symm
    · rw [update_of_ne hea] at hec
      exact hc3 e he hec

theorem Owns.free (h : Owns lo hi use bit X P) {a : σ} (haX : a ∉ X) (ha : use a ≠ 0) : bit (use a) = true ∧
      Owns lo hi use (update bit (use a) false) (insert a X) P := by
  obtain ⟨hlo, hhi⟩ := h.range a haX ha
  have hsub {c : σ} (hc : c ∉ insert a X) : c ∉ X ∧ c ≠ a := ⟨fun hcX => hc (Or.inr hcX), fun hca => hc (Or.inl hca)⟩
  refine ⟨(h.bits _ hlo hhi).mpr (Or.inl ⟨a, haX, rfl⟩), h.pos, fun c hc => ?_, fun c hc e he => ?_,
    fun c hc hch => ?_, fun c hc hch => ?_, fun c hc => ?_⟩
  · exact h.range c (hsub hc).1
  · exact h.inj c (hsub hc).1 e (hsub he).1
  · rw [update_of_ne (by omega)]
    exact h.reserved c hc hch
  · by_cases hcb : c = use a
    · subst hcb
      rw [update_self]
      refine iff_of_false (by simp) ?_
      rintro (⟨e, he, hea⟩ | hP)
      · exact (hsub he).2 (h.inj a haX e (hsub he).1 ha hea.symm).symm
      · exact (h.pending _ hP).2.2 a haX rfl
    rw [update_of_ne hcb, h.bits c hc hch]
    constructor
    · rintro (⟨e, he, rfl⟩ | hP)
      · refine Or.inl ⟨e, ?_, rfl⟩
        rintro (rfl | heX)
        · exact hcb rfl
        · exact he heX
      · exact Or.inr hP
    · rintro (⟨e, he, hec⟩ | hP)
      · exact Or.inl ⟨e, (hsub he).1, hec⟩
      · exact Or.inr hP
  · obtain ⟨h1, h2, h3⟩ := h.pending c hc
    exact ⟨h1, h2, fun e he => h3 e (hsub he).1⟩

theorem Owns.drop (h : Owns lo hi use bit X P) {a : σ} (ha : use a = 0) : Owns lo hi use bit (insert a X) P := by
  have hsub {c : σ} (hc : c ∉ insert a X) : c ∉ X := fun hcX => hc (Or.inr hcX)
  refine ⟨h.pos, fun c hc => h.range c (hsub hc), fun c hc e he => h.inj c (hsub hc) e (hsub he),
    h.reserved, fun b hb hbh => ?_, fun b hb => ?_⟩
  · have hpos := h.pos
    rw [h.bits b hb hbh]
    constructor
    · rintro (⟨e, he, rfl⟩ | hP)
      · refine Or.inl ⟨e, ?_, rfl⟩
        rintro (rfl | heX)
        · omega
        · exact he heX
      · exact Or.inr hP
    · rintro (⟨e, he, hec⟩ | hP)
      · exact Or.inl ⟨e, hsub he, hec⟩
      · exact Or.inr hP
  · obtain ⟨h1, h2, h3⟩ := h.pending b hb
    exact ⟨h1, h2, fun e he => h3 e (hsub he)⟩

theorem Owns.clear (h : Owns lo hi use bit X P) {Y : Set σ} (hsame : ∀ a ∉ X, use' a = use a)
    (hzero : ∀ a ∈ X, a ∉ Y → use' a = 0) (hY : Y ⊆ X) : Owns lo hi use' bit Y P := by
  have hX {a : σ} (ha : a ∉ Y) (hu : use' a ≠ 0) : a ∉ X := fun haX => hu (hzero a haX ha)
  refine ⟨h.pos, fun a ha hu => ?_, fun a ha c hc hu hac => ?_, h.reserved, fun b hb hbh => ?_, fun b hb => ?_⟩
  · have haX := hX ha hu
    rw [hsame a haX] at hu ⊢
    exact h.range a haX hu
  · have haX := hX ha hu
    have hcX := hX hc (hac ▸ hu)
    rw [hsame a haX] at hu hac
    rw [hsame c hcX] at hac
    exact h.inj a haX c hcX hu hac
  · rw [h.bits b hb hbh]
    have hpos := h.pos
    constructor
    · rintro (⟨a, ha, rfl⟩ | hP)
      · exact Or.inl ⟨a, fun haY => ha (hY haY), hsame a ha⟩
      · exact Or.inr hP
    rintro (⟨a, ha, rfl⟩ | hP)
    · have haX := hX ha (by omega)
      exact Or.inl ⟨a, haX, (hsame a haX).symm⟩
    · exact Or.inr hP
  · obtain ⟨h1, h2, h3⟩ := h.pending b hb
    have hpos := h.pos
    refine ⟨h1, h2, fun a ha hab => ?_⟩
    have haX := hX ha (by omega)
    exact h3 a haX ((hsame a haX).symm.trans hab)

end Xv6.Ownership
