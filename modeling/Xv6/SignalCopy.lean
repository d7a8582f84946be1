import Xv6.SignalModel

/-! User memory byte by byte, as copyin and copyout read and write it through the page table. -/
namespace Xv6.Signal
open Bytes List

theorem pgRoundDown_toNat (v : Word) : (pgRoundDown v).toNat = v.toNat/4096*4096 := by
  have hshift : pgRoundDown v = (v >>> 12) <<< 12 := by
    apply BitVec.eq_of_getLsbD_eq
    intro i hi
    have hmask : (4095#64).getLsbD i = decide (i < 12) := by
      rw [BitVec.getLsbD_ofNat, show 4095 = 2^12-1 from rfl, Nat.testBit_two_pow_sub_one]
      simp [hi]
    rw [pgRoundDown, BitVec.getLsbD_and, BitVec.getLsbD_not, hmask, BitVec.getLsbD_shiftLeft,
      BitVec.getLsbD_ushiftRight]
    by_cases h : i < 12
    · simp [h]
    · have hback : 12+(i-12) = i := by omega
      simp [h, hi, hback]
  have hv := v.isLt
  rw [hshift, BitVec.toNat_shiftLeft, BitVec.toNat_ushiftRight, Nat.shiftRight_eq_div_pow, Nat.shiftLeft_eq]
  omega

def pgOff (v : Word) : Word := v-pgRoundDown v

theorem pgOff_toNat (v : Word) : (pgOff v).toNat = v.toNat%4096 := by
  have h := pgRoundDown_toNat v
  have hv := v.isLt
  rw [pgOff, BitVec.toNat_sub_of_le (by rw [BitVec.le_def]; omega)]
  omega

theorem page_unique {a b i j : Word} (ha : a.toNat%4096 = 0) (hb : b.toNat%4096 = 0)
    (hi : i.toNat < 4096) (hj : j.toNat < 4096) (h : a+i = b+j) : a = b ∧ i = j := by
  have hv := congrArg BitVec.toNat h
  rw [BitVec.toNat_add, BitVec.toNat_add] at hv
  have hal := a.isLt
  have hbl := b.isLt
  refine ⟨BitVec.eq_of_toNat_eq ?_, BitVec.eq_of_toNat_eq ?_⟩ <;> omega

theorem pgRoundDown_add (v : Word) : pgRoundDown v+pgOff v = v := by rw [pgOff, BitVec.add_comm, BitVec.sub_add_cancel]

theorem pgRoundDown_aligned (v : Word) : (pgRoundDown v).toNat%4096 = 0 := by rw [pgRoundDown_toNat, Nat.mul_mod_left]

def UserMem.get (m : UserMem) (v : Word) : Option UInt8 :=
  (m.walkaddr (pgRoundDown v)).map (fun pa => m.phys (pa+pgOff v))

/-- The pages of a process are whole frames, and no frame is behind two of them. -/
structure UserMem.Flat (m : UserMem) : Prop where
  aligned : ∀ u pa, m.walkaddr (pgRoundDown u) = some pa → pa.toNat%4096 = 0
  once : ∀ u v pa, m.walkaddr (pgRoundDown u) = some pa → m.walkaddr (pgRoundDown v) = some pa →
    pgRoundDown u = pgRoundDown v

def UserMem.Mapped (m : UserMem) (va : Word) (n : ℕ) : Prop := ∀ k < n, (m.get (va+BitVec.ofNat 64 k)).isSome = true

def UserMem.Holds (m : UserMem) (va : Word) (bs : List UInt8) : Prop :=
  ∀ k (hk : k < bs.length), m.get (va+BitVec.ofNat 64 k) = some bs[k]

/-- `m'` is `m` with the bytes `bs` written from `va` on. -/
structure UserMem.Written (m m' : UserMem) (va : Word) (bs : List UInt8) : Prop where
  walkaddr : m'.walkaddr = m.walkaddr
  get : ∀ v, m'.get v = bs[(v-va).toNat]?.or (m.get v)

def pgRoom (v : Word) : ℕ := 4096-(pgOff v).toNat

theorem page_near {a b i j : Word} (ha : a.toNat%4096 = 0) (hb : b.toNat%4096 = 0)
    (hi : i.toNat < 4096) (hj : j.toNat < 4096) (h : (a+i-(b+j)).toNat < 4096-j.toNat) : a = b := by
  have hk : (j+(a+i-(b+j))).toNat = j.toNat+(a+i-(b+j)).toNat := by
    rw [BitVec.toNat_add, Nat.mod_eq_of_lt]
    omega
  have heq : a+i = b+(j+(a+i-(b+j))) := by
    rw [← BitVec.add_assoc, BitVec.add_comm, BitVec.add_comm (b+j), BitVec.sub_add_cancel, BitVec.add_comm]
  exact (page_unique ha hb hi (by omega) heq).1

theorem pgOff_lt (v : Word) : (pgOff v).toNat < 4096 := by
  rw [pgOff_toNat]
  exact Nat.mod_lt _ (by norm_num)

theorem pgRoom_pos (v : Word) : 0 < pgRoom v := Nat.sub_pos_of_lt (pgOff_lt v)

variable {va pa : Word} {m m' : UserMem} {n : ℕ}

theorem pgRoundDown_near {v : Word} (h : (v-va).toNat < pgRoom va) : pgRoundDown v = pgRoundDown va :=
  page_near (pgRoundDown_aligned v) (pgRoundDown_aligned va) (pgOff_lt v) (pgOff_lt va)
    (by rwa [pgRoundDown_add, pgRoundDown_add])

theorem UserMem.Flat.memmove (hm : m.Flat) {bs : List UInt8}
    (hpa : m.walkaddr (pgRoundDown va) = some pa) (hbs : bs.length ≤ pgRoom va) :
    m.Written (m.memmove (pa+pgOff va) bs) va bs := by
  refine ⟨rfl, fun v => ?_⟩
  by_cases hpage : pgRoundDown v = pgRoundDown va
  · have hdist : pa+pgOff v-(pa+pgOff va) = v-va := by
      rw [pgOff, pgOff, hpage]
      bv_omega
    simp only [UserMem.get, UserMem.memmove, hpage, hpa, Option.map_some, hdist, getD_eq_getElem?_getD]
    cases bs[(v-va).toNat]? <;> rfl
  -- neither the user address nor the frame behind it is in the range
  have hout : bs[(v-va).toNat]? = none := by
    rw [List.getElem?_eq_none_iff]
    by_contra hlt
    exact hpage (pgRoundDown_near (by omega))
  rw [hout, Option.none_or]
  cases hv : m.walkaddr (pgRoundDown v) with
  | none => simp only [UserMem.get, UserMem.memmove, hv, Option.map_none]
  | some pb =>
    have hfar : bs[(pb+pgOff v-(pa+pgOff va)).toNat]? = none := by
      rw [List.getElem?_eq_none_iff]
      by_contra hlt
      have heq := page_near (hm.aligned _ _ hv) (hm.aligned _ _ hpa) (pgOff_lt v) (pgOff_lt va)
        (by rw [pgRoom] at hbs; omega)
      exact hpage (hm.once v va pa (heq ▸ hv) hpa)
    simp only [UserMem.get, UserMem.memmove, hv, Option.map_some, getD_eq_getElem?_getD, hfar, Option.getD_none]

theorem UserMem.get_isSome (m : UserMem) (v : Word) : (m.get v).isSome = (m.walkaddr (pgRoundDown v)).isSome := by
  rw [UserMem.get, Option.isSome_map]

theorem UserMem.Mapped.congr (h : m'.walkaddr = m.walkaddr) : m'.Mapped va n ↔ m.Mapped va n := by
  simp only [UserMem.Mapped, UserMem.get_isSome, h]

theorem UserMem.Flat.congr (hm : m.Flat) (h : m'.walkaddr = m.walkaddr) : m'.Flat := ⟨h ▸ hm.aligned, h ▸ hm.once⟩

theorem UserMem.mapped_add (m : UserMem) (va : Word) (a b : ℕ) :
    m.Mapped va (a+b) ↔ m.Mapped va a ∧ m.Mapped (va+BitVec.ofNat 64 a) b := by
  have hadd (k : ℕ) : va+BitVec.ofNat 64 a+BitVec.ofNat 64 k = va+BitVec.ofNat 64 (a+k) := by
    rw [BitVec.add_assoc, ← BitVec.ofNat_add]
  constructor
  · intro h
    exact ⟨fun k hk => h k (by omega), fun k hk => hadd k ▸ h (a+k) (by omega)⟩
  rintro ⟨ha, hb⟩ k hk
  by_cases hka : k < a
  · exact ha k hka
  · have hb' := hb (k-a) (by omega)
    rwa [hadd, show a+(k-a) = k by omega] at hb'

theorem UserMem.mapped_in_page (hn : n ≤ pgRoom va) (hpos : 0 < n) :
    m.Mapped va n ↔ (m.walkaddr (pgRoundDown va)).isSome = true := by
  have hpage (k : ℕ) (hk : k < n) : pgRoundDown (va+BitVec.ofNat 64 k) = pgRoundDown va := by
    apply pgRoundDown_near
    have hroom : pgRoom va ≤ 4096 := Nat.sub_le ..
    rw [BitVec.add_comm, BitVec.add_sub_cancel, BitVec.toNat_ofNat]
    omega
  constructor
  · intro h
    have h0 := h 0 hpos
    rwa [UserMem.get_isSome, hpage 0 hpos] at h0
  · intro h k hk
    rwa [UserMem.get_isSome, hpage k hk]

theorem UserMem.Written.over {m'' : UserMem} {bs cs : List UInt8}
    (h : m.Written m' va bs) (h' : m'.Written m'' (va+BitVec.ofNat 64 n) cs) (hn : n ≤ bs.length)
    (hcs : bs.length ≤ n+cs.length) (hlen : n+cs.length ≤ 2^64) :
    m.Written m'' va (bs.take n ++ cs) := by
  refine ⟨h'.walkaddr.trans h.walkaddr, fun v => ?_⟩
  rw [h'.get, h.get]
  have hv := (v-va).isLt
  have htake : (bs.take n).length = n := by rw [length_take, Nat.min_eq_left hn]
  have hdist : (v-(va+BitVec.ofNat 64 n)).toNat = (2^64-n%2^64+(v-va).toNat)%2^64 := by
    rw [show v-(va+BitVec.ofNat 64 n) = v-va-BitVec.ofNat 64 n by bv_omega, BitVec.toNat_sub, BitVec.toNat_ofNat]
  by_cases hin : (v-va).toNat < n
  · have hout : cs[(v-(va+BitVec.ofNat 64 n)).toNat]? = none := by
      rw [List.getElem?_eq_none_iff, hdist]
      omega
    rw [hout, Option.none_or, List.getElem?_append_left (by omega), List.getElem?_take_of_lt hin]
  have hback : (v-(va+BitVec.ofNat 64 n)).toNat = (v-va).toNat-n := by omega
  rw [List.getElem?_append_right (by omega), htake, hback]
  cases hc : cs[(v-va).toNat-n]? with
  | some => rfl
  | none =>
    have hfar : bs[(v-va).toNat]? = none := by
      rw [List.getElem?_eq_none_iff] at hc ⊢
      omega
    rw [hfar, Option.none_or]

theorem next_page (va : Word) : pgRoundDown va+4096#64 = va+BitVec.ofNat 64 (pgRoom va) := by
  have hoff := pgOff_toNat va
  have hdown := pgRoundDown_toNat va
  have hva := va.isLt
  apply BitVec.eq_of_toNat_eq
  rw [BitVec.toNat_add, BitVec.toNat_add, BitVec.toNat_ofNat, BitVec.toNat_ofNat, pgRoom]
  omega

theorem UserMem.mapped_zero (m : UserMem) (va : Word) : m.Mapped va 0 := fun k hk => absurd hk (Nat.not_lt_zero k)

theorem UserMem.Written.nil (m : UserMem) (va : Word) : m.Written m va [] := ⟨rfl, fun _ => rfl⟩

theorem UserMem.mapped_page (hpa : m.walkaddr (pgRoundDown va) = some pa) (hn : n ≤ pgRoom va) : m.Mapped va n := by
  rcases Nat.eq_zero_or_pos n with rfl | hpos
  · exact m.mapped_zero va
  · rw [UserMem.mapped_in_page hn hpos, hpa, Option.isSome_some]

theorem UserMem.not_mapped (hpa : m.walkaddr (pgRoundDown va) = none) (hn : n ≠ 0) : ¬m.Mapped va n := by
  intro h
  have h0 := h 0 (Nat.pos_of_ne_zero hn)
  rw [UserMem.get_isSome, BitVec.add_zero, hpa] at h0
  cases h0

def CopyoutSpec (m : UserMem) (va : Word) (src : List UInt8) (r : UserMem × ℤ) : Prop :=
  (m.Mapped va src.length ∧ r.2 = 0 ∧ r.1.walkaddr = m.walkaddr ∧ (m.Flat → m.Written r.1 va src)) ∨
  (¬m.Mapped va src.length ∧ r.2 = -1)

theorem copyoutLoop_nil (fuel : ℕ) (m : UserMem) (va : Word) : copyoutLoop fuel m va [] = (m, 0) := by
  cases fuel <;> rfl

theorem copyoutLoop_turn {src : List UInt8} (hsrc : src.length ≠ 0)
    (hpa : m.walkaddr (pgRoundDown va) = some pa) (fuel : ℕ) :
    copyoutLoop (fuel+1) m va src = copyoutLoop fuel (m.memmove (pa+pgOff va) (src.take (min (pgRoom va) src.length)))
      (va+BitVec.ofNat 64 (pgRoom va)) (src.drop (min (pgRoom va) src.length)) := by
  simp only [copyoutLoop, hsrc, hpa, ↓reduceIte, next_page]
  rfl

/-- copyout writes all its bytes if the whole range is mapped, and fails otherwise. -/
theorem copyoutLoop_spec {fuel : ℕ} {src : List UInt8} (hfuel : src.length ≤ fuel) (hlen : src.length ≤ 2^64) :
    CopyoutSpec m va src (copyoutLoop fuel m va src) := by
  induction fuel generalizing m va src with
  | zero =>
    obtain rfl := eq_nil_of_length_eq_zero (Nat.le_zero.mp hfuel)
    exact Or.inl ⟨m.mapped_zero va, rfl, rfl, fun _ => .nil m va⟩
  | succ fuel ih =>
    by_cases hnil : src.length = 0
    · obtain rfl := eq_nil_of_length_eq_zero hnil
      exact Or.inl ⟨m.mapped_zero va, rfl, rfl, fun _ => .nil m va⟩
    cases hpa : m.walkaddr (pgRoundDown va) with
    | none => exact Or.inr ⟨UserMem.not_mapped hpa hnil, by simp only [copyoutLoop, hnil, hpa, ↓reduceIte]⟩
    | some pa =>
      rw [copyoutLoop_turn hnil hpa]
      by_cases hfit : src.length ≤ pgRoom va
      · rw [Nat.min_eq_right hfit, take_length, drop_length, copyoutLoop_nil]
        exact Or.inl ⟨UserMem.mapped_page hpa hfit, rfl, rfl, fun hm => hm.memmove hpa hfit⟩
      -- the part in this page, and the rest from the next page on
      have hpos := pgRoom_pos va
      have htake : (src.take (pgRoom va)).length = pgRoom va := by
        rw [length_take]
        omega
      have hsplit : src.length = pgRoom va+(src.drop (pgRoom va)).length := by
        rw [length_drop]
        omega
      have hmap : m.Mapped va src.length ↔
          (m.memmove (pa+pgOff va) (src.take (pgRoom va))).Mapped (va+BitVec.ofNat 64 (pgRoom va))
            (src.drop (pgRoom va)).length := by
        rw [hsplit, UserMem.mapped_add]
        refine (and_iff_right (UserMem.mapped_page hpa le_rfl)).trans (Iff.symm ?_)
        exact UserMem.Mapped.congr rfl
      rw [Nat.min_eq_left (Nat.le_of_not_le hfit)]
      rcases @ih (va+BitVec.ofNat 64 (pgRoom va)) (m.memmove (pa+pgOff va) (src.take (pgRoom va)))
        (src.drop (pgRoom va)) (by omega) (by omega) with ⟨hrest, hret, hwalk, hw⟩ | ⟨hrest, hret⟩
      · refine Or.inl ⟨hmap.mpr hrest, hret, hwalk, fun hm => ?_⟩
        have happ := (hm.memmove hpa htake.le).over (hw (hm.congr rfl)) htake.ge (by omega) (by omega)
        rwa [take_take, Nat.min_self, take_append_drop] at happ
      · exact Or.inr ⟨fun h => hrest (hmap.mp h), hret⟩

theorem copyout_spec (m : UserMem) (va : Word) (src : List UInt8) (hlen : src.length ≤ 2^64) :
    CopyoutSpec m va src (copyout m va src) :=
  copyoutLoop_spec le_rfl hlen

theorem UserMem.holds_append {bs cs : List UInt8} (h : m.Holds va bs)
    (h' : m.Holds (va+BitVec.ofNat 64 bs.length) cs) : m.Holds va (bs ++ cs) := by
  intro k hk
  by_cases hin : k < bs.length
  · rw [getElem_append_left hin]
    exact h k hin
  rw [length_append] at hk
  have h2 := h' (k-bs.length) (by omega)
  rw [BitVec.add_assoc, ← BitVec.ofNat_add, show bs.length+(k-bs.length) = k by omega] at h2
  rw [getElem_append_right (by omega)]
  exact h2

theorem UserMem.holds_page (hpa : m.walkaddr (pgRoundDown va) = some pa) (hn : n ≤ pgRoom va) :
    m.Holds va ((List.range n).map (fun i => m.phys (pa+pgOff va+BitVec.ofNat 64 i))) := by
  intro k hk
  have hkn : k < n := by simpa using hk
  have hroom : pgRoom va ≤ 4096 := Nat.sub_le ..
  have hpage : pgRoundDown (va+BitVec.ofNat 64 k) = pgRoundDown va := by
    apply pgRoundDown_near
    rw [BitVec.add_comm, BitVec.add_sub_cancel, BitVec.toNat_ofNat]
    omega
  have hoff : pgOff (va+BitVec.ofNat 64 k) = pgOff va+BitVec.ofNat 64 k := by
    rw [pgOff, hpage, pgOff]
    bv_omega
  rw [UserMem.get, hpage, hpa, Option.map_some, hoff, getElem_map, getElem_range, BitVec.add_assoc]

/-- copyin returns the bytes of the range if all of it is mapped, and fails otherwise. -/
theorem copyinLoop_spec {fuel : ℕ} (m : UserMem) (va : Word) (hfuel : n ≤ fuel) :
    (m.Mapped va n ∧ ∃ bs, copyinLoop fuel m va n = some bs ∧ bs.length = n ∧ m.Holds va bs) ∨
    (¬m.Mapped va n ∧ copyinLoop fuel m va n = none) := by
  induction fuel generalizing va n with
  | zero =>
    obtain rfl := Nat.le_zero.mp hfuel
    exact Or.inl ⟨m.mapped_zero va, [], rfl, rfl, fun k hk => absurd hk (Nat.not_lt_zero k)⟩
  | succ fuel ih =>
    by_cases hzero : n = 0
    · subst hzero
      exact Or.inl ⟨m.mapped_zero va, [], rfl, rfl, fun k hk => absurd hk (Nat.not_lt_zero k)⟩
    cases hpa : m.walkaddr (pgRoundDown va) with
    | none => exact Or.inr ⟨UserMem.not_mapped hpa hzero, by simp only [copyinLoop, hzero, hpa, ↓reduceIte]⟩
    | some pa =>
      have hloop : copyinLoop (fuel+1) m va n =
          (copyinLoop fuel m (va+BitVec.ofNat 64 (pgRoom va)) (n-min (pgRoom va) n)).map
            ((List.range (min (pgRoom va) n)).map (fun i => m.phys (pa+pgOff va+BitVec.ofNat 64 i)) ++ ·) := by
        simp only [copyinLoop, hzero, hpa, ↓reduceIte, next_page]
        rfl
      have hpos := pgRoom_pos va
      rw [hloop]
      by_cases hfit : n ≤ pgRoom va
      · rw [Nat.min_eq_right hfit, Nat.sub_self]
        refine Or.inl ⟨UserMem.mapped_page hpa hfit, _, ?_, ?_, UserMem.holds_page hpa hfit⟩
        · cases fuel <;> simp [copyinLoop]
        · simp
      rw [Nat.min_eq_left (Nat.le_of_not_le hfit)]
      have hmap : m.Mapped va n ↔ m.Mapped (va+BitVec.ofNat 64 (pgRoom va)) (n-pgRoom va) := by
        rw [show n = pgRoom va+(n-pgRoom va) by omega, UserMem.mapped_add, Nat.add_sub_cancel_left]
        exact and_iff_right (UserMem.mapped_page hpa le_rfl)
      rcases ih (va+BitVec.ofNat 64 (pgRoom va)) (n := n-pgRoom va) (by omega) with
        ⟨hrest, bs, hbs, hlen, hholds⟩ | ⟨hrest, hnone⟩
      · refine Or.inl ⟨hmap.mpr hrest, _, by rw [hbs, Option.map_some], ?_, ?_⟩
        · rw [length_append, length_map, length_range, hlen]
          omega
        · refine UserMem.holds_append (UserMem.holds_page hpa le_rfl) ?_
          rwa [length_map, length_range]
      · exact Or.inr ⟨fun h => hrest (hmap.mp h), by rw [hnone, Option.map_none]⟩

theorem copyin_spec (m : UserMem) (va : Word) (n : ℕ) :
    (m.Mapped va n ∧ ∃ bs, copyin m va n = some bs ∧ bs.length = n ∧ m.Holds va bs) ∨
    (¬m.Mapped va n ∧ copyin m va n = none) :=
  copyinLoop_spec m va le_rfl

end Xv6.Signal
