import Xv6.VmModel
import Xv6.Bytes

/-! Physical memory byte by byte: the bytes of a word are its digits to the base 256. -/
namespace Xv6.Vm
open Hoare Radix Bytes

section Word
variable {j k q r : ℕ}

theorem digit_low (h : j < k) : (r+256^k*q)/256^j%256 = r/256^j%256 := by
  obtain ⟨d, rfl⟩ := Nat.exists_eq_add_of_lt h
  have hpow : 256^(j+d+1)*q = 256^j*(256*(256^d*q)) := by ring
  rw [hpow, Nat.add_mul_div_left _ _ (Nat.pos_of_neZero (256^j)), Nat.add_mul_mod_self_left]

theorem digit_high (hr : r < 256^k) : (r+256^k*q)/256^(k+j) = q/256^j := by
  rw [Nat.pow_add, ← Nat.div_div_eq_div_mul, Nat.add_mul_div_left _ _ (Nat.pos_of_neZero (256^k)),
    Nat.div_eq_of_lt hr, Nat.zero_add]

theorem setByteOf_eq (w k : ℕ) (b : UInt8) : setByteOf w k b = w%256^k+256^k*(b.toNat+256*(w/256^(k+1))) := by
  rw [setByteOf]
  ring

theorem digit_setByteOf (w k j : ℕ) (b : UInt8) :
    setByteOf w k b/256^j%256 = if j = k then b.toNat else w/256^j%256 := by
  have hmod : w%256^k < 256^k := Nat.mod_lt _ (Nat.pos_of_neZero _)
  have hb := b.toNat_lt
  rw [setByteOf_eq]
  rcases Nat.lt_trichotomy j k with h | rfl | h
  · rw [if_neg h.ne, digit_low h]
    conv_rhs => rw [← Nat.mod_add_div w (256^k), digit_low h]
  · rw [if_pos rfl]
    have hhigh := @digit_high 0 j (b.toNat+256*(w/256^(j+1))) _ hmod
    simp only [Nat.add_zero, Nat.pow_zero, Nat.div_one] at hhigh
    rw [hhigh]
    omega
  obtain ⟨d, rfl⟩ := Nat.exists_eq_add_of_lt h
  have hrest : (b.toNat+256*(w/256^(k+1)))/256 = w/256^(k+1) := by omega
  rw [if_neg h.ne', Nat.add_assoc, digit_high hmod]
  calc (b.toNat+256*(w/256^(k+1)))/256^(d+1)%256 = w/256^(k+1)/256^d%256 := by
        rw [Nat.pow_succ' (n := d), ← Nat.div_div_eq_div_mul, hrest]
    _ = w/256^(k+(d+1))%256 := by rw [Nat.div_div_eq_div_mul, ← Nat.pow_add, Nat.add_assoc, Nat.add_comm 1]

end Word

variable {s : Ram} {a a' q : ℕ} {b : UInt8} {bs : List UInt8}

theorem ofNat_digit (x y : ℕ) (h : x%256 = y%256) : UInt8.ofNat x = UInt8.ofNat y := by
  apply UInt8.toNat_inj.mp
  rw [UInt8.toNat_ofNat', UInt8.toNat_ofNat']
  exact h

theorem address_eq (hp : pgrounddown a' = pgrounddown a) (hw : wordIndex a' = wordIndex a)
    (hb : a'%8 = a%8) : a' = a := by
  have hw' : a'%pgsize/8 = a%pgsize/8 := congrArg Fin.val hw
  rw [pgrounddown, pgrounddown, pgsize] at *
  omega

theorem setByte_word : (s.setByte a b).word = write s.word (pgrounddown a) (wordIndex a)
    (setByteOf (s.word (pgrounddown a) (wordIndex a)) (a%8) b) := rfl

theorem byte_setByte : (s.setByte a b).byte a' = if a' = a then b else s.byte a' := by
  by_cases h : a' = a
  · subst h
    rw [if_pos rfl, Ram.byte, setByte_word, write_self]
    have hdigit := digit_setByteOf (s.word (pgrounddown a') (wordIndex a')) (a'%8) (a'%8) b
    rw [if_pos rfl] at hdigit
    rw [ofNat_digit _ b.toNat (by rw [hdigit, Nat.mod_eq_of_lt b.toNat_lt]), UInt8.ofNat_toNat]
  rw [if_neg h, Ram.byte, Ram.byte, setByte_word]
  by_cases hp : pgrounddown a' = pgrounddown a
  · by_cases hw : wordIndex a' = wordIndex a
    · rw [hp, hw, write_self]
      apply ofNat_digit
      rw [digit_setByteOf, if_neg (fun hb => h (address_eq hp hw hb))]
    · rw [write_entry hw]
  · rw [write_node hp]

theorem byte_setBytes : (s.setBytes a bs).byte = store s.byte a bs := by
  induction bs generalizing s a with
  | nil =>
    funext i
    rw [Ram.setBytes, store, List.length_nil, if_neg (by omega)]
  | cons b bs ih =>
    funext i
    rw [Ram.setBytes, ih, store, store, List.length_cons, byte_setByte]
    by_cases hin : a+1 ≤ i ∧ i < a+1+bs.length
    · have hi : i-a = i-(a+1)+1 := by omega
      rw [if_pos hin, if_pos (by omega), hi, List.getD_cons_succ]
    rw [if_neg hin]
    by_cases hia : i = a
    · rw [if_pos hia, if_pos (by omega), hia, Nat.sub_self, List.getD_cons_zero]
    · rw [if_neg hia, if_neg (by omega)]

theorem setBytes_word (h : ∀ k < bs.length, pgrounddown (a+k) ≠ q) : (s.setBytes a bs).word q = s.word q := by
  induction bs generalizing s a with
  | nil => rfl
  | cons b bs ih =>
    have hrest := @ih (s.setByte a b) (a+1) (fun k hk => by
      have hnext := h (k+1) (Nat.succ_lt_succ hk)
      rwa [Nat.add_comm k, ← Nat.add_assoc] at hnext)
    exact hrest.trans (write_node (h 0 (Nat.succ_pos _)).symm _)

theorem setBytes_freelist : (s.setBytes a bs).freelist = s.freelist := by
  induction bs generalizing s a with
  | nil => rfl
  | cons b bs ih => exact ih

theorem setBytes_refuse : (s.setBytes a bs).refuse = s.refuse := by
  induction bs generalizing s a with
  | nil => rfl
  | cons b bs ih => exact ih

theorem pgrounddown_add (hf : a%pgsize = 0) {k : ℕ} (hk : k < pgsize) : pgrounddown (a+k) = a := by
  rw [pgrounddown, pgsize] at *
  omega

theorem pte2pa_aligned (w : ℕ) : pte2pa w%pgsize = 0 := by
  rw [pte2pa, pgsize]
  omega

theorem byte_congr {t : Ram} (h : t.word (pgrounddown a) = s.word (pgrounddown a)) : t.byte a = s.byte a := by
  rw [Ram.byte, Ram.byte, h]

end Xv6.Vm
