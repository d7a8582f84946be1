import Mathlib.Tactic
import Mathlib.Data.List.Basic

/-! Byte-addressed memories and the little-endian integers stored in them.
A memory is a total map from offsets to bytes; a C structure is a set of fields
at fixed offsets of one. -/
namespace Xv6.Bytes
open List

abbrev ByteMem := ℕ → UInt8

def leBytes : ℕ → ℕ → List UInt8
  | 0, _ => []
  | k+1, n => UInt8.ofNat n :: leBytes k (n/256)

def leNat : List UInt8 → ℕ
  | [] => 0
  | b :: bs => b.toNat+256*leNat bs

@[simp] theorem length_leBytes (k n : ℕ) : (leBytes k n).length = k := by
  induction k generalizing n with
  | zero => rfl
  | succ k ih => simp only [leBytes, length_cons, ih]

theorem leNat_leBytes (k n : ℕ) : leNat (leBytes k n) = n%256^k := by
  induction k generalizing n with
  | zero => simp only [leBytes, leNat, pow_zero, Nat.mod_one]
  | succ k ih =>
    have hb : (UInt8.ofNat n).toNat = n%256 := by simp
    simp only [leBytes, leNat, ih, hb]
    rw [pow_succ, mul_comm (256^k) 256, Nat.mod_mul]

theorem take_drop_flatMap {α β : Type} (l : List α) (f : α → List β) {c : ℕ}
    (hf : ∀ a, (f a).length = c) {k : ℕ} {a : α} (hk : l[k]? = some a) :
    ((l.flatMap f).drop (c*k)).take c = f a := by
  induction l generalizing k with
  | nil => simp at hk
  | cons x l ih =>
    cases k with
    | zero =>
      obtain rfl : x = a := by simpa using hk
      rw [mul_zero, drop_zero, flatMap_cons, ← hf x, take_left]
    | succ k =>
      have hlen : c*(k+1) = (f x).length+c*k := by rw [hf x, mul_add, mul_one, add_comm]
      rw [flatMap_cons, hlen, ← drop_drop, drop_left]
      exact ih (by simpa using hk)

def load (m : ByteMem) (off len : ℕ) : List UInt8 := (List.range len).map (fun i => m (off+i))

def store (m : ByteMem) (off : ℕ) (bs : List UInt8) : ByteMem := fun i =>
  if off ≤ i ∧ i < off+bs.length then bs.getD (i-off) 0 else m i

@[simp] theorem length_load (m : ByteMem) (off len : ℕ) : (load m off len).length = len := by
  simp only [load, length_map, length_range]

theorem load_append (m : ByteMem) (off a b : ℕ) : load m off (a+b) = load m off a ++ load m (off+a) b := by
  rw [load, range_add, map_append, map_map]
  simp only [load, Function.comp_def, Nat.add_assoc]

theorem load_congr {m m' : ByteMem} {off len : ℕ} (h : ∀ k < len, m (off+k) = m' (off+k)) :
    load m off len = load m' off len :=
  map_congr_left (fun k hk => h k (mem_range.mp hk))

theorem load_drop_take (m : ByteMem) (size off len : ℕ) :
    ((load m 0 size).drop off).take len = load m off (min len (size-off)) := by
  apply ext_getElem
  · simp only [length_take, length_drop, length_load]
  · intro i hi hi'
    simp only [load, getElem_take, getElem_drop, getElem_map, getElem_range, Nat.zero_add]

theorem load_store_same (m : ByteMem) (off : ℕ) (bs : List UInt8) : load (store m off bs) off bs.length = bs := by
  apply ext_getElem
  · simp only [length_load]
  intro i hi hi'
  have hin : off ≤ off+i ∧ off+i < off+bs.length := by omega
  simp only [load, store, getElem_map, getElem_range, hin, and_self, ↓reduceIte,
    Nat.add_sub_cancel_left, getD_eq_getElem?_getD, List.getElem?_eq_getElem hi',
    Option.getD_some]

theorem load_store_disjoint (m : ByteMem) (off : ℕ) (bs : List UInt8) (off' len : ℕ)
    (h : off+bs.length ≤ off' ∨ off'+len ≤ off) :
    load (store m off bs) off' len = load m off' len := by
  apply map_congr_left
  intro i hi
  have hi' := mem_range.mp hi
  have hout : ¬ (off ≤ off'+i ∧ off'+i < off+bs.length) := by omega
  simp only [store, hout, ↓reduceIte]

theorem load_store_splice (m : ByteMem) {size off : ℕ} (bs : List UInt8) (hoff : off ≤ size) :
    load (store m off bs) 0 (max (off+bs.length) size) =
      (load m 0 size).take off ++ bs ++ (load m 0 size).drop (off+bs.length) := by
  have hsplit : max (off+bs.length) size = off+bs.length+(size-(off+bs.length)) := by omega
  have hbefore : (load m 0 size).take off = load m 0 off := by
    have h := load_drop_take m size 0 off
    rwa [drop_zero, Nat.sub_zero, Nat.min_eq_left hoff] at h
  have hafter : (load m 0 size).drop (off+bs.length) = load m (off+bs.length) (size-(off+bs.length)) := by
    have h := load_drop_take m size (off+bs.length) (size-(off+bs.length))
    rwa [Nat.min_self, take_of_length_le (by simp)] at h
  rw [hsplit, load_append, load_append, Nat.zero_add, Nat.zero_add, load_store_disjoint _ _ _ _ _ (by omega),
    load_store_same, load_store_disjoint _ _ _ _ _ (by omega), hbefore, hafter]

def loadLE (m : ByteMem) (off k : ℕ) : ℕ := leNat (load m off k)

def storeLE (m : ByteMem) (off k n : ℕ) : ByteMem := store m off (leBytes k n)

theorem loadLE_storeLE_same (m : ByteMem) (off k n : ℕ) (hn : n < 256^k) : loadLE (storeLE m off k n) off k = n := by
  have h := load_store_same m off (leBytes k n)
  rw [length_leBytes] at h
  rw [loadLE, storeLE, h, leNat_leBytes, Nat.mod_eq_of_lt hn]

theorem loadLE_storeLE_disjoint (m : ByteMem) (off k n off' k' : ℕ) (h : off+k ≤ off' ∨ off'+k' ≤ off) :
    loadLE (storeLE m off k n) off' k' = loadLE m off' k' := by
  rw [loadLE, storeLE, load_store_disjoint _ _ _ _ _ (by simpa only [length_leBytes] using h), loadLE]

end Xv6.Bytes
