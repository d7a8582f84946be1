import Xv6.StoreModel

/-! The layouts of kernel/fs.h: dinodes, block numbers and bitmap bits in blocks of bytes. -/
namespace Xv6.Store
open Bytes List

@[simp] theorem shortOf_shortBytes (x : Int16) : shortOf (shortBytes x) = x := by
  have hlt : x.toUInt16.toNat < 256^2 := x.toUInt16.toNat_lt
  rw [shortOf, shortBytes, leNat_leBytes, Nat.mod_eq_of_lt hlt, UInt16.ofNat_toNat]
  rfl

@[simp] theorem uintOf_uintBytes (x : UInt32) : uintOf (uintBytes x) = x := by
  have hlt : x.toNat < 256^4 := x.toNat_lt
  rw [uintOf, uintBytes, leNat_leBytes, Nat.mod_eq_of_lt hlt, UInt32.ofNat_toNat]

@[simp] theorem length_shortBytes (x : Int16) : (shortBytes x).length = 2 := length_leBytes ..

@[simp] theorem length_uintBytes (x : UInt32) : (uintBytes x).length = 4 := length_leBytes ..

@[simp] theorem Dinode.length_bytes (x : Dinode) : x.bytes.length = 64 := by simp [Dinode.bytes, length_flatMap]

theorem Dinode.ofBytes_bytes (x : Dinode) : Dinode.ofBytes x.bytes = x := by
  have haddr (k : Fin 13) : ((x.bytes.drop (12+4*k)).take 4) = uintBytes (x.addrs k) := by
    have hhead : (shortBytes x.type ++ shortBytes x.major ++ shortBytes x.minor ++
        shortBytes x.nlink ++ uintBytes x.size).length = 12 := by simp
    have hk : (List.finRange 13)[k.val]? = some k := by simp
    rw [← drop_drop, Dinode.bytes, ← hhead, drop_left]
    exact take_drop_flatMap _ _ (fun k => length_uintBytes (x.addrs k)) hk
  have htype : x.bytes.take 2 = shortBytes x.type := by simp [Dinode.bytes]
  have hmajor : (x.bytes.drop 2).take 2 = shortBytes x.major := by simp [Dinode.bytes]
  have hminor : (x.bytes.drop 4).take 2 = shortBytes x.minor := by simp [Dinode.bytes, drop_append, drop_of_length_le]
  have hnlink : (x.bytes.drop 6).take 2 = shortBytes x.nlink := by simp [Dinode.bytes, drop_append, drop_of_length_le]
  have hsize : (x.bytes.drop 8).take 4 = uintBytes x.size := by simp [Dinode.bytes, drop_append, drop_of_length_le]
  simp only [Dinode.ofBytes, htype, hmajor, hminor, hnlink, hsize, haddr, shortOf_shortBytes, uintOf_uintBytes]

theorem getDinode_putDinode (blk : Block) (i : ℕ) (x : Dinode) : getDinode (putDinode blk i x) i = x := by
  have h := load_store_same blk (64*(i%ipb)) x.bytes
  rw [Dinode.length_bytes] at h
  rw [getDinode, putDinode, h, Dinode.ofBytes_bytes]

theorem getDinode_putDinode_ne (blk : Block) {i j : ℕ} (x : Dinode) (h : i%ipb ≠ j%ipb) :
    getDinode (putDinode blk i x) j = getDinode blk j := by
  rw [getDinode, putDinode, load_store_disjoint, getDinode]
  rw [Dinode.length_bytes]
  omega

@[simp] theorem word_setWord (blk : Block) (j : ℕ) (x : UInt32) : word (setWord blk j x) j = x := by
  have h := load_store_same blk (4*j) (uintBytes x)
  rw [length_uintBytes] at h
  rw [word, setWord, h, uintOf_uintBytes]

theorem word_setWord_ne (blk : Block) {i j : ℕ} (x : UInt32) (h : i ≠ j) : word (setWord blk i x) j = word blk j := by
  rw [word, setWord, load_store_disjoint, word]
  rw [length_uintBytes]
  omega

theorem word_zero (j : ℕ) : word (fun _ => 0) j = 0 := by simp [word, load, map_const', List.replicate, uintOf, leNat]

theorem testBit_setBit (x : UInt8) {k : ℕ} (hk : k < 8) (m : ℕ) :
    (x ||| UInt8.ofNat (2^k)).toNat.testBit m = (decide (m = k) || x.toNat.testBit m) := by
  have hlt : 2^k < 2^8 := Nat.pow_lt_pow_right (by decide) hk
  have hval : (UInt8.ofNat (2^k)).toNat = 2^k := by rw [UInt8.toNat_ofNat', Nat.mod_eq_of_lt hlt]
  rw [UInt8.toNat_or, hval, Nat.testBit_or, Nat.testBit_two_pow, Bool.or_comm]
  simp only [eq_comm]

theorem testBit_clearBit (x : UInt8) {k m : ℕ} (hk : k < 8) (hm : m < 8) :
    (x &&& ~~~UInt8.ofNat (2^k)).toNat.testBit m = (!decide (m = k) && x.toNat.testBit m) := by
  have hlt : 2^k < 2^8 := Nat.pow_lt_pow_right (by decide) hk
  have hval : (UInt8.ofNat (2^k)).toNat = 2^k := by rw [UInt8.toNat_ofNat', Nat.mod_eq_of_lt hlt]
  have hnot : (~~~UInt8.ofNat (2^k)).toNat = 2^8-(2^k+1) := by
    have hsize : UInt8.size = 256 := rfl
    rw [UInt8.toNat_not, hval, hsize]
    omega
  rw [UInt8.toNat_and, hnot, Nat.testBit_and, Nat.testBit_two_pow_sub_succ hlt, Nat.testBit_two_pow, Bool.and_comm]
  simp only [hm, decide_true, Bool.true_and, eq_comm]

theorem bitSet_setBit (blk : Block) (i j : ℕ) : bitSet (setBit blk i) j = (decide (j = i) || bitSet blk j) := by
  unfold bitSet setBit
  by_cases hb : j/8 = i/8
  · rw [hb, Function.update_self, testBit_setBit _ (Nat.mod_lt _ (by decide))]
    have hiff : j%8 = i%8 ↔ j = i := by omega
    simp only [hiff]
  have hne : j ≠ i := by
    rintro rfl
    exact hb rfl
  rw [Function.update_of_ne hb]
  simp only [hne, decide_false, Bool.false_or]

theorem bitSet_clearBit (blk : Block) (i j : ℕ) : bitSet (clearBit blk i) j = (!decide (j = i) && bitSet blk j) := by
  unfold bitSet clearBit
  by_cases hb : j/8 = i/8
  · rw [hb, Function.update_self, testBit_clearBit _ (Nat.mod_lt _ (by decide)) (Nat.mod_lt _ (by decide))]
    have hiff : j%8 = i%8 ↔ j = i := by omega
    simp only [hiff]
  have hne : j ≠ i := by
    rintro rfl
    exact hb rfl
  rw [Function.update_of_ne hb]
  simp only [hne, decide_false, Bool.not_false, Bool.true_and]

end Xv6.Store
