import Xv6.Memmove
import Xv6.PathModel

/-! skipelem of kernel/fs.c on the bytes in memory: the pointer that it moves along the path, and the
buffer into which it copies the element. -/
namespace Xv6.PathSkip
open Function Memmove Dir List

def kernbase : ℕ := 0x80000000
def phystop : ℕ := kernbase+128*1024*1024

/-- while(c(*path)) path++; it is `none` if the pointer gets to the end of the RAM. -/
def advance (m : Mem) (c : UInt8 → Bool) : ℕ → Ptr → Option Ptr
  | 0, _ => none
  | fuel+1, p => if c (m p) then advance m c fuel (p+1) else some p

def scan (m : Mem) (c : UInt8 → Bool) (path : Ptr) : Option Ptr := advance m c (phystop-path.toNat) path

def isElem (c : UInt8) : Bool := decide (c ≠ slash ∧ c ≠ 0)

-- path - s has 64 bits, len is an int
def lenOf (path s : Ptr) : Int32 := Int32.ofBitVec ((path-s).setWidth 32)

def copyName (name s : Ptr) (len : Int32) (m : Mem) : Mem :=
  if len ≥ 14 then (memmove name s 14 m).2
  else update (memmove name s len.toUInt32 m).2 (name+BitVec.ofInt 64 len.toInt) 0

/-- The pointer that is returned, and the memory. -/
def skipelem (path name : Ptr) (m : Mem) : Option (Option Ptr × Mem) := (scan m Path.isSlash path).bind fun s =>
    if m s = 0 then some (none, m)
    else (scan m isElem s).bind fun path =>
      let m := copyName name s (lenOf path s) m
      (scan m Path.isSlash path).map fun path => (some path, m)

/-- while((path = skipelem(path, name)) != 0): what is returned in each turn, and the memory then. It is
`none` if the loop has not ended after `fuel` turns. -/
def split (name : Ptr) : ℕ → Ptr → Mem → Option (List (Ptr × Mem))
  | 0, _, _ => none
  | fuel+1, path, m => (skipelem path name m).bind fun r =>
    match r with
    | (none, _) => some []
    | (some q, m') => (split name fuel q m').map (fun steps => (q, m') :: steps)

def CStr (m : Mem) : Ptr → List UInt8 → Prop
  | p, [] => m p = 0
  | p, c :: cs => m p = c ∧ c ≠ 0 ∧ CStr m (p+1) cs

variable {m m' : Mem} {p name : Ptr} {cs us vs w path : List UInt8}

theorem add_add (p : Ptr) (j k : ℕ) : p+BitVec.ofNat 64 j+BitVec.ofNat 64 k = p+BitVec.ofNat 64 (j+k) := by
  rw [BitVec.add_assoc, ← BitVec.ofNat_add]

theorem CStr.congr (h : CStr m p cs) (heq : ∀ k ≤ cs.length, m' (p+BitVec.ofNat 64 k) = m (p+BitVec.ofNat 64 k)) :
    CStr m' p cs := by
  have hzero := heq 0 (Nat.zero_le _)
  rw [BitVec.add_zero] at hzero
  induction cs generalizing p with
  | nil => exact hzero.trans h
  | cons c cs ih =>
    refine ⟨hzero.trans h.1, h.2.1, ih h.2.2 (fun k hk => ?_) ?_⟩
    · rw [← add_succ]
      exact heq (k+1) (Nat.succ_le_succ hk)
    · exact heq 1 (Nat.succ_le_succ (Nat.zero_le _))

theorem CStr.drop (h : CStr m p (us ++ vs)) : CStr m (p+BitVec.ofNat 64 us.length) vs := by
  induction us generalizing p with
  | nil => rwa [length_nil, BitVec.add_zero]
  | cons c us ih =>
    rw [length_cons, add_succ]
    exact ih h.2.2

theorem CStr.get (h : CStr m p (us ++ vs)) {k : ℕ} (hk : k < us.length) : m (p+BitVec.ofNat 64 k) = us.getD k 0 := by
  induction us generalizing p k with
  | nil => exact absurd hk (Nat.not_lt_zero k)
  | cons c us ih =>
    cases k with
    | zero =>
      rw [BitVec.add_zero]
      exact h.1
    | succ =>
      rw [add_succ]
      exact ih h.2.2 (Nat.lt_of_succ_lt_succ hk)

theorem CStr.zero_iff (h : CStr m p cs) : m p = 0 ↔ cs = [] := by
  cases cs with
  | nil => exact ⟨fun _ => rfl, fun _ => h⟩
  | cons c cs =>
    rw [h.1]
    exact ⟨fun h0 => absurd h0 h.2.1, fun hnil => absurd hnil (cons_ne_nil c cs)⟩

theorem advance_str {c : UInt8 → Bool} (hc : c 0 = false) {fuel : ℕ} (hfuel : cs.length < fuel) (h : CStr m p cs) :
    advance m c fuel p = some (p+BitVec.ofNat 64 (cs.takeWhile c).length) := by
  induction cs generalizing p fuel with
  | nil =>
    obtain ⟨fuel, rfl⟩ := Nat.exists_eq_add_of_lt hfuel
    have h0 : m p = 0 := h
    rw [advance, h0, hc, if_neg Bool.false_ne_true, takeWhile_nil, length_nil, BitVec.add_zero]
  | cons x cs ih =>
    obtain ⟨f, rfl⟩ : ∃ f, fuel = f+1 := ⟨fuel-1, by omega⟩
    rw [advance, h.1]
    by_cases hx : c x = true
    · rw [if_pos hx, takeWhile_cons_of_pos hx, length_cons, add_succ]
      exact ih (Nat.lt_of_succ_lt_succ hfuel) h.2.2
    · rw [if_neg hx, takeWhile_cons_of_neg hx, length_nil, BitVec.add_zero]

/-- A path in the RAM, and a buffer of DIRSIZ bytes that is not part of it. -/
structure PathAt (m : Mem) (p name : Ptr) (path : List UInt8) : Prop where
  str : CStr m p path
  lo : kernbase ≤ p.toNat
  hi : p.toNat+path.length < phystop
  room : name.toNat+dirSiz ≤ phystop
  apart : ∀ k ≤ path.length, ∀ j < dirSiz, p+BitVec.ofNat 64 k ≠ name+BitVec.ofNat 64 j

theorem PathAt.drop (h : PathAt m p name (us ++ vs)) : PathAt m (p+BitVec.ofNat 64 us.length) name vs := by
  have hhi := h.hi
  rw [length_append] at hhi
  have hstop : phystop < 2^64 := by decide
  have hnat : (p+BitVec.ofNat 64 us.length).toNat = p.toNat+us.length := toNat_add (by omega)
  refine ⟨h.str.drop, ?_, ?_, h.room, fun k hk j hj => ?_⟩
  · rw [hnat]
    exact h.lo.trans (Nat.le_add_right _ _)
  · rw [hnat]
    omega
  rw [add_add]
  apply h.apart _ ?_ j hj
  rw [length_append]
  omega

theorem PathAt.congr (h : PathAt m p name path)
    (heq : ∀ a, (∀ j < dirSiz, a ≠ name+BitVec.ofNat 64 j) → m' a = m a) : PathAt m' p name path :=
  ⟨h.str.congr (fun k hk => heq _ (h.apart k hk)), h.lo, h.hi, h.room, h.apart⟩

theorem PathAt.scan (h : PathAt m p name path) {c : UInt8 → Bool} (hc : c 0 = false) :
    scan m c p = some (p+BitVec.ofNat 64 (path.takeWhile c).length) ∧
      PathAt m (p+BitVec.ofNat 64 (path.takeWhile c).length) name (path.dropWhile c) := by
  have hhi := h.hi
  refine ⟨advance_str hc (by omega) h.str, PathAt.drop ?_⟩
  rwa [takeWhile_append_dropWhile]

/-- The buffer holds the first DIRSIZ bytes of `w`, and a NUL behind them if there is room. -/
structure Delivered (m : Mem) (name : Ptr) (w : List UInt8) : Prop where
  bytes : ∀ k < min w.length dirSiz, m (name+BitVec.ofNat 64 k) = w.getD k 0
  nul : w.length < dirSiz → m (name+BitVec.ofNat 64 w.length) = 0

theorem toInt_lenOf {s : Ptr} {k : ℕ} (hk : k < 2^31) :
    (lenOf (s+BitVec.ofNat 64 k) s).toInt = k ∧ (lenOf (s+BitVec.ofNat 64 k) s).toUInt32.toNat = k := by
  have hsub : s+BitVec.ofNat 64 k-s = BitVec.ofNat 64 k := by
    rw [BitVec.add_comm]
    exact BitVec.add_sub_cancel _ _
  have hnat : ((BitVec.ofNat 64 k).setWidth 32).toNat = k := by
    rw [BitVec.toNat_setWidth, BitVec.toNat_ofNat, Nat.mod_eq_of_lt (show k < 2^64 by omega),
      Nat.mod_eq_of_lt (show k < 2^32 by omega)]
  rw [lenOf, hsub]
  refine ⟨?_, hnat⟩
  change ((BitVec.ofNat 64 k).setWidth 32).toInt = k
  rw [BitVec.toInt_eq_toNat_of_lt (by rw [hnat]; omega), hnat]

theorem PathAt.copyName (h : PathAt m p name (w ++ vs)) :
    Delivered (copyName name p (lenOf (p+BitVec.ofNat 64 w.length) p) m) name w ∧
      ∀ a, (∀ j < dirSiz, a ≠ name+BitVec.ofNat 64 j) →
        copyName name p (lenOf (p+BitVec.ofNat 64 w.length) p) m a = m a := by
  have hhi := h.hi
  have hlo := h.lo
  have hroom := h.room
  have hd : dirSiz = 14 := rfl
  have hk : kernbase = 2147483648 := rfl
  have hp : phystop = 2281701376 := rfl
  rw [length_append] at hhi
  obtain ⟨hint, huint⟩ := toInt_lenOf (s := p) (k := w.length) (by omega)
  generalize lenOf (p+BitVec.ofNat 64 w.length) p = len at *
  unfold PathSkip.copyName
  by_cases hlen : len ≥ 14
  · have hlong : (14 : Int) ≤ len.toInt := Int32.le_iff_toInt_le.mp hlen
    have hmoved : Moved m (memmove name p 14 m).2 name p 14 :=
      memmove_moved (show name.toNat+14 ≤ 2^64 by omega) (show p.toNat+14 ≤ 2^64 by omega)
    rw [if_pos hlen]
    refine ⟨⟨fun k hk => ?_, fun hshort => absurd hshort (by omega)⟩, hmoved.other⟩
    rw [hmoved.copied k (by omega)]
    exact h.str.get (by omega)
  have hshort : len.toInt < 14 := by
    by_contra hge
    exact hlen (Int32.le_iff_toInt_le.mpr (Int.not_lt.mp hge))
  have hmoved : Moved m (memmove name p len.toUInt32 m).2 name p len.toUInt32.toNat :=
    memmove_moved (by omega) (by omega)
  rw [huint] at hmoved
  rw [if_neg hlen, hint, BitVec.ofInt_natCast]
  refine ⟨⟨fun k hk => ?_, fun _ => update_self ..⟩, fun a ha => ?_⟩
  · -- the terminator is behind the bytes of the element
    have hne : name+BitVec.ofNat 64 k ≠ name+BitVec.ofNat 64 w.length := by
      intro heq
      have hnat := congrArg BitVec.toNat heq
      rw [toNat_add (by omega), toNat_add (by omega)] at hnat
      omega
    rw [update_of_ne hne, hmoved.copied k (by omega)]
    exact h.str.get (by omega)
  · rw [update_of_ne (ha _ (by omega))]
    exact hmoved.other a (fun k hk => ha k (by omega))

theorem CStr.ne_zero (h : CStr m p cs) : ∀ c ∈ cs, c ≠ 0 := by
  induction cs generalizing p with
  | nil => exact fun c hc => absurd hc not_mem_nil
  | cons x cs ih =>
    intro c hc
    rcases mem_cons.mp hc with rfl | hmem
    · exact h.2.1
    · exact ih h.2.2 c hmem

end Xv6.PathSkip
