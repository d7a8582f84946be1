import Xv6.StoreModel

/-! Names of directory entries: the functions of kernel/string.c that compare and copy them, and
dirlookup and dirlink of kernel/fs.c on a name in memory. -/
namespace Xv6.Dirent
open Bytes Hoare Store List

def next (p : ByteMem) : ByteMem := fun k => p (k+1)

def strncmp (p q : ByteMem) : ℕ → ℤ
  | 0 => 0
  | n+1 => if p 0 ≠ 0 ∧ p 0 = q 0 then strncmp (next p) (next q) n else (p 0).toNat-(q 0).toNat

def strncpy (t : ByteMem) : ℕ → List UInt8
  | 0 => []
  | n+1 => t 0 :: if t 0 ≠ 0 then strncpy (next t) n else List.replicate n 0

def namecmp (s t : ByteMem) : ℤ := strncmp s t Dir.dirSiz

def nameField (de : List UInt8) : ByteMem := fun k => (de.drop 2).getD k 0

def dirlookupLoop (sb : Superblock) (dp : ℕ) (name : ByteMem) : ℕ → ℕ → M (Option (ℕ × ℕ))
  | 0, _ => return none
  | fuel+1, off => do
    let de ← readDirent sb dp off .dirlookupRead
    if direntInum de ≠ 0 ∧ namecmp name (nameField de) = 0 then do
      iget (direntInum de)
      return some (direntInum de, off)
    else dirlookupLoop sb dp name fuel (off+direntSize)

def dirlookup (sb : Superblock) (dp : ℕ) (name : ByteMem) : M (Option (ℕ × ℕ)) := do
  let d ← incore dp
  if d.type ≠ tDir then throw .dirlookupNotDir
  else dirlookupLoop sb dp name (slots d) 0

def dirlink (sb : Superblock) (dp : ℕ) (name : ByteMem) (inum : ℕ) : M Bool := do
  match ← dirlookup sb dp name with
  | some (i, _) => do
    iput sb i
    return false
  | none => do
    let d ← incore dp
    let off ← emptySlot sb dp (slots d) 0
    match ← writei sb dp (kernelMem (leBytes 2 inum ++ strncpy name Dir.dirSiz)) 0 off direntSize with
    | none => throw .dirlink
    | some n => if n ≠ direntSize then throw .dirlink else return true

/-- What a directory keeps of a name: its bytes up to a NUL, DIRSIZ of them at most. -/
def key (name : ByteMem) : Dir.Name := (load name 0 Dir.dirSiz).takeWhile (fun c => decide (c ≠ 0))

theorem load_succ (p : ByteMem) (n : ℕ) : load p 0 (n+1) = p 0 :: load (next p) 0 n := by
  rw [load, range_succ_eq_map, map_cons, map_map]
  simp only [load, Function.comp_def, next, Nat.zero_add, Nat.succ_eq_add_one]

theorem strncmp_eq_zero_iff (p q : ByteMem) (n : ℕ) : strncmp p q n = 0 ↔
    (load p 0 n).takeWhile (fun c => decide (c ≠ 0)) = (load q 0 n).takeWhile (fun c => decide (c ≠ 0)) := by
  induction n generalizing p q with
  | zero => exact iff_of_true rfl rfl
  | succ n ih =>
    rw [load_succ, load_succ, strncmp]
    by_cases h : p 0 ≠ 0 ∧ p 0 = q 0
    · rw [if_pos h, ih, takeWhile_cons_of_pos (by simpa using h.1),
        takeWhile_cons_of_pos (by simpa [← h.2] using h.1), h.2, List.cons.injEq]
      exact (and_iff_right rfl).symm
    rw [if_neg h]
    have hsub : ((p 0).toNat : ℤ)-(q 0).toNat = 0 ↔ p 0 = q 0 := by rw [sub_eq_zero, Nat.cast_inj, UInt8.toNat_inj]
    rw [hsub]
    by_cases hp : p 0 = 0
    · rw [takeWhile_cons_of_neg (by simpa using hp)]
      by_cases hq : q 0 = 0
      · rw [takeWhile_cons_of_neg (by simpa using hq)]
        exact iff_of_true (hp.trans hq.symm) rfl
      · rw [takeWhile_cons_of_pos (by simpa using hq)]
        exact iff_of_false (fun heq => hq (heq ▸ hp)) (cons_ne_nil _ _).symm
    have hne : p 0 ≠ q 0 := fun heq => h ⟨hp, heq⟩
    rw [takeWhile_cons_of_pos (by simpa using hp)]
    refine iff_of_false hne (fun heq => ?_)
    by_cases hq : q 0 = 0
    · rw [takeWhile_cons_of_neg (by simpa using hq)] at heq
      cases heq
    · rw [takeWhile_cons_of_pos (by simpa using hq)] at heq
      exact hne (List.cons.inj heq).1

theorem strncpy_eq (t : ByteMem) (n : ℕ) : strncpy t n =
    ((load t 0 n).takeWhile (fun c => decide (c ≠ 0)) ++ List.replicate n 0).take n := by
  induction n generalizing t with
  | zero => rfl
  | succ n ih =>
    rw [strncpy, load_succ]
    by_cases h : t 0 = 0
    · rw [if_neg (not_not.mpr h), takeWhile_cons_of_neg (by simpa using h), nil_append,
        take_of_length_le (by simp), replicate_succ, h]
    rw [if_pos h, ih, takeWhile_cons_of_pos (by simpa using h), cons_append, take_succ_cons]
    congr 1
    -- one more zero at the end is cut off
    rw [replicate_succ', ← append_assoc]
    refine (take_append_of_le_length ?_).symm
    rw [length_append, length_replicate]
    omega

theorem direntBytes_key (inum : ℕ) (name : ByteMem) :
    leBytes 2 inum ++ strncpy name Dir.dirSiz = direntBytes inum (key name) := by
  rw [strncpy_eq, direntBytes, key]

theorem namecmp_eq_zero_iff (name : ByteMem) {de : List UInt8} (h : de.length = direntSize) :
    namecmp name (nameField de) = 0 ↔ direntName de = key name := by
  have hfield : load (nameField de) 0 Dir.dirSiz = de.drop 2 := by
    have hlen : (de.drop 2).length = Dir.dirSiz := by
      rw [length_drop, h]
      rfl
    apply ext_getElem
    · rw [length_load, hlen]
    · intro k _ hk
      simp only [load, nameField, getElem_map, getElem_range, Nat.zero_add, getD_eq_getElem?_getD,
        List.getElem?_eq_getElem hk, Option.getD_some]
  rw [namecmp, strncmp_eq_zero_iff, hfield, direntName, key]
  exact eq_comm

theorem readDirent_length {sb : Superblock} {dp off : ℕ} {e : Panic} {s t : Fs} {de : List UInt8}
    (h : readDirent sb dp off e s = .ok (de, t)) : de.length = direntSize := by
  obtain ⟨r, u, -, hu⟩ := run_bind_ok h
  cases r with
  | none => cases hu
  | some bs =>
    by_cases hlen : bs.length = direntSize
    · simp only [hlen, ne_eq, not_true_eq_false, if_false] at hu
      rw [← (Prod.mk.inj (Except.ok.inj hu)).1]
      exact hlen
    · simp only [ne_eq, hlen, not_false_eq_true, if_true] at hu
      cases hu

theorem dirlookupLoop_key (sb : Superblock) (dp : ℕ) (name : ByteMem) (fuel off : ℕ) :
    dirlookupLoop sb dp name fuel off = Store.dirlookupLoop sb dp (key name) fuel off := by
  induction fuel generalizing off with
  | zero => rfl
  | succ fuel ih =>
    funext s
    rw [dirlookupLoop, Store.dirlookupLoop]
    cases hrun : readDirent sb dp off .dirlookupRead s with
    | error =>
      change (readDirent sb dp off .dirlookupRead s >>= _) = (readDirent sb dp off .dirlookupRead s >>= _)
      rw [hrun]
      rfl
    | ok =>
      rw [run_bind hrun, run_bind hrun, ih]
      simp only [namecmp_eq_zero_iff name (readDirent_length hrun)]

theorem dirlookup_key (sb : Superblock) (dp : ℕ) (name : ByteMem) :
    dirlookup sb dp name = Store.dirlookup sb dp (key name) := by
  unfold dirlookup Store.dirlookup
  simp only [dirlookupLoop_key]

end Xv6.Dirent
