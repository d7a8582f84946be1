import Xv6.Bytes
import Xv6.GrepMatch

/-! The loop of user/grep.c over the lines of a file, with memmove and strchr of user/ulib.c. -/
namespace Xv6.Grep
open Function Bytes List

def newline : UInt8 := 10
def bufSize : ℕ := 1024

def strchr (buf : ByteMem) (c : UInt8) : ℕ → ℕ → Option ℕ
  | 0, _ => none
  | fuel+1, p =>
    if buf p = 0 then none else if buf p = c then some p else strchr buf c fuel (p+1)

def cstr (buf : ByteMem) : ℕ → ℕ → List UInt8
  | 0, _ => []
  | fuel+1, p => if buf p = 0 then [] else buf p :: cstr buf fuel (p+1)

def copyUp : ℕ → ℕ → ℕ → ByteMem → ByteMem
  | 0, _, _, buf => buf
  | n+1, dst, src, buf => copyUp n (dst+1) (src+1) (update buf dst (buf src))

def copyDown : ℕ → ℕ → ℕ → ByteMem → ByteMem
  | 0, _, _, buf => buf
  | n+1, dst, src, buf => copyDown n dst src (update buf (dst+n) (buf (src+n)))

def memmove (buf : ByteMem) (dst src n : ℕ) : ByteMem :=
  if src > dst then copyUp n dst src buf else copyDown n dst src buf

structure Scan where
  buf : ByteMem
  p : ℕ
  out : List UInt8

def scan (pattern : List UInt8) : ℕ → Scan → Scan
  | 0, s => s
  | fuel+1, s =>
    match strchr s.buf newline (bufSize-s.p) s.p with
    | none => s
    | some q =>
      let cut := update s.buf q 0
      if matchRe pattern (cstr cut (bufSize-s.p) s.p) then
        let line := update cut q newline
        scan pattern fuel ⟨line, q+1, s.out ++ load line s.p (q+1-s.p)⟩
      else scan pattern fuel ⟨cut, q+1, s.out⟩

/-- The outer loop of grep. Read number `k` returns `sizes k+1` bytes, or fewer if that many were
not asked for or are not left; `none` if the loop has not ended after `fuel` turns. -/
def grepLoop (pattern : List UInt8) (sizes : ℕ → ℕ) :
    ℕ → ℕ → List UInt8 → ByteMem → ℕ → List UInt8 → Option (List UInt8)
  | 0, _, _, _, _, _ => none
  | fuel+1, k, input, buf, m, out =>
    let n := min (min (sizes k+1) (bufSize-m-1)) input.length
    if n = 0 then some out
    else
      let full := update (store buf m (input.take n)) (m+n) 0
      let s := scan pattern (m+n+1) ⟨full, 0, out⟩
      -- m is positive after a read
      let rest := m+n-s.p
      grepLoop pattern sizes fuel (k+1) (input.drop n) (memmove s.buf 0 s.p rest) rest s.out

def grep (pattern : List UInt8) (sizes : ℕ → ℕ) (buf : ByteMem) (input : List UInt8) : Option (List UInt8) :=
  grepLoop pattern sizes (input.length+1) 0 input buf 0 []

theorem copyUp_apply (n dst src : ℕ) (buf : ByteMem) (h : dst < src) (i : ℕ) :
    copyUp n dst src buf i = if dst ≤ i ∧ i < dst+n then buf (src+(i-dst)) else buf i := by
  induction n generalizing dst src buf with
  | zero => rw [copyUp, if_neg (by omega)]
  | succ n ih =>
    rw [copyUp, ih _ _ _ (by omega)]
    -- the bytes still to be copied lie above the one just overwritten
    by_cases hi : dst+1 ≤ i ∧ i < dst+1+n
    · rw [if_pos hi, if_pos (by omega), update_of_ne (by omega)]
      congr 1
      omega
    rw [if_neg hi]
    by_cases hd : i = dst
    · subst hd
      rw [update_self, if_pos (by omega), Nat.sub_self, Nat.add_zero]
    · rw [update_of_ne hd, if_neg (by omega)]

theorem copyDown_apply (n dst src : ℕ) (buf : ByteMem) (h : src ≤ dst) (i : ℕ) :
    copyDown n dst src buf i = if dst ≤ i ∧ i < dst+n then buf (src+(i-dst)) else buf i := by
  induction n generalizing buf with
  | zero => rw [copyDown, if_neg (by omega)]
  | succ n ih =>
    rw [copyDown, ih]
    by_cases hi : dst ≤ i ∧ i < dst+n
    · rw [if_pos hi, if_pos (by omega), update_of_ne (by omega)]
    rw [if_neg hi]
    by_cases hd : i = dst+n
    · subst hd
      rw [update_self, if_pos (by omega), Nat.add_sub_cancel_left]
    · rw [update_of_ne hd, if_neg (by omega)]

theorem load_memmove (buf : ByteMem) (dst src n : ℕ) : load (memmove buf dst src n) dst n = load buf src n := by
  apply map_congr_left
  intro k hk
  have hk' := mem_range.mp hk
  have hin : dst ≤ dst+k ∧ dst+k < dst+n := by omega
  unfold memmove
  split
  · rw [copyUp_apply _ _ _ _ (by omega), if_pos hin, Nat.add_sub_cancel_left]
  · rw [copyDown_apply _ _ _ _ (by omega), if_pos hin, Nat.add_sub_cancel_left]

def At (buf : ByteMem) (p : ℕ) (w : List UInt8) : Prop := load buf p w.length = w

theorem at_nil (buf : ByteMem) (p : ℕ) : At buf p [] := rfl

variable {buf : ByteMem} {p fuel : ℕ} {w pattern l carry input : List UInt8} {ls : List (List UInt8)}

theorem at_append {v : List UInt8} : At buf p (v ++ w) ↔ At buf p v ∧ At buf (p+v.length) w := by
  unfold At
  rw [length_append, load_append]
  constructor
  · intro h
    exact append_inj h (length_load _ _ _)
  · rintro ⟨hv, hw⟩
    rw [hv, hw]

theorem at_cons {c : UInt8} : At buf p (c :: w) ↔ buf p = c ∧ At buf (p+1) w := by
  rw [← singleton_append, at_append]
  exact and_congr_left' (by simp [At, load])

theorem At.congr {buf' : ByteMem} (h : At buf p w) (hb : ∀ i, p ≤ i → i < p+w.length → buf' i = buf i) : At buf' p w :=
  (load_congr (fun k hk => hb (p+k) (by omega) (by omega))).trans h

theorem strchr_eq {c e : UInt8} (hw : ∀ b ∈ w, b ≠ 0 ∧ b ≠ c) (hat : At buf p (w ++ [e])) (hf : w.length < fuel) :
    strchr buf c fuel p = if e = 0 then none else if e = c then some (p+w.length)
      else strchr buf c (fuel-w.length-1) (p+w.length+1) := by
  induction w generalizing p fuel with
  | nil =>
    obtain ⟨fuel, rfl⟩ : ∃ f, fuel = f+1 := ⟨fuel-1, by simp at hf; omega⟩
    rw [strchr, (at_cons.mp hat).1]
    rfl
  | cons b w ih =>
    obtain ⟨fuel, rfl⟩ : ∃ f, fuel = f+1 := ⟨fuel-1, by omega⟩
    obtain ⟨hb, hat⟩ := at_cons.mp hat
    obtain ⟨h0, hc⟩ := hw b mem_cons_self
    rw [strchr, hb, if_neg h0, if_neg hc, ih (fun x hx => hw x (mem_cons_of_mem b hx)) hat
      (by simpa using hf), length_cons, Nat.add_right_comm p 1, ← Nat.add_assoc]
    congr 3
    omega

theorem cstr_eq (hw : ∀ b ∈ w, b ≠ 0) (hat : At buf p (w ++ [0])) (hf : w.length < fuel) : cstr buf fuel p = w := by
  induction w generalizing p fuel with
  | nil =>
    obtain ⟨fuel, rfl⟩ : ∃ f, fuel = f+1 := ⟨fuel-1, by simp at hf; omega⟩
    rw [cstr, if_pos (at_cons.mp hat).1]
  | cons b w ih =>
    obtain ⟨fuel, rfl⟩ : ∃ f, fuel = f+1 := ⟨fuel-1, by omega⟩
    obtain ⟨hb, hat⟩ := at_cons.mp hat
    rw [cstr, hb, if_neg (hw b mem_cons_self), ih (fun x hx => hw x (mem_cons_of_mem b hx)) hat (by simpa using hf)]

def unlines (ls : List (List UInt8)) : List UInt8 := ls.flatMap (· ++ [newline])

/-- A line without its newline; a string has no zero inside. -/
def Line (l : List UInt8) : Prop := ∀ b ∈ l, b ≠ 0 ∧ b ≠ newline

def matching (pattern : List UInt8) (ls : List (List UInt8)) : List UInt8 := unlines (ls.filter (matchRe pattern))

theorem unlines_cons (l : List UInt8) (ls : List (List UInt8)) : unlines (l :: ls) = l ++ newline :: unlines ls := by
  simp [unlines]

theorem matching_append (pattern : List UInt8) (ls ls' : List (List UInt8)) :
    matching pattern (ls ++ ls') = matching pattern ls ++ matching pattern ls' := by
  rw [matching, filter_append, unlines, flatMap_append]
  rfl

theorem matching_cons_pos (ls : List (List UInt8)) (h : matchRe pattern l = true) :
    matching pattern (l :: ls) = l ++ newline :: matching pattern ls := by
  rw [matching, filter_cons_of_pos h, unlines_cons, matching]

theorem matching_cons_neg (ls : List (List UInt8))
    (h : matchRe pattern l ≠ true) : matching pattern (l :: ls) = matching pattern ls := by
  rw [matching, filter_cons_of_neg h, matching]

theorem scan_line {after : List UInt8} (out : List UInt8) (fuel : ℕ) (hl : Line l)
    (hat : At buf p (l ++ newline :: after)) (hroom : p+l.length < bufSize) :
    ∃ buf', At buf' (p+l.length+1) after ∧ scan pattern (fuel+1) ⟨buf, p, out⟩ =
      scan pattern fuel ⟨buf', p+l.length+1, out ++ matching pattern [l]⟩ := by
  obtain ⟨hatl, hat'⟩ := at_append.mp hat
  obtain ⟨hnl, hafter⟩ := at_cons.mp hat'
  have hfind : strchr buf newline (bufSize-p) p = some (p+l.length) := by
    rw [strchr_eq hl (at_append.mpr ⟨hatl, at_cons.mpr ⟨hnl, at_nil _ _⟩⟩) (by omega)]
    rfl
  have hcut : cstr (update buf (p+l.length) 0) (bufSize-p) p = l := by
    refine cstr_eq (fun b hb => (hl b hb).1) (at_append.mpr ⟨hatl.congr ?_, ?_⟩) (by omega)
    · intro i _ hi
      exact update_of_ne (by omega) _ _
    · exact at_cons.mpr ⟨update_self _ _ _, at_nil _ _⟩
  rw [scan, hfind]
  simp only [hcut]
  by_cases hm : matchRe pattern l = true
  · -- the newline is put back before the line is written, so the buffer is as it was
    have hback : update (update buf (p+l.length) 0) (p+l.length) newline = buf := by
      rw [update_idem, ← hnl, update_eq_self]
    have hload : load buf p (p+l.length+1-p) = l ++ [newline] := by
      have h := at_append.mpr ⟨hatl, at_cons.mpr ⟨hnl, at_nil _ _⟩⟩
      rwa [At, length_append, length_singleton, ← Nat.add_sub_cancel_left p (l.length+1), ← Nat.add_assoc] at h
    refine ⟨buf, hafter, ?_⟩
    rw [if_pos hm, hback, hload, matching_cons_pos [] hm]
    rfl
  · refine ⟨update buf (p+l.length) 0, hafter.congr ?_, ?_⟩
    · intro i hi _
      exact update_of_ne (by omega) _ _
    · rw [if_neg hm, matching_cons_neg [] hm]
      exact congrArg (scan pattern fuel) (congrArg (Scan.mk _ _) (append_nil _).symm)

theorem scan_spec {tail : List UInt8} (htail : Line tail) (ls : List (List UInt8))
    (hls : ∀ l ∈ ls, Line l) (out : List UInt8)
    (hfuel : ls.length < fuel) (hat : At buf p (unlines ls ++ (tail ++ [0])))
    (hroom : p+(unlines ls).length+tail.length < bufSize) :
    ∃ buf', At buf' (p+(unlines ls).length) tail ∧ scan pattern fuel ⟨buf, p, out⟩ =
      ⟨buf', p+(unlines ls).length, out ++ matching pattern ls⟩ := by
  induction ls generalizing buf p out fuel with
  | nil =>
    obtain ⟨fuel, rfl⟩ : ∃ f, fuel = f+1 := ⟨fuel-1, by omega⟩
    have hnone : strchr buf newline (bufSize-p) p = none := by
      simp only [unlines, flatMap_nil, length_nil] at hroom
      rw [strchr_eq htail hat (by omega), if_pos rfl]
    refine ⟨buf, (at_append.mp (at_append.mp hat).2).1, ?_⟩
    rw [scan, hnone]
    exact congrArg (Scan.mk buf p) (append_nil out).symm
  | cons l ls ih =>
    obtain ⟨fuel, rfl⟩ : ∃ f, fuel = f+1 := ⟨fuel-1, by omega⟩
    have hlen : p+l.length+1+(unlines ls).length = p+(unlines (l :: ls)).length := by
      rw [unlines_cons, length_append, length_cons]
      omega
    rw [unlines_cons, append_assoc, cons_append] at hat
    obtain ⟨buf₁, hafter, hturn⟩ := scan_line out fuel (hls l mem_cons_self) hat (by omega)
    obtain ⟨buf₂, htl, hrest⟩ := ih (fun x hx => hls x (mem_cons_of_mem l hx))
      (out ++ matching pattern [l]) (Nat.lt_of_succ_lt_succ hfuel) hafter (by omega)
    have hout : out ++ matching pattern [l] ++ matching pattern ls = out ++ matching pattern (l :: ls) := by
      rw [append_assoc, ← matching_append, singleton_append]
    rw [hlen] at htl hrest
    rw [hout] at hrest
    exact ⟨buf₂, htl, hturn.trans hrest⟩

theorem split_unlines (ls : List (List UInt8)) (hls : ∀ l ∈ ls, Line l) (w input : List UInt8)
    (h : w ++ input = unlines ls) :
    ∃ done left tail, ls = done ++ left ∧ w = unlines done ++ tail ∧ Line tail ∧ tail ++ input = unlines left := by
  induction ls generalizing w with
  | nil =>
    obtain ⟨rfl, rfl⟩ := append_eq_nil_iff.mp h
    exact ⟨[], [], [], rfl, rfl, nofun, rfl⟩
  | cons l ls ih =>
    have hl := hls l mem_cons_self
    -- w ends in the first line, before its newline, or behind it
    by_cases hw : w.length ≤ l.length
    · refine ⟨[], l :: ls, w, rfl, rfl, fun b hb => hl b ?_, h⟩
      have hpre : w <+: l := prefix_of_prefix_length_le ⟨input, h⟩ ⟨newline :: unlines ls, (unlines_cons l ls).symm⟩ hw
      exact hpre.subset hb
    have hpre : l ++ [newline] <+: w := by
      refine prefix_of_prefix_length_le ⟨unlines ls, ?_⟩ ⟨input, h⟩ ?_
      · rw [unlines_cons, append_assoc, singleton_append]
      · rw [length_append, length_singleton]
        omega
    obtain ⟨r, rfl⟩ := hpre
    rw [unlines_cons, append_assoc, append_assoc, singleton_append] at h
    have hr : r ++ input = unlines ls := (List.cons.inj (append_cancel_left h)).2
    obtain ⟨done, left, tail, rfl, rfl, htail, hrest⟩ := ih (fun x hx => hls x (mem_cons_of_mem l hx)) r hr
    refine ⟨l :: done, left, tail, rfl, ?_, htail, hrest⟩
    rw [unlines_cons, append_assoc, append_assoc, singleton_append, cons_append]

def short (l : List UInt8) : Bool := decide (l.length+1 < bufSize)

theorem length_lt_of_mem (h : l ∈ ls) : l.length < (unlines ls).length := by
  obtain ⟨a, b, rfl⟩ := append_of_mem h
  rw [unlines, flatMap_append, flatMap_cons]
  simp only [length_append, length_singleton]
  omega

theorem length_le_unlines (ls : List (List UInt8)) : ls.length ≤ (unlines ls).length := by
  induction ls with
  | nil => exact Nat.le_refl 0
  | cons =>
    rw [unlines_cons, length_append, length_cons, length_cons]
    omega

theorem Line.length_le (hc : Line carry) (h : carry ++ input = unlines (l :: ls)) : carry.length ≤ l.length := by
  by_contra hlt
  rw [unlines_cons] at h
  have hpre : l ++ [newline] <+: carry := by
    refine prefix_of_prefix_length_le ⟨unlines ls, ?_⟩ ⟨input, h⟩ ?_
    · rw [append_assoc, singleton_append]
    · rw [length_append, length_singleton]
      omega
  exact (hc newline (hpre.subset (by simp))).2 rfl

theorem takeWhile_short_of_stop (hc : Line carry) (h : carry ++ input = unlines ls)
    (hstop : input = [] ∨ bufSize ≤ carry.length+1) : ls.takeWhile short = [] := by
  cases ls with
  | nil => rfl
  | cons l =>
    have hle := hc.length_le h
    have hlong : ¬ short l = true := by
      rw [short, decide_eq_true_eq]
      rcases hstop with rfl | hfull
      · have hlen := congrArg List.length h
        rw [append_nil, unlines_cons, length_append, length_cons] at hlen
        omega
      · omega
    rw [takeWhile_cons_of_neg hlong]

theorem at_after_read (piece : List UInt8) (hat : At buf 0 carry) :
    At (update (store buf carry.length piece) (carry.length+piece.length) 0) 0 (carry ++ piece ++ [0]) := by
  refine at_append.mpr ⟨at_append.mpr ⟨hat.congr ?_, ?_⟩, at_cons.mpr ⟨?_, at_nil _ _⟩⟩
  · intro i _ hi
    rw [update_of_ne (by omega), store, if_neg (by omega)]
  · rw [Nat.zero_add]
    refine At.congr (load_store_same buf carry.length piece) (fun i _ hi => ?_)
    exact update_of_ne (by omega) _ _
  · rw [length_append, Nat.zero_add]
    exact update_self _ _ _

/-- What the outer loop writes for the lines `ls` still to come, the first of which has begun
with `carry` in the buffer. -/
theorem grepLoop_spec {sizes : ℕ → ℕ} (fuel : ℕ) {k : ℕ} {out : List UInt8}
    (hls : ∀ l ∈ ls, Line l) (hfuel : input.length < fuel) (hall : carry ++ input = unlines ls)
    (hcarry : Line carry) (hat : At buf 0 carry) (hroom : carry.length < bufSize) :
    grepLoop pattern sizes fuel k input buf carry.length out = some (out ++ matching pattern (ls.takeWhile short)) := by
  induction fuel generalizing k input carry out buf ls with
  | zero => exact absurd hfuel (Nat.not_lt_zero _)
  | succ fuel ih =>
    rw [grepLoop]
    generalize hdef : min (min (sizes k+1) (bufSize-carry.length-1)) input.length = n
    dsimp only
    by_cases hn : n = 0
    · have hstop : input = [] ∨ bufSize ≤ carry.length+1 := by
        rw [← length_eq_zero_iff]
        omega
      rw [if_pos hn, takeWhile_short_of_stop hcarry hall hstop]
      exact congrArg some (append_nil out).symm
    rw [if_neg hn]
    have hnlen : (input.take n).length = n := length_take_of_le (by omega)
    obtain ⟨done, left, tail, rfl, hw, htail, hrest⟩ := split_unlines ls hls
      (carry ++ input.take n) (input.drop n) (by rw [append_assoc, take_append_drop, hall])
    have hlen : carry.length+n = (unlines done).length+tail.length := by
      have h := congrArg List.length hw
      rwa [length_append, length_append, hnlen] at h
    have hfull : At (update (store buf carry.length (input.take n)) (carry.length+n) 0) 0
        (unlines done ++ (tail ++ [0])) := by
      have h := at_after_read (input.take n) hat
      rwa [hnlen, hw, append_assoc] at h
    have hdone := length_le_unlines done
    obtain ⟨buf', htl, hscan⟩ := @scan_spec _ 0 (carry.length+n+1) pattern tail htail done
      (fun l hl => hls l (mem_append_left left hl)) out (by omega) hfull (by omega)
    -- every line read whole fits, and the open one is carried to the start of the buffer
    have hshort : (done ++ left).takeWhile short = done ++ left.takeWhile short := by
      refine takeWhile_append_of_pos (fun l hl => decide_eq_true ?_)
      have := length_lt_of_mem hl
      omega
    have hcarried : carry.length+n-(0+(unlines done).length) = tail.length := by omega
    rw [hscan, hshort]
    dsimp only
    rw [hcarried, ih (fun l hl => hls l (mem_append_right done hl)) (by rw [length_drop]; omega)
      hrest htail ((load_memmove _ _ _ _).trans htl) (by omega)]
    rw [append_assoc, ← matching_append]

theorem grep_spec (pattern : List UInt8) (sizes : ℕ → ℕ) (buf : ByteMem) (hls : ∀ l ∈ ls, Line l) :
    grep pattern sizes buf (unlines ls) = some (matching pattern (ls.takeWhile short)) :=
  @grepLoop_spec buf pattern [] (unlines ls) ls sizes _ 0 [] hls (Nat.lt_succ_self _) rfl nofun
    (at_nil buf 0) (by decide)

theorem matching_eq_nil : matching pattern ls = [] ↔ ∀ l ∈ ls, matchRe pattern l = false := by
  rw [matching, unlines, flatMap_eq_nil_iff]
  constructor
  · intro h l hl
    by_contra hm
    have := h l (mem_filter.mpr ⟨hl, Bool.eq_true_of_not_eq_false hm⟩)
    simp at this
  · intro h l hl
    obtain ⟨hl, hm⟩ := mem_filter.mp hl
    exact absurd (hm.symm.trans (h l hl)) (Ne.symm Bool.false_ne_true)

/-- grep writes exactly the matching lines unless one of them is, or stands behind, a line that with
its newline does not fit into the 1023 bytes that reads fill. -/
theorem grep_writes_matching_lines_iff (pattern : List UInt8) (sizes : ℕ → ℕ) (buf : ByteMem)
    (ls : List (List UInt8)) (hls : ∀ l ∈ ls, Line l) :
    grep pattern sizes buf (unlines ls) = some (matching pattern ls) ↔
      ∀ before l after, ls = before ++ l :: after → bufSize ≤ l.length+1 →
        ∀ x ∈ l :: after, matchRe pattern x = false := by
  have hsplit : matching pattern ls =
      matching pattern (ls.takeWhile short) ++ matching pattern (ls.dropWhile short) := by
    rw [← matching_append, takeWhile_append_dropWhile]
  have hiff : grep pattern sizes buf (unlines ls) = some (matching pattern ls) ↔
      ∀ x ∈ ls.dropWhile short, matchRe pattern x = false := by
    rw [grep_spec pattern sizes buf hls, hsplit, Option.some_inj, self_eq_append_right, matching_eq_nil]
  rw [hiff]
  constructor
  · rintro h before l after rfl hlong x hx
    have hl : ¬ short l = true := by
      rw [short, decide_eq_true_eq]
      omega
    apply h
    rw [dropWhile_append]
    split
    · rwa [dropWhile_cons_of_neg hl]
    · exact mem_append_right _ hx
  · intro h
    cases hd : ls.dropWhile short with
    | nil => exact nofun
    | cons l after =>
      have hl : short l = false := by
        have := List.head?_dropWhile_not short ls
        rw [hd] at this
        simpa using this
      refine h (ls.takeWhile short) l after ?_ ?_
      · rw [← hd, takeWhile_append_dropWhile]
      · simpa [short] using hl

theorem grep_writes_second_line : grep [99, dollar] (fun _ => 0) (fun _ => 0) (unlines [[97], [98, 99]]) =
      some (matching [99, dollar] [[97], [98, 99]]) := by
  refine (grep_writes_matching_lines_iff _ _ _ _ ?_).mpr ?_
  · simp [Line, newline]
  intro before l after h hlong
  have hl : l ∈ [[97], [98, 99]] := by
    rw [h]
    exact mem_append_right _ mem_cons_self
  have hshort : ∀ x ∈ [[97], [98, (99 : UInt8)]], x.length+1 < bufSize := by decide
  exact absurd hlong (Nat.not_le.mpr (hshort l hl))

/-- A line of 1023 letters is never written, whatever the pattern. -/
theorem grep_drops_long_line : grep [] (fun _ => 0) (fun _ => 0) (unlines [List.replicate 1023 97]) ≠
      some (matching [] [List.replicate 1023 97]) := by
  have hline : ∀ l ∈ [List.replicate 1023 (97 : UInt8)], Line l := by
    intro l hl b hb
    rw [mem_singleton.mp hl] at hb
    rw [eq_of_mem_replicate hb]
    decide
  have hlong : ¬ short (List.replicate 1023 (97 : UInt8)) = true := by
    rw [short, length_replicate]
    decide
  rw [grep_spec _ _ _ hline, takeWhile_cons_of_neg hlong, Ne, Option.some_inj]
  intro h
  exact absurd (matching_eq_nil.mp h.symm _ (mem_singleton.mpr rfl)) (by decide)

end Xv6.Grep
