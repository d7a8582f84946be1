import Xv6.ConsoleModel

/-! The line discipline as it is meant, on lists of characters, and that consoleintr follows it. -/
namespace Xv6.Console
open List

/-- The characters committed so far, and those that can still be edited. -/
structure Line where
  committed : List UInt8
  pending : List UInt8

/-- What a character does that finds room for `room` more. -/
def Line.input (l : Line) (x : UInt8) (room : ℕ) : Line :=
  if x = ctrlP ∨ x = 0 then l
  else if x = ctrlU then { l with pending := [] }
  else if x = ctrlH ∨ x = delete then { l with pending := l.pending.dropLast }
  else if room = 0 then l
  else if translate x = newline ∨ translate x = ctrlD ∨ room = 1 then
    ⟨l.committed ++ l.pending ++ [translate x], []⟩
  else { l with pending := l.pending ++ [translate x] }

def discipline (typed : List (UInt8 × ℕ)) : Line := typed.foldl (fun l t => l.input t.1 t.2) ⟨[], []⟩

theorem discipline_snoc (typed : List (UInt8 × ℕ)) (x : UInt8) (room : ℕ) :
    discipline (typed ++ [(x, room)]) = (discipline typed).input x room := by
  rw [discipline, foldl_append]
  rfl

theorem committed_input (l : Line) (x : UInt8) (room : ℕ) : l.committed <+: (l.input x room).committed := by
  unfold Line.input
  split_ifs
  · exact prefix_rfl
  · exact prefix_rfl
  · exact prefix_rfl
  · exact prefix_rfl
  · rw [append_assoc]
    exact prefix_append ..
  · exact prefix_rfl

/-- A line that is being edited has no newline in it: newlines are committed at once. -/
theorem newline_notMem_input {l : Line} (h : newline ∉ l.pending) (x : UInt8) (room : ℕ) :
    newline ∉ (l.input x room).pending := by
  unfold Line.input
  split_ifs with h1 h2 h3 h4 h5
  · exact h
  · exact not_mem_nil
  · exact fun hn => h (mem_of_mem_dropLast hn)
  · exact h
  · exact not_mem_nil
  · rw [mem_append, mem_singleton, not_or]
    exact ⟨h, fun hn => h5 (Or.inl hn.symm)⟩

/-- The ring holds the characters that are ready to be read, and behind them the pending ones. -/
structure Cons.Holds (c : Cons) (ready pending : List UInt8) : Prop where
  w : (c.w-c.r).toNat = ready.length
  e : (c.e-c.r).toNat = ready.length+pending.length
  le : ready.length+pending.length ≤ inputBuf
  window : Ring.window c.buf c.r (ready.length+pending.length) = ready ++ pending

variable {c : Cons} {ready pending : List UInt8}

theorem inputBuf_dvd : inputBuf ∣ 2^32 := ⟨2^25, by norm_num⟩

theorem eq_of_count {r x y : Uint} (h : (x-r).toNat = (y-r).toNat) : x = y := by
  rw [← Ring.add_count r x, h, Ring.add_count]

theorem Cons.Holds.room (h : c.Holds ready pending) : c.room = inputBuf-(ready.length+pending.length) := by
  rw [Cons.room, h.e]

theorem Cons.Holds.empty_iff (h : c.Holds ready pending) : c.e = c.w ↔ pending = [] := by
  constructor
  · intro he
    have he' := h.e
    rw [he, h.w] at he'
    exact eq_nil_of_length_eq_zero (by omega)
  · rintro rfl
    exact eq_of_count (h.e.trans h.w.symm)

theorem Cons.Holds.erase {x : UInt8} (h : c.Holds ready (pending ++ [x])) :
    Cons.Holds { c with e := c.e-1 } ready pending ∧ c.at (c.e-1) = x := by
  have hlen : (pending ++ [x]).length = pending.length+1 := length_append
  have he := h.e
  have hle := h.le
  have hwin := h.window
  rw [hlen, ← Nat.add_assoc] at he hle hwin
  have hne : c.e ≠ c.r := by
    intro heq
    rw [heq, BitVec.sub_self] at he
    exact Nat.succ_ne_zero _ he.symm
  have hback := Ring.count_back c.r c.e hne
  rw [Ring.window_succ, ← append_assoc] at hwin
  obtain ⟨hfront, hlast⟩ := append_inj' hwin rfl
  have hcount : (c.e-1-c.r).toNat = ready.length+pending.length := by omega
  refine ⟨⟨h.w, hcount, by omega, hfront⟩, ?_⟩
  rw [Cons.at, ← Ring.add_count c.r (c.e-1), hcount]
  exact (List.cons.inj hlast).1

theorem Cons.Holds.killLine (h : c.Holds ready pending) (hline : newline ∉ pending) :
    (killLine pending.length c).Holds ready [] := by
  induction pending using List.reverseRecOn generalizing c with
  | nil => exact h
  | append_singleton pending x ih =>
    obtain ⟨herase, hx⟩ := h.erase
    rw [mem_append, mem_singleton, not_or] at hline
    have hgo : c.e ≠ c.w ∧ c.at (c.e-1) ≠ newline := by
      refine ⟨fun he => ?_, fun hn => hline.2 (hn.symm.trans hx)⟩
      have := h.empty_iff.mp he
      simp at this
    rw [length_append, length_singleton, Console.killLine, if_pos hgo]
    exact ih herase hline.1

theorem Cons.Holds.count_pending (h : c.Holds ready pending) : (c.e-c.w).toNat = pending.length := by
  have hsub : c.e-c.w = c.e-c.r-(c.w-c.r) := by ring
  have hle : c.w-c.r ≤ c.e-c.r := by
    rw [BitVec.le_def, h.w, h.e]
    exact Nat.le_add_right ..
  rw [hsub, BitVec.toNat_sub_of_le hle, h.e, h.w, Nat.add_sub_cancel_left]

theorem Cons.Holds.store (h : c.Holds ready pending) (hroom : ready.length+pending.length < inputBuf)
    (x : UInt8) : (c.store x).Holds ready (pending ++ [x]) := by
  have hlen : ready.length+(pending ++ [x]).length = ready.length+pending.length+1 := by
    rw [length_append, length_singleton, Nat.add_assoc]
  have he : (c.e+1-c.r).toNat = ready.length+pending.length+1 := by
    have hsmall : inputBuf+1 < 2^32 := by norm_num
    rw [Ring.count_push c.r c.e (by rw [h.e]; omega), h.e]
  refine ⟨h.w, he.trans hlen.symm, hlen ▸ hroom, ?_⟩
  rw [hlen, ← append_assoc, ← h.window, Cons.store]
  dsimp only
  nth_rewrite 1 [← Ring.add_count c.r c.e]
  rw [h.e]
  exact Ring.window_push inputBuf_dvd c.buf c.r hroom x

theorem Cons.Holds.commit (h : c.Holds ready pending) : Cons.Holds { c with w := c.e } (ready ++ pending) [] := by
  have hlen : (ready ++ pending).length+([] : List UInt8).length = ready.length+pending.length := by
    rw [length_append, length_nil, Nat.add_zero]
  refine ⟨by rw [length_append]; exact h.e, h.e.trans hlen.symm, hlen ▸ h.le, ?_⟩
  rw [hlen, append_nil]
  exact h.window

theorem consoleintr_follows {l : Line} {taken : List UInt8} (h : c.Holds ready l.pending)
    (hcom : l.committed = taken ++ ready) (hline : newline ∉ l.pending) (x : UInt8) :
    ∃ ready', (l.input x c.room).committed = taken ++ ready' ∧
      (consoleintr c x).Holds ready' (l.input x c.room).pending := by
  have hroom := h.room
  have hle := h.le
  unfold Line.input
  by_cases hP : x = ctrlP
  · rw [if_pos (Or.inl hP), consoleintr, if_pos hP]
    exact ⟨ready, hcom, h⟩
  by_cases h0 : x = 0
  · subst h0
    have hsame : consoleintr c 0 = c := by
      rw [consoleintr, if_neg (by decide), if_neg (by decide), if_neg (by decide), if_neg (fun h => h.1 rfl)]
    rw [if_pos (Or.inr rfl), hsame]
    exact ⟨ready, hcom, h⟩
  rw [if_neg (not_or.mpr ⟨hP, h0⟩)]
  by_cases hU : x = ctrlU
  · rw [if_pos hU, consoleintr, if_neg hP, if_pos hU, h.count_pending]
    exact ⟨ready, hcom, h.killLine hline⟩
  rw [if_neg hU]
  by_cases hH : x = ctrlH ∨ x = delete
  · rw [if_pos hH, consoleintr, if_neg hP, if_neg hU, if_pos hH]
    refine ⟨ready, hcom, ?_⟩
    rcases eq_nil_or_concat' l.pending with hnil | ⟨p, y, hp⟩
    · rw [if_neg (not_not.mpr (h.empty_iff.mpr hnil)), hnil]
      rwa [hnil] at h
    have hne : c.e ≠ c.w := fun he => by simp [h.empty_iff.mp he] at hp
    rw [if_pos hne]
    rw [hp] at h
    simpa only [hp, dropLast_concat] using h.erase.1
  rw [if_neg hH]
  by_cases hfull : c.room = 0
  · have hsame : consoleintr c x = c := by
      rw [consoleintr, if_neg hP, if_neg hU, if_neg hH, if_neg (by rw [h.e]; omega)]
    rw [if_pos hfull, hsame]
    exact ⟨ready, hcom, h⟩
  have hrun : consoleintr c x = (c.store (translate x)).commit (translate x) := by
    rw [consoleintr, if_neg hP, if_neg hU, if_neg hH, if_pos ⟨h0, by rw [h.e]; omega⟩]
  rw [if_neg hfull, hrun]
  have hstore := h.store (by omega) (translate x)
  have hlast : (c.store (translate x)).e = (c.store (translate x)).r+BitVec.ofNat 32 inputBuf ↔ c.room = 1 := by
    have he := hstore.e
    rw [length_append, length_singleton] at he
    have hbuf : ((c.store (translate x)).r+BitVec.ofNat 32 inputBuf-(c.store (translate x)).r).toNat = inputBuf := by
      rw [show (c.store (translate x)).r+BitVec.ofNat 32 inputBuf-(c.store (translate x)).r =
        BitVec.ofNat 32 inputBuf by ring]
      rfl
    constructor
    · intro heq
      rw [heq, hbuf] at he
      omega
    · intro hone
      exact eq_of_count (he.trans (by omega : _ = inputBuf) |>.trans hbuf.symm)
  unfold Cons.commit
  simp only [hlast]
  split_ifs
  · refine ⟨ready ++ (l.pending ++ [translate x]), ?_, hstore.commit⟩
    simp only [hcom, append_assoc]
  · exact ⟨ready, hcom, hstore⟩

end Xv6.Console
