import Xv6.LogModel

/-! The block writes of commit and recovery in closed form. A buffer that differs from its disk
block is pinned, so it does not matter which buffers are recycled. -/
namespace Xv6.Logging
open Function Bytes WriteTrace List

def view (m : Machine) (b : ℕ) : Block := (m.cache b).getD (m.disk b)

def CacheOk (m : Machine) : Prop := ∀ b, m.cache b = none ∨ m.cache b = some (m.disk b) ∨ 0 < m.pins b

structure Traced (m : Machine) (ws : List (ℕ × Block)) (m' : Machine) : Prop where
  disk : m'.disk = applyWrites m.disk ws
  view : view m' = applyWrites (view m) ws
  writes : m'.writes = m.writes ++ ws
  cache : CacheOk m'

variable {m : Machine}

theorem Traced.trans {m' m'' : Machine} {ws vs : List (ℕ × Block)} (h : Traced m ws m')
    (h' : Traced m' vs m'') : Traced m (ws ++ vs) m'' where
  disk := by rw [h'.disk, h.disk, applyWrites_append]
  view := by rw [h'.view, h.view, applyWrites_append]
  writes := by rw [h'.writes, h.writes, append_assoc]
  cache := h'.cache

structure Wrote (m : Machine) (ws : List (ℕ × Block)) (m' : Machine) : Prop extends Traced m ws m' where
  log : m'.log = m.log

theorem Wrote.refl (h : CacheOk m) : Wrote m [] m := ⟨⟨rfl, rfl, (append_nil _).symm, h⟩, rfl⟩

theorem Wrote.trans {m' m'' : Machine} {ws vs : List (ℕ × Block)} (h : Wrote m ws m')
    (h' : Wrote m' vs m'') : Wrote m (ws ++ vs) m'' :=
  ⟨h.toTraced.trans h'.toTraced, h'.log.trans h.log⟩

theorem recycle_wrote (h : CacheOk m) : Wrote m [] (recycle m) := by
  refine ⟨⟨rfl, ?_, (append_nil _).symm, ?_⟩, rfl⟩
  · funext b
    simp only [view, recycle, applyWrites_nil]
    split_ifs with hb
    · -- a buffer that can be recycled is clean
      rcases h b with hn | hd | hp
      · rw [hn]
      · rw [hd, Option.getD_none, Option.getD_some]
      · omega
    · rfl
  · intro b
    simp only [recycle]
    split_ifs
    · exact Or.inl rfl
    · exact h b

theorem bread_wrote (h : CacheOk m) (b : ℕ) : (bread m b).1 = view m b ∧ Wrote m [] (bread m b).2 := by
  cases hb : m.cache b with
  | some =>
    simp only [bread, hb, view, Option.getD_some, true_and]
    exact Wrote.refl h
  | none =>
    have hr := recycle_wrote h
    simp only [bread, hb]
    refine ⟨by simp only [view, hb, Option.getD_none, recycle], ?_⟩
    refine ⟨⟨hr.disk, ?_, hr.writes, ?_⟩, hr.log⟩
    · rw [← hr.view]
      funext c
      by_cases hc : c = b
      · subst hc
        simp [view, recycle, hb]
      · simp only [view, update_of_ne hc]
    intro c
    by_cases hc : c = b
    · subst hc
      exact Or.inr (Or.inl (update_self ..))
    · simp only [update_of_ne hc]
      exact hr.cache c

theorem bwrite_wrote (h : CacheOk m) (b : ℕ) (data : Block) : Wrote m [(b, data)] (bwrite m b data) := by
  refine ⟨⟨rfl, ?_, rfl, ?_⟩, rfl⟩
  · funext c
    by_cases hc : c = b
    · subst hc
      simp [view, bwrite, applyWrites]
    · simp only [view, bwrite, applyWrites, foldl_cons, foldl_nil, update_of_ne hc]
  intro c
  by_cases hc : c = b
  · subst hc
    simp [bwrite]
  · simp only [bwrite, update_of_ne hc]
    exact h c

theorem bunpin_wrote (h : CacheOk m) (b : ℕ) (hb : m.cache b = some (m.disk b)) : Wrote m [] (bunpin m b) := by
  refine ⟨⟨rfl, rfl, (append_nil _).symm, fun c => ?_⟩, rfl⟩
  by_cases hc : c = b
  · subst hc
    exact Or.inr (Or.inl hb)
  · simp only [bunpin, update_of_ne hc]
    exact h c

def logCopies (start tail : ℕ) (v : ℕ → Block) : List ℕ → List (ℕ × Block)
  | [] => []
  | b :: bs => (start+tail+1, v b) :: logCopies start (tail+1) v bs

theorem logCopies_congr (start tail : ℕ) {v w : ℕ → Block} (bs : List ℕ)
    (h : ∀ b ∈ bs, v b = w b) : logCopies start tail v bs = logCopies start tail w bs := by
  induction bs generalizing tail with
  | nil => rfl
  | cons b bs ih => simp only [logCopies, h b mem_cons_self, ih (tail+1) (fun c hc => h c (mem_cons_of_mem _ hc))]

theorem mem_logCopies (start tail : ℕ) (v : ℕ → Block) (bs : List ℕ) (x : ℕ)
    (hx : x ∈ (logCopies start tail v bs).map Prod.fst) :
    start+tail < x ∧ x ≤ start+tail+bs.length := by
  induction bs generalizing tail with
  | nil => cases hx
  | cons b bs ih =>
    simp only [logCopies, map_cons, mem_cons, length_cons] at hx ⊢
    rcases hx with hx | hx
    · omega
    · have := ih (tail+1) hx
      omega

theorem writeLogLoop_wrote (h : CacheOk m) (tail : ℕ) (bs : List ℕ)
    (hout : ∀ b ∈ bs, b ≤ m.log.start ∨ m.log.start+tail+bs.length < b) :
    Wrote m (logCopies m.log.start tail (view m) bs) (writeLogLoop m tail bs) := by
  induction bs generalizing m tail with
  | nil => exact Wrote.refl h
  | cons b bs ih =>
    obtain ⟨-, hdst⟩ := bread_wrote h (m.log.start+tail+1)
    obtain ⟨hdata, hsrc⟩ := bread_wrote hdst.cache b
    rw [hdst.view, applyWrites_nil] at hdata
    have hone := (hdst.trans hsrc).trans (bwrite_wrote hsrc.cache (m.log.start+tail+1) (view m b))
    simp only [nil_append] at hone
    simp only [length_cons] at hout
    simp only [writeLogLoop, hdata]
    have hrest := ih hone.cache (tail+1) (fun c hc => by
      have := hout c (mem_cons_of_mem _ hc)
      rw [hone.log]
      omega)
    rw [hone.log, hone.view] at hrest
    -- the copy just made is in the log, the blocks still to be copied are not
    have hsame := logCopies_congr m.log.start (tail+1) (v := applyWrites (view m)
      [(m.log.start+tail+1, view m b)]) (w := view m) bs (fun c hc => by
        apply applyWrites_of_notMem
        have := hout c (mem_cons_of_mem _ hc)
        simp only [map_cons, map_nil, mem_singleton]
        omega)
    rw [hsame] at hrest
    exact hone.trans hrest

def homeCopies (start tail : ℕ) (v : ℕ → Block) : List ℕ → List (ℕ × Block)
  | [] => []
  | b :: bs => (b, v (start+tail+1)) :: homeCopies start (tail+1) v bs

theorem homeCopies_congr (start tail : ℕ) {v w : ℕ → Block} (bs : List ℕ)
    (h : ∀ i, i < bs.length → v (start+tail+i+1) = w (start+tail+i+1)) :
    homeCopies start tail v bs = homeCopies start tail w bs := by
  induction bs generalizing tail with
  | nil => rfl
  | cons b bs ih =>
    have h0 := h 0 (by simp)
    have hrest := ih (tail+1) (fun i hi => by
      have := h (i+1) (by simpa using hi)
      rw [show start+(tail+1)+i+1 = start+tail+(i+1)+1 from by omega]
      exact this)
    simp only [homeCopies, hrest]
    rw [show start+tail+1 = start+tail+0+1 from by omega, h0]

theorem installLoop_wrote (recovering : Bool) (h : CacheOk m) (tail : ℕ) (bs : List ℕ)
    (hout : ∀ b ∈ bs, b ≤ m.log.start ∨ m.log.start+tail+bs.length < b) :
    Wrote m (homeCopies m.log.start tail (view m) bs) (installLoop recovering m tail bs) := by
  induction bs generalizing m tail with
  | nil => exact Wrote.refl h
  | cons b bs ih =>
    obtain ⟨hdata, hl⟩ := bread_wrote h (m.log.start+tail+1)
    obtain ⟨-, hd⟩ := bread_wrote hl.cache b
    have hw := (hl.trans hd).trans (bwrite_wrote hd.cache b (view m (m.log.start+tail+1)))
    simp only [nil_append] at hw
    simp only [length_cons] at hout
    simp only [installLoop, hdata]
    have hone : Wrote m [(b, view m (m.log.start+tail+1))] (if recovering then
          bwrite (bread (bread m (m.log.start+tail+1)).2 b).2 b (view m (m.log.start+tail+1))
        else bunpin (bwrite (bread (bread m (m.log.start+tail+1)).2 b).2 b (view m (m.log.start+tail+1))) b) := by
      split_ifs
      · exact hw
      · have hu := hw.trans (bunpin_wrote hw.cache b (by simp [bwrite]))
        simpa only [append_nil] using hu
    have hb := hout b mem_cons_self
    have hrest := ih hone.cache (tail+1) (fun c hc => by
      have := hout c (mem_cons_of_mem _ hc)
      rw [hone.log]
      omega)
    rw [hone.log, hone.view] at hrest
    -- the home block just written is outside the part of the log still to be read
    have hsame := homeCopies_congr m.log.start (tail+1) (v := applyWrites (view m)
      [(b, view m (m.log.start+tail+1))]) (w := view m) bs (fun i hi => by
        apply applyWrites_of_notMem
        simp only [map_cons, map_nil, mem_singleton]
        omega)
    rw [hsame] at hrest
    exact hone.trans hrest

theorem writeHead_wrote (h : CacheOk m) :
    Wrote m [(m.log.start, fillHead (view m m.log.start) m.log.lh)] (writeHead m) := by
  obtain ⟨hdata, hr⟩ := bread_wrote h m.log.start
  have hw := hr.trans (bwrite_wrote hr.cache m.log.start (fillHead (view m m.log.start) m.log.lh))
  simpa only [writeHead, hdata, hr.log, nil_append] using hw

theorem clearHead_traced (h : CacheOk m) :
    Traced m [(m.log.start, fillHead (view m m.log.start) [])] (writeHead (clearHead m)) := by
  have hw := writeHead_wrote (m := clearHead m) h
  exact ⟨hw.disk, hw.view, hw.writes, hw.cache⟩

end Xv6.Logging
