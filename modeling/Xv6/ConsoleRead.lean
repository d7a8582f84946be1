import Xv6.ConsoleLine

/-! What a section of consoleread takes out of the buffer, and what that has to do with its result. -/
namespace Xv6.Console

open Function List

/-- What a section has taken when it ends, for a call that has copied out `got` before. -/
inductive Took (target : ℕ) (got : List UInt8) : List UInt8 → Outcome → Prop
  | done {bs : List UInt8} (hplain : ctrlD ∉ bs) (hline : newline ∉ bs.dropLast)
      (hpos : got ++ bs ≠ [] ∨ target = 0) : Took target got bs (.returned (got ++ bs).length (got ++ bs))
  | eof (hgot : got = []) (hpos : 0 < target) : Took target got [ctrlD] (.returned 0 [])
  | asleep {bs : List UInt8} {n : ℕ} (hplain : ctrlD ∉ bs) (hline : newline ∉ bs)
      (hn : n+(got ++ bs).length = target) : Took target got bs (.asleep n (got ++ bs))
  | killed {bs : List UInt8} (hplain : ctrlD ∉ bs) : Took target got bs .killed

theorem Took.returned {target : ℕ} {got bs g : List UInt8} {r : ℤ} (hg : g = got ++ bs) (hr : r = g.length)
    (hplain : ctrlD ∉ bs) (hline : newline ∉ bs.dropLast) (hpos : g ≠ [] ∨ target = 0) :
    Took target got bs (.returned r g) := by
  subst hg hr
  exact .done hplain hline hpos

theorem Took.cons {target : ℕ} {got bs : List UInt8} {x : UInt8} {o : Outcome} (hD : x ≠ ctrlD)
    (hn : x ≠ newline) (h : Took target (got ++ [x]) bs o) : Took target got (x :: bs) o := by
  have happ (l : List UInt8) : got ++ [x] ++ l = got ++ x :: l := by rw [append_assoc, singleton_append]
  have hplain' {l : List UInt8} (hl : ctrlD ∉ l) : ctrlD ∉ x :: l := by
    rw [mem_cons, not_or]
    exact ⟨Ne.symm hD, hl⟩
  cases h with
  | done hplain hline hpos =>
    rw [happ] at hpos ⊢
    refine .done (hplain' hplain) ?_ hpos
    cases bs with
    | nil => exact not_mem_nil
    | cons =>
      rw [dropLast_cons_cons, mem_cons, not_or]
      exact ⟨Ne.symm hn, hline⟩
  | eof hgot => simp at hgot
  | asleep hplain hline hcount =>
    rw [happ] at hcount ⊢
    refine .asleep (hplain' hplain) ?_ hcount
    rw [mem_cons, not_or]
    exact ⟨Ne.symm hn, hline⟩
  | killed hplain => exact .killed (hplain' hplain)

variable {c : Cons} {ready pending : List UInt8}

theorem Cons.Holds.ready_iff (h : c.Holds ready pending) : c.r = c.w ↔ ready = [] := by
  constructor
  · intro he
    have hw := h.w
    rw [he, BitVec.sub_self] at hw
    exact eq_nil_of_length_eq_zero hw.symm
  · rintro rfl
    exact (eq_of_count (r := c.r) (h.w.trans (by rw [BitVec.sub_self]; rfl))).symm

theorem Cons.Holds.pop {x : UInt8} (h : c.Holds (x :: ready) pending) :
    Cons.Holds { c with r := c.r+1 } ready pending ∧ c.at c.r = x := by
  have hlen : (x :: ready).length+pending.length = ready.length+pending.length+1 := by
    rw [length_cons]
    omega
  have hw := h.w
  have he := h.e
  have hle := h.le
  have hwin := h.window
  rw [hlen] at he hle hwin
  rw [length_cons] at hw
  have hne (y : Uint) (hy : (y-c.r).toNat ≠ 0) : c.r ≠ y := by
    rintro rfl
    exact hy (by rw [BitVec.sub_self]; rfl)
  have hw' := Ring.count_pop c.r c.w (hne _ (by omega))
  have he' := Ring.count_pop c.r c.e (hne _ (by omega))
  rw [Ring.window_pop] at hwin
  obtain ⟨hfirst, hrest⟩ := List.cons.inj hwin
  exact ⟨⟨by dsimp only; omega, by dsimp only; omega, by omega, hrest⟩, hfirst⟩

theorem readLoop_took {ok : ℕ → Bool} (hok : ∀ k, ok k = true) (killed : Bool) {target n : ℕ}
    {got : List UInt8} (h : c.Holds ready pending) (hn : n+got.length = target) :
    ∃ ready', ready = (readLoop ok killed target n c got).took ++ ready' ∧
      (readLoop ok killed target n c got).cons.Holds ready' pending ∧
      Took target got (readLoop ok killed target n c got).took (readLoop ok killed target n c got).outcome := by
  induction n generalizing c ready got with
  | zero =>
    have hpos : got ≠ [] ∨ target = 0 := by
      by_cases hgot : got = []
      · right
        rw [← hn, hgot]
        rfl
      · exact Or.inl hgot
    refine ⟨ready, rfl, h, .returned (append_nil got).symm ?_ not_mem_nil not_mem_nil hpos⟩
    rw [← hn, Nat.zero_add]
  | succ n ih =>
    cases ready with
    | nil =>
      rw [readLoop, if_pos (h.ready_iff.mpr rfl)]
      refine ⟨[], rfl, h, ?_⟩
      cases killed with
      | true => exact .killed not_mem_nil
      | false =>
        have hsleep := @Took.asleep target got [] (n+1) not_mem_nil not_mem_nil (by rw [append_nil]; exact hn)
        rwa [append_nil] at hsleep
    | cons x ready =>
      obtain ⟨hpop, hx⟩ := h.pop
      have hne : c.r ≠ c.w := fun he => by simpa using h.ready_iff.mp he
      rw [readLoop, if_neg hne, hx]
      by_cases hD : x = ctrlD
      · rw [if_pos hD]
        by_cases hsome : n+1 < target
        · -- put back for the next call
          rw [if_pos hsome, show c.r+1-1 = c.r by ring]
          have hgot : got ≠ [] := by
            rintro rfl
            rw [length_nil] at hn
            omega
          refine ⟨x :: ready, rfl, h, .returned (append_nil got).symm ?_ not_mem_nil not_mem_nil (Or.inl hgot)⟩
          omega
        · rw [if_neg hsome, hD]
          obtain rfl : got = [] := eq_nil_of_length_eq_zero (by omega)
          refine ⟨ready, rfl, hpop, ?_⟩
          rw [show ((target : ℤ)-(n+1 : ℕ)) = 0 by rw [← hn, length_nil]; omega]
          exact .eof rfl (by omega)
      rw [if_neg hD, if_neg (by rw [hok]; decide)]
      by_cases hnl : x = newline
      · rw [if_pos hnl]
        refine ⟨ready, rfl, hpop, .returned rfl ?_ ?_ ?_ (Or.inl (by simp))⟩
        · rw [length_append, length_singleton]
          omega
        · rw [mem_singleton]
          exact Ne.symm hD
        · exact not_mem_nil
      · rw [if_neg hnl]
        obtain ⟨ready', hready, hholds, htook⟩ := @ih { c with r := c.r+1 } ready (got ++ [x]) hpop
          (by rw [length_append, length_singleton]; omega)
        refine ⟨ready', ?_, hholds, htook.cons hD hnl⟩
        rw [Section.after, cons_append, ← hready]

def ofCall (id : ℕ) (takes : List (ℕ × UInt8)) : List UInt8 := (takes.filter (fun t => t.1 = id)).map Prod.snd

theorem ofCall_append (id : ℕ) (takes takes' : List (ℕ × UInt8)) :
    ofCall id (takes ++ takes') = ofCall id takes ++ ofCall id takes' := by
  rw [ofCall, filter_append, map_append, ofCall, ofCall]

theorem ofCall_append_self (id : ℕ) (takes : List (ℕ × UInt8)) (bs : List UInt8) :
    ofCall id (takes ++ bs.map (fun b => (id, b))) = ofCall id takes ++ bs := by
  rw [ofCall_append, ofCall.eq_def id (bs.map _), filter_eq_self.mpr (by simp), map_map]
  exact congrArg _ (map_id bs)

theorem ofCall_append_other {id id' : ℕ} (h : id ≠ id') (takes : List (ℕ × UInt8)) (bs : List UInt8) :
    ofCall id (takes ++ bs.map (fun b => (id', b))) = ofCall id takes := by
  rw [ofCall_append, ofCall.eq_def id (bs.map _), filter_eq_nil_iff.mpr (by simp [Ne.symm h]), map_nil, append_nil]

theorem ofCall_eq_nil {id : ℕ} {takes : List (ℕ × UInt8)} (h : ∀ t ∈ takes, t.1 < id) : ofCall id takes = [] := by
  rw [ofCall, filter_eq_nil_iff.mpr, map_nil]
  intro t ht
  simpa using (h t ht).ne

structure Running (s : Sys) (pid id target n : ℕ) (ok : ℕ → Bool) (got : List UInt8) : Prop where
  count : n+got.length = target
  stores : ∀ k, ok k = true
  line : newline ∉ got
  plain : ctrlD ∉ got
  mine : got = ofCall id s.takes
  below : id < s.calls
  fresh : ∀ x ∈ s.results, x.id ≠ id
  alone : ∀ q, q ≠ pid → ∀ id' target' n' ok' got', s.readers q = .waiting id' target' n' ok' got' → id' ≠ id

structure Answered (s : Sys) (x : Result) : Prop where
  below : x.id < s.calls
  bytes : x.ret = -1 ∧ x.bytes = [] ∨ x.ret = x.bytes.length ∧ newline ∉ x.bytes.dropLast ∧
    x.bytes = (ofCall x.id s.takes).filter (fun b => b ≠ ctrlD)

structure Inv (s : Sys) : Prop where
  ring : ∃ ready, s.cons.Holds ready (discipline s.typed).pending ∧
    (discipline s.typed).committed = s.takes.map Prod.snd ++ ready
  line : newline ∉ (discipline s.typed).pending
  below : ∀ t ∈ s.takes, t.1 < s.calls
  running : ∀ pid id target n ok got, s.readers pid = .waiting id target n ok got → Running s pid id target n ok got
  answered : ∀ x ∈ s.results, Answered s x
  nodup : (s.results.map Result.id).Nodup
  zeros : (s.results.filter (fun x => decide (0 < x.size ∧ x.ret = 0))).length = (s.takes.map Prod.snd).count ctrlD

theorem inv_init (buf : Fin inputBuf → UInt8) (x : Uint) : Inv (Sys.init buf x) := by
  refine ⟨⟨[], ⟨?_, ?_, Nat.zero_le _, rfl⟩, rfl⟩, not_mem_nil, ?_, ?_, ?_, nodup_nil, rfl⟩
  · simp [Sys.init]
  · simp [Sys.init, discipline]
  · exact fun t ht => absurd ht not_mem_nil
  · intro pid id target n ok got h
    cases h
  · exact fun r hr => absurd hr not_mem_nil

theorem Inv.input {s : Sys} (h : Inv s) (x : UInt8) : Inv { s with
    cons := consoleintr s.cons x
    typed := s.typed ++ [(x, s.cons.room)] } := by
  obtain ⟨ready, hholds, hcom⟩ := h.ring
  obtain ⟨ready', hcom', hholds'⟩ := consoleintr_follows hholds hcom h.line x
  refine ⟨⟨ready', ?_⟩, ?_, h.below, fun pid id target n ok got hr => ?_, fun r hr => ?_, h.nodup, h.zeros⟩
  · dsimp only
    rw [discipline_snoc]
    exact ⟨hholds', hcom'⟩
  · dsimp only
    rw [discipline_snoc]
    exact newline_notMem_input h.line x _
  · obtain ⟨a1, a2, a3, a4, a5, a6, a7, a8⟩ := h.running pid id target n ok got hr
    exact ⟨a1, a2, a3, a4, a5, a6, a7, a8⟩
  · obtain ⟨a1, a2⟩ := h.answered r hr
    exact ⟨a1, a2⟩

def Outcome.results (id target : ℕ) : Outcome → List Result
  | .returned r got => [⟨id, target, r, got⟩]
  | .killed => [⟨id, target, -1, []⟩]
  | .asleep _ _ => []

def Outcome.reader (id target : ℕ) (ok : ℕ → Bool) : Outcome → Reader
  | .asleep n got => .waiting id target n ok got
  | _ => .idle

theorem leave_eq (s : Sys) (pid id target : ℕ) (ok : ℕ → Bool) (sec : Section) : s.leave pid id target ok sec = { s with
      cons := sec.cons
      takes := s.takes ++ sec.took.map (fun b => (id, b))
      readers := update s.readers pid (sec.outcome.reader id target ok)
      results := s.results ++ sec.outcome.results id target } := by
  cases hs : sec.outcome <;> simp only [Sys.leave, hs, Outcome.reader, Outcome.results]

theorem Took.zeros {target : ℕ} {got bs : List UInt8} {o : Outcome} (ht : Took target got bs o) (id : ℕ) :
    ((o.results id target).filter (fun x => decide (0 < x.size ∧ x.ret = 0))).length = bs.count ctrlD := by
  cases ht with
  | done hplain hline hpos =>
    rw [count_eq_zero_of_not_mem hplain, length_eq_zero_iff, filter_eq_nil_iff]
    intro x hx
    obtain rfl := mem_singleton.mp hx
    simp only [decide_eq_true_eq, not_and]
    intro htarget h0
    rcases hpos with hne | hz
    · exact hne (eq_nil_of_length_eq_zero (by exact_mod_cast h0))
    · omega
  | eof hgot hpos => simp [Outcome.results, hpos]
  | asleep hplain =>
    rw [count_eq_zero_of_not_mem hplain]
    rfl
  | killed hplain =>
    rw [count_eq_zero_of_not_mem hplain]
    simp [Outcome.results]

section Leave
variable {s : Sys} {pid id target n : ℕ} {ok : ℕ → Bool} {got bs : List UInt8} {o : Outcome}
  (hr : Running s pid id target n ok got) (ht : Took target got bs o)
include hr ht

theorem Running.answers {x : Result} (hx : x ∈ o.results id target) : x.id = id ∧
    (x.ret = -1 ∧ x.bytes = [] ∨ x.ret = x.bytes.length ∧ newline ∉ x.bytes.dropLast ∧
      x.bytes = (got ++ bs).filter (fun b => b ≠ ctrlD)) := by
  have hkeep {l : List UInt8} (hl : ctrlD ∉ l) : l.filter (fun b => b ≠ ctrlD) = l := by
    rw [filter_eq_self]
    intro b hb
    simpa using ne_of_mem_of_not_mem hb hl
  cases ht with
  | done hplain hline =>
    obtain rfl := mem_singleton.mp hx
    refine ⟨rfl, Or.inr ⟨rfl, ?_, ?_⟩⟩
    · cases bs with
      | nil =>
        rw [append_nil]
        exact fun h => hr.line (mem_of_mem_dropLast h)
      | cons y l =>
        rw [dropLast_append_of_ne_nil (cons_ne_nil y l), mem_append, not_or]
        exact ⟨hr.line, hline⟩
    · rw [hkeep]
      rw [mem_append, not_or]
      exact ⟨hr.plain, hplain⟩
  | eof hgot =>
    obtain rfl := mem_singleton.mp hx
    refine ⟨rfl, Or.inr ⟨rfl, not_mem_nil, ?_⟩⟩
    rw [hgot]
    rfl
  | asleep => cases hx
  | killed =>
    obtain rfl := mem_singleton.mp hx
    exact ⟨rfl, Or.inl ⟨rfl, rfl⟩⟩

theorem Inv.leave (h : Inv s) {c : Cons} {ready ready' : List UInt8}
    (hcom : (discipline s.typed).committed = s.takes.map Prod.snd ++ ready) (hready : ready = bs ++ ready')
    (hholds : c.Holds ready' (discipline s.typed).pending) : Inv { s with
      cons := c
      takes := s.takes ++ bs.map (fun b => (id, b))
      readers := update s.readers pid (o.reader id target ok)
      results := s.results ++ o.results id target } := by
  have hids {x : Result} (hx : x ∈ o.results id target) : x.id = id := (hr.answers ht hx).1
  refine ⟨⟨ready', hholds, ?_⟩, h.line, fun t hmem => ?_, fun q id' target' n' ok' got' hq => ?_,
    fun x hx => ?_, ?_, ?_⟩
  · rw [hcom, hready, map_append, map_map, ← append_assoc]
    congr 2
    exact (map_id bs).symm
  · rcases mem_append.mp hmem with hold | hnew
    · exact h.below t hold
    · obtain ⟨b, -, rfl⟩ := mem_map.mp hnew
      exact hr.below
  · by_cases hqp : q = pid
    · -- the call itself has gone to sleep
      subst hqp
      dsimp only at hq
      rw [update_self] at hq
      cases ht with
      | asleep hplain hline hcount =>
        cases hq
        refine ⟨hcount, hr.stores, ?_, ?_, ?_, hr.below, ?_, fun q' hq' id' t' n' o' g' hw => ?_⟩
        · rw [mem_append, not_or]
          exact ⟨hr.line, hline⟩
        · rw [mem_append, not_or]
          exact ⟨hr.plain, hplain⟩
        · dsimp only
          rw [ofCall_append_self, ← hr.mine]
        · simpa [Outcome.results] using hr.fresh
        · dsimp only at hw
          rw [update_of_ne hq'] at hw
          exact hr.alone q' hq' _ _ _ _ _ hw
      | _ => cases hq
    · dsimp only at hq
      rw [update_of_ne hqp] at hq
      have hne := hr.alone q hqp _ _ _ _ _ hq
      have hold := h.running q id' target' n' ok' got' hq
      refine ⟨hold.count, hold.stores, hold.line, hold.plain, ?_, hold.below, fun x hx => ?_,
        fun q' hq' id2 t2 n2 o2 g2 hw => ?_⟩
      · dsimp only
        rw [ofCall_append_other hne]
        exact hold.mine
      · rcases mem_append.mp hx with hx | hx
        · exact hold.fresh x hx
        · rw [hids hx]
          exact Ne.symm hne
      dsimp only at hw
      by_cases hqp' : q' = pid
      · subst hqp'
        rw [update_self] at hw
        cases ht with
        | asleep =>
          cases hw
          exact Ne.symm hne
        | _ => cases hw
      · rw [update_of_ne hqp'] at hw
        exact hold.alone q' hq' _ _ _ _ _ hw
  · rcases mem_append.mp hx with hx | hx
    · have hold := h.answered x hx
      refine ⟨hold.below, ?_⟩
      dsimp only
      rw [ofCall_append_other (hr.fresh x hx)]
      exact hold.bytes
    · obtain ⟨hid, hbytes⟩ := hr.answers ht hx
      refine ⟨by rw [hid]; exact hr.below, ?_⟩
      dsimp only
      rwa [hid, ofCall_append_self, ← hr.mine]
  · rw [map_append, nodup_append]
    refine ⟨h.nodup, ?_, ?_⟩
    · cases o <;> simp [Outcome.results]
    intro a ha b hb
    obtain ⟨x, hx, rfl⟩ := mem_map.mp ha
    obtain ⟨y, hy, rfl⟩ := mem_map.mp hb
    rw [hids hy]
    exact hr.fresh x hx
  · rw [filter_append, length_append, h.zeros, ht.zeros, map_append, map_map, count_append]
    congr 2
    exact (map_id bs).symm

end Leave

end Xv6.Console
