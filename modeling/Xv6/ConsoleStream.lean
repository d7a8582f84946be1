import Xv6.ConsoleRead

/-! The stream of characters from the keyboard to the readers. -/
namespace Xv6.Console
open Function Runs List

def Copies : Event → Prop
  | .read _ _ ok _ => ∀ k, ok k = true
  | _ => True

def Event.pid : Event → Option ℕ
  | .input _ => none
  | .read pid _ _ _ => some pid
  | .resume pid _ => some pid

def Event.kills : Event → Bool
  | .input _ => false
  | .read _ _ _ killed => killed
  | .resume _ killed => killed

variable {s t : Sys}

def Sys.turn (s : Sys) (calls pid id target : ℕ) (ok : ℕ → Bool) (c : Cons) (bs : List UInt8) (o : Outcome) : Sys :=
  { s with
    calls := calls
    cons := c
    takes := s.takes ++ bs.map (fun b => (id, b))
    readers := update s.readers pid (o.reader id target ok)
    results := s.results ++ o.results id target }

structure Turn (s : Sys) (pid : ℕ) (got bs : List UInt8) (o : Outcome) (t : Sys) : Prop where
  took : ∃ calls id target n ok c ready, s.calls ≤ calls ∧
    Running { s with calls := calls } pid id target n ok got ∧ Took target got bs o ∧
    (discipline s.typed).committed = s.takes.map Prod.snd ++ (bs ++ ready) ∧
    c.Holds ready (discipline s.typed).pending ∧ t = s.turn calls pid id target ok c bs o
  start : s.readers pid = .idle ∧ got = [] ∨ ∃ id target n ok, s.readers pid = .waiting id target n ok got

theorem Inv.raise (h : Inv s) {k : ℕ} (hk : s.calls ≤ k) : Inv { s with calls := k } := by
  refine ⟨h.ring, h.line, fun t ht => (h.below t ht).trans_le hk, fun pid id target n ok got hr => ?_,
    fun x hx => ?_, h.nodup, h.zeros⟩
  · obtain ⟨a1, a2, a3, a4, a5, a6, a7, a8⟩ := h.running pid id target n ok got hr
    exact ⟨a1, a2, a3, a4, a5, a6.trans_le hk, a7, a8⟩
  · obtain ⟨a1, a2⟩ := h.answered x hx
    exact ⟨a1.trans_le hk, a2⟩

theorem Inv.newCall (h : Inv s) (pid target : ℕ) {ok : ℕ → Bool} (hok : ∀ k, ok k = true) :
    Running { s with calls := s.calls+1 } pid s.calls target target ok [] := by
  refine ⟨rfl, hok, not_mem_nil, not_mem_nil, (ofCall_eq_nil h.below).symm, Nat.lt_succ_self _,
    fun x hx => (h.answered x hx).below.ne, fun q _ id target n ok got hq => ?_⟩
  exact (h.running q id target n ok got hq).below.ne

theorem readLoop_not_killed (ok : ℕ → Bool) (target n : ℕ) (c : Cons) (got : List UInt8) :
    (readLoop ok false target n c got).outcome ≠ .killed := by
  induction n generalizing c got with
  | zero => rintro ⟨⟩
  | succ n ih =>
    simp only [readLoop, Bool.false_eq_true, ↓reduceIte]
    split_ifs
    on_goal 6 => exact ih _ _
    all_goals rintro ⟨⟩

variable {pid : ℕ} {got : List UInt8} {e : Event}

theorem Inv.turn (h : Inv s) {calls id target n : ℕ} {ok : ℕ → Bool}
    (hcalls : s.calls ≤ calls) (hr : Running { s with calls := calls } pid id target n ok got)
    (hstart : s.readers pid = .idle ∧ got = [] ∨ ∃ id target n ok, s.readers pid = .waiting id target n ok got)
    (killed : Bool) (ht : t = { s with calls := calls }.leave pid id target ok
      (readLoop ok killed target n s.cons got)) :
    ∃ got bs o, Turn s pid got bs o t ∧ (killed = false → o ≠ .killed) := by
  obtain ⟨ready, hholds, hcom⟩ := h.ring
  obtain ⟨ready', hready, hholds', htook⟩ := readLoop_took hr.stores killed hholds hr.count
  refine ⟨got, _, _, ⟨⟨calls, id, target, n, ok, _, ready', hcalls, hr, htook, ?_, hholds', ?_⟩, hstart⟩, ?_⟩
  · rw [hcom, ← hready]
  · rw [ht, leave_eq]
    rfl
  · rintro rfl
    exact readLoop_not_killed ok target n s.cons got

theorem step_cases (h : Inv s) (hc : Copies e) (hstep : step s e = some t) : (∃ x, t = { s with
      cons := consoleintr s.cons x
      typed := s.typed ++ [(x, s.cons.room)] }) ∨
    ∃ pid got bs o, e.pid = some pid ∧ Turn s pid got bs o t ∧ (e.kills = false → o ≠ .killed) := by
  cases e with
  | input x => exact Or.inl ⟨x, (Option.some.inj hstep).symm⟩
  | read pid n ok killed =>
    right
    simp only [step] at hstep
    split at hstep
    · rename_i hidle
      obtain ⟨got, bs, o, hturn, hk⟩ := h.turn (Nat.le_succ _) (h.newCall pid n.toNat hc)
        (Or.inl ⟨hidle, rfl⟩) killed (Option.some.inj hstep).symm
      exact ⟨pid, got, bs, o, rfl, hturn, hk⟩
    · cases hstep
  | resume pid killed =>
    right
    simp only [step] at hstep
    split at hstep
    · cases hstep
    rename_i id target n ok got hw
    obtain ⟨got, bs, o, hturn, hk⟩ := h.turn le_rfl (h.running pid id target n ok got hw)
      (Or.inr ⟨id, target, n, ok, hw⟩) killed (Option.some.inj hstep).symm
    exact ⟨pid, got, bs, o, rfl, hturn, hk⟩

theorem Turn.inv {bs : List UInt8} {o : Outcome} (h : Inv s) (ht : Turn s pid got bs o t) : Inv t := by
  obtain ⟨calls, id, target, n, ok, c, ready, hcalls, hr, htook, hcom, hholds, rfl⟩ := ht.took
  exact (h.raise hcalls).leave hr htook hcom rfl hholds

theorem Inv.step (h : Inv s) (hc : Copies e) (hstep : step s e = some t) : Inv t := by
  obtain ⟨x, rfl⟩ | ⟨pid, got, bs, o, -, hturn, -⟩ := step_cases h hc hstep
  · exact h.input x
  · exact hturn.inv h

/-- No reader is killed, and nobody takes from the buffer while another call that has taken
something waits for more. -/
def Exclusive (s : Sys) (e : Event) : Prop := Copies e ∧ e.kills = false ∧ ∀ pid, e.pid = some pid → ∀ q, q ≠ pid →
    ∀ id target n ok got, s.readers q = .waiting id target n ok got → got = []

def bytesOf (l : List Result) : List UInt8 := l.flatMap (fun x => x.bytes)

def Block (committed : List UInt8) (before : List Result) (x : Result) : Prop :=
  ∃ pre post, committed = pre ++ x.bytes ++ post ∧ pre.filter (fun b => b ≠ ctrlD) = bytesOf before ∧ ctrlD ∉ x.bytes

/-- Only the call in progress has taken something that has not been returned. -/
structure Tidy (s : Sys) : Prop where
  open_ : ∃ pre g, s.takes.map Prod.snd = pre ++ g ∧ pre.filter (fun b => b ≠ ctrlD) = bytesOf s.results ∧
    ((g = [] ∧ ∀ q id target n ok got, s.readers q = .waiting id target n ok got → got = []) ∨
      ∃ p id target n ok, g ≠ [] ∧ s.readers p = .waiting id target n ok g ∧
        ∀ q, q ≠ p → ∀ id target n ok got, s.readers q = .waiting id target n ok got → got = [])
  blocks : ∀ before x after, s.results = before ++ x :: after → Block (discipline s.typed).committed before x

theorem Tidy.input (h : Tidy s) (x : UInt8) : Tidy { s with
    cons := consoleintr s.cons x
    typed := s.typed ++ [(x, s.cons.room)] } := by
  refine ⟨h.open_, fun before y after heq => ?_⟩
  obtain ⟨pre, post, hcom, hpre, hplain⟩ := h.blocks before y after heq
  obtain ⟨more, hmore⟩ := committed_input (discipline s.typed) x s.cons.room
  refine ⟨pre, post ++ more, ?_, hpre, hplain⟩
  dsimp only
  rw [discipline_snoc, ← hmore, hcom, append_assoc (pre ++ y.bytes)]

theorem Tidy.mine (h : Tidy s)
    (hstart : s.readers pid = .idle ∧ got = [] ∨ ∃ id target n ok, s.readers pid = .waiting id target n ok got)
    (hothers : ∀ q, q ≠ pid → ∀ id target n ok got, s.readers q = .waiting id target n ok got → got = []) :
    ∃ pre, s.takes.map Prod.snd = pre ++ got ∧ pre.filter (fun b => b ≠ ctrlD) = bytesOf s.results := by
  obtain ⟨pre, g, htakes, hpre, ⟨rfl, hall⟩ | ⟨p, id, target, n, ok, hg, hp, -⟩⟩ := h.open_
  · obtain rfl : got = [] := by
      rcases hstart with ⟨-, hgot⟩ | ⟨id, target, n, ok, hw⟩
      · exact hgot
      · exact hall pid id target n ok got hw
    exact ⟨pre, htakes, hpre⟩
  have hpid : p = pid := by
    by_contra hne
    exact hg (hothers p hne _ _ _ _ _ hp)
  subst hpid
  rcases hstart with ⟨hidle, -⟩ | ⟨id', target', n', ok', hw⟩
  · rw [hp] at hidle
    cases hidle
  · rw [hp] at hw
    cases hw
    exact ⟨pre, htakes, hpre⟩

theorem bytesOf_append (l l' : List Result) : bytesOf (l ++ l') = bytesOf l ++ bytesOf l' := flatMap_append

theorem blocks_snoc {com : List UInt8} {results before after : List Result} {x y : Result}
    (h : ∀ before x after, results = before ++ x :: after → Block com before x) (hy : Block com results y)
    (heq : results ++ [y] = before ++ x :: after) : Block com before x := by
  rcases eq_nil_or_concat' after with rfl | ⟨after, z, rfl⟩
  · obtain ⟨rfl, hc⟩ := append_inj' heq rfl
    obtain rfl := (List.cons.inj hc).1
    exact hy
  · have heq' : results ++ [y] = (before ++ x :: after) ++ [z] := heq.trans (by rw [append_assoc, cons_append])
    exact h before x after (append_inj' heq' rfl).1

theorem Tidy.turn (h : Tidy s) {bs : List UInt8} {o : Outcome} (ht : Turn s pid got bs o t) (ho : o ≠ .killed)
    (hothers : ∀ q, q ≠ pid → ∀ id target n ok got, s.readers q = .waiting id target n ok got → got = []) :
    Tidy t := by
  obtain ⟨pre, htakes, hpre⟩ := h.mine ht.start hothers
  obtain ⟨calls, id, target, n, ok, c, ready, -, hr, htook, hcom, -, rfl⟩ := ht.took
  have htakes' : (s.takes ++ bs.map (fun b => (id, b))).map Prod.snd = pre ++ (got ++ bs) := by
    rw [map_append, map_map, htakes, append_assoc]
    congr 2
    exact map_id bs
  rw [htakes] at hcom
  have hplainAll (hplain : ctrlD ∉ bs) : ctrlD ∉ got ++ bs := by
    rw [mem_append, not_or]
    exact ⟨hr.plain, hplain⟩
  have hrest {f : Reader} (hf : ∀ id target n ok got, f = .waiting id target n ok got → got = []) (q : ℕ)
      (id target n : ℕ) (ok : ℕ → Bool) (got : List UInt8)
      (hq : update s.readers pid f q = .waiting id target n ok got) : got = [] := by
    by_cases hqp : q = pid
    · subst hqp
      rw [update_self] at hq
      exact hf _ _ _ _ _ hq
    · rw [update_of_ne hqp] at hq
      exact hothers q hqp _ _ _ _ _ hq
  cases htook with
  | done hplain =>
    have hkeep : (got ++ bs).filter (fun b => b ≠ ctrlD) = got ++ bs := by
      rw [filter_eq_self]
      intro b hb
      simpa using ne_of_mem_of_not_mem hb (hplainAll hplain)
    refine ⟨⟨pre ++ (got ++ bs), [], by rw [append_nil]; exact htakes', ?_, Or.inl ⟨rfl, ?_⟩⟩,
      fun before x after heq => blocks_snoc h.blocks ?_ heq⟩
    · rw [filter_append, hpre, hkeep, Sys.turn, bytesOf_append]
      simp [bytesOf, Outcome.results]
    · exact hrest (by rintro _ _ _ _ _ ⟨⟩)
    · refine ⟨pre, ready, hcom.trans ?_, hpre, hplainAll hplain⟩
      simp only [append_assoc]
  | eof hgot =>
    subst hgot
    refine ⟨⟨pre ++ [ctrlD], [], by rw [append_nil]; exact htakes', ?_, Or.inl ⟨rfl, ?_⟩⟩,
      fun before x after heq => blocks_snoc h.blocks ?_ heq⟩
    · rw [filter_append, hpre, Sys.turn, bytesOf_append]
      rfl
    · exact hrest (by rintro _ _ _ _ _ ⟨⟩)
    · refine ⟨pre, ctrlD :: ready, hcom.trans ?_, hpre, not_mem_nil⟩
      rw [append_nil, singleton_append]
  | @asleep _ m hplain hline hcount =>
    have hres : (s.turn calls pid id target ok c bs (.asleep m (got ++ bs))).results = s.results := append_nil _
    refine ⟨⟨pre, got ++ bs, htakes', by rw [hres]; exact hpre, ?_⟩, ?_⟩
    · by_cases hnil : got ++ bs = []
      · refine Or.inl ⟨hnil, hrest ?_⟩
        intro _ _ _ _ _ hw
        cases hw
        exact hnil
      refine Or.inr ⟨pid, id, target, _, ok, hnil, update_self .., fun q hq _ _ _ _ _ hw => ?_⟩
      rw [Sys.turn] at hw
      dsimp only at hw
      rw [update_of_ne hq] at hw
      exact hothers q hq _ _ _ _ _ hw
    · rw [hres]
      exact h.blocks
  | killed => exact absurd rfl ho

theorem tidy_init (buf : Fin inputBuf → UInt8) (x : Uint) : Tidy (Sys.init buf x) := by
  refine ⟨⟨[], [], rfl, rfl, Or.inl ⟨rfl, fun q id target n ok got hq => ?_⟩⟩, fun before x after heq => ?_⟩
  · cases hq
  · exact absurd heq.symm (by simp [Sys.init])

theorem Tidy.step (h : Tidy s) (hi : Inv s) (he : Exclusive s e) (hstep : step s e = some t) : Tidy t := by
  obtain ⟨x, rfl⟩ | ⟨pid, got, bs, o, hpid, hturn, hk⟩ := step_cases hi he.1 hstep
  · exact h.input x
  · exact h.turn hturn (hk he.2.1) (he.2.2 pid hpid)

theorem killLine_eq (k : ℕ) (c : Cons) : killLine k c = { c with e := (killLine k c).e } := by
  induction k generalizing c with
  | zero => rfl
  | succ k ih =>
    unfold killLine
    split_ifs
    · exact ih _
    · rfl

theorem Inv.erases (h : Inv s) {y : UInt8} (hy : y = ctrlU ∨ y = ctrlH ∨ y = delete) :
    consoleintr s.cons y = { s.cons with e := (consoleintr s.cons y).e } ∧
      ((consoleintr s.cons y).e-s.cons.w).toNat ≤ (s.cons.e-s.cons.w).toNat := by
  have hfields : consoleintr s.cons y = { s.cons with e := (consoleintr s.cons y).e } := by
    unfold consoleintr
    split_ifs
    · rfl
    · exact killLine_eq _ _
    · rfl
    · rfl
    · rename_i h1 h2 h3 h4
      exact absurd hy (not_or.mpr ⟨h2, h3⟩)
    · rfl
  refine ⟨hfields, ?_⟩
  obtain ⟨ready, hholds, hcom⟩ := h.ring
  obtain ⟨ready', hcom', hholds'⟩ := consoleintr_follows hholds hcom h.line y
  have hpend : ((discipline s.typed).input y s.cons.room).pending.length ≤ (discipline s.typed).pending.length := by
    rcases hy with rfl | rfl | rfl
    · exact Nat.zero_le _
    · exact length_dropLast.trans_le (Nat.sub_le ..)
    · exact length_dropLast.trans_le (Nat.sub_le ..)
  have hcount := hholds'.count_pending
  rw [hfields] at hcount
  rw [hholds.count_pending]
  exact hcount.trans_le hpend

/-- What the readers take out is a prefix of what the line discipline makes of the input. If no call
takes something while another one that has taken something waits, the results themselves follow one
another in the input. -/
theorem console_line_discipline (buf : Fin inputBuf → UInt8) (x : Uint) (s : Sys) :
    (Reach step (fun _ e => Copies e) (Sys.init buf x) s → ((s.cons.w-s.cons.r).toNat ≤ (s.cons.e-s.cons.r).toNat ∧
        (s.cons.e-s.cons.r).toNat ≤ inputBuf) ∧
      Ring.window s.cons.buf s.cons.r (s.cons.e-s.cons.r).toNat =
        ((discipline s.typed).committed ++ (discipline s.typed).pending).drop s.takes.length ∧
      s.takes.length+(s.cons.w-s.cons.r).toNat = (discipline s.typed).committed.length ∧
      (∀ y, y = ctrlU ∨ y = ctrlH ∨ y = delete → consoleintr s.cons y = { s.cons with e := (consoleintr s.cons y).e } ∧
          ((consoleintr s.cons y).e-s.cons.w).toNat ≤ (s.cons.e-s.cons.w).toNat) ∧
      s.takes.map Prod.snd <+: (discipline s.typed).committed ∧
      (s.takes.map Prod.snd).filter (fun b => b ≠ ctrlD) <+:
        ((discipline s.typed).committed ++ (discipline s.typed).pending).filter (fun b => b ≠ ctrlD) ∧
      (s.results.map Result.id).Nodup ∧
      (∀ r ∈ s.results, r.ret = -1 ∧ r.bytes = [] ∨ r.ret = r.bytes.length ∧ newline ∉ r.bytes.dropLast ∧
        r.bytes = (ofCall r.id s.takes).filter (fun b => b ≠ ctrlD)) ∧
      (s.results.filter (fun r => decide (0 < r.size ∧ r.ret = 0))).length = (s.takes.map Prod.snd).count ctrlD) ∧
    (Reach step Exclusive (Sys.init buf x) s → bytesOf s.results <+:
        ((discipline s.typed).committed ++ (discipline s.typed).pending).filter (fun b => b ≠ ctrlD) ∧
      ∀ before r after, s.results = before ++ r :: after → Block (discipline s.typed).committed before r) := by
  have hinv (hreach : Reach step (fun _ e => Copies e) (Sys.init buf x) s) : Inv s :=
    hreach.invariant (inv_init buf x) (fun u e v hu he hv => hu.step he hv)
  have hfilter {a b : List UInt8} (h : a <+: b) :
      a.filter (fun b => b ≠ ctrlD) <+: (b ++ (discipline s.typed).pending).filter (fun b => b ≠ ctrlD) :=
    (h.trans (prefix_append ..)).filter _
  constructor
  · intro hreach
    have h := hinv hreach
    obtain ⟨ready, hholds, hcom⟩ := h.ring
    have htakes : s.takes.map Prod.snd <+: (discipline s.typed).committed := ⟨ready, hcom.symm⟩
    refine ⟨⟨?_, ?_⟩, ?_, ?_, fun y hy => h.erases hy, htakes, hfilter htakes, h.nodup,
      fun r hr => (h.answered r hr).bytes, h.zeros⟩
    · rw [hholds.w, hholds.e]
      exact Nat.le_add_right ..
    · rw [hholds.e]
      exact hholds.le
    · rw [hholds.e, hholds.window, hcom, append_assoc, ← length_map Prod.snd, drop_left]
    · rw [hcom, hholds.w, length_append, length_map]
  · intro hreach
    have hboth : Inv s ∧ Tidy s := by
      refine hreach.invariant (I := fun u => Inv u ∧ Tidy u) ⟨inv_init buf x, tidy_init buf x⟩ ?_
      intro u e v hu he hv
      exact ⟨hu.1.step he.1 hv, hu.2.step hu.1 he hv⟩
    obtain ⟨pre, g, htakes, hpre, -⟩ := hboth.2.open_
    obtain ⟨ready, -, hcom⟩ := hboth.1.ring
    refine ⟨?_, hboth.2.blocks⟩
    rw [← hpre]
    exact hfilter ⟨g ++ ready, by rw [hcom, htakes, append_assoc]⟩

theorem one_line_read : ∃ s, Reach step (fun _ e => Copies e) (Sys.init (fun _ => 0) 0) s ∧
      Reach step Exclusive (Sys.init (fun _ => 0) 0) s ∧ s.results = [⟨0, 5, 2, [97, newline]⟩] ∧
      bytesOf s.results <+:
        ((discipline s.typed).committed ++ (discipline s.typed).pending).filter (fun b => b ≠ ctrlD) ∧
      (s.takes.map Prod.snd).filter (fun b => b ≠ ctrlD) <+:
        ((discipline s.typed).committed ++ (discipline s.typed).pending).filter (fun b => b ≠ ctrlD) := by
  have hrun : (run step (Sys.init (fun _ => 0) 0) [.input 97, .input newline, .read 0 5 (fun _ => true) false]).map
      Sys.results = some [⟨0, 5, 2, [97, newline]⟩] := by decide
  obtain ⟨s, hs, hres⟩ := Option.map_eq_some_iff.mp hrun
  have htyped : Reach step Exclusive (Sys.init (fun _ => 0) 0) _ :=
    .next (.next .start (e := .input 97) ⟨trivial, rfl, nofun⟩ rfl) (e := .input newline) ⟨trivial, rfl, nofun⟩ rfl
  have hexcl : Reach step Exclusive (Sys.init (fun _ => 0) 0) s := by
    refine .next htyped (e := .read 0 5 (fun _ => true) false) ⟨fun _ => rfl, rfl, ?_⟩ hs
    intro _ _ _ _ _ _ _ _ _ hw
    exact Reader.noConfusion hw
  have hcopies := hexcl.mono (D := fun _ e => Copies e) (fun _ _ h => h.1)
  have h := console_line_discipline (fun _ => 0) 0 s
  exact ⟨s, hcopies, hexcl, hres, (h.2 hexcl).1, (h.1 hcopies).2.2.2.2.2.1⟩

/-- Process 0 takes 128 characters that were committed because the buffer was full, and sleeps.
Process 1 then reads the end of that line, and process 0 goes on with the next line. -/
theorem second_reader_takes_line_end : (run step (Sys.init (fun _ => 0) 0) (List.replicate 128 (.input 97) ++
      [.read 0 200 (fun _ => true) false, .input 120, .input newline, .read 1 10 (fun _ => true) false,
        .input 121, .input newline, .resume 0 false])).map
      (fun s => (s.results.map (fun r => (r.id, r.bytes)), (discipline s.typed).committed)) =
      some ([(1, [120, newline]), (0, List.replicate 128 97 ++ [121, newline])],
        List.replicate 128 97 ++ [120, newline, 121, newline]) ∧
    ¬ [120, newline] ++ (List.replicate 128 97 ++ [121, newline]) <+:
      List.replicate 128 97 ++ [120, newline, 121, newline] ∧
    ¬ (List.replicate 128 97 ++ [121, newline]) ++ [120, newline] <+:
      List.replicate 128 97 ++ [120, newline, 121, newline] := by
  refine ⟨by decide +kernel, by decide +kernel, by decide +kernel⟩

end Xv6.Console
