import Xv6.ShModel

/-! The words that the parser of user/sh.c finds. nulterminate writes where a word ends, and no word
has a character there. -/
namespace Xv6.Sh
open Function Bytes Hoare List

def isWord (c : UInt8) : Bool := decide (c ≠ 0) && !strchr whitespace c && !strchr symbols c

def Cmd.words : Cmd → List Word
  | .exec argv => argv
  | .redir cmd file _ _ => cmd.words ++ [file]
  | .pipe left right => left.words ++ right.words
  | .list left right => left.words ++ right.words
  | .back cmd => cmd.words

variable {buf : ByteMem} {es s : ℕ}

structure IsLine (buf : ByteMem) (es : ℕ) : Prop where
  chars : ∀ k < es, buf k ≠ 0
  nul : buf es = 0

theorem isLine_bufOf (line : List UInt8) : IsLine (bufOf line) (strlen line) := by
  unfold bufOf strlen
  induction line with
  | nil => exact ⟨fun k hk => absurd hk (Nat.not_lt_zero k), rfl⟩
  | cons c cs ih =>
    by_cases hc : c = 0
    · rw [takeWhile_cons_of_neg (by simpa using hc)]
      exact ⟨fun k hk => absurd hk (Nat.not_lt_zero k), hc⟩
    rw [takeWhile_cons_of_pos (by simpa using hc), length_cons]
    refine ⟨fun k hk => ?_, ih.nul⟩
    cases k with
    | zero => exact hc
    | succ k => exact ih.chars k (Nat.lt_of_succ_lt_succ hk)

structure Run (buf : ByteMem) (es : ℕ) (w : Word) : Prop where
  nonempty : w.q < w.eq
  inside : w.eq ≤ es
  chars : ∀ k, w.q ≤ k → k < w.eq → isWord (buf k) = true
  before : w.q = 0 ∨ isWord (buf (w.q-1)) = false
  behind : isWord (buf w.eq) = false

structure Border (buf : ByteMem) (es s : ℕ) : Prop where
  le : s ≤ es
  edge : s = 0 ∨ isWord (buf (s-1)) = false ∨ isWord (buf s) = false

theorem scan_spec (c : UInt8 → Bool) (buf : ByteMem) (n s : ℕ) :
    s ≤ scan c buf n s ∧ scan c buf n s ≤ s+n ∧ (∀ k, s ≤ k → k < scan c buf n s → c (buf k) = true) ∧
      (scan c buf n s < s+n → c (buf (scan c buf n s)) = false) := by
  induction n generalizing s with
  | zero => exact ⟨le_rfl, le_rfl, fun k hk hlt => absurd hlt (Nat.not_lt.mpr hk), fun h => absurd h (Nat.lt_irrefl s)⟩
  | succ n ih =>
    rw [scan]
    by_cases hc : c (buf s) = true
    · rw [if_pos hc]
      obtain ⟨hlo, hhi, hall, hstop⟩ := ih (s+1)
      refine ⟨by omega, by omega, fun k hk hlt => ?_, fun h => hstop (by omega)⟩
      by_cases hks : k = s
      · rw [hks]
        exact hc
      · exact hall k (by omega) hlt
    · rw [if_neg hc]
      exact ⟨le_rfl, by omega, fun k hk hlt => absurd hlt (Nat.not_lt.mpr hk), fun _ => Bool.eq_false_iff.mpr hc⟩

theorem isWord_space {c : UInt8} (h : strchr whitespace c = true) : isWord c = false := by
  rw [isWord, h]
  simp

theorem isWord_symbol {c : UInt8} (h : strchr symbols c = true) : isWord c = false := by
  rw [isWord, h]
  simp

theorem Border.skipSpace (h : Border buf es s) : Border buf es (skipSpace buf es s) ∧
    (isWord (buf (skipSpace buf es s)) = true →
      skipSpace buf es s = 0 ∨ isWord (buf (skipSpace buf es s-1)) = false) := by
  obtain ⟨hlo, hhi, hall, -⟩ := scan_spec (strchr whitespace) buf (es-s) s
  have hle := h.le
  unfold Sh.skipSpace
  generalize scan (strchr whitespace) buf (es-s) s = t at *
  by_cases hts : t = s
  · rw [hts]
    refine ⟨h, fun hw => ?_⟩
    rcases h.edge with h0 | hbefore | hat
    · exact Or.inl h0
    · exact Or.inr hbefore
    · exact absurd hw (by rw [hat]; exact Bool.false_ne_true)
  · have hspace := isWord_space (hall (t-1) (by omega) (by omega))
    exact ⟨⟨by omega, Or.inr (Or.inl hspace)⟩, fun _ => Or.inr hspace⟩

theorem border_symbol (hline : IsLine buf es) (hle : s ≤ es) (h : strchr symbols (buf s) = true) :
    Border buf es (s+1) := by
  have hne : s ≠ es := by
    rintro rfl
    rw [hline.nul] at h
    exact absurd h (by decide)
  exact ⟨by omega, Or.inr (Or.inl (by rw [Nat.add_sub_cancel]; exact isWord_symbol h))⟩

theorem run_wordEnd (hline : IsLine buf es) (hlt : s < es) (hs : isWord (buf s) = true)
    (hfirst : s = 0 ∨ isWord (buf (s-1)) = false) : Run buf es ⟨s, wordEnd buf es s⟩ := by
  have hword {k : ℕ} (hk : k < es) : isWord (buf k) = (!strchr whitespace (buf k) && !strchr symbols (buf k)) := by
    rw [isWord, decide_eq_true (hline.chars k hk), Bool.true_and]
  obtain ⟨hlo, hhi, hall, hstop⟩ := scan_spec (fun c => !strchr whitespace c && !strchr symbols c) buf (es-s) s
  rw [← wordEnd] at *
  have hend : isWord (buf (wordEnd buf es s)) = false := by
    by_cases hes : wordEnd buf es s = es
    · rw [hes, hline.nul]
      rfl
    · rw [hword (by omega)]
      exact hstop (by omega)
  refine ⟨lt_of_le_of_ne hlo (fun heq => ?_), show wordEnd buf es s ≤ es by omega, fun k hk hke => ?_, hfirst, hend⟩
  · have heq : s = wordEnd buf es s := heq
    rw [← heq, hs] at hend
    cases hend
  · have hke : k < wordEnd buf es s := hke
    rw [hword (by omega)]
    exact hall k hk hke

theorem token_spec (hline : IsLine buf es) (h : Border buf es s)
    (hfirst : isWord (buf s) = true → s = 0 ∨ isWord (buf (s-1)) = false)
    (hspace : s < es → strchr whitespace (buf s) = false) :
    Border buf es (token buf es s).2 ∧ ((token buf es s).1 = 97 → Run buf es ⟨s, (token buf es s).2⟩) := by
  have hle := h.le
  unfold token
  by_cases h0 : buf s = 0
  · rw [if_pos h0]
    exact ⟨h, fun h97 => absurd (show (0 : UInt8) = 97 from h97) (by decide)⟩
  have hlt : s < es := lt_of_le_of_ne hle (fun heq => h0 (by rw [heq]; exact hline.nul))
  rw [if_neg h0]
  by_cases hsym : buf s ∈ [124, 40, 41, 59, 38, 60]
  · have hchr : ([124, 40, 41, 59, 38, 60] : List UInt8).all (fun c => strchr symbols c && decide (c ≠ 97)) := by decide
    obtain ⟨hs, hne⟩ : strchr symbols (buf s) = true ∧ buf s ≠ 97 := by simpa using all_eq_true.mp hchr _ hsym
    rw [if_pos hsym]
    exact ⟨border_symbol hline hle hs, fun h97 => absurd h97 hne⟩
  rw [if_neg hsym]
  by_cases hgt : buf s = 62
  · have hone : Border buf es (s+1) := border_symbol hline hle (by rw [hgt]; decide)
    rw [if_pos hgt]
    by_cases htwo : buf (s+1) = 62
    · rw [if_pos htwo]
      exact ⟨border_symbol hline hone.le (by rw [htwo]; decide),
        fun h97 => absurd (show (43 : UInt8) = 97 from h97) (by decide)⟩
    · rw [if_neg htwo]
      exact ⟨hone, fun h97 => absurd (show (62 : UInt8) = 97 from h97) (by decide)⟩
  have hs : isWord (buf s) = true := by
    have hsymbol : strchr symbols (buf s) = false := by
      rw [strchr, contains_eq_mem, decide_eq_false_iff_not]
      intro hmem
      simp only [symbols, mem_cons, not_mem_nil, or_false] at hmem hsym
      tauto
    rw [isWord, hspace hlt, hsymbol, decide_eq_true h0]
    rfl
  rw [if_neg hgt]
  have hrun := run_wordEnd hline hlt hs (hfirst hs)
  exact ⟨⟨hrun.inside, Or.inr (Or.inr hrun.behind)⟩, fun _ => hrun⟩

/-- From border to border the program finds what has the property `Q`, unless it panics. -/
def Finds {α : Type} (buf : ByteMem) (es : ℕ) (x : P α) (Q : α → Prop) : Prop :=
  Triple (fun _ => True) (Border buf es) x (fun r s => Border buf es s ∧ Q r)

section Finds
variable {α β : Type} {Q : α → Prop}

theorem Finds.bind {x : P β} {f : β → P α} {R : β → Prop} (hx : Finds buf es x R)
    (hf : ∀ b, R b → Finds buf es (f b) Q) : Finds buf es (x >>= f) Q :=
  Triple.bind hx (fun b s hs => hf b hs.2 s hs.1)

theorem Finds.pure {a : α} (h : Q a) : Finds buf es (pure a) Q := Triple.pure (fun _ hs => ⟨hs, h⟩)

theorem Finds.ite {c : Prop} [Decidable c] {x y : P α} (hx : c → Finds buf es x Q) (hy : ¬ c → Finds buf es y Q) :
    Finds buf es (if c then x else y) Q :=
  Triple.ite hx hy

theorem Finds.throw {e : Panic} : Finds buf es (throw e : P α) Q := Triple.throw (fun _ _ => trivial)

end Finds

theorem peek_finds (toks : List UInt8) : Finds buf es (peek buf es toks) (fun _ => True) :=
  fun _ hs => ⟨hs.skipSpace.1, trivial⟩

theorem gettoken_finds (hline : IsLine buf es) :
    Finds buf es (gettoken buf es) (fun r => r.1 = 97 → Run buf es r.2) := by
  intro s hs
  obtain ⟨hq, hfirst⟩ := hs.skipSpace
  obtain ⟨heq, hrun⟩ := token_spec hline hq hfirst (fun hlt => by
    obtain ⟨-, -, -, hstop⟩ := scan_spec (strchr whitespace) buf (es-s) s
    have hle := hs.le
    have hlt' : scan (strchr whitespace) buf (es-s) s < es := hlt
    exact hstop (by omega))
  exact ⟨heq.skipSpace.1, hrun⟩

def Runs (buf : ByteMem) (es : ℕ) (cmd : Cmd) : Prop := ∀ w ∈ cmd.words, Run buf es w

variable {cmd : Cmd}

theorem runs_append {left right : Cmd} (hwords : cmd.words = left.words ++ right.words)
    (hl : Runs buf es left) (hr : Runs buf es right) : Runs buf es cmd := by
  intro w hw
  rw [hwords] at hw
  rcases mem_append.mp hw with hw | hw
  · exact hl w hw
  · exact hr w hw

theorem runs_redircmd {tok : UInt8} {file : Word} (hf : Run buf es file) (h : Runs buf es cmd) :
    Runs buf es (redircmd tok file cmd) := by
  have hredir (mode fd : ℕ) : Runs buf es (.redir cmd file mode fd) :=
    have hfile : Runs buf es (.exec [file]) := fun w hw => by rwa [mem_singleton.mp hw]
    runs_append rfl h hfile
  unfold redircmd
  split_ifs
  · exact hredir _ _
  · exact hredir _ _
  · exact hredir _ _
  · exact h

section Parser
variable (hline : IsLine buf es)
include hline

theorem parseredirs_finds (fuel : ℕ) {wrap : Cmd → Cmd} (hwrap : ∀ c, Runs buf es c → Runs buf es (wrap c)) :
    Finds buf es (parseredirs buf es fuel wrap) (fun wrap' => ∀ c, Runs buf es c → Runs buf es (wrap' c)) := by
  induction fuel generalizing wrap with
  | zero => exact Finds.throw
  | succ fuel ih =>
    refine (peek_finds _).bind (fun b _ => ?_)
    split_ifs
    · refine (gettoken_finds hline).bind (fun tok _ => ?_)
      refine (gettoken_finds hline).bind (fun file hfile => ?_)
      dsimp only
      split_ifs with h97
      · exact Finds.throw
      · exact ih (fun c hc => runs_redircmd (hfile (not_not.mp h97)) (hwrap c hc))
    · exact Finds.pure hwrap

theorem parseargs_finds (fuel : ℕ) {argv : List Word} (hargv : ∀ w ∈ argv, Run buf es w) {wrap : Cmd → Cmd}
    (hwrap : ∀ c, Runs buf es c → Runs buf es (wrap c)) :
    Finds buf es (parseargs buf es fuel argv wrap) (Runs buf es) := by
  induction fuel generalizing argv wrap with
  | zero => exact Finds.throw
  | succ fuel ih =>
    refine (peek_finds _).bind (fun b _ => Finds.ite (fun _ => Finds.pure (hwrap _ hargv)) (fun _ => ?_))
    refine (gettoken_finds hline).bind (fun r hr => Finds.ite (fun _ => Finds.pure (hwrap _ hargv)) (fun _ => ?_))
    refine Finds.ite (fun _ => Finds.throw) (fun h97 => Finds.ite (fun _ => Finds.throw) (fun _ => ?_))
    refine (parseredirs_finds hline fuel hwrap).bind (fun wrap' hwrap' => ih (fun w hw => ?_) hwrap')
    rcases mem_append.mp hw with hw | hw
    · exact hargv w hw
    · rw [mem_singleton.mp hw]
      exact hr (not_not.mp h97)

theorem parsebacks_finds (fuel : ℕ) (h : Runs buf es cmd) :
    Finds buf es (parsebacks buf es fuel cmd) (Runs buf es) := by
  induction fuel generalizing cmd with
  | zero => exact Finds.throw
  | succ fuel ih =>
    refine (peek_finds _).bind (fun b _ => ?_)
    split_ifs
    · have hback : Runs buf es (.back cmd) := h
      exact (gettoken_finds hline).bind (fun _ _ => ih hback)
    · exact Finds.pure h

theorem parse_finds (fuel : ℕ) : Finds buf es (parseline buf es fuel) (Runs buf es) ∧
    Finds buf es (parsepipe buf es fuel) (Runs buf es) ∧ Finds buf es (parseblock buf es fuel) (Runs buf es) ∧
    Finds buf es (parseexec buf es fuel) (Runs buf es) := by
  induction fuel with
  | zero => exact ⟨Finds.throw, Finds.throw, Finds.throw, Finds.throw⟩
  | succ fuel ih =>
    obtain ⟨hpline, hpipe, hblock, hexec⟩ := ih
    have hid : ∀ c, Runs buf es c → Runs buf es (id c) := fun _ hc => hc
    refine ⟨?_, ?_, ?_, ?_⟩
    · refine hpipe.bind (fun cmd hcmd => (parsebacks_finds hline fuel hcmd).bind (fun cmd hcmd => ?_))
      refine (peek_finds _).bind (fun b _ => ?_)
      split_ifs
      · refine (gettoken_finds hline).bind (fun _ _ => hpline.bind (fun rest hrest => ?_))
        exact Finds.pure (runs_append rfl hcmd hrest)
      · exact Finds.pure hcmd
    · refine hexec.bind (fun cmd hcmd => (peek_finds _).bind (fun b _ => ?_))
      split_ifs
      · refine (gettoken_finds hline).bind (fun _ _ => hpipe.bind (fun rest hrest => ?_))
        exact Finds.pure (runs_append rfl hcmd hrest)
      · exact Finds.pure hcmd
    · refine (peek_finds _).bind (fun b _ => ?_)
      split_ifs
      · refine (gettoken_finds hline).bind (fun _ _ => hpline.bind (fun cmd hcmd => ?_))
        refine (peek_finds _).bind (fun b _ => ?_)
        split_ifs
        · refine (gettoken_finds hline).bind (fun _ _ => ?_)
          exact (parseredirs_finds hline fuel hid).bind (fun wrap hwrap => Finds.pure (hwrap cmd hcmd))
        · exact Finds.throw
      · exact Finds.throw
    · refine (peek_finds _).bind (fun b _ => ?_)
      split_ifs
      · exact hblock
      · refine (parseredirs_finds hline fuel hid).bind (fun wrap hwrap => ?_)
        exact parseargs_finds hline fuel (fun w hw => absurd hw not_mem_nil) hwrap

end Parser

/-! The terminators. -/

theorem foldl_update_eq (l : List Word) (m : ByteMem) (k : ℕ) :
    l.foldl (fun m w => update m w.eq 0) m k = if k ∈ l.map Word.eq then 0 else m k := by
  induction l generalizing m with
  | nil => rfl
  | cons w l ih =>
    rw [foldl_cons, ih, map_cons]
    by_cases hk : k = w.eq
    · rw [hk, update_self, ite_self, if_pos mem_cons_self]
    · rw [update_of_ne hk]
      simp only [mem_cons, hk, false_or]

/-- nulterminate writes a NUL at the end of every word, and nothing else. -/
theorem nulterminate_eq (cmd : Cmd) (m : ByteMem) :
    nulterminate cmd m = cmd.words.foldl (fun m w => update m w.eq 0) m := by
  induction cmd generalizing m with
  | exec => rfl
  | redir cmd file mode fd ih => rw [nulterminate, ih, Cmd.words, foldl_append, foldl_cons, foldl_nil]
  | pipe left right ihl ihr => rw [nulterminate, ihr, ihl, Cmd.words, foldl_append]
  | list left right ihl ihr => rw [nulterminate, ihr, ihl, Cmd.words, foldl_append]
  | back cmd ih => rw [nulterminate, ih, Cmd.words]

theorem Run.eq_outside {v w : Word} (hv : Run buf es v) (hw : Run buf es w) : w.eq < v.q ∨ v.eq ≤ w.eq := by
  by_contra hin
  have hchar := hv.chars w.eq (by omega) (by omega)
  rw [hw.behind] at hchar
  cases hchar

def CStr (m : ByteMem) (q : ℕ) (bs : List UInt8) : Prop := load m q bs.length = bs ∧ 0 ∉ bs ∧ m (q+bs.length) = 0

theorem parsecmd_runs {fuel : ℕ} {line : List UInt8} {m : ByteMem} (h : parsecmd fuel line = .ok (cmd, m)) :
    Runs (bufOf line) (strlen line) cmd ∧ m = nulterminate cmd (bufOf line) := by
  have hdef : parsecmd fuel line = (do
      let r ← parseline (bufOf line) (strlen line) fuel 0
      if skipSpace (bufOf line) (strlen line) r.2 ≠ strlen line then throw .badSyntax
      else return (r.1, nulterminate r.1 (bufOf line))) := rfl
  rw [hdef] at h
  cases hrun : parseline (bufOf line) (strlen line) fuel 0 with
  | error =>
    rw [hrun] at h
    cases h
  | ok =>
    have hfinds := (parse_finds (isLine_bufOf line) fuel).1.run_ok ⟨Nat.zero_le _, Or.inl rfl⟩ hrun
    rw [hrun] at h
    change (if _ then _ else _ : Except Panic (Cmd × ByteMem)) = _ at h
    split_ifs at h
    cases h
    exact ⟨hfinds.2, rfl⟩

/-- If parsecmd returns a command, its words are maximal runs of characters that are no blanks and
no symbols, and each stands in the buffer as a string. -/
theorem words_are_tokens {fuel : ℕ} {line : List UInt8} {cmd : Cmd} {m : ByteMem}
    (h : parsecmd fuel line = .ok (cmd, m)) :
    (∀ w ∈ cmd.words, Run (bufOf line) (strlen line) w ∧ CStr m w.q (load (bufOf line) w.q (w.eq-w.q))) ∧
    (∀ k, m k = if k ∈ cmd.words.map Word.eq then 0 else bufOf line k) ∧
    ∀ k ∈ cmd.words.map Word.eq, k ≤ strlen line ∧ ∀ w ∈ cmd.words, k < w.q ∨ w.eq ≤ k := by
  obtain ⟨hruns, rfl⟩ := parsecmd_runs h
  have hline := isLine_bufOf line
  have hwrites : ∀ k, nulterminate cmd (bufOf line) k = if k ∈ cmd.words.map Word.eq then 0 else bufOf line k := by
    intro k
    rw [nulterminate_eq, foldl_update_eq]
  refine ⟨fun w hw => ⟨hruns w hw, ?_⟩, hwrites, fun k hk => ?_⟩
  · have hrun := hruns w hw
    have hlt := hrun.nonempty
    have hin := hrun.inside
    rw [CStr, length_load, Nat.add_sub_cancel' hlt.le, hwrites, if_pos (mem_map_of_mem hw)]
    refine ⟨load_congr (fun k hk => ?_), fun h0 => ?_, rfl⟩
    · rw [hwrites, if_neg]
      intro hmem
      obtain ⟨v, hv, heq⟩ := mem_map.mp hmem
      have hout := hrun.eq_outside (hruns v hv)
      omega
    · obtain ⟨k, hk, heq⟩ := mem_map.mp h0
      exact hline.chars (w.q+k) (by have := mem_range.mp hk; omega) heq
  · obtain ⟨v, hv, rfl⟩ := mem_map.mp hk
    exact ⟨(hruns v hv).inside, fun w hw => (hruns w hw).eq_outside (hruns v hv)⟩

theorem words_are_tokens_line : ∃ cmd m, parsecmd 6 [97, 62, 98, 59, 99] = .ok (cmd, m) ∧
    cmd.words = [⟨0, 1⟩, ⟨2, 3⟩, ⟨4, 5⟩] ∧ CStr m 0 [97] ∧ CStr m 2 [98] ∧ CStr m 4 [99] := by
  obtain ⟨cmd, hcmd⟩ : ∃ cmd, cmd = Cmd.list (.redir (.exec [⟨0, 1⟩]) ⟨2, 3⟩ 0x601 1) (.exec [⟨4, 5⟩]) := ⟨_, rfl⟩
  have hrun : parsecmd 6 [97, 62, 98, 59, 99] = .ok (cmd, nulterminate cmd (bufOf [97, 62, 98, 59, 99])) := by
    rw [hcmd]
    rfl
  have hwords : cmd.words = [⟨0, 1⟩, ⟨2, 3⟩, ⟨4, 5⟩] := by
    rw [hcmd]
    rfl
  obtain ⟨hall, -, -⟩ := words_are_tokens hrun
  rw [hwords] at hall
  exact ⟨cmd, _, hrun, hwords, (hall ⟨0, 1⟩ (by decide)).2, (hall ⟨2, 3⟩ (by decide)).2, (hall ⟨4, 5⟩ (by decide)).2⟩

end Xv6.Sh
