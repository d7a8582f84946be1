import Xv6.BcacheStep

/-! The list of the buffers, their reference counts and the blocks that they carry. -/
namespace Xv6.Bcache
open Logging (Block Log)
open Function Circular List

variable {s t : Sys} {k : Slot}

def Listed (s : Sys) : Prop := ∃ l : List Slot, Cycle s.links none (l.map some) ∧ l.Perm (List.finRange nbuf)

theorem reduceOption_map_some {α : Type*} (l : List α) : (l.map some).reduceOption = l := by
  induction l with
  | nil => rfl
  | cons a l ih => exact congrArg (a :: ·) ih

theorem Listed.mem_forward (h : Listed s) (k : Slot) : k ∈ s.forward := by
  obtain ⟨l, hc, hp⟩ := h
  have hlen : (l.map some).length < nbuf+1 := by
    rw [length_map, hp.length_eq, length_finRange]
    exact Nat.lt_succ_self _
  rw [Sys.forward, hc.forward hlen, reduceOption_map_some]
  exact hp.mem_iff.mpr (mem_finRange k)

theorem Listed.toFront (h : Listed s) (k : Slot) :
    ∃ l : List Slot, Cycle ((s.links.unlink (some k)).pushFront none (some k)) none (l.map some) ∧
      l.Perm (List.finRange nbuf) := by
  obtain ⟨l, hc, hp⟩ := h
  obtain ⟨l₁, l₂, rfl⟩ := append_of_mem (hp.mem_iff.mpr (mem_finRange k))
  refine ⟨k :: (l₁ ++ l₂), ?_, perm_middle.symm.trans hp⟩
  rw [map_append, map_cons] at hc
  rw [map_cons, map_append]
  exact hc.toFront

theorem Effect.listed {e : Event} (h : Effect s e t) (hl : Listed s) : Listed t := by
  cases h with
  | drop k _ links hlinks =>
    rcases hlinks with rfl | rfl
    · exact hl
    · exact hl.toFront k
  | _ => exact hl

theorem binit_listed : ∃ l : List Slot, Cycle binit none (l.map some) ∧ l.Perm (List.finRange nbuf) := by
  have hfold : ∀ (ks l : List Slot) (L : Links (Option Slot)), (ks.reverse ++ l).Nodup → Cycle L none (l.map some) →
      Cycle (ks.foldl (fun L k => L.pushFront none (some k)) L) none ((ks.reverse ++ l).map some) := by
    intro ks
    induction ks with
    | nil => exact fun l L _ hc => hc
    | cons k ks ih =>
      intro l L hnd hc
      rw [reverse_cons, append_assoc, singleton_append] at hnd ⊢
      apply ih (k :: l) _ hnd
      apply hc.pushFront
      have hkl := (nodup_cons.mp (nodup_append.mp hnd).2.1).1
      simpa using hkl
  have hinit : Cycle (⟨id, id⟩ : Links (Option Slot)) none (([] : List Slot).map some) :=
    ⟨⟨rfl, rfl⟩, nodup_singleton _⟩
  have hnd : ((List.finRange nbuf).reverse ++ []).Nodup := by
    rw [append_nil]
    exact nodup_reverse.mpr (nodup_finRange nbuf)
  refine ⟨(List.finRange nbuf).reverse ++ [], hfold _ _ _ hnd hinit, ?_⟩
  rw [append_nil]
  exact reverse_perm _

def Lock.asked : Lock → Option ℕ
  | .free => none
  | .reading _ b => some b
  | .held _ b _ => some b

def Lock.count (l : Lock) : ℕ := if l = .free then 0 else 1

/-- A buffer has one reference for each call of bget that waits for it or has it locked, for each
call of brelse that has yet to let go of it, and for each pin; those calls are about its block. -/
structure Buf.Ok (x : Buf) : Prop where
  ref : x.refcnt = x.waiting.length+x.lock.count+x.leaving+x.pins
  waiting : ∀ w ∈ x.waiting, x.dev = rootdev ∧ x.blockno = w.2
  asked : ∀ b, x.lock.asked = some b → x.dev = rootdev ∧ x.blockno = b

structure Refs (s : Sys) : Prop where
  ok : ∀ k, (s.buf k).Ok
  once : ∀ j k, (s.buf j).dev ≠ 0 → (s.buf j).dev = (s.buf k).dev → (s.buf j).blockno = (s.buf k).blockno → j = k

variable {p b : ℕ} {x : Buf}

theorem has_lock (h : s.has k p b) : (s.buf k).lock.asked = some b ∧ (s.buf k).lock.count = 1 := by
  obtain ⟨d, hl⟩ := h
  rw [hl]
  exact ⟨rfl, if_neg nofun⟩

theorem Refs.has_block (h : Refs s) (hk : s.has k p b) : (s.buf k).dev = rootdev ∧ (s.buf k).blockno = b :=
  (h.ok k).asked b (has_lock hk).1

theorem Refs.unique (h : Refs s) {j k : Slot} (hj : (s.buf j).dev = rootdev ∧ (s.buf j).blockno = b)
    (hk : (s.buf k).dev = rootdev ∧ (s.buf k).blockno = b) : j = k :=
  h.once j k (by rw [hj.1]; decide) (hj.1.trans hk.1.symm) (hj.2.trans hk.2.symm)

theorem Refs.set (h : Refs s) (hbuf : t.buf = update s.buf k x) (hx : x.Ok)
    (hdev : x.dev = (s.buf k).dev) (hblk : x.blockno = (s.buf k).blockno) : Refs t := by
  have hsame (j : Slot) : (t.buf j).dev = (s.buf j).dev ∧ (t.buf j).blockno = (s.buf j).blockno := by
    rw [hbuf]
    by_cases hj : j = k
    · rw [hj, update_self]
      exact ⟨hdev, hblk⟩
    · rw [update_of_ne hj]
      exact ⟨rfl, rfl⟩
  refine ⟨fun j => ?_, fun i j h0 hd hb => ?_⟩
  · rw [hbuf]
    by_cases hj : j = k
    · rw [hj, update_self]
      exact hx
    · rw [update_of_ne hj]
      exact h.ok j
  · rw [(hsame i).1] at h0 hd
    rw [(hsame j).1] at hd
    rw [(hsame i).2, (hsame j).2] at hb
    exact h.once i j h0 hd hb

theorem Buf.Ok.hold {y : Buf} (hx : x.Ok) (hdev : y.dev = x.dev) (hblk : y.blockno = x.blockno)
    (hask : y.lock.asked = x.lock.asked) (hcount : y.lock.count = x.lock.count)
    (hwait : y.waiting = x.waiting) (hleave : y.leaving = x.leaving)
    (href : y.refcnt+x.pins = x.refcnt+y.pins) : y.Ok := by
  refine ⟨?_, fun w hw => ?_, fun b hb => ?_⟩
  · have hr := hx.ref
    rw [hcount, hwait, hleave]
    omega
  · rw [hdev, hblk]
    exact hx.waiting w (hwait ▸ hw)
  · rw [hdev, hblk]
    exact hx.asked b (hask ▸ hb)

theorem Refs.of_buf (h : Refs s) (hbuf : t.buf = s.buf) : Refs t :=
  ⟨fun k => by rw [hbuf]; exact h.ok k, fun j k => by rw [hbuf]; exact h.once j k⟩

theorem Refs.hold (h : Refs s) (hk : s.has k p b) {dirty : Bool}
    (hbuf : t.buf = update s.buf k x) (hlock : x.lock = .held p b dirty)
    (hdev : x.dev = (s.buf k).dev) (hblk : x.blockno = (s.buf k).blockno) (hwait : x.waiting = (s.buf k).waiting)
    (hleave : x.leaving = (s.buf k).leaving)
    (href : x.refcnt+(s.buf k).pins = (s.buf k).refcnt+x.pins) : Refs t := by
  refine h.set hbuf ((h.ok k).hold hdev hblk ?_ ?_ hwait hleave href) hdev hblk
  · rw [(has_lock hk).1, hlock]
    rfl
  · rw [(has_lock hk).2, hlock]
    exact if_neg nofun

theorem Buf.Ok.hit (hx : x.Ok) (hb : x.dev = rootdev ∧ x.blockno = b) (p : ℕ) :
    ({ x with refcnt := x.refcnt+1, waiting := x.waiting ++ [(p, b)] } : Buf).Ok := by
  refine ⟨?_, fun w hw => ?_, hx.asked⟩
  · have hr := hx.ref
    simp only [length_append, length_singleton]
    omega
  rcases mem_append.mp hw with hw | hw
  · exact hx.waiting w hw
  · rw [mem_singleton.mp hw]
    exact hb

theorem Buf.Ok.acquire (hx : x.Ok) (hfree : x.lock = .free) (hw : (p, b) ∈ x.waiting) :
    ({ x with lock := .reading p b, waiting := x.waiting.erase (p, b) } : Buf).Ok := by
  refine ⟨?_, fun w hw' => hx.waiting w (mem_of_mem_erase hw'), fun c hc => ?_⟩
  · have hr := hx.ref
    have hlen := length_erase_of_mem hw
    have hpos := length_pos_of_mem hw
    have hcount : (Lock.reading p b).count = 1 := if_neg nofun
    rw [hfree, show Lock.free.count = 0 from rfl] at hr
    dsimp only
    rw [hcount]
    omega
  · cases hc
    exact hx.waiting (p, b) hw

/-- A buffer without references: nobody waits for it or has it locked, and it is not pinned. -/
theorem Buf.Ok.unused (hx : x.Ok) (h0 : x.refcnt = 0) :
    x.waiting = [] ∧ x.lock = .free ∧ x.leaving = 0 ∧ x.pins = 0 := by
  have hr := hx.ref
  refine ⟨length_eq_zero_iff.mp (by omega), ?_, by omega, by omega⟩
  by_contra hl
  have hcount : x.lock.count = 1 := if_neg hl
  omega

theorem Refs.miss (h : Refs s) (hl : Listed s)
    (hno : ∀ j ∈ s.forward, ¬((s.buf j).dev = rootdev ∧ (s.buf j).blockno = b))
    (h0 : (s.buf k).refcnt = 0) :
    Refs (s.set k { s.buf k with
      dev := rootdev, blockno := b, valid := false, refcnt := 1,
      waiting := (s.buf k).waiting ++ [(p, b)] }) := by
  obtain ⟨hw, hfree, hleave, hpins⟩ := (h.ok k).unused h0
  refine ⟨fun j => ?_, fun i j hi hd hb => ?_⟩
  · by_cases hj : j = k
    · subst hj
      simp only [Sys.set, update_self, hw, hfree, hleave, hpins]
      refine ⟨rfl, fun w hw' => ?_, nofun⟩
      rw [mem_singleton.mp hw']
      exact ⟨rfl, rfl⟩
    · simp only [Sys.set, update_of_ne hj]
      exact h.ok j
  by_cases hik : i = k
  · by_cases hjk : j = k
    · rw [hik, hjk]
    · subst hik
      simp only [Sys.set, update_self, update_of_ne hjk] at hd hb
      exact absurd ⟨hd.symm, hb.symm⟩ (hno j (hl.mem_forward j))
  by_cases hjk : j = k
  · subst hjk
    simp only [Sys.set, update_self, update_of_ne hik] at hd hb
    exact absurd ⟨hd, hb⟩ (hno i (hl.mem_forward i))
  · simp only [Sys.set, update_of_ne hik, update_of_ne hjk] at hi hd hb
    exact h.once i j hi hd hb

theorem Effect.refs {e : Event} (h : Effect s e t) (hl : Listed s) (hr : Refs s)
    (hpin : ∀ p tail k, s.commit = some (p, .written tail k) → 0 < (s.buf k).pins) : Refs t := by
  cases h with
  | hit p b k hk => exact hr.set rfl ((hr.ok k).hit hk p) rfl rfl
  | miss p b k hno h0 => exact hr.miss hl hno h0
  | acquire p b k hfree hw => exact hr.set rfl ((hr.ok k).acquire hfree hw) rfl rfl
  | keep p b k hlock =>
    refine hr.set rfl ((hr.ok k).hold rfl rfl ?_ ?_ rfl rfl rfl) rfl rfl
    · rw [hlock]
      rfl
    · rw [hlock]
      rfl
  | fetch p b k hlock =>
    refine hr.set rfl ((hr.ok k).hold rfl rfl ?_ ?_ rfl rfl rfl) rfl rfl
    · rw [hlock]
      rfl
    · rw [hlock]
      rfl
  | store p b k data hk => exact hr.hold hk rfl rfl rfl rfl rfl rfl rfl
  | absorb p b k hk => exact hr.hold hk rfl rfl rfl rfl rfl rfl rfl
  | pin p b k hk =>
    refine hr.hold hk rfl rfl rfl rfl rfl rfl ?_
    simp only [bpin]
    omega
  | release p b k hk =>
    have hx := hr.ok k
    have hcount := (has_lock hk).2
    have href := hx.ref
    refine hr.set rfl ⟨?_, hx.waiting, nofun⟩ rfl rfl
    rw [show Lock.free.count = 0 from rfl]
    dsimp only
    omega
  | drop k =>
    have hx := hr.ok k
    have href := hx.ref
    refine hr.set rfl ⟨?_, hx.waiting, hx.asked⟩ rfl rfl
    simp only [Buf.leave]
    omega
  | copy p tail b k j hc hb hk => exact hr.hold hk rfl rfl rfl rfl rfl rfl rfl
  | move p tail b k j hc hb hj hk => exact hr.hold hk rfl rfl rfl rfl rfl rfl rfl
  | header p k c c' hc hcc hk => exact hr.hold hk rfl rfl rfl rfl rfl rfl rfl
  | write p b k c c' hc hcc hk => exact hr.hold hk rfl rfl rfl rfl rfl rfl rfl
  | unpin p tail k hc =>
    have hx := hr.ok k
    have href := hx.ref
    have hpos := hpin p tail k hc
    refine hr.set rfl ⟨?_, hx.waiting, hx.asked⟩ rfl rfl
    simp only [bunpin]
    omega
  | beginOp | endOp | commit | pass | clear | finish => exact hr.of_buf rfl

/-! Valid buffers hold what was last stored into their blocks, and so does the disk for a block
that is not in the log and that nobody is modifying. -/

def Stage.pending (lh : List ℕ) : Stage → List ℕ
  | .install tail => lh.drop tail
  | .moved tail _ => lh.drop tail
  | .written tail _ => lh.drop tail
  | .clear => []
  | .erase => []
  | .erased _ => []
  | .finish => []
  | _ => lh

def Sys.pending (s : Sys) : List ℕ :=
  match s.commit with
  | none => s.log.lh
  | some (_, c) => c.pending s.log.lh

theorem pending_none (h : s.commit = none) : s.pending = s.log.lh := by rw [Sys.pending, h]

theorem pending_some {c : Stage} (h : s.commit = some (p, c)) : s.pending = c.pending s.log.lh := by rw [Sys.pending, h]

structure Control (s : Sys) : Prop where
  outstanding : s.log.outstanding = s.ops.length
  committing : s.log.committing = s.commit.isSome
  alone : s.commit.isSome = true → s.ops = []
  nodup : s.log.lh.Nodup
  home : ∀ b ∈ s.log.lh, ¬ logArea s.log b
  room : s.log.lh = [] ∨ s.log.lh.length < s.log.size

def MayDirty (s : Sys) (k : Slot) (p b : ℕ) : Prop :=
  (p ∈ s.ops ∧ ¬ logArea s.log b) ∨ ∃ c c', s.commit = some (p, c) ∧ c.afterWrite = some (k, c')

structure Good (s : Sys) (k : Slot) (x : Buf) : Prop where
  valid : ∀ p b d, x.lock = .held p b d → x.valid = true
  data : x.valid = true → x.dev = rootdev → x.data = s.last x.blockno
  pins : x.pins = if x.dev = rootdev ∧ x.blockno ∈ s.pending then 1 else 0
  dirty : ∀ p b, x.lock = .held p b true → MayDirty s k p b

def Copied (s : Sys) (n : ℕ) : Prop := ∀ i b, i < n → s.log.lh[i]? = some b → s.last (s.log.start+i+1) = s.last b

def Staged (s : Sys) (p : ℕ) : Stage → Prop
  | .begin => True
  | .copy tail => Copied s tail
  | .copied tail k => Copied s (tail+1) ∧ (s.buf k).lock = .held p (s.log.start+tail+1) true
  | .head => Copied s s.log.lh.length
  | .headed k => Copied s s.log.lh.length ∧ (s.buf k).lock = .held p s.log.start true
  | .install _ => Copied s s.log.lh.length
  | .moved tail k => Copied s s.log.lh.length ∧
      ∃ b, s.log.lh[tail]? = some b ∧ (s.buf k).lock = .held p b true
  | .written tail k => Copied s s.log.lh.length ∧ ∃ b, s.log.lh[tail]? = some b ∧
      ((s.buf k).dev = rootdev ∧ (s.buf k).blockno = b) ∧ s.disk b = s.last b
  | .clear => True
  | .erase => s.log.lh = []
  | .erased k => s.log.lh = [] ∧ (s.buf k).lock = .held p s.log.start true
  | .finish => s.log.lh = []

structure Coherent (s : Sys) : Prop where
  good : ∀ k, Good s k (s.buf k)
  pinned : ∀ b ∈ s.pending, ∃ k, ((s.buf k).dev = rootdev ∧ (s.buf k).blockno = b) ∧ (s.buf k).valid = true
  clean : ∀ b, s.disk b = s.last b ∨ b ∈ s.pending ∨ ∃ k p, (s.buf k).lock = .held p b true
  staged : ∀ p c, s.commit = some (p, c) → Staged s p c

theorem Copied.congr {n : ℕ} (h : Copied s n) (hlog : t.log = s.log) (hlast : t.last = s.last) : Copied t n := by
  unfold Copied
  rw [hlog, hlast]
  exact h

theorem Staged.congr {c : Stage} (h : Staged s p c) (hlog : t.log = s.log) (hlast : t.last = s.last)
    (hdisk : t.disk = s.disk)
    (hlock : ∀ k p b, (s.buf k).lock = .held p b true → (t.buf k).lock = .held p b true)
    (hblk : ∀ tail k, c = .written tail k →
      (t.buf k).dev = (s.buf k).dev ∧ (t.buf k).blockno = (s.buf k).blockno) : Staged t p c := by
  cases c with
  | begin => trivial
  | copy => exact Copied.congr h hlog hlast
  | copied =>
    refine ⟨Copied.congr h.1 hlog hlast, ?_⟩
    rw [hlog]
    exact hlock _ _ _ h.2
  | head =>
    unfold Staged
    rw [hlog]
    exact Copied.congr h hlog hlast
  | headed =>
    unfold Staged
    rw [hlog]
    exact ⟨Copied.congr h.1 hlog hlast, hlock _ _ _ h.2⟩
  | install =>
    unfold Staged
    rw [hlog]
    exact Copied.congr h hlog hlast
  | moved =>
    obtain ⟨hcop, b, hb, hl⟩ := h
    unfold Staged
    rw [hlog]
    exact ⟨Copied.congr hcop hlog hlast, b, hb, hlock _ _ _ hl⟩
  | written tail k =>
    obtain ⟨hcop, b, hb, hkb, hd⟩ := h
    obtain ⟨hdev, hno⟩ := hblk tail k rfl
    unfold Staged
    rw [hlog, hdisk, hlast]
    exact ⟨Copied.congr hcop hlog hlast, b, hb, ⟨hdev.trans hkb.1, hno.trans hkb.2⟩, hd⟩
  | clear => trivial
  | erase =>
    unfold Staged
    rw [hlog]
    exact h
  | erased =>
    unfold Staged
    rw [hlog]
    exact ⟨h.1, hlock _ _ _ h.2⟩
  | finish =>
    unfold Staged
    rw [hlog]
    exact h

structure SameRest (s t : Sys) : Prop where
  disk : t.disk = s.disk
  log : t.log = s.log
  ops : t.ops = s.ops
  commit : t.commit = s.commit
  last : t.last = s.last

theorem SameRest.pending (h : SameRest s t) : t.pending = s.pending := by
  unfold Sys.pending
  rw [h.commit, h.log]

theorem SameRest.mayDirty (h : SameRest s t) {b : ℕ} : MayDirty t k p b ↔ MayDirty s k p b := by
  unfold MayDirty
  rw [h.ops, h.log, h.commit]

theorem Good.congr {x : Buf} (h : Good s k x) (hr : SameRest s t) : Good t k x := by
  refine ⟨h.valid, ?_, ?_, fun p b hl => hr.mayDirty.mpr (h.dirty p b hl)⟩
  · rw [hr.last]
    exact h.data
  · rw [hr.pending]
    exact h.pins

theorem Coherent.written_pin (h : Coherent s) {tail : ℕ}
    (hc : s.commit = some (p, .written tail k)) : (s.buf k).pins = 1 := by
  obtain ⟨-, b, hb, hk, -⟩ := h.staged p _ hc
  have hmem : b ∈ s.pending := by
    have h0 : (s.log.lh.drop tail)[0]? = some b := by rw [List.getElem?_drop, Nat.add_zero, hb]
    rw [pending_some hc]
    exact List.mem_of_getElem? h0
  rw [(h.good k).pins, if_pos ⟨hk.1, hk.2 ▸ hmem⟩]

theorem Coherent.set (h : Coherent s) {x : Buf} (hbuf : t.buf = update s.buf k x)
    (hrest : SameRest s t) (hgood : Good s k x)
    (hold : ∀ p b, (s.buf k).lock = .held p b true → x.lock = .held p b true)
    (hpinned : ∀ b ∈ s.pending, (s.buf k).dev = rootdev ∧ (s.buf k).blockno = b →
      (s.buf k).valid = true → (x.dev = rootdev ∧ x.blockno = b) ∧ x.valid = true)
    (hblk : (s.buf k).pins = 1 → x.dev = (s.buf k).dev ∧ x.blockno = (s.buf k).blockno) :
    Coherent t := by
  have hlock : ∀ j p b, (s.buf j).lock = .held p b true → (t.buf j).lock = .held p b true := by
    intro j p b hl
    rw [hbuf]
    by_cases hj : j = k
    · subst hj
      rw [update_self]
      exact hold p b hl
    · rw [update_of_ne hj]
      exact hl
  refine ⟨fun j => ?_, fun b hb => ?_, fun b => ?_, fun p c hc => ?_⟩
  · rw [hbuf]
    by_cases hj : j = k
    · rw [hj, update_self]
      exact hgood.congr hrest
    · rw [update_of_ne hj]
      exact (h.good j).congr hrest
  · rw [hrest.pending] at hb
    obtain ⟨j, hj, hv⟩ := h.pinned b hb
    refine ⟨j, ?_⟩
    rw [hbuf]
    by_cases hjk : j = k
    · subst hjk
      rw [update_self]
      exact hpinned b hb hj hv
    · rw [update_of_ne hjk]
      exact ⟨hj, hv⟩
  · rw [hrest.disk, hrest.last, hrest.pending]
    exact (h.clean b).imp id (Or.imp id (fun ⟨j, p, hl⟩ => ⟨j, p, hlock j p b hl⟩))
  · rw [hrest.commit] at hc
    apply (h.staged p c hc).congr hrest.log hrest.last hrest.disk hlock
    rintro tail j rfl
    have hpin := h.written_pin hc
    rw [hbuf]
    by_cases hj : j = k
    · subst hj
      rw [update_self]
      exact hblk hpin
    · rw [update_of_ne hj]
      exact ⟨rfl, rfl⟩

end Xv6.Bcache
