import Xv6.BcacheStore

/-! The steps of commit keep the buffers coherent, and so does every step. -/
namespace Xv6.Bcache
open Logging (Block Log)
open Function Circular Runs List

variable {s t : Sys} {k j : Slot} {p : ℕ}

variable {tail b : ℕ} {c c' : Stage}

theorem Control.room_lt (h : Control s) (hb : s.log.lh[tail]? = some b) :
    tail < s.log.lh.length ∧ s.log.lh.length < s.log.size := by
  have hlt : tail < s.log.lh.length := (List.getElem?_eq_some_iff.mp hb).1
  refine ⟨hlt, h.room.resolve_left (fun hnil => ?_)⟩
  rw [hnil] at hlt
  exact absurd hlt (Nat.not_lt_zero _)

theorem Control.home_ne (h : Control s) {i c : ℕ} (hb : s.log.lh[i]? = some b)
    (hlo : s.log.start ≤ c) (hhi : c < s.log.start+s.log.size) : b ≠ c := by
  rintro rfl
  exact h.home b (mem_of_getElem? hb) ⟨hlo, hhi⟩

theorem Copied.snoc (h : Control s) {data : Block} (hcop : Copied s tail)
    (hb : s.log.lh[tail]? = some b) (hdata : data = s.last b) (hlog : t.log = s.log)
    (hlast : t.last = update s.last (s.log.start+tail+1) data) : Copied t (tail+1) := by
  intro i c hi hc
  rw [hlog] at hc ⊢
  obtain ⟨hlt, hsize⟩ := h.room_lt hb
  have hne : c ≠ s.log.start+tail+1 := h.home_ne hc (by omega) (by omega)
  rw [hlast, update_of_ne hne]
  by_cases hit : i = tail
  · subst hit
    rw [update_self, hdata, Option.some.inj (hb.symm.trans hc)]
  · rw [update_of_ne (by omega)]
    exact hcop i c (by omega) hc

theorem Copied.header (h : Control s) {n : ℕ} {data : Block} (hcop : Copied s n)
    (hlog : t.log = s.log) (hlast : t.last = update s.last s.log.start data) :
    Copied t n := by
  intro i c hi hc
  rw [hlog] at hc ⊢
  obtain ⟨hlt, hsize⟩ := h.room_lt hc
  have hne : c ≠ s.log.start := h.home_ne hc (by omega) (by omega)
  rw [hlast, update_of_ne hne, update_of_ne (by omega)]
  exact hcop i c hi hc

theorem Coherent.data_eq (h : Coherent s) (hr : Refs s) (hk : s.has k p b) : (s.buf k).data = s.last b := by
  obtain ⟨d, hl⟩ := id hk
  have hblk := hr.has_block hk
  have hd := (h.good k).data ((h.good k).valid p b d hl) hblk.1
  rwa [hblk.2] at hd

theorem Coherent.copy (h : Coherent s) (hctl : Control s) (hr : Refs s)
    (hc : s.commit = some (p, .copy tail)) (hb : s.log.lh[tail]? = some b)
    (hk : s.has k p (s.log.start+tail+1)) (hj : s.has j p b) :
    Coherent { s.put k p (s.log.start+tail+1) (s.buf j).data with
      commit := some (p, .copied tail k) } := by
  refine h.put hr hk rfl rfl rfl ?_ (fun i q c _ hl => ?_) (Or.inr ⟨_, _, rfl, rfl⟩) ?_
  · rw [pending_some hc, pending_some rfl]
    rfl
  · obtain ⟨c', hc'⟩ := h.dirty_commit hctl hc hl
    cases hc'
  intro q c hqc
  cases hqc
  refine ⟨(h.staged p _ hc).snoc hctl hb (h.data_eq hr hj) rfl ?_, ?_⟩
  · rw [← (hr.has_block hk).2]
    rfl
  · simp only [Sys.put, Sys.set, update_self]

theorem Coherent.header (h : Coherent s) (hctl : Control s) (hr : Refs s)
    (hc : s.commit = some (p, c)) (hcc : c.afterHeader k = some c') (hk : s.has k p s.log.start) :
    Coherent { s.put k p s.log.start (Logging.fillHead (s.buf k).data s.log.lh) with
      commit := some (p, c') } := by
  have hlast : (s.put k p s.log.start (Logging.fillHead (s.buf k).data s.log.lh)).last =
      update s.last s.log.start (Logging.fillHead (s.buf k).data s.log.lh) := by
    rw [← (hr.has_block hk).2]
    rfl
  have hlock : ((s.put k p s.log.start (Logging.fillHead (s.buf k).data s.log.lh)).buf k).lock =
      .held p s.log.start true := by
    simp only [Sys.put, Sys.set, update_self]
  have hst := h.staged p c hc
  have hnone : c.afterWrite = none := by
    cases c with
    | head | erase => rfl
    | _ => cases hcc
  refine h.put hr hk rfl rfl rfl ?_ (fun i q c _ hl => ?_) (Or.inr ⟨c', ?_⟩) ?_
  · rw [pending_some hc, pending_some rfl]
    cases c with
    | head | erase => cases hcc; rfl
    | _ => cases hcc
  · obtain ⟨c', hc'⟩ := h.dirty_commit hctl hc hl
    rw [hnone] at hc'
    cases hc'
  · cases c with
    | head | erase => cases hcc; exact ⟨_, rfl, rfl⟩
    | _ => cases hcc
  intro q d hqd
  cases hqd
  cases c with
  | head =>
    cases hcc
    exact ⟨Copied.header hctl hst rfl hlast, hlock⟩
  | erase =>
    cases hcc
    exact ⟨hst, hlock⟩
  | _ => cases hcc

theorem Coherent.move (h : Coherent s) (hctl : Control s) (hr : Refs s)
    (hc : s.commit = some (p, .install tail)) (hb : s.log.lh[tail]? = some b)
    (hj : s.has j p (s.log.start+tail+1)) (hk : s.has k p b) :
    Coherent { s.set k { s.buf k with data := (s.buf j).data, lock := .held p b true } with
      commit := some (p, .moved tail k) } := by
  have hst : Copied s s.log.lh.length := h.staged p _ hc
  have hdata : (s.buf j).data = s.last b := by
    rw [h.data_eq hr hj]
    exact hst tail b (hctl.room_lt hb).1 hb
  have hsame : update s.last (s.buf k).blockno (s.buf j).data = s.last := by
    rw [hdata, (hr.has_block hk).2, update_eq_self]
  refine h.put hr hk (show _ = (s.put k p b (s.buf j).data).buf from rfl) hsame.symm rfl ?_ (fun i q c _ hl => ?_)
    (Or.inr ⟨_, _, rfl, rfl⟩) ?_
  · rw [pending_some hc, pending_some rfl]
    rfl
  · obtain ⟨c', hc'⟩ := h.dirty_commit hctl hc hl
    cases hc'
  intro q c hqc
  cases hqc
  refine ⟨hst, b, hb, ?_⟩
  simp only [Sys.set, update_self]

theorem Stage.pending_afterWrite (h : c.afterWrite = some (k, c')) (lh : List ℕ) : c'.pending lh = c.pending lh := by
  cases c with
  | copied => cases h; rfl
  | headed => cases h; exact drop_zero
  | moved | erased => cases h; rfl
  | _ => cases h

theorem Coherent.write (h : Coherent s) (hctl : Control s) (hr : Refs s)
    (hc : s.commit = some (p, c)) (hcc : c.afterWrite = some (k, c')) (hk : s.has k p b) :
    Coherent { s.set k { s.buf k with lock := .held p b false } with
      disk := update s.disk (s.buf k).blockno (s.buf k).data
      commit := some (p, c') } := by
  obtain ⟨d, hl⟩ := id hk
  have hblk := hr.has_block hk
  have hdata := h.data_eq hr hk
  have honly {i : Slot} {q e : ℕ} (hli : (s.buf i).lock = .held q e true) : i = k := by
    obtain ⟨c₁, hc₁⟩ := h.dirty_commit hctl hc hli
    rw [hcc] at hc₁
    exact (Prod.mk.inj (Option.some.inj hc₁)).1.symm
  have hpend : Sys.pending { s.set k { s.buf k with lock := .held p b false } with
      disk := update s.disk (s.buf k).blockno (s.buf k).data
      commit := some (p, c') } = s.pending := by
    rw [pending_some hc, pending_some rfl]
    exact Stage.pending_afterWrite hcc _
  refine ⟨fun i => ?_, fun e he => ?_, fun e => ?_, fun q c₁ hqc => ?_⟩
  · have hi := h.good i
    by_cases hik : i = k
    · subst hik
      simp only [Sys.set, update_self]
      refine ⟨fun _ _ _ _ => hi.valid p b d hl, hi.data, ?_, by rintro _ _ ⟨⟩⟩
      refine hi.pins.trans ?_
      rw [← hpend]
      rfl
    · simp only [Sys.set, update_of_ne hik]
      refine ⟨hi.valid, hi.data, ?_, fun q e hli => absurd (honly hli) hik⟩
      refine hi.pins.trans ?_
      rw [← hpend]
      rfl
  · rw [hpend] at he
    obtain ⟨i, hi, hv⟩ := h.pinned e he
    refine ⟨i, ?_⟩
    by_cases hik : i = k
    · subst hik
      simp only [Sys.set, update_self]
      exact ⟨hi, hv⟩
    · simp only [Sys.set, update_of_ne hik]
      exact ⟨hi, hv⟩
  · rw [hpend]
    dsimp only
    rw [hblk.2, hdata]
    by_cases heb : e = b
    · rw [heb, update_self]
      exact Or.inl rfl
    rw [update_of_ne heb]
    rcases h.clean e with hcl | hcl | ⟨i, q, hli⟩
    · exact Or.inl hcl
    · exact Or.inr (Or.inl hcl)
    · rw [honly hli, hl] at hli
      exact absurd (Lock.held.inj hli).2.1.symm heb
  · cases hqc
    have hst := h.staged p c hc
    cases c with
    | copied =>
      cases hcc
      exact hst.1
    | headed =>
      cases hcc
      exact hst.1
    | moved =>
      cases hcc
      obtain ⟨hcop, e, he, hle⟩ := hst
      have heb : e = b := by
        rw [hl] at hle
        exact (Lock.held.inj hle).2.1.symm
      refine ⟨hcop, e, he, ?_, ?_⟩
      · simp only [Sys.set, update_self]
        exact heb ▸ hblk
      · dsimp only
        rw [hblk.2, heb, update_self, hdata]
        rfl
    | erased =>
      cases hcc
      exact hst.1
    | _ => cases hcc

theorem Coherent.unpin (h : Coherent s) (hctl : Control s) (hr : Refs s) (hc : s.commit = some (p, .written tail k))
    (hbuf : t.buf = update s.buf k (bunpin (s.buf k))) (hlog : t.log = s.log)
    (hsame : t.disk = s.disk ∧ t.last = s.last) (hcommit : t.commit = some (p, .install (tail+1))) :
    Coherent t := by
  obtain ⟨hcop, b, hb, hblk, hdisk⟩ := h.staged p _ hc
  have hpin := h.written_pin hc
  obtain ⟨hlt, -⟩ := hctl.room_lt hb
  have hsplit : s.log.lh.drop tail = b :: s.log.lh.drop (tail+1) := by
    rw [← (List.getElem?_eq_some_iff.mp hb).2]
    exact drop_eq_getElem_cons hlt
  have hold : s.pending = b :: s.log.lh.drop (tail+1) := (pending_some hc).trans hsplit
  have hnew : b ∉ s.log.lh.drop (tail+1) := by
    have hnd : (s.log.lh.drop tail).Nodup := hctl.nodup.sublist (drop_sublist ..)
    rw [hsplit] at hnd
    exact (nodup_cons.mp hnd).1
  have hpend : t.pending = s.log.lh.drop (tail+1) := by
    rw [pending_some hcommit, hlog]
    rfl
  have hclean {i : Slot} {q e : ℕ} (hli : (s.buf i).lock = .held q e true) : False := by
    obtain ⟨c', hc'⟩ := h.dirty_commit hctl hc hli
    cases hc'
  refine ⟨fun i => ?_, fun e he => ?_, fun e => ?_, fun q c hqc => ?_⟩
  · have hi := h.good i
    rw [hbuf]
    by_cases hik : i = k
    · subst hik
      rw [update_self]
      refine ⟨hi.valid, ?_, ?_, fun q e hli => (hclean hli).elim⟩
      · rw [hsame.2]
        exact hi.data
      · rw [hpend, if_neg (fun hh => hnew (hblk.2 ▸ hh.2))]
        simp only [bunpin, hpin]
    rw [update_of_ne hik]
    refine ⟨hi.valid, ?_, ?_, fun q e hli => (hclean hli).elim⟩
    · rw [hsame.2]
      exact hi.data
    rw [hpend, hi.pins, hold]
    congr 1
    apply propext
    refine and_congr_right (fun hdev => ?_)
    rw [mem_cons]
    refine ⟨fun hor => hor.resolve_left (fun heq => ?_), Or.inr⟩
    exact hik (hr.unique ⟨hdev, heq⟩ hblk)
  · rw [hpend] at he
    obtain ⟨i, hi, hv⟩ := h.pinned e (by rw [hold]; exact mem_cons_of_mem _ he)
    refine ⟨i, ?_⟩
    rw [hbuf]
    by_cases hik : i = k
    · subst hik
      rw [update_self]
      exact ⟨hi, hv⟩
    · rw [update_of_ne hik]
      exact ⟨hi, hv⟩
  · rw [hpend, hsame.1, hsame.2]
    rcases h.clean e with hcl | hcl | ⟨i, q, hli⟩
    · exact Or.inl hcl
    · rw [hold] at hcl
      rcases mem_cons.mp hcl with rfl | hcl
      · exact Or.inl hdisk
      · exact Or.inr (Or.inl hcl)
    · exact (hclean hli).elim
  · rw [hcommit] at hqc
    cases hqc
    unfold Staged
    rw [hlog]
    exact hcop.congr hlog hsame.2

theorem Passes.pending (h : Passes s p c c') : c'.pending s.log.lh = c.pending s.log.lh := by
  cases h with
  | some => rfl
  | none hnil => exact hnil.symm
  | copied => rfl
  | installed tail hle => exact (drop_eq_nil_of_le hle).symm

theorem Coherent.pass (h : Coherent s) (hctl : Control s) (hc : s.commit = some (p, c)) (hp : Passes s p c c') :
    Coherent { s with commit := some (p, c') } := by
  have hst := h.staged p c hc
  refine h.rest rfl rfl rfl ?_ (fun j q b hl => ?_) (fun q d hqd => ?_)
  · rw [pending_some hc, pending_some rfl]
    exact hp.pending
  · obtain ⟨c₁, hc₁⟩ := h.dirty_commit hctl hc hl
    cases hp <;> cases hc₁
  cases hqd
  cases hp with
  | some => exact fun i b hi => absurd hi (Nat.not_lt_zero i)
  | none hnil => exact hnil
  | copied tail hle => exact fun i b hi hb => hst i b (hi.trans_le hle) hb
  | installed => trivial

theorem Coherent.clear (h : Coherent s) (hctl : Control s) (hc : s.commit = some (p, .clear)) :
    Coherent { s with log := { s.log with lh := [] }, commit := some (p, .erase) } := by
  refine h.rest rfl rfl rfl ?_ (fun j q b hl => ?_) (fun q d hqd => ?_)
  · rw [pending_some hc, pending_some rfl]
    rfl
  · obtain ⟨c₁, hc₁⟩ := h.dirty_commit hctl hc hl
    cases hc₁
  · cases hqd
    rfl

theorem Coherent.finish (h : Coherent s) (hctl : Control s) (hc : s.commit = some (p, .finish)) :
    Coherent { s with log := { s.log with committing := false }, commit := none } := by
  have hnil : s.log.lh = [] := h.staged p _ hc
  refine h.rest rfl rfl rfl ?_ (fun j q b hl => ?_) nofun
  · rw [pending_some hc, pending_none rfl]
    exact hnil
  · obtain ⟨c₁, hc₁⟩ := h.dirty_commit hctl hc hl
    cases hc₁

theorem Coherent.ops (h : Coherent s) (hnone : s.commit = none) {l : Log} {ops : List ℕ}
    {commit : Option (ℕ × Stage)} (hl : l.lh = s.log.lh)
    (harea : ∀ b, logArea l b ↔ logArea s.log b) (hcommit : commit = none ∨ ∃ p, commit = some (p, .begin))
    (hops : ∀ j q b, (s.buf j).lock = .held q b true → q ∈ s.ops → q ∈ ops) :
    Coherent { s with log := l, ops := ops, commit := commit } := by
  refine h.rest rfl rfl rfl ?_ (fun j q b hlj => ?_) (fun q d hqd => ?_)
  · rw [pending_none hnone, ← hl]
    rcases hcommit with rfl | ⟨p, rfl⟩
    · rfl
    · rfl
  · rcases (h.good j).dirty q b hlj with ⟨hq, hb⟩ | ⟨c, c', hc, -⟩
    · exact Or.inl ⟨hops j q b hlj hq, fun hh => hb ((harea b).mp hh)⟩
    · rw [hnone] at hc
      cases hc
  rcases hcommit with rfl | ⟨p, rfl⟩
  · cases hqd
  · cases hqd
    trivial

theorem Lock.dirtyBy_held {p : ℕ} : (Lock.held p b true).dirtyBy p = true := by simp [Lock.dirtyBy]

theorem Effect.coherent {e : Event} (he : Effect s e t) (h : Coherent s) (hctl : Control s)
    (hr : Refs s) (hl : Listed s) (hd : disciplined s e = true) : Coherent t := by
  cases he with
  | hit => exact h.relock rfl ⟨rfl, rfl, rfl, rfl, rfl⟩ ⟨rfl, rfl, rfl, rfl, rfl⟩ (Or.inl rfl)
  | miss p b k hno h0 => exact h.miss hr hl hno h0
  | acquire p b k hfree =>
    refine h.relock rfl ⟨rfl, rfl, rfl, rfl, rfl⟩ ⟨rfl, rfl, rfl, rfl, rfl⟩ (Or.inr ⟨?_, by rintro _ _ _ ⟨⟩⟩)
    rw [hfree]
    rintro _ _ ⟨⟩
  | keep p b k hlk hv =>
    refine h.relock rfl ⟨rfl, rfl, rfl, rfl, rfl⟩ ⟨rfl, rfl, rfl, rfl, rfl⟩ (Or.inr ⟨?_, fun q c d hld => ?_⟩)
    · rw [hlk]
      rintro _ _ ⟨⟩
    · exact ⟨(Lock.held.inj hld).2.2.symm, hv⟩
  | fetch p b k hlk hv => exact h.fetch hr hlk hv
  | store p b k data hk =>
    obtain ⟨hp, harea⟩ := of_decide_eq_true hd
    rw [(hr.has_block hk).2] at harea
    have hnone := hctl.no_commit hp
    refine h.put hr hk rfl rfl rfl rfl (fun j q c _ hlj => (h.good j).dirty q c hlj)
      (Or.inl ⟨hp, harea⟩) (fun q c hqc => ?_)
    change s.commit = _ at hqc
    rw [hnone] at hqc
    cases hqc
  | absorb p b k hk hlh =>
    have hnone := hctl.no_commit (of_decide_eq_true hd).1
    have hblk := hr.has_block hk
    refine h.logged hr hnone hk rfl ⟨rfl, rfl, rfl⟩ rfl rfl ?_ (fun c => ?_) ⟨rfl, rfl⟩ rfl rfl rfl rfl
    · dsimp only
      rw [(h.good k).pins, if_pos]
      rw [pending_none hnone]
      exact ⟨hblk.1, hlh⟩
    · refine ⟨Or.inl, fun hor => hor.elim id (fun heq => ?_)⟩
      rw [heq, ← hblk.2]
      exact hlh
  | pin p b k hk hlh =>
    have hnone := hctl.no_commit (of_decide_eq_true hd).1
    have hblk := hr.has_block hk
    refine h.logged hr hnone hk rfl ⟨rfl, rfl, rfl⟩ rfl rfl ?_ (fun c => ?_) ⟨rfl, rfl⟩ rfl rfl rfl rfl
    · simp only [bpin]
      rw [(h.good k).pins, if_neg]
      rw [pending_none hnone]
      exact fun hh => hlh hh.2
    · rw [mem_append, mem_singleton, hblk.2]
  | release p b k hk =>
    obtain ⟨d, hlk⟩ := id hk
    have hclean : d = false := by
      have hd' : (!(s.buf k).lock.dirtyBy p) = true := hd
      rw [hlk] at hd'
      simpa [Lock.dirtyBy] using hd'
    refine h.relock rfl ⟨rfl, rfl, rfl, rfl, rfl⟩ ⟨rfl, rfl, rfl, rfl, rfl⟩ (Or.inr ⟨?_, by rintro _ _ _ ⟨⟩⟩)
    rw [hlk, hclean]
    rintro _ _ ⟨⟩
  | drop => exact h.relock rfl ⟨rfl, rfl, rfl, rfl, rfl⟩ ⟨rfl, rfl, rfl, rfl, rfl⟩ (Or.inl rfl)
  | beginOp p hc =>
    have hnone := hctl.idle hc
    exact h.ops hnone rfl (fun _ => Iff.rfl) (Or.inl hnone) (fun _ _ _ _ hq => mem_cons_of_mem _ hq)
  | endOp p h0 hc =>
    have hnone := hctl.idle hc
    refine h.ops hnone rfl (fun _ => Iff.rfl) (Or.inl hnone) (fun j q b hlj hq => ?_)
    refine (mem_erase_of_ne (fun hqp => ?_)).mpr hq
    have hdirty := (of_decide_eq_true hd).2 j
    rw [hlj, hqp, Lock.dirtyBy_held] at hdirty
    cases hdirty
  | commit p h0 hc =>
    have hnone := hctl.idle hc
    refine h.ops hnone rfl (fun _ => Iff.rfl) (Or.inr ⟨p, rfl⟩) (fun j q b hlj hq => ?_)
    refine (mem_erase_of_ne (fun hqp => ?_)).mpr hq
    have hdirty := (of_decide_eq_true hd).2 j
    rw [hlj, hqp, Lock.dirtyBy_held] at hdirty
    cases hdirty
  | copy p tail b k j hc hb hk hj => exact h.copy hctl hr hc hb hk hj
  | move p tail b k j hc hb hj hk => exact h.move hctl hr hc hb hj hk
  | header p k c c' hc hcc hk => exact h.header hctl hr hc hcc hk
  | write p b k c c' hc hcc hk => exact h.write hctl hr hc hcc hk
  | pass p c c' hc hp => exact h.pass hctl hc hp
  | unpin p tail k hc => exact h.unpin hctl hr hc rfl rfl ⟨rfl, rfl⟩ rfl
  | clear p hc => exact h.clear hctl hc
  | finish p hc => exact h.finish hctl hc

/-! The buffer cache and the log as one store of blocks. -/

variable {start size : ℕ} {disk : ℕ → Block}

structure Inv (s : Sys) : Prop where
  listed : Listed s
  refs : Refs s
  control : Control s
  coherent : Coherent s

theorem inv_init (start size : ℕ) (disk : ℕ → Block) : Inv (init start size disk) := by
  refine ⟨binit_listed, ⟨fun k => ⟨rfl, nofun, nofun⟩, fun _ _ h => absurd rfl h⟩,
    ⟨rfl, rfl, nofun, List.nodup_nil, nofun, Or.inl rfl⟩,
    ⟨fun k => ⟨nofun, nofun, ?_, nofun⟩, nofun, fun _ => Or.inl rfl, nofun⟩⟩
  exact (if_neg (fun h => absurd h.1 Nat.zero_ne_one)).symm

variable {e : Event}

theorem Effect.inv (he : Effect s e t) (h : Inv s) (hd : disciplined s e = true) : Inv t := by
  refine ⟨he.listed h.listed, he.refs h.listed h.refs (fun p tail k hc => ?_),
    he.control h.control hd, he.coherent h.coherent h.control h.refs h.listed hd⟩
  rw [h.coherent.written_pin hc]
  exact Nat.one_pos

theorem reach_inv (h : Reach step (fun s e => disciplined s e = true) (init start size disk) t) : Inv t :=
  h.invariant (inv_init start size disk) (fun _ _ _ hinv hd hs => (step_effect hs).inv hinv hd)

theorem Effect.block (h : Effect s e t) (hpos : 0 < (s.buf k).refcnt) :
    (t.buf k).dev = (s.buf k).dev ∧ (t.buf k).blockno = (s.buf k).blockno := by
  have hset {j : Slot} {x : Buf} (hx : x.dev = (s.buf j).dev ∧ x.blockno = (s.buf j).blockno) :
      (update s.buf j x k).dev = (s.buf k).dev ∧ (update s.buf j x k).blockno = (s.buf k).blockno := by
    by_cases hkj : k = j
    · subst hkj
      rwa [update_self]
    · rw [update_of_ne hkj]
      exact ⟨rfl, rfl⟩
  cases h with
  | miss p b j =>
    have hkj : k ≠ j := by
      rintro rfl
      omega
    simp only [Sys.set, update_of_ne hkj, and_self]
  | beginOp | endOp | commit | pass | clear | finish => exact ⟨rfl, rfl⟩
  | _ => exact hset ⟨rfl, rfl⟩

theorem Effect.stored (h : Effect s e t) (hinv : Inv s) {b : ℕ} (hb : b ≠ s.log.start)
    (harea : ¬ logArea s.log b) (hne : t.last b ≠ s.last b) :
    ∃ p k data, e = .store p k data ∧ (s.buf k).blockno = b ∧ t.last b = data := by
  have hput {k : Slot} {data : Block} (h : update s.last (s.buf k).blockno data b ≠ s.last b) :
      (s.buf k).blockno = b ∧ update s.last (s.buf k).blockno data b = data := by
    by_cases heq : b = (s.buf k).blockno
    · rw [← heq, update_self]
      exact ⟨rfl, rfl⟩
    · rw [update_of_ne heq] at h
      exact absurd rfl h
  cases h with
  | store p c k data =>
    obtain ⟨hkb, hdata⟩ := hput hne
    exact ⟨p, k, data, rfl, hkb, hdata⟩
  | copy p tail c k j hc hlh hk =>
    obtain ⟨hkb, -⟩ := hput hne
    rw [(hinv.refs.has_block hk).2] at hkb
    obtain ⟨hlt, hsize⟩ := hinv.control.room_lt hlh
    exact absurd ⟨by omega, by omega⟩ harea
  | header p k c c' hc hcc hk =>
    obtain ⟨hkb, -⟩ := hput hne
    rw [(hinv.refs.has_block hk).2] at hkb
    exact absurd hkb.symm hb
  | _ => exact absurd rfl hne

/-- The cache in every state that disciplined callers and their commits reach from binit. A buffer
that bread has returned holds the contents last stored into the block that was asked for. -/
theorem buffer_cache_coherent (h : Reach step (fun s e => disciplined s e = true) (init start size disk) t) :
    (∀ j k, (t.buf j).dev ≠ 0 → (t.buf j).dev = (t.buf k).dev → (t.buf j).blockno = (t.buf k).blockno → j = k) ∧
    (∀ e u k, step t e = some u → 0 < (t.buf k).refcnt →
      (u.buf k).dev = (t.buf k).dev ∧ (u.buf k).blockno = (t.buf k).blockno) ∧
    (∀ b ∈ t.pending, ∃ k, ((t.buf k).dev = rootdev ∧ (t.buf k).blockno = b) ∧
      (t.buf k).valid = true ∧ (t.buf k).pins = 1) ∧
    (∀ k, (t.buf k).refcnt = (t.buf k).waiting.length+(t.buf k).lock.count+(t.buf k).leaving+ (t.buf k).pins ∧
      (t.buf k).pins = if (t.buf k).dev = rootdev ∧ (t.buf k).blockno ∈ t.pending then 1 else 0) ∧
    Listed t ∧
    (∀ k p b dirty, (t.buf k).lock = .held p b dirty → (t.buf k).valid = true ∧
      ((t.buf k).dev = rootdev ∧ (t.buf k).blockno = b) ∧ (t.buf k).data = t.last b) ∧
    ∀ e u b, step t e = some u → b ≠ t.log.start → ¬ logArea t.log b → u.last b ≠ t.last b →
      ∃ p k data, e = .store p k data ∧ (t.buf k).blockno = b ∧ u.last b = data := by
  have hinv := reach_inv h
  refine ⟨hinv.refs.once, fun e u k hs hpos => (step_effect hs).block hpos, fun b hb => ?_,
    fun k => ⟨(hinv.refs.ok k).ref, (hinv.coherent.good k).pins⟩, hinv.listed,
    fun k p b dirty hl => ?_, fun e u b hs hb harea hne => (step_effect hs).stored hinv hb harea hne⟩
  · obtain ⟨k, hk, hv⟩ := hinv.coherent.pinned b hb
    refine ⟨k, hk, hv, ?_⟩
    rw [(hinv.coherent.good k).pins, if_pos ⟨hk.1, hk.2 ▸ hb⟩]
  · exact ⟨(hinv.coherent.good k).valid p b dirty hl, hinv.refs.has_block ⟨dirty, hl⟩,
      hinv.coherent.data_eq hinv.refs ⟨dirty, hl⟩⟩

/-- Process 7 has modified block 40 in an operation, and waits for it again. -/
theorem buffer_cache_coherent_block : ∃ t, Reach step (fun s e => disciplined s e = true) (init 2 10 (fun _ _ => 0)) t ∧
    t.log.lh = [40] ∧ (∃ k, (t.buf k).blockno = 40 ∧ (t.buf k).pins = 1) ∧
    (t.buf 0).data 0 = 1 := by
  have hany : (run (fun s e => if disciplined s e = true then step s e else none)
      (init 2 10 (fun _ _ => 0)) [.beginOp 7, .bget 7 40, .acquire 7 0, .fill 7 0,
        .store 7 0 (fun _ => 1), .logWrite 7 0, .release 7 0, .drop 0, .bget 7 40]).any
      (fun t => decide (t.log.lh = [40] ∧ t.pending = [40] ∧ (t.buf 0).data 0 = 1)) = true := by
    decide +kernel
  obtain ⟨t, ht, hall⟩ := (Option.any_eq_true _ _).mp hany
  obtain ⟨hlh, hpend, hdata⟩ := of_decide_eq_true hall
  have hreach := Reach.of_run ht
  obtain ⟨k, hk, -, hpin⟩ := (buffer_cache_coherent hreach).2.2.1 40 (by rw [hpend]; simp)
  exact ⟨t, hreach, hlh, ⟨k, hk.2, hpin⟩, hdata⟩

end Xv6.Bcache
