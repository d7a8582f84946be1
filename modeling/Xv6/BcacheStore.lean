import Xv6.BcacheRefs

/-! One step of the callers or of commit keeps the buffers coherent. -/
namespace Xv6.Bcache

open Function List
open Logging (Block Log)

variable {s t : Sys} {k : Slot} {p : ℕ}

theorem Control.stage (h : Control s) {c c' : Stage} (hc : s.commit = some (p, c))
    (hlog : t.log = s.log) (hops : t.ops = s.ops) (hcommit : t.commit = some (p, c')) :
    Control t := by
  have halone := h.alone (by rw [hc]; rfl)
  have hcommitting := h.committing
  rw [hc] at hcommitting
  refine ⟨?_, ?_, fun _ => by rw [hops, halone], ?_, ?_, ?_⟩ <;> rw [hlog]
  · rw [hops, h.outstanding]
  · rw [hcommit, hcommitting]
    rfl
  · exact h.nodup
  · exact h.home
  · exact h.room

theorem Control.no_commit (h : Control s) (hp : p ∈ s.ops) : s.commit = none := by
  by_contra hc
  rw [h.alone (Option.isSome_iff_ne_none.mpr hc)] at hp
  exact not_mem_nil hp

theorem Control.idle (h : Control s) (hc : s.log.committing = false) : s.commit = none := by
  rw [h.committing] at hc
  exact Option.isSome_eq_false_iff.mp hc |> Option.isNone_iff_eq_none.mp

theorem Control.same (h : Control s) (hlog : t.log = s.log) (hops : t.ops = s.ops)
    (hcommit : t.commit = s.commit) : Control t := by
  refine ⟨?_, ?_, by rw [hops, hcommit]; exact h.alone, ?_, ?_, ?_⟩ <;> rw [hlog]
  · rw [hops, h.outstanding]
  · rw [hcommit, h.committing]
  · exact h.nodup
  · exact h.home
  · exact h.room

variable {b : ℕ}

theorem Control.pin (h : Control s) (hb : b ∉ s.log.lh) (hhome : ¬ logArea s.log b)
    (hroom : s.log.lh.length+1 < s.log.size)
    (hlog : t.log = { s.log with lh := s.log.lh ++ [b] }) (hops : t.ops = s.ops)
    (hcommit : t.commit = s.commit) : Control t := by
  refine ⟨?_, ?_, ?_, ?_, ?_, ?_⟩
  · rw [hlog, hops]
    exact h.outstanding
  · rw [hlog, hcommit]
    exact h.committing
  · rw [hcommit, hops]
    exact h.alone
  · rw [hlog]
    exact h.nodup.append (nodup_singleton b) (by simpa using hb)
  · rw [hlog]
    intro c hc
    rcases mem_append.mp hc with hc | hc
    · exact h.home c hc
    · rw [mem_singleton.mp hc]
      exact hhome
  · rw [hlog]
    right
    simpa using hroom

theorem Effect.control {e : Event} (h : Effect s e t) (hc : Control s) (hd : disciplined s e = true) : Control t := by
  cases h with
  | pin p b k hl hlh hroom => exact hc.pin hlh (of_decide_eq_true hd).2 hroom rfl rfl rfl
  | beginOp p hcom =>
    refine ⟨?_, hc.committing, fun h => ?_, hc.nodup, hc.home, hc.room⟩
    · have hout := hc.outstanding
      simp only [length_cons, Nat.cast_add, Nat.cast_one]
      omega
    · change s.commit.isSome = true at h
      rw [hc.idle hcom] at h
      cases h
  | endOp p h0 hcom =>
    have hp := (of_decide_eq_true hd).1
    refine ⟨?_, hc.committing, fun h => ?_, hc.nodup, hc.home, hc.room⟩
    · have hout := hc.outstanding
      have hlen := length_erase_of_mem hp
      have hpos := length_pos_of_mem hp
      dsimp only
      omega
    · change s.commit.isSome = true at h
      rw [hc.idle hcom] at h
      cases h
  | commit p =>
    have hp := (of_decide_eq_true hd).1
    have hout := hc.outstanding
    have hlen := length_erase_of_mem hp
    have hpos := length_pos_of_mem hp
    have hnil : s.ops.erase p = [] := length_eq_zero_iff.mp (by omega)
    refine ⟨?_, rfl, fun _ => hnil, hc.nodup, hc.home, hc.room⟩
    dsimp only
    omega
  | copy p tail b k j hcom => exact hc.stage hcom rfl rfl rfl
  | move p tail b k j hcom => exact hc.stage hcom rfl rfl rfl
  | header p k c c' hcom => exact hc.stage hcom rfl rfl rfl
  | write p b k c c' hcom => exact hc.stage hcom rfl rfl rfl
  | pass p c c' hcom => exact hc.stage hcom rfl rfl rfl
  | unpin p tail k hcom => exact hc.stage hcom rfl rfl rfl
  | clear p hcom =>
    have hst := hc.stage (t := { s with commit := some (p, .erase) }) hcom rfl rfl rfl
    exact ⟨hst.outstanding, hst.committing, hst.alone, nodup_nil, fun _ hb => absurd hb not_mem_nil, Or.inl rfl⟩
  | finish => exact ⟨hc.outstanding, rfl, nofun, hc.nodup, hc.home, hc.room⟩
  | _ => exact hc.same rfl rfl rfl

section
variable (h : Coherent s)
include h

/-- Only the buffer that commit is about to write is being modified while it runs. -/
theorem Coherent.dirty_commit (hctl : Control s) {c : Stage}
    (hc : s.commit = some (p, c)) {j : Slot} {q : ℕ} (hl : (s.buf j).lock = .held q b true) :
    ∃ c', c.afterWrite = some (j, c') := by
  rcases (h.good j).dirty q b hl with ⟨hq, -⟩ | ⟨d, c', hd, hw⟩
  · rw [hctl.no_commit hq] at hc
    cases hc
  · rw [hc] at hd
    cases hd
    exact ⟨c', hw⟩

theorem Coherent.rest (hbuf : t.buf = s.buf) (hdisk : t.disk = s.disk)
    (hlast : t.last = s.last) (hpend : t.pending = s.pending)
    (hdirty : ∀ j q b, (s.buf j).lock = .held q b true → MayDirty t j q b)
    (hstaged : ∀ p c, t.commit = some (p, c) → Staged t p c) : Coherent t := by
  refine ⟨fun k => ?_, fun b hb => ?_, fun b => ?_, hstaged⟩
  · have hk := h.good k
    rw [hbuf]
    refine ⟨hk.valid, ?_, ?_, hdirty k⟩
    · rw [hlast]
      exact hk.data
    · rw [hpend]
      exact hk.pins
  · rw [hpend] at hb
    rw [hbuf]
    exact h.pinned b hb
  · rw [hdisk, hlast, hpend, hbuf]
    exact h.clean b

theorem Coherent.put (hr : Refs s) (hk : s.has k p b) {data : Block}
    (hbuf : t.buf = (s.put k p b data).buf) (hlast : t.last = (s.put k p b data).last)
    (hdisk : t.disk = s.disk) (hpend : t.pending = s.pending)
    (hdirty : ∀ j q c, j ≠ k → (s.buf j).lock = .held q c true → MayDirty t j q c)
    (hself : MayDirty t k p b) (hstaged : ∀ p c, t.commit = some (p, c) → Staged t p c) :
    Coherent t := by
  obtain ⟨d, hl⟩ := id hk
  have hblk := hr.has_block hk
  have hnew : t.buf = update s.buf k { s.buf k with data := data, lock := .held p b true } := hbuf
  have hlast' : t.last = update s.last (s.buf k).blockno data := hlast
  refine ⟨fun j => ?_, fun c hc => ?_, fun c => ?_, hstaged⟩
  · have hj := h.good j
    rw [hnew]
    by_cases hjk : j = k
    · subst hjk
      rw [update_self]
      refine ⟨fun _ _ _ _ => hj.valid p b d hl, fun _ _ => ?_, ?_, fun q c hc => ?_⟩
      · rw [hlast', update_self]
      · rw [hpend]
        exact hj.pins
      · obtain ⟨rfl, rfl, -⟩ := Lock.held.inj hc
        exact hself
    · rw [update_of_ne hjk]
      refine ⟨hj.valid, fun hv hdev => ?_, ?_, fun q c => hdirty j q c hjk⟩
      · have hne : (s.buf j).blockno ≠ (s.buf k).blockno := fun heq => hjk (hr.unique ⟨hdev, heq.trans hblk.2⟩ hblk)
        rw [hlast', update_of_ne hne]
        exact hj.data hv hdev
      · rw [hpend]
        exact hj.pins
  · rw [hpend] at hc
    obtain ⟨j, hj, hv⟩ := h.pinned c hc
    refine ⟨j, ?_⟩
    rw [hnew]
    by_cases hjk : j = k
    · subst hjk
      rw [update_self]
      exact ⟨hj, hv⟩
    · rw [update_of_ne hjk]
      exact ⟨hj, hv⟩
  · rw [hdisk, hlast', hpend, hnew]
    by_cases hcb : c = b
    · subst hcb
      exact Or.inr (Or.inr ⟨k, p, by rw [update_self]⟩)
    rw [hblk.2, update_of_ne hcb]
    refine (h.clean c).imp id (Or.imp id (fun ⟨j, q, hlj⟩ => ⟨j, q, ?_⟩))
    have hjk : j ≠ k := by
      rintro rfl
      rw [hl] at hlj
      exact hcb (Lock.held.inj hlj).2.1.symm
    rw [update_of_ne hjk]
    exact hlj

theorem Coherent.miss (hr : Refs s) (hl : Listed s)
    (hno : ∀ j ∈ s.forward, ¬((s.buf j).dev = rootdev ∧ (s.buf j).blockno = b))
    (h0 : (s.buf k).refcnt = 0) :
    Coherent (s.set k { s.buf k with
      dev := rootdev, blockno := b, valid := false, refcnt := 1,
      waiting := (s.buf k).waiting ++ [(p, b)] }) := by
  obtain ⟨-, hfree, -, hpins⟩ := (hr.ok k).unused h0
  have hnew : b ∉ s.pending := by
    intro hb
    obtain ⟨j, hj, -⟩ := h.pinned b hb
    exact hno j (hl.mem_forward j) hj
  refine h.set rfl ⟨rfl, rfl, rfl, rfl, rfl⟩ ⟨fun q c d hl' => ?_, nofun, ?_, fun q c hl' => ?_⟩
    (fun q c hl' => ?_) (fun c hc hkc _ => ?_) (fun h1 => ?_)
  · rw [hfree] at hl'
    cases hl'
  · rw [hpins, if_neg (fun hh => hnew hh.2)]
  · rw [hfree] at hl'
    cases hl'
  · rw [hfree] at hl'
    cases hl'
  · -- the old block was not to be installed
    have hp := (h.good k).pins
    rw [hpins, if_pos ⟨hkc.1, hkc.2 ▸ hc⟩] at hp
    cases hp
  · rw [hpins] at h1
    cases h1

theorem Coherent.fetch (hr : Refs s) (hl : (s.buf k).lock = .reading p b) (hv : (s.buf k).valid = false) :
    Coherent (s.set k { s.buf k with
      data := s.disk (s.buf k).blockno, valid := true, lock := .held p b false }) := by
  have hblk := (hr.ok k).asked b (by rw [hl]; rfl)
  have hdisk : s.disk b = s.last b := by
    rcases h.clean b with hd | hb | ⟨j, q, hlj⟩
    · exact hd
    · obtain ⟨j, hj, hvj⟩ := h.pinned b hb
      rw [hr.unique hj hblk, hv] at hvj
      cases hvj
    · have hj := (hr.ok j).asked b (by rw [hlj]; rfl)
      rw [hr.unique hj hblk, hl] at hlj
      cases hlj
  refine h.set rfl ⟨rfl, rfl, rfl, rfl, rfl⟩ ⟨fun _ _ _ _ => rfl, fun _ _ => ?_, (h.good k).pins,
    nofun⟩ (fun q c hl' => ?_) (fun c hc hkc hvk => ?_) (fun _ => ⟨rfl, rfl⟩)
  · rw [hblk.2]
    exact hdisk
  · rw [hl] at hl'
    cases hl'
  · rw [hv] at hvk
    cases hvk

theorem Coherent.relock {x : Buf} (hbuf : t.buf = update s.buf k x)
    (hrest : SameRest s t) (hx : x.dev = (s.buf k).dev ∧ x.blockno = (s.buf k).blockno ∧
      x.valid = (s.buf k).valid ∧ x.data = (s.buf k).data ∧ x.pins = (s.buf k).pins)
    (hlock : x.lock = (s.buf k).lock ∨ (∀ p b, (s.buf k).lock ≠ .held p b true) ∧
      ∀ p b d, x.lock = .held p b d → d = false ∧ x.valid = true) : Coherent t := by
  obtain ⟨hdev, hblk, hvalid, hdata, hpins⟩ := hx
  have hk := h.good k
  refine h.set hbuf hrest ⟨fun q c d hl => ?_, ?_, ?_, fun q c hl => ?_⟩ (fun q c hl => ?_)
    (fun c _ hkc hv => ?_) (fun _ => ⟨hdev, hblk⟩)
  · rcases hlock with heq | ⟨-, hnew⟩
    · rw [hvalid]
      exact hk.valid q c d (heq ▸ hl)
    · exact (hnew q c d hl).2
  · rw [hvalid, hdev, hdata, hblk]
    exact hk.data
  · rw [hpins, hdev, hblk]
    exact hk.pins
  · rcases hlock with heq | ⟨-, hnew⟩
    · exact hk.dirty q c (heq ▸ hl)
    · cases (hnew q c true hl).1
  · rcases hlock with heq | ⟨hold, -⟩
    · exact heq.trans hl
    · exact absurd hl (hold q c)
  · rw [hdev, hblk, hvalid]
    exact ⟨hkc, hv⟩

theorem Coherent.logged (hr : Refs s) (hc : s.commit = none)
    (hk : s.has k p b) {x : Buf} (hbuf : t.buf = update s.buf k x)
    (hx : x.dev = (s.buf k).dev ∧ x.blockno = (s.buf k).blockno ∧ x.data = (s.buf k).data)
    (hlock : x.lock = .held p b false) (hvalid : x.valid = (s.buf k).valid) (hpins : x.pins = 1)
    (hlh : ∀ c, c ∈ t.log.lh ↔ c ∈ s.log.lh ∨ c = b)
    (harea : t.log.start = s.log.start ∧ t.log.size = s.log.size) (hops : t.ops = s.ops)
    (hcommit : t.commit = s.commit) (hdisk : t.disk = s.disk) (hlast : t.last = s.last) :
    Coherent t := by
  obtain ⟨d, hl⟩ := id hk
  have hblk := hr.has_block hk
  have hv := (h.good k).valid p b d hl
  have hpend (c : ℕ) : c ∈ t.pending ↔ c ∈ s.pending ∨ c = b := by
    rw [pending_none (hcommit.trans hc), pending_none hc]
    exact hlh c
  have hmay {j : Slot} {q c : ℕ} (hm : MayDirty s j q c) : MayDirty t j q c := by
    unfold MayDirty logArea at hm ⊢
    rw [hops, hcommit, harea.1, harea.2]
    exact hm
  refine ⟨fun j => ?_, fun c hcp => ?_, fun c => ?_, fun q c hqc => ?_⟩
  · rw [hbuf]
    by_cases hjk : j = k
    · subst hjk
      rw [update_self]
      refine ⟨fun _ _ _ _ => hvalid.trans hv, fun _ hdev => ?_, ?_, fun q c hl' => ?_⟩
      · rw [hlast, hx.2.1, hx.2.2]
        exact (h.good j).data hv (hx.1 ▸ hdev)
      · rw [hpins, if_pos]
        rw [hx.1, hx.2.1, hblk.2]
        exact ⟨hblk.1, (hpend b).mpr (Or.inr rfl)⟩
      · rw [hlock] at hl'
        cases hl'
    · rw [update_of_ne hjk]
      have hj := h.good j
      refine ⟨hj.valid, ?_, ?_, fun q c hlj => hmay (hj.dirty q c hlj)⟩
      · rw [hlast]
        exact hj.data
      rw [hj.pins]
      congr 1
      apply propext
      refine and_congr_right (fun hdev => ?_)
      rw [hpend]
      refine ⟨Or.inl, fun hor => hor.resolve_right (fun heq => ?_)⟩
      exact hjk (hr.unique ⟨hdev, heq⟩ hblk)
  · rw [hbuf]
    rcases (hpend c).mp hcp with hcp | rfl
    · obtain ⟨j, hj, hvj⟩ := h.pinned c hcp
      refine ⟨j, ?_⟩
      by_cases hjk : j = k
      · subst hjk
        rw [update_self, hx.1, hx.2.1, hvalid]
        exact ⟨hj, hvj⟩
      · rw [update_of_ne hjk]
        exact ⟨hj, hvj⟩
    · refine ⟨k, ?_⟩
      rw [update_self, hx.1, hx.2.1, hvalid]
      exact ⟨hblk, hv⟩
  · rw [hdisk, hlast, hpend, hbuf]
    rcases h.clean c with hcl | hcl | ⟨j, q, hlj⟩
    · exact Or.inl hcl
    · exact Or.inr (Or.inl (Or.inl hcl))
    by_cases hjk : j = k
    · subst hjk
      rw [hl] at hlj
      exact Or.inr (Or.inl (Or.inr (Lock.held.inj hlj).2.1.symm))
    · exact Or.inr (Or.inr ⟨j, q, by rw [update_of_ne hjk]; exact hlj⟩)
  · rw [hcommit, hc] at hqc
    cases hqc

end

end Xv6.Bcache
