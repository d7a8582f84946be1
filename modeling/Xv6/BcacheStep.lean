import Xv6.BcacheModel

/-! What one step of the buffer cache and the log can do. -/
namespace Xv6.Bcache
open Logging (Block Log)

inductive Passes (s : Sys) (p : ℕ) : Stage → Stage → Prop
  | some (h : 0 < s.log.lh.length) : Passes s p .begin (.copy 0)
  | none (h : s.log.lh = []) : Passes s p .begin .finish
  | copied (tail : ℕ) (h : s.log.lh.length ≤ tail) : Passes s p (.copy tail) .head
  | installed (tail : ℕ) (h : s.log.lh.length ≤ tail) : Passes s p (.install tail) .clear

/-- The effects of a step, one constructor for each way through the code that differs in what it
writes. -/
inductive Effect (s : Sys) : Event → Sys → Prop
  | hit (p b : ℕ) (k : Slot) (hk : (s.buf k).dev = rootdev ∧ (s.buf k).blockno = b) :
      Effect s (.bget p b) (s.set k { s.buf k with
        refcnt := (s.buf k).refcnt+1, waiting := (s.buf k).waiting ++ [(p, b)] })
  | miss (p b : ℕ) (k : Slot)
      (hno : ∀ j ∈ s.forward, ¬((s.buf j).dev = rootdev ∧ (s.buf j).blockno = b))
      (h0 : (s.buf k).refcnt = 0) :
      Effect s (.bget p b) (s.set k { s.buf k with
        dev := rootdev, blockno := b, valid := false, refcnt := 1,
        waiting := (s.buf k).waiting ++ [(p, b)] })
  | acquire (p b : ℕ) (k : Slot) (hfree : (s.buf k).lock = .free)
      (hw : (p, b) ∈ (s.buf k).waiting) :
      Effect s (.acquire p k) (s.set k { s.buf k with
        lock := .reading p b, waiting := (s.buf k).waiting.erase (p, b) })
  | keep (p b : ℕ) (k : Slot) (hl : (s.buf k).lock = .reading p b) (hv : (s.buf k).valid = true) :
      Effect s (.fill p k) (s.set k { s.buf k with lock := .held p b false })
  | fetch (p b : ℕ) (k : Slot) (hl : (s.buf k).lock = .reading p b)
      (hv : (s.buf k).valid = false) :
      Effect s (.fill p k) (s.set k { s.buf k with
        data := s.disk (s.buf k).blockno, valid := true, lock := .held p b false })
  | store (p b : ℕ) (k : Slot) (data : Block) (hl : s.has k p b) :
      Effect s (.store p k data) (s.put k p b data)
  | absorb (p b : ℕ) (k : Slot) (hl : s.has k p b) (hlh : (s.buf k).blockno ∈ s.log.lh) :
      Effect s (.logWrite p k) (s.set k { s.buf k with lock := .held p b false })
  | pin (p b : ℕ) (k : Slot) (hl : s.has k p b) (hlh : (s.buf k).blockno ∉ s.log.lh)
      (hroom : s.log.lh.length+1 < s.log.size) :
      Effect s (.logWrite p k) { s.set k { bpin (s.buf k) with lock := .held p b false } with
        log := { s.log with lh := s.log.lh ++ [(s.buf k).blockno] } }
  | release (p b : ℕ) (k : Slot) (hl : s.has k p b) :
      Effect s (.release p k) (s.set k { s.buf k with
        lock := .free, leaving := (s.buf k).leaving+1 })
  | drop (k : Slot) (h : 0 < (s.buf k).leaving) (links : Circular.Links (Option Slot))
      (hlinks : links = s.links ∨ links = (s.links.unlink (some k)).pushFront none (some k)) :
      Effect s (.drop k) { s.set k (s.buf k).leave with links := links }
  | beginOp (p : ℕ) (hc : s.log.committing = false) :
      Effect s (.beginOp p) { s with
        log := { s.log with outstanding := s.log.outstanding+1 }, ops := p :: s.ops }
  | endOp (p : ℕ) (h : s.log.outstanding-1 ≠ 0) (hc : s.log.committing = false) :
      Effect s (.endOp p) { s with
        log := { s.log with outstanding := s.log.outstanding-1 }, ops := s.ops.erase p }
  | commit (p : ℕ) (h : s.log.outstanding-1 = 0) (hc : s.log.committing = false) :
      Effect s (.endOp p) { s with
        log := { s.log with outstanding := s.log.outstanding-1, committing := true }
        ops := s.ops.erase p
        commit := some (p, .begin) }
  | copy (p tail b : ℕ) (k j : Slot) (hc : s.commit = some (p, .copy tail))
      (hb : s.log.lh[tail]? = some b) (hk : s.has k p (s.log.start+tail+1)) (hj : s.has j p b) :
      Effect s (.memmove k j) { s.put k p (s.log.start+tail+1) (s.buf j).data with
        commit := some (p, .copied tail k) }
  | move (p tail b : ℕ) (k j : Slot) (hc : s.commit = some (p, .install tail))
      (hb : s.log.lh[tail]? = some b) (hj : s.has j p (s.log.start+tail+1)) (hk : s.has k p b) :
      Effect s (.memmove k j) { s.set k { s.buf k with
          data := (s.buf j).data, lock := .held p b true } with
        commit := some (p, .moved tail k) }
  | header (p : ℕ) (k : Slot) (c c' : Stage) (hc : s.commit = some (p, c))
      (hcc : c.afterHeader k = some c') (hk : s.has k p s.log.start) :
      Effect s (.header k) { s.put k p s.log.start (Logging.fillHead (s.buf k).data s.log.lh) with
        commit := some (p, c') }
  | write (p b : ℕ) (k : Slot) (c c' : Stage) (hc : s.commit = some (p, c))
      (hcc : c.afterWrite = some (k, c')) (hk : s.has k p b) :
      Effect s .bwrite { s.set k { s.buf k with lock := .held p b false } with
        disk := Function.update s.disk (s.buf k).blockno (s.buf k).data
        commit := some (p, c') }
  | pass (p : ℕ) (c c' : Stage) (hc : s.commit = some (p, c)) (h : Passes s p c c') :
      Effect s .turn { s with commit := some (p, c') }
  | unpin (p tail : ℕ) (k : Slot) (hc : s.commit = some (p, .written tail k)) :
      Effect s .turn { s.set k (bunpin (s.buf k)) with
        commit := some (p, .install (tail+1)) }
  | clear (p : ℕ) (hc : s.commit = some (p, .clear)) :
      Effect s .turn { s with log := { s.log with lh := [] }, commit := some (p, .erase) }
  | finish (p : ℕ) (hc : s.commit = some (p, .finish)) :
      Effect s .turn { s with log := { s.log with committing := false }, commit := none }

variable {s t : Sys} {p : ℕ} {k j : Slot}

theorem bget_effect {b : ℕ} (h : bget s p b = some t) : Effect s (.bget p b) t := by
  unfold bget at h
  split at h
  · rename_i k hf
    have hk := List.find?_some hf
    cases h
    exact .hit p b k (of_decide_eq_true hk)
  rename_i hf
  split at h
  · rename_i k he
    have h0 := List.find?_some he
    cases h
    refine .miss p b k (fun j hj hc => ?_) (of_decide_eq_true h0)
    exact List.find?_eq_none.mp hf j hj (decide_eq_true hc)
  · cases h

theorem acquire_effect (h : acquire s p k = some t) : Effect s (.acquire p k) t := by
  unfold acquire at h
  split at h
  · rename_i q b hl hw
    have hq : q = p := by simpa using List.find?_some hw
    cases h
    exact .acquire p b k hl (hq ▸ List.mem_of_find?_eq_some hw)
  · cases h

theorem fill_effect (h : fill s p k = some t) : Effect s (.fill p k) t := by
  unfold fill at h
  split at h
  · rename_i q b hl
    split_ifs at h with hq hv
    · cases h
      rw [← not_not.mp hq] at hl
      exact .keep p b k hl hv
    · cases h
      rw [← not_not.mp hq] at hl
      exact .fetch p b k hl (Bool.eq_false_of_not_eq_true hv)
  · cases h

theorem store_effect {data : Block} (h : store s p k data = some t) : Effect s (.store p k data) t := by
  unfold store at h
  split at h
  · rename_i q b d hl
    split_ifs at h with hq
    cases h
    exact .store p b k data ⟨d, hq ▸ hl⟩
  · cases h

theorem logWrite_effect (h : logWrite s p k = some t) : Effect s (.logWrite p k) t := by
  unfold logWrite at h
  split at h
  · rename_i q b d hl
    by_cases hq : p ≠ q
    · rw [if_pos hq] at h
      cases h
    have hk : s.has k p b := ⟨d, not_not.mp hq ▸ hl⟩
    rw [if_neg hq] at h
    unfold Logging.logWrite at h
    by_cases hbig : s.log.lh.length ≥ Logging.logSize ∨ (s.log.lh.length : ℤ) ≥ (s.log.size : ℤ)-1
    · rw [if_pos hbig] at h
      cases h
    rw [if_neg hbig] at h
    by_cases hout : s.log.outstanding < 1
    · rw [if_pos hout] at h
      cases h
    rw [if_neg hout] at h
    by_cases hlh : (s.buf k).blockno ∈ s.log.lh
    · rw [if_pos hlh, if_pos hlh] at h
      cases h
      exact .absorb p b k hk hlh
    · rw [if_neg hlh, if_neg hlh] at h
      cases h
      exact .pin p b k hk hlh (by omega)
  · cases h

theorem release_effect (h : release s p k = some t) : Effect s (.release p k) t := by
  unfold release at h
  split at h
  · rename_i q b d hl
    split_ifs at h with hq
    cases h
    exact .release p b k ⟨d, hq ▸ hl⟩
  · cases h

theorem drop_effect (h : drop s k = some t) : Effect s (.drop k) t := by
  unfold drop at h
  split_ifs at h with h0 hz
  · cases h
    exact .drop k (Nat.pos_of_ne_zero h0) _ (Or.inr rfl)
  · cases h
    exact .drop k (Nat.pos_of_ne_zero h0) s.links (Or.inl rfl)

theorem beginOp_effect (h : beginOp s p = some t) : Effect s (.beginOp p) t := by
  obtain ⟨l, hl, rfl⟩ := Option.map_eq_some_iff.mp h
  unfold Logging.beginOp at hl
  split_ifs at hl with hc hroom
  cases hl
  exact .beginOp p (Bool.eq_false_of_not_eq_true hc)

theorem endOp_effect (h : endOp s p = some t) : Effect s (.endOp p) t := by
  unfold endOp Logging.endOp at h
  dsimp only at h
  by_cases hc : s.log.committing = true
  · rw [if_pos hc] at h
    cases h
  rw [if_neg hc] at h
  by_cases h0 : s.log.outstanding-1 = 0
  · rw [if_pos h0] at h
    cases h
    exact .commit p h0 (Bool.eq_false_of_not_eq_true hc)
  · rw [if_neg h0] at h
    cases h
    exact .endOp p h0 (Bool.eq_false_of_not_eq_true hc)

theorem memmove_effect (h : memmove s k j = some t) : Effect s (.memmove k j) t := by
  unfold memmove at h
  split at h
  · rename_i p tail hc
    obtain ⟨b, hb, h⟩ := Option.bind_eq_some_iff.mp h
    split_ifs at h with hh
    cases h
    exact .copy p tail b k j hc hb hh.1 hh.2
  · rename_i p tail hc
    obtain ⟨b, hb, h⟩ := Option.bind_eq_some_iff.mp h
    split_ifs at h with hh
    cases h
    exact .move p tail b k j hc hb hh.1 hh.2
  · cases h

theorem header_effect (h : header s k = some t) : Effect s (.header k) t := by
  unfold header at h
  split at h
  · rename_i p c hc
    obtain ⟨c', hcc, h⟩ := Option.bind_eq_some_iff.mp h
    split_ifs at h with hk
    cases h
    exact .header p k c c' hc hcc hk
  · cases h

theorem bwrite_effect (h : bwrite s = some t) : Effect s .bwrite t := by
  unfold bwrite at h
  split at h
  · rename_i p c hc
    obtain ⟨⟨k, c'⟩, hcc, h⟩ := Option.bind_eq_some_iff.mp h
    dsimp only at h
    split at h
    · rename_i q b d hl
      split_ifs at h with hq
      cases h
      exact .write p b k c c' hc hcc ⟨d, hq ▸ hl⟩
    · cases h
  · cases h

theorem turn_effect (h : turn s = some t) : Effect s .turn t := by
  unfold turn at h
  split at h
  · rename_i p hc
    cases h
    by_cases hlen : 0 < s.log.lh.length
    · rw [if_pos hlen]
      exact .pass p _ _ hc (.some hlen)
    · rw [if_neg hlen]
      exact .pass p _ _ hc (.none (List.length_eq_zero_iff.mp (by omega)))
  · rename_i p tail hc
    split_ifs at h with htail
    cases h
    exact .pass p _ _ hc (.copied tail (not_lt.mp htail))
  · rename_i p tail hc
    split_ifs at h with htail
    cases h
    exact .pass p _ _ hc (.installed tail (not_lt.mp htail))
  · rename_i p tail k hc
    cases h
    exact .unpin p tail k hc
  · rename_i p hc
    cases h
    exact .clear p hc
  · rename_i p hc
    cases h
    exact .finish p hc
  · cases h

theorem step_effect {e : Event} (h : step s e = some t) : Effect s e t := by
  cases e with
  | bget => exact bget_effect h
  | acquire => exact acquire_effect h
  | fill => exact fill_effect h
  | store => exact store_effect h
  | logWrite => exact logWrite_effect h
  | release => exact release_effect h
  | drop => exact drop_effect h
  | beginOp => exact beginOp_effect h
  | endOp => exact endOp_effect h
  | memmove => exact memmove_effect h
  | header => exact header_effect h
  | bwrite => exact bwrite_effect h
  | turn => exact turn_effect h

end Xv6.Bcache
