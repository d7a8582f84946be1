import Xv6.VirtioStep

/-! Requests are not mixed up as long as no two calls in progress are about one buffer.
virtio_disk_rw itself does not check it. -/
namespace Xv6.Virtio
open Runs List
variable {s t : Sys}

/-- A call is about a buffer that no call in progress is about. -/
def Locked (s : Sys) : Event → Prop
  | .call _ b _ _ => ∀ q c, s.callOf q = some c → c.b ≠ b
  | _ => True

def Inv (s : Sys) : Prop := Driver s ∧ ∃ Q W D S, Flow s Q W D S

theorem init_inv (flag : ℕ → Bool) : Inv (Sys.init flag) := by
  have hcall (p : ℕ) (c : Call) : (Sys.init flag).callOf p ≠ some c := Option.some_ne_none c |>.symm
  have hchain (p : ℕ) (k : Chain) : (Sys.init flag).chainOf p ≠ some k := Option.some_ne_none k |>.symm
  have hasleep (p : ℕ) (k : Chain) : (Sys.init flag).pcs p ≠ .asleep k := Pc.noConfusion
  have howned : Owned (Sys.init flag).chainOf (Sys.init flag).disk :=
    ⟨fun p k hk => absurd hk (hchain p k), fun p k hk => absurd hk (hchain p k),
      fun p k hk => absurd hk (hchain p k), fun p q k l hk => absurd hk (hchain p k),
      fun i hi hf => absurd hi (of_decide_eq_false hf)⟩
  have hempty (data : Fin num → ℕ) : Ring.window data (0 : BitVec 16) ((0 : BitVec 16)-0).toNat = [] := by
    rw [BitVec.sub_self]
    rfl
  refine ⟨⟨rfl, howned, fun p c hc => absurd hc (hcall p c), fun p q c c' hc => absurd hc (hcall p c),
    fun p k hk => Pc.noConfusion hk⟩, [], [], [], [], ?_⟩
  refine ⟨⟨[], rfl, .refl _⟩, rfl, rfl, rfl, nodup_nil, fun k hk => absurd hk not_mem_nil,
    fun p c hc => absurd hc (hcall p c), hempty _, hempty _, fun k hk => absurd hk not_mem_nil, fun k => ?_,
    fun p k hk => absurd hk (hasleep p k), fun c hc => absurd hc not_mem_nil⟩
  exact iff_of_false not_mem_nil (fun hk => hk.2.elim (fun p hp => hasleep p k hp))

theorem step_inv {e : Event} (h : Inv s) (hlocked : Locked s e) (hstep : step s e = some t) : Inv t := by
  obtain ⟨hd, Q, W, D, S, hflow⟩ := h
  unfold step at hstep
  rw [if_neg (not_not.mpr hd.halt)] at hstep
  cases e with
  | call =>
    dsimp only at hstep
    split_ifs at hstep with hp
    cases hstep
    exact ⟨call_driver hd hp rfl hlocked, Q, W, D, S, call_flow hflow hp rfl⟩
  | alloc p =>
    dsimp only at hstep
    split at hstep
    · rename_i c hp
      split_ifs at hstep with hlock
      cases hstep
      obtain ⟨hd', hflow'⟩ := alloc_inv hd hflow hp hlock
      exact ⟨hd', Q, W, D, S, hflow'⟩
    · cases hstep
  | publish p =>
    dsimp only at hstep
    split at hstep
    · rename_i k hp
      split_ifs at hstep with hlock
      cases hstep
      obtain ⟨hd', hflow'⟩ := publish_inv hd hflow hp hlock
      exact ⟨hd', Q ++ [k], W, D, S, hflow'⟩
    · cases hstep
  | wake p =>
    dsimp only at hstep
    split at hstep
    · rename_i k hp
      split_ifs at hstep with hlock
      cases hstep
      obtain ⟨hd', hflow'⟩ := wake_inv hd hflow hp hlock
      exact ⟨hd', Q, W, D, S, hflow'⟩
    · cases hstep
  | intr =>
    dsimp only at hstep
    split_ifs at hstep with hlock
    cases hstep
    obtain ⟨hd', hflow'⟩ := lock_inv hd hflow (fun p => by rw [hlock]; exact Lock.noConfusion) .intr
    exact ⟨hd', Q, W, D, S, hflow'⟩
  | intrTurn =>
    dsimp only at hstep
    split_ifs at hstep with hlock
    cases hstep
    obtain ⟨hd', D', S', hflow'⟩ := intrTurn_inv hd hflow hlock
    exact ⟨hd', Q, W, D', S', hflow'⟩
  | take =>
    dsimp only at hstep
    split_ifs at hstep with hne
    cases hstep
    obtain ⟨hd', Q', W', hflow'⟩ := take_inv hd hflow hne
    exact ⟨hd', Q', W', D, S, hflow'⟩
  | complete n =>
    dsimp only at hstep
    split at hstep
    · rename_i posted head r hw
      cases hstep
      obtain ⟨hd', W', D', hflow'⟩ := complete_inv hd hflow hw rfl
      exact ⟨hd', Q, W', D', S, hflow'⟩
    · cases hstep

/-- The flags that virtio_disk_intr has cleared are those of the first completed requests, in order
and each once. A process in the loop of virtio_disk_rw finds its flag cleared exactly if its request
is among these, and a call that has returned was about one. -/
structure Matched (s : Sys) (S D : List Chain) : Prop where
  completed : s.completed = (S ++ D).map Chain.work
  cleared : s.cleared = S.map (fun k => k.call.b)
  once : ((S ++ D).map (fun k => k.call.id)).Nodup
  published : ∀ k ∈ S ++ D, k ∈ s.published
  flag : ∀ p k, s.pcs p = .asleep k → (s.flag k.call.b = false ↔ k ∈ S)
  returned : ∀ c ∈ s.returned, ∃ k ∈ S, k.call = c

structure Sound (s : Sys) : Prop where
  noPanic : s.halt = none
  oneOwner : ∀ i < num, (s.disk.free i = true ∧ ∀ p k, s.chainOf p = some k → i ∉ k.idx) ∨
    (s.disk.free i = false ∧ ∃! p, ∃ k, s.chainOf p = some k ∧ i ∈ k.idx)
  three : ∀ p k, s.chainOf p = some k → k.idx.Nodup ∧ ∀ i ∈ k.idx, i < num
  refused : ∀ d, alloc3Desc s.disk = .ok (none, d) → d.free = s.disk.free
  matched : ∃ S D, Matched s S D

theorem alloc3Desc_refused {d e : Disk} (h : alloc3Desc d = .ok (none, e)) : e.free = d.free := by
  obtain ⟨i0, i1, i2, -, -, hok⟩ | ⟨desc, -, hfail⟩ := alloc3Desc_spec d
  · rw [hok] at h
    cases h
  · rw [hfail] at h
    cases h
    rfl

theorem Flow.matched {Q W D S : List Chain} (h : Flow s Q W D S) : Matched s S D := by
  obtain ⟨T, hpub, hT⟩ := h.order
  have hsub (k : Chain) (hk : k ∈ S ++ D) : k ∈ s.published :=
    hpub ▸ mem_append_left _ (hT.mem_iff.mpr (mem_append_right _ hk))
  have hall : (Q ++ (W ++ (S ++ D))).Perm s.published := by
    rw [hpub]
    exact perm_append_comm.trans (hT.symm.append_right Q)
  refine ⟨h.completed, h.cleared, ?_, hsub, fun p k hp => ⟨h.seen p k hp, fun hk => ?_⟩, h.returned⟩
  · have hids := (hall.map (fun k => k.call.id)).nodup_iff.mpr h.ids
    rw [map_append, map_append] at hids
    exact (nodup_append.mp (nodup_append.mp hids).2.1).2.1
  -- a chain that is seen is on its way no more
  by_contra hf
  have hway := (h.flight k).mpr ⟨Bool.eq_true_of_not_eq_false hf, p, hp⟩
  have hnodup : (S ++ (Q ++ (W ++ D))).Nodup := by
    have hcomm : (S ++ (Q ++ W)).Perm (Q ++ W ++ S) := perm_append_comm
    have hperm : (S ++ (Q ++ (W ++ D))).Perm (Q ++ (W ++ (S ++ D))) := by
      simpa only [append_assoc] using hcomm.append_right D
    exact (hperm.trans hall).nodup_iff.mpr (List.Nodup.of_map _ h.ids)
  exact (nodup_append.mp hnodup).2.2 k hk k hway rfl

/-- In every run of the driver and its device in which calls in progress have buffers of their own. -/
theorem requests_not_mixed_up (flag : ℕ → Bool) (h : Reach step Locked (Sys.init flag) s) : Sound s := by
  obtain ⟨hd, Q, W, D, S, hflow⟩ := h.invariant (I := Inv) (init_inv flag)
    (fun _ _ _ hinv hlocked hstep => step_inv hinv hlocked hstep)
  exact ⟨hd.halt, fun i hi => hd.owned.one_owner hi,
    fun p k hk => ⟨hd.owned.nodup p k hk, fun i hi => (hd.owned.busy p k hk i hi).1⟩,
    fun d hd => alloc3Desc_refused hd, S, D, hflow.matched⟩

theorem one_read_not_mixed_up : ∃ s, Reach step Locked (Sys.init (fun _ => false)) s ∧ s.returned = [⟨0, 5, 7, false⟩] ∧
      s.completed.map Work.request = [some ⟨false, 14, 5, 0⟩] ∧ Sound s := by
  let c : Call := ⟨0, 5, 7, false⟩
  let s₁ : Sys := { Sys.init (fun _ => false) with
    pcs := Function.update (fun _ => .idle) 3 (.waiting c), calls := 1 }
  have hcall : Reach step Locked (Sys.init (fun _ => false)) s₁ :=
    .next .start (e := .call 3 5 7 false) (fun q c hq => by cases hq) rfl
  have hany : (run step s₁ [.alloc 3, .publish 3, .take, .complete 0, .intr, .intrTurn, .intrTurn,
      .wake 3]).any (fun s => decide (s.returned = [⟨0, 5, 7, false⟩] ∧
        s.completed.map Work.request = [some ⟨false, 14, 5, 0⟩])) = true := by
    decide
  obtain ⟨s, hs, hall⟩ := (Option.any_eq_true _ _).mp hany
  obtain ⟨hret, hcom⟩ := of_decide_eq_true hall
  have hreach := hcall.run (fun e he v => by
    simp only [mem_cons, not_mem_nil, or_false] at he
    rcases he with rfl | rfl | rfl | rfl | rfl | rfl | rfl | rfl <;> trivial) hs
  exact ⟨s, hreach, hret, hcom, requests_not_mixed_up _ hreach⟩

/-- Two calls for one buffer: the completion of the first one lets the second one return, before the
device has taken its request. -/
theorem shared_buffer_mixed_up : ∃ s, Reach step (fun _ _ => True) (Sys.init (fun _ => false)) s ∧ ¬ Sound s := by
  have hany : (run step (Sys.init (fun _ => false)) [.call 3 5 7 false, .call 4 5 7 false, .alloc 3,
      .publish 3, .alloc 4, .publish 4, .take, .complete 0, .intr, .intrTurn, .intrTurn, .wake 4]).any
      (fun s => decide (s.returned = [⟨1, 5, 7, false⟩] ∧
        ∀ w ∈ s.completed, w.posted.map (fun k => k.call.id) = some 0)) = true := by
    decide
  obtain ⟨s, hs, hall⟩ := (Option.any_eq_true _ _).mp hany
  obtain ⟨hret, hcom⟩ := of_decide_eq_true hall
  refine ⟨s, reach_of_run hs, fun hsound => ?_⟩
  obtain ⟨S, D, hmatched⟩ := hsound.matched
  obtain ⟨k, hk, hkc⟩ := hmatched.returned ⟨1, 5, 7, false⟩ (by rw [hret]; exact mem_cons_self)
  have hwork : k.work ∈ s.completed := hmatched.completed ▸ mem_map_of_mem (mem_append_left D hk)
  have hid : k.call.id = 0 := Option.some.inj (hcom k.work hwork)
  rw [hkc] at hid
  cases hid

end Xv6.Virtio
