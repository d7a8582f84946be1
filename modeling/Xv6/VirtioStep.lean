import Xv6.VirtioOwn

/-! What the steps of the driver, of the device and of virtio_disk_intr keep. Every step moves at
most one chain from one of the four lists of `Flow` to the next. -/
namespace Xv6.Virtio
open Function List
variable {s t : Sys} {p : ℕ} {k : Chain} {Q W D S : List Chain}

theorem chain_same {x : Pc} (hx : x.chain = s.chainOf p) : (fun q => (update s.pcs p x q).chain) = s.chainOf := by
  rw [chain_update, hx, update_eq_self]

theorem call_same {x : Pc} (hx : x.call = s.callOf p) (q : ℕ) : (update s.pcs p x q).call = s.callOf q := by
  by_cases hq : q = p
  · rw [hq, update_self, hx]
  · rw [update_of_ne hq]
    rfl

theorem Driver.not_filled (h : Driver s) (hlock : ∀ p, s.lock ≠ .proc p) (q : ℕ) (l : Chain) :
    s.pcs q ≠ .filled l := fun hq => hlock q (h.filled q l hq).1

theorem Driver.keep (h : Driver s) (hhalt : t.halt = none) (howned : Owned t.chainOf t.disk)
    (hcall : ∀ q c, t.callOf q = some c → s.callOf q = some c) (hcalls : t.calls = s.calls)
    (hfilled : ∀ q l, t.pcs q = .filled l → t.lock = .proc q ∧ t.flag l.call.b = true ∧
      t.disk.availRing (Ring.cell num t.disk.availIdx) = l.i0) : Driver t where
  halt := hhalt
  owned := howned
  below q c hq := hcalls ▸ h.below q c (hcall q c hq)
  distinct q r c c' hq hr := h.distinct q r c c' (hcall q c hq) (hcall r c' hr)
  filled := hfilled

theorem Driver.asleep_inj (h : Driver s) {q : ℕ} {l : Chain} (hp : s.pcs p = .asleep k)
    (hq : s.pcs q = .asleep l) (hb : l.call.b = k.call.b) : l = k := by
  by_cases hpq : q = p
  · rw [hpq, hp] at hq
    exact (Pc.asleep.inj hq).symm
  · exact absurd hb (h.distinct q p l.call k.call (callOf_of_asleep hq) (callOf_of_asleep hp) hpq).1

/-! The processes -/

variable {c : Call}

theorem call_driver (h : Driver s) (hp : s.pcs p = .idle) (hid : c.id = s.calls)
    (hb : ∀ q c', s.callOf q = some c' → c'.b ≠ c.b) :
    Driver { s with pcs := update s.pcs p (.waiting c), calls := s.calls+1 } := by
  -- a call of the new state is the new one or one of the old state
  have hcases (q : ℕ) (c' : Call) (hq : (update s.pcs p (.waiting c) q).call = some c') :
      q = p ∧ c' = c ∨ s.callOf q = some c' := by
    by_cases hqp : q = p
    · rw [hqp, update_self] at hq
      exact Or.inl ⟨hqp, (Option.some.inj hq).symm⟩
    · rw [update_of_ne hqp] at hq
      exact Or.inr hq
  have hnew (q : ℕ) (c' : Call) (hq : s.callOf q = some c') : c'.b ≠ c.b ∧ c'.id ≠ c.id :=
    ⟨hb q c' hq, hid ▸ (h.below q c' hq).ne⟩
  refine ⟨h.halt, ?_, fun q c' hq => ?_, fun q r c' c'' hq hr hqr => ?_, fun q l hq => ?_⟩
  · have hsame : (Pc.waiting c).chain = s.chainOf p := by rw [Sys.chainOf, hp]; rfl
    have howned := h.owned
    rwa [← chain_same hsame] at howned
  · obtain ⟨-, rfl⟩ | hq := hcases q c' hq
    · exact hid ▸ Nat.lt_succ_self _
    · exact (h.below q c' hq).trans (Nat.lt_succ_self _)
  · obtain ⟨hqp, hc'⟩ | hold := hcases q c' hq
    · obtain ⟨hrp, -⟩ | hold' := hcases r c'' hr
      · exact absurd (hqp.trans hrp.symm) hqr
      · exact hc' ▸ (hnew r c'' hold').imp Ne.symm Ne.symm
    · obtain ⟨-, hc''⟩ | hold' := hcases r c'' hr
      · exact hc'' ▸ hnew q c' hold
      · exact h.distinct q r c' c'' hold hold' hqr
  · by_cases hqp : q = p
    · rw [hqp] at hq
      cases (update_self ..).symm.trans hq
    · exact h.filled q l ((update_of_ne hqp ..).symm.trans hq)

theorem call_flow (h : Flow s Q W D S) (hp : s.pcs p = .idle) (hid : c.id = s.calls) :
    Flow { s with pcs := update s.pcs p (.waiting c), calls := s.calls+1 } Q W D S := by
  have hidle (l : Chain) : s.pcs p ≠ .asleep l := by rw [hp]; exact Pc.noConfusion
  have hasleep := asleep_update (s := s) (p := p) (x := .waiting c) hidle (fun _ => Pc.noConfusion)
  refine h.move rfl rfl rfl rfl rfl (Nat.le_succ _) rfl rfl (fun _ _ => rfl) hasleep
    (fun _ _ _ => rfl) (fun q c' hq hnot l hl => ?_)
  by_cases hqp : q = p
  · rw [hqp] at hq
    have hq' : (Pc.waiting c).call = some c' := (congrArg Pc.call (update_self ..)).symm.trans hq
    cases hq'
    exact hid ▸ (h.below l hl).ne
  · have hq' : s.callOf q = some c' := (congrArg Pc.call (update_of_ne hqp ..)).symm.trans hq
    exact h.fresh q c' hq' (fun k hk => hnot k ((hasleep q k).mpr hk)) l hl

section
variable (hd : Driver s) (h : Flow s Q W D S)
include hd h

theorem fill_inv (hp : s.pcs p = .waiting k.call)
    (hlock : s.lock = .free) (hk : k.idx.Nodup) (hfree : ∀ i ∈ k.idx, i < num ∧ s.disk.free i = true) :
    let t := { s with
      disk := Disk.format { s.disk with free := fun j => if j ∈ k.idx then false else s.disk.free j } k
      flag := update s.flag k.call.b true
      pcs := update s.pcs p (.filled k)
      lock := .proc p }
    Driver t ∧ Flow t Q W D S := by
  intro t
  have hnone : s.chainOf p = none := by rw [Sys.chainOf, hp]; rfl
  have hcall : (Pc.filled k).call = s.callOf p := by rw [Sys.callOf, hp]; rfl
  have hawake (l : Chain) : s.pcs p ≠ .asleep l := by rw [hp]; exact Pc.noConfusion
  have hasleep := asleep_update (s := s) (p := p) (x := .filled k) hawake (fun _ => Pc.noConfusion)
  -- the head of a chain on its way is in use
  have hother (l : Chain) (hl : l ∈ Q ++ (W ++ D)) : l.i0 ≠ k.i0 := by
    obtain ⟨-, q, hq⟩ := h.asleep hl
    intro heq
    have hbusy := (hd.owned.busy q l (chainOf_of_asleep hq) l.i0 (head_mem l)).2
    rw [heq, (hfree k.i0 (head_mem k)).2] at hbusy
    cases hbusy
  have hroom : Q.length < num := by
    have hnew : k.i0 ∉ (Q ++ (W ++ D)).map Chain.i0 := by
      intro hmem
      obtain ⟨l, hl, heq⟩ := mem_map.mp hmem
      exact hother l hl heq
    have hlen := h.length_lt hd (hfree k.i0 (head_mem k)).1 hnew
    rw [length_append] at hlen
    omega
  refine ⟨hd.keep hd.halt ?_ (fun q c hq => call_same hcall q ▸ hq) rfl (fun q l hq => ?_), ?_⟩
  · have howned := hd.owned.grab hnone hk hfree
    rwa [← show (Pc.filled k).chain = some k from rfl, ← chain_update] at howned
  · by_cases hqp : q = p
    · rw [hqp] at hq
      obtain rfl := Pc.filled.inj ((update_self ..).symm.trans hq)
      exact ⟨hqp ▸ rfl, update_self .., update_self ..⟩
    · exact absurd ((update_of_ne hqp ..).symm.trans hq)
        (hd.not_filled (fun r => by rw [hlock]; exact Lock.noConfusion) q l)
  refine h.move rfl rfl rfl rfl rfl le_rfl ?_ rfl (fun l hl => ?_) hasleep (fun q l hq => ?_) (fun q c hq hnot => ?_)
  · change Ring.window (update s.disk.availRing (Ring.cell num s.disk.availIdx) k.i0) s.taken
      (s.disk.availIdx-s.taken).toNat = _
    rw [h.queued, ← h.avail_end]
    exact Ring.window_update num_dvd _ _ hroom _
  · have hne := hother l (mem_append_right _ (mem_append_right _ hl))
    exact update_of_ne hne ..
  · have hqp : q ≠ p := fun heq => hawake l (heq ▸ hq)
    have hne := (hd.distinct q p l.call k.call (callOf_of_asleep hq) hcall.symm hqp).1
    exact update_of_ne hne ..
  · exact h.fresh q c (call_same hcall q ▸ hq) (fun l hl => hnot l ((hasleep q l).mpr hl))

theorem alloc_inv (hp : s.pcs p = .waiting c)
    (hlock : s.lock = .free) : Driver (s.alloc p c) ∧ Flow (s.alloc p c) Q W D S := by
  obtain ⟨i0, i1, i2, hnodup, hfree, hok⟩ | ⟨desc, hdesc, hfail⟩ := alloc3Desc_spec s.disk
  · have hstep := fill_inv (k := ⟨c, i0, i1, i2⟩) hd h hp hlock hnodup hfree
    unfold Sys.alloc
    rw [hok]
    exact hstep
  unfold Sys.alloc
  rw [hfail]
  refine ⟨hd.keep hd.halt ?_ (fun _ _ hq => hq) rfl hd.filled, ?_⟩
  · exact hd.owned.congr rfl hdesc rfl rfl
  · exact h.move rfl rfl rfl rfl rfl le_rfl rfl rfl (fun _ _ => rfl) (fun _ _ => Iff.rfl) (fun _ _ _ => rfl) h.fresh

theorem Flow.publish (hp : s.pcs p = .filled k) :
    Flow { s.publish k with pcs := update s.pcs p (.asleep k), lock := .free } (Q ++ [k]) W D S := by
  obtain ⟨-, hflag, hring⟩ := hd.filled p k hp
  have hcall : s.callOf p = some k.call := by rw [Sys.callOf, hp]; rfl
  have hawake (l : Chain) : s.pcs p ≠ .asleep l := by rw [hp]; exact Pc.noConfusion
  have hnew := h.fresh p k.call hcall hawake
  have hcases (q : ℕ) (l : Chain) : update s.pcs p (.asleep k) q = .asleep l ↔ q = p ∧ l = k ∨ s.pcs q = .asleep l := by
    by_cases hqp : q = p
    · rw [hqp, update_self, Pc.asleep.injEq]
      exact ⟨fun heq => Or.inl ⟨rfl, heq.symm⟩, fun hor => hor.elim (fun heq => heq.2.symm)
        (fun hl => absurd hl (hawake l))⟩
    · rw [update_of_ne hqp]
      exact ⟨Or.inr, fun hor => hor.elim (fun heq => absurd heq.1 hqp) id⟩
  refine { h with
      order := ?order, ids := ?ids, below := ?below, fresh := ?fresh
      avail := ?avail, flight := ?flight, seen := ?seen }
  case order =>
    obtain ⟨T, hpub, hperm⟩ := h.order
    refine ⟨T, ?_, hperm⟩
    change s.published ++ [k] = _
    rw [hpub, append_assoc]
  case ids =>
    change ((s.published ++ [k]).map _).Nodup
    rw [map_append, nodup_append]
    refine ⟨h.ids, nodup_singleton _, fun i hi j hj heq => ?_⟩
    obtain ⟨l, hl, rfl⟩ := mem_map.mp hi
    exact hnew l hl (heq.trans (mem_singleton.mp hj))
  case below =>
    intro l hl
    rcases mem_append.mp hl with hl | hl
    · exact h.below l hl
    · rw [mem_singleton.mp hl]
      exact hd.below p k.call hcall
  case fresh =>
    intro q c hq hnot l hl
    have hqp : q ≠ p := fun heq => hnot k ((hcases q k).mpr (Or.inl ⟨heq, rfl⟩))
    have hq' : s.callOf q = some c := (congrArg Pc.call (update_of_ne hqp ..)).symm.trans hq
    rcases mem_append.mp hl with hl | hl
    · exact h.fresh q c hq' (fun l' hl' => hnot l' ((hcases q l').mpr (Or.inr hl'))) l hl
    · rw [mem_singleton.mp hl]
      exact (hd.distinct p q k.call c hcall hq' (Ne.symm hqp)).2
  case avail =>
    have hsmall : (s.disk.availIdx-s.taken).toNat+1 < 2^16 := by
      have hlen := h.length_le hd
      have hnum : num+1 < 2^16 := by norm_num
      rw [length_append] at hlen
      rw [h.queued]
      omega
    change Ring.window s.disk.availRing s.taken (s.disk.availIdx+1-s.taken).toNat = _
    rw [Ring.count_push _ _ hsmall, Ring.window_succ, Ring.add_count, h.avail, hring, map_append]
    rfl
  case flight =>
    intro l
    have hmem : l ∈ (Q ++ [k]) ++ (W ++ D) ↔ l = k ∨ l ∈ Q ++ (W ++ D) := by
      simp only [mem_append, mem_singleton]
      tauto
    rw [hmem, h.flight l]
    constructor
    · rintro (rfl | ⟨hf, q, hq⟩)
      · exact ⟨hflag, p, (hcases p l).mpr (Or.inl ⟨rfl, rfl⟩)⟩
      · exact ⟨hf, q, (hcases q l).mpr (Or.inr hq)⟩
    · rintro ⟨hf, q, hq⟩
      exact ((hcases q l).mp hq).imp And.right (fun hq' => ⟨hf, q, hq'⟩)
  case seen =>
    intro q l hq hf
    obtain ⟨-, rfl⟩ | hq' := (hcases q l).mp hq
    · exact absurd (hflag.symm.trans hf) Bool.false_ne_true.symm
    · exact h.seen q l hq' hf

theorem publish_inv (hp : s.pcs p = .filled k) (hlock : s.lock = .proc p) :
    Driver ((s.publish k).await p k) ∧ Flow ((s.publish k).await p k) (Q ++ [k]) W D S := by
  have hflag : (s.publish k).flag k.call.b = true := (hd.filled p k hp).2.1
  have hchain : (Pc.asleep k).chain = s.chainOf p := by rw [Sys.chainOf, hp]; rfl
  have hcall : (Pc.asleep k).call = s.callOf p := by rw [Sys.callOf, hp]; rfl
  unfold Sys.await
  rw [if_pos hflag]
  refine ⟨hd.keep hd.halt ?_ (fun q c hq => call_same hcall q ▸ hq) rfl (fun q l hq => ?_), h.publish hd hp⟩
  · have howned := hd.owned.congr (e := { s.disk with availIdx := s.disk.availIdx+1 }) rfl (fun _ _ => rfl) rfl rfl
    rwa [← chain_same hchain] at howned
  -- the only process with a chain half done was this one
  exfalso
  by_cases hqp : q = p
  · rw [hqp] at hq
    cases (update_self ..).symm.trans hq
  · have hq' := (hd.filled q l ((update_of_ne hqp ..).symm.trans hq)).1
    exact hqp (Lock.proc.inj (hq'.symm.trans hlock))

end

theorem Flow.leave (h : Flow s Q W D S) (hp : s.pcs p = .asleep k) (hflag : s.flag k.call.b = false)
    (d : Disk) (hav : d.availIdx = s.disk.availIdx) (har : d.availRing = s.disk.availRing)
    (hseen : d.seenIdx = s.disk.seenIdx) (hui : d.usedIdx = s.disk.usedIdx)
    (hur : d.usedRing = s.disk.usedRing) (hstatus : d.infoStatus = s.disk.infoStatus) :
    Flow { s with
      disk := d, pcs := update s.pcs p .idle, lock := .free, returned := s.returned ++ [k.call] }
      Q W D S := by
  have hcases (q : ℕ) (l : Chain) : update s.pcs p .idle q = .asleep l ↔ q ≠ p ∧ s.pcs q = .asleep l := by
    by_cases hqp : q = p
    · rw [hqp, update_self]
      exact iff_of_false Pc.noConfusion (fun hl => hl.1 rfl)
    · rw [update_of_ne hqp]
      exact ⟨fun hl => ⟨hqp, hl⟩, And.right⟩
  refine { h with
      fresh := ?fresh, avail := ?avail, used := ?used, status := ?status
      flight := ?flight, seen := ?seen, returned := ?returned }
  case fresh =>
    intro q c hq hnot
    have hqp : q ≠ p := by
      intro heq
      rw [heq] at hq
      cases (congrArg Pc.call (update_self ..)).symm.trans hq
    have hq' : s.callOf q = some c := (congrArg Pc.call (update_of_ne hqp ..)).symm.trans hq
    exact h.fresh q c hq' (fun l hl => hnot l ((hcases q l).mpr ⟨hqp, hl⟩))
  case avail =>
    dsimp only
    rw [har, hav]
    exact h.avail
  case used =>
    dsimp only
    rw [hur, hseen, hui]
    exact h.used
  case status => exact hstatus ▸ h.status
  case flight =>
    intro l
    rw [h.flight l]
    refine and_congr_right (fun hf => exists_congr (fun q => ?_))
    rw [hcases]
    refine (and_iff_right_of_imp (fun hq hqp => ?_)).symm
    rw [hqp, hp] at hq
    rw [← Pc.asleep.inj hq, hflag] at hf
    cases hf
  case seen =>
    intro q l hq hf
    exact h.seen q l ((hcases q l).mp hq).2 hf
  case returned =>
    intro c hc
    rcases mem_append.mp hc with hc | hc
    · exact h.returned c hc
    · exact ⟨k, h.seen p k hp hflag, (mem_singleton.mp hc).symm⟩

theorem wake_inv (hd : Driver s) (h : Flow s Q W D S) (hp : s.pcs p = .asleep k)
    (hlock : s.lock = .free) : Driver (s.await p k) ∧ Flow (s.await p k) Q W D S := by
  unfold Sys.await
  by_cases hflag : s.flag k.call.b = true
  · rw [if_pos hflag, ← hp, update_eq_self, ← hlock]
    exact ⟨hd, h⟩
  have hchain := chainOf_of_asleep hp
  have hbusy := hd.owned.busy p k hchain
  rw [if_neg hflag, freeChain_formatted (hd.owned.formatted p k hchain) (hd.owned.nodup p k hchain)
    hbusy (e := { s.disk with infoB := update s.disk.infoB k.i0 none }) rfl rfl]
  refine ⟨hd.keep hd.halt ?_ (fun q c hq => ?_) rfl (fun q l hq => ?_),
    h.leave hp (Bool.eq_false_of_not_eq_true hflag) _ rfl rfl rfl rfl rfl rfl⟩
  · have howned := hd.owned.release hchain
    rwa [← show Pc.idle.chain = none from rfl, ← chain_update] at howned
  · by_cases hqp : q = p
    · rw [hqp] at hq
      cases (congrArg Pc.call (update_self ..)).symm.trans hq
    · exact (congrArg Pc.call (update_of_ne hqp ..)).symm.trans hq
  exfalso
  by_cases hqp : q = p
  · rw [hqp] at hq
    cases (update_self ..).symm.trans hq
  · exact hd.not_filled (fun r => by rw [hlock]; exact Lock.noConfusion) q l ((update_of_ne hqp ..).symm.trans hq)

/-! The interrupt handler -/

theorem Flow.lock (h : Flow s Q W D S) (l : Lock) : Flow { s with lock := l } Q W D S :=
  h.move rfl rfl rfl rfl rfl le_rfl rfl rfl (fun _ _ => rfl) (fun _ _ => Iff.rfl) (fun _ _ _ => rfl) h.fresh

theorem lock_inv (hd : Driver s) (h : Flow s Q W D S) (hlock : ∀ p, s.lock ≠ .proc p) (l : Lock) :
    Driver { s with lock := l } ∧ Flow { s with lock := l } Q W D S :=
  ⟨hd.keep hd.halt hd.owned (fun _ _ hq => hq) rfl (fun q k hq => absurd hq (hd.not_filled hlock q k)), h.lock l⟩

theorem Flow.see (hd : Driver s) (h : Flow s Q W (k :: D) S) (hne : s.disk.seenIdx ≠ s.disk.usedIdx) : Flow { s with
      flag := update s.flag k.call.b false
      disk := { s.disk with seenIdx := s.disk.seenIdx+1 }
      cleared := s.cleared ++ [k.call.b] } Q W D (S ++ [k]) := by
  have hk : k ∈ Q ++ (W ++ k :: D) := mem_append_right _ (mem_append_right _ mem_cons_self)
  obtain ⟨-, p, hp⟩ := h.asleep hk
  have hperm : (Q ++ (W ++ k :: D)).Perm (k :: (Q ++ (W ++ D))) :=
    (perm_middle.append_left Q).trans perm_middle
  have hnodup := hperm.nodup_iff.mp h.nodup
  have hlist : S ++ [k] ++ D = S ++ k :: D := by rw [append_assoc, singleton_append]
  have hsame {l : Chain} (hl : l.call.b ≠ k.call.b) :
      update s.flag k.call.b false l.call.b = s.flag l.call.b := update_of_ne hl ..
  refine { h with
      order := ?order, completed := ?completed, cleared := ?cleared, used := ?used
      status := ?status, flight := ?flight, seen := ?seen, returned := ?returned }
  case order =>
    obtain ⟨T, hpub, hT⟩ := h.order
    exact ⟨T, hpub, hlist ▸ hT⟩
  case completed => exact hlist ▸ h.completed
  case cleared =>
    change s.cleared ++ [k.call.b] = _
    rw [h.cleared, map_append]
    rfl
  case used =>
    have hused := h.used
    rw [Ring.count_pop _ _ hne, Ring.window_pop, map_cons] at hused
    exact (cons.inj hused).2
  case status => exact fun l hl => h.status l (mem_cons_of_mem _ hl)
  case flight =>
    intro l
    constructor
    · intro hl
      obtain ⟨hf, q, hq⟩ := (h.flight l).mp (hperm.mem_iff.mpr (mem_cons_of_mem _ hl))
      have hlb : l.call.b ≠ k.call.b := by
        intro hb
        exact (nodup_cons.mp hnodup).1 (hd.asleep_inj hp hq hb ▸ hl)
      exact ⟨(hsame hlb).trans hf, q, hq⟩
    rintro ⟨hf, q, hq⟩
    have hlb : l.call.b ≠ k.call.b := by
      intro hb
      change update s.flag k.call.b false l.call.b = true at hf
      rw [hb, update_self] at hf
      cases hf
    have hmem := (h.flight l).mpr ⟨(hsame hlb).symm.trans hf, q, hq⟩
    exact (mem_cons.mp (hperm.mem_iff.mp hmem)).resolve_left (fun heq => hlb (heq ▸ rfl))
  case seen =>
    intro q l hq hf
    by_cases hlb : l.call.b = k.call.b
    · exact mem_append_right _ (mem_singleton.mpr (hd.asleep_inj hp hq hlb))
    · exact mem_append_left _ (h.seen q l hq ((hsame hlb).symm.trans hf))
  case returned =>
    intro c hc
    obtain ⟨l, hl, hlc⟩ := h.returned c hc
    exact ⟨l, mem_append_left _ hl, hlc⟩

/-- A turn of the handler neither panics nor goes through a null pointer. -/
theorem intrTurn_inv (hd : Driver s) (h : Flow s Q W D S) (hlock : s.lock = .intr) :
    Driver s.intrTurn ∧ ∃ D' S', Flow s.intrTurn Q W D' S' := by
  have hnot (q : ℕ) : s.lock ≠ .proc q := by rw [hlock]; exact Lock.noConfusion
  unfold Sys.intrTurn
  by_cases hend : s.disk.seenIdx = s.disk.usedIdx
  · rw [if_pos hend]
    obtain ⟨hd', h'⟩ := lock_inv hd h hnot .free
    exact ⟨hd', D, S, h'⟩
  -- the ring holds the head of the first completed chain
  have hused := h.used
  rw [Ring.count_pop _ _ hend, Ring.window_pop] at hused
  cases D with
  | nil => cases hused
  | cons k D =>
    rw [map_cons] at hused
    have hhead := (cons.inj hused).1
    obtain ⟨-, p, hp⟩ := h.asleep (k := k) (mem_append_right _ (mem_append_right _ mem_cons_self))
    have hbuf := (hd.owned.formatted p k (chainOf_of_asleep hp)).buf
    have hstatus := h.status k mem_cons_self
    rw [if_neg hend, hhead, if_neg (not_not.mpr hstatus), hbuf]
    refine ⟨hd.keep hd.halt ?_ (fun _ _ hq => hq) rfl (fun q l hq => absurd hq (hd.not_filled hnot q l)),
      D, S ++ [k], h.see hd hend⟩
    exact hd.owned.congr rfl (fun _ _ => rfl) rfl rfl

/-! The device -/

theorem take_inv (hd : Driver s) (h : Flow s Q W D S) (hne : s.taken ≠ s.disk.availIdx) :
    Driver s.take ∧ ∃ Q' W', Flow s.take Q' W' D S := by
  have havail := h.avail
  rw [Ring.count_pop _ _ hne, Ring.window_pop] at havail
  cases Q with
  | nil => cases havail
  | cons k Q =>
    rw [map_cons] at havail
    obtain ⟨hhead, hrest⟩ := cons.inj havail
    obtain ⟨T, hpub, hT⟩ := h.order
    obtain ⟨-, p, hp⟩ := h.asleep (k := k) mem_cons_self
    have hread := (hd.owned.formatted p k (chainOf_of_asleep hp)).readChain
    -- the device has taken the chains up to this one
    have hlen : s.work.length+s.completed.length = T.length := by
      rw [h.work, h.completed, length_map, length_map, hT.length_eq]
      exact length_append.symm
    have hposted : s.published[s.work.length+s.completed.length]? = some k := by
      rw [hlen, hpub, getElem?_append_right le_rfl, Nat.sub_self]
      rfl
    have hmem (l : Chain) : l ∈ Q ++ (W ++ [k] ++ D) ↔ l ∈ k :: Q ++ (W ++ D) := by
      simp only [mem_append, mem_cons, not_mem_nil, or_false]
      tauto
    refine ⟨hd.keep hd.halt hd.owned (fun _ _ hq => hq) rfl hd.filled, Q, W ++ [k], ?_⟩
    refine { h with order := ?order, work := ?work, avail := ?avail, flight := ?flight }
    case order =>
      refine ⟨T ++ [k], by rw [append_assoc, singleton_append]; exact hpub, ?_⟩
      calc T ++ [k] ~ W ++ (S ++ D) ++ [k] := hT.append_right [k]
        _ ~ W ++ [k] ++ (S ++ D) := by
          rw [append_assoc, append_assoc W [k]]
          exact perm_append_comm.append_left W
    case work =>
      change s.work ++ [_] = _
      rw [hhead, hread, hposted, h.work, map_append]
      rfl
    case avail => exact hrest
    case flight => exact fun l => (hmem l).trans (h.flight l)

theorem complete_inv (hd : Driver s) (h : Flow s Q W D S) {n : ℕ} {w : Work} {r : Request}
    (hw : s.work[n]? = some w) (hr : w.request = some r) :
    Driver (s.complete n w r) ∧ ∃ W' D', Flow (s.complete n w r) Q W' D' S := by
  rw [h.work, getElem?_map] at hw
  obtain ⟨k, hk, rfl⟩ := Option.map_eq_some_iff.mp hw
  obtain rfl : k.request = r := Option.some.inj hr
  obtain ⟨hn, hget⟩ := List.getElem?_eq_some_iff.mp hk
  have hW : (k :: W.eraseIdx n).Perm W := hget ▸ getElem_cons_eraseIdx_perm hn
  have hroom : D.length < num := by
    have hlen := h.length_le hd
    simp only [length_append] at hlen
    omega
  have hmem (l : Chain) : l ∈ Q ++ (W.eraseIdx n ++ (D ++ [k])) ↔ l ∈ Q ++ (W ++ D) := by
    have hlW : l ∈ W ↔ l = k ∨ l ∈ W.eraseIdx n := by rw [← hW.mem_iff, mem_cons]
    simp only [mem_append, mem_cons, not_mem_nil, or_false, hlW]
    tauto
  refine ⟨hd.keep hd.halt ?_ (fun _ _ hq => hq) rfl hd.filled, W.eraseIdx n, D ++ [k], ?_⟩
  · exact hd.owned.congr rfl (fun _ _ => rfl) rfl rfl
  refine { h with
      order := ?order, work := ?work, completed := ?completed
      used := ?used, status := ?status, flight := ?flight }
  case order =>
    obtain ⟨T, hpub, hT⟩ := h.order
    refine ⟨T, hpub, ?_⟩
    calc T ~ W ++ (S ++ D) := hT
      _ ~ k :: W.eraseIdx n ++ (S ++ D) := hW.symm.append_right _
      _ ~ W.eraseIdx n ++ (S ++ D ++ [k]) := by
        rw [cons_append, ← append_assoc (W.eraseIdx n) (S ++ D)]
        exact (perm_append_singleton k _).symm
      _ = W.eraseIdx n ++ (S ++ (D ++ [k])) := by rw [append_assoc S]
  case work =>
    change s.work.eraseIdx n = _
    rw [h.work, eraseIdx_map]
  case completed =>
    change s.completed ++ [k.work] = _
    have hlast : (S ++ D ++ [k]).map Chain.work = (S ++ D).map Chain.work ++ [k.work] := by
      rw [map_append]
      rfl
    rw [h.completed, ← append_assoc, hlast]
  case used =>
    have hsmall : (s.disk.usedIdx-s.disk.seenIdx).toNat+1 < 2^16 := by
      have hnum : num < 2^16 := by norm_num
      rw [h.finished]
      omega
    change Ring.window (update s.disk.usedRing (Ring.cell num s.disk.usedIdx) k.i0) s.disk.seenIdx
      (s.disk.usedIdx+1-s.disk.seenIdx).toNat = _
    rw [Ring.count_push _ _ hsmall, h.finished, ← h.used_end, Ring.window_push num_dvd _ _ hroom,
      ← h.finished, h.used, map_append]
    rfl
  case status =>
    intro l hl
    change update s.disk.infoStatus k.i0 0 l.i0 = 0
    by_cases hlk : l.i0 = k.i0
    · rw [hlk, update_self]
    · rw [update_of_ne hlk]
      refine h.status l ((mem_append.mp hl).resolve_right (fun hlast => ?_))
      exact hlk (congrArg Chain.i0 (mem_singleton.mp hlast))
  case flight => exact fun l => (hmem l).trans (h.flight l)

end Xv6.Virtio
