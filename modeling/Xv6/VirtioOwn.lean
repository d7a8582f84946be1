import Xv6.VirtioChain

/-! Who has which descriptor: each is free or belongs to one chain. -/
namespace Xv6.Virtio

open Function Runs List
variable {chain : ℕ → Option Chain} {d e : Disk} {p : ℕ} {k : Chain}

/-- The chains of the processes have the descriptors that are not free, each of them three, and none
has a descriptor of another one. -/
structure Owned (chain : ℕ → Option Chain) (d : Disk) : Prop where
  nodup : ∀ p k, chain p = some k → k.idx.Nodup
  busy : ∀ p k, chain p = some k → ∀ i ∈ k.idx, i < num ∧ d.free i = false
  formatted : ∀ p k, chain p = some k → d.Formatted k
  apart : ∀ p q k l, chain p = some k → chain q = some l → p ≠ q → k.idx.Disjoint l.idx
  cover : ∀ i < num, d.free i = false → ∃ p k, chain p = some k ∧ i ∈ k.idx

theorem head_mem (k : Chain) : k.i0 ∈ k.idx := List.mem_cons_self

theorem Owned.congr (h : Owned chain d) (hfree : e.free = d.free)
    (hdesc : ∀ i, d.free i = false → e.desc i = d.desc i) (hops : e.ops = d.ops)
    (hbuf : e.infoB = d.infoB) : Owned chain e where
  nodup := h.nodup
  busy p k hk i hi := by
    rw [hfree]
    exact h.busy p k hk i hi
  formatted p k hk := (h.formatted p k hk).congr (fun i hi => hdesc i (h.busy p k hk i hi).2)
    (congrFun hops _) (congrFun hbuf _)
  apart := h.apart
  cover i hi hf := h.cover i hi (by rwa [hfree] at hf)

theorem Owned.grab (h : Owned chain d) (hp : chain p = none) (hk : k.idx.Nodup)
    (hfree : ∀ i ∈ k.idx, i < num ∧ d.free i = true) :
    Owned (update chain p (some k))
      (Disk.format { d with free := fun j => if j ∈ k.idx then false else d.free j } k) := by
  have hother (q : ℕ) (l : Chain) (hl : chain q = some l) : l.idx.Disjoint k.idx := by
    intro i hil hik
    exact Bool.false_ne_true ((h.busy q l hl i hil).2.symm.trans (hfree i hik).2)
  have hcases (q : ℕ) (l : Chain) (hl : update chain p (some k) q = some l) :
      q = p ∧ l = k ∨ q ≠ p ∧ chain q = some l := by
    by_cases hqp : q = p
    · rw [hqp, update_self] at hl
      exact Or.inl ⟨hqp, (Option.some.inj hl).symm⟩
    · rw [update_of_ne hqp] at hl
      exact Or.inr ⟨hqp, hl⟩
  refine ⟨fun q l hl => ?_, fun q l hl i hi => ?_, fun q l hl => ?_, fun q q' l l' hl hl' hne => ?_, fun i hi hf => ?_⟩
  · obtain ⟨-, rfl⟩ | ⟨-, hl⟩ := hcases q l hl
    · exact hk
    · exact h.nodup q l hl
  · change i < num ∧ (if i ∈ k.idx then false else d.free i) = false
    obtain ⟨-, rfl⟩ | ⟨-, hl⟩ := hcases q l hl
    · exact ⟨(hfree i hi).1, if_pos hi⟩
    · rw [if_neg (fun hik => hother q l hl hi hik)]
      exact h.busy q l hl i hi
  · obtain ⟨-, rfl⟩ | ⟨-, hl⟩ := hcases q l hl
    · exact Disk.formatted_format _ hk
    have hhead : l.i0 ≠ k.i0 := fun heq => hother q l hl (head_mem l) (heq ▸ head_mem k)
    refine (h.formatted q l hl).congr (fun i hi => ?_) ?_ ?_
    · exact Disk.format_desc _ (fun hik => hother q l hl hi hik)
    · exact update_of_ne hhead ..
    · exact update_of_ne hhead ..
  · obtain ⟨hq, hlk⟩ | ⟨-, hlq⟩ := hcases q l hl
    · obtain ⟨hq', -⟩ | ⟨-, hlq'⟩ := hcases q' l' hl'
      · exact absurd (hq.trans hq'.symm) hne
      · rw [hlk]
        exact (hother q' l' hlq').symm
    obtain ⟨-, hlk'⟩ | ⟨-, hlq'⟩ := hcases q' l' hl'
    · rw [hlk']
      exact hother q l hlq
    · exact h.apart q q' l l' hlq hlq' hne
  · change (if i ∈ k.idx then false else d.free i) = false at hf
    by_cases hik : i ∈ k.idx
    · exact ⟨p, k, update_self .., hik⟩
    rw [if_neg hik] at hf
    obtain ⟨q, l, hl, hil⟩ := h.cover i hi hf
    have hqp : q ≠ p := by
      rintro rfl
      rw [hp] at hl
      cases hl
    exact ⟨q, l, (update_of_ne hqp ..).trans hl, hil⟩

theorem Owned.release (h : Owned chain d) (hp : chain p = some k) : Owned (update chain p none)
      (Disk.freed { d with infoB := update d.infoB k.i0 none } k.idx) := by
  have hcases (q : ℕ) (l : Chain) (hl : update chain p none q = some l) : q ≠ p ∧ chain q = some l := by
    by_cases hqp : q = p
    · rw [hqp, update_self] at hl
      cases hl
    · rw [update_of_ne hqp] at hl
      exact ⟨hqp, hl⟩
  have hother (q : ℕ) (l : Chain) (hl : update chain p none q = some l) : l.idx.Disjoint k.idx := by
    obtain ⟨hqp, hl⟩ := hcases q l hl
    exact h.apart q p l k hl hp hqp
  refine ⟨fun q l hl => h.nodup q l (hcases q l hl).2, fun q l hl i hi => ?_, fun q l hl => ?_,
    fun q q' l l' hl hl' hne => h.apart q q' l l' (hcases q l hl).2 (hcases q' l' hl').2 hne,
    fun i hi hf => ?_⟩
  · rw [Disk.freed_free (fun hik => hother q l hl hi hik)]
    exact h.busy q l (hcases q l hl).2 i hi
  · refine (h.formatted q l (hcases q l hl).2).congr (fun i hi => ?_) rfl ?_
    · exact Disk.freed_desc (fun hik => hother q l hl hi hik)
    · have hhead : l.i0 ≠ k.i0 := fun heq => hother q l hl (head_mem l) (heq ▸ head_mem k)
      exact update_of_ne hhead ..
  change (if i ∈ k.idx then true else d.free i) = false at hf
  by_cases hik : i ∈ k.idx
  · rw [if_pos hik] at hf
    cases hf
  rw [if_neg hik] at hf
  obtain ⟨q, l, hl, hil⟩ := h.cover i hi hf
  have hqp : q ≠ p := by
    rintro rfl
    rw [hp] at hl
    exact hik (Option.some.inj hl ▸ hil)
  exact ⟨q, l, (update_of_ne hqp ..).trans hl, hil⟩

theorem Owned.head_inj (h : Owned chain d) {q : ℕ} {l : Chain} (hp : chain p = some k)
    (hq : chain q = some l) (heq : k.i0 = l.i0) : p = q := by
  by_contra hne
  exact h.apart p q k l hp hq hne (head_mem k) (heq ▸ head_mem l)

theorem length_le_num {l : List ℕ} (hl : l.Nodup) (hlt : ∀ i ∈ l, i < num) : l.length ≤ num := by
  have hsub : l ⊆ List.range num := fun i hi => List.mem_range.mpr (hlt i hi)
  simpa only [List.length_range] using (List.subperm_of_subset hl hsub).length_le

theorem Owned.one_owner (h : Owned chain d) {i : ℕ} (hi : i < num) :
    (d.free i = true ∧ ∀ p k, chain p = some k → i ∉ k.idx) ∨
      (d.free i = false ∧ ∃! p, ∃ k, chain p = some k ∧ i ∈ k.idx) := by
  cases hf : d.free i with
  | true =>
    refine Or.inl ⟨rfl, fun p k hk hik => ?_⟩
    rw [(h.busy p k hk i hik).2] at hf
    cases hf
  | false =>
    obtain ⟨p, k, hk, hik⟩ := h.cover i hi hf
    refine Or.inr ⟨rfl, p, ⟨k, hk, hik⟩, fun q hq => ?_⟩
    obtain ⟨l, hl, hil⟩ := hq
    by_contra hne
    exact h.apart q p l k hl hk hne hil hik

/-! The way of a request: a chain is made available, taken and completed by the device, and seen by
virtio_disk_intr. -/

variable {s t : Sys} {Q W D S : List Chain}

def Sys.chainOf (s : Sys) (q : ℕ) : Option Chain := (s.pcs q).chain

def Sys.callOf (s : Sys) (q : ℕ) : Option Call := (s.pcs q).call

def Chain.work (k : Chain) : Work := ⟨some k, k.i0, some k.request⟩

/-- The driver's side. Calls in progress have buffers of their own; the process that has written
down a chain and not made it available holds the lock. -/
structure Driver (s : Sys) : Prop where
  halt : s.halt = none
  owned : Owned s.chainOf s.disk
  below : ∀ p c, s.callOf p = some c → c.id < s.calls
  distinct : ∀ p q c c', s.callOf p = some c → s.callOf q = some c' → p ≠ q → c.b ≠ c'.b ∧ c.id ≠ c'.id
  filled : ∀ p k, s.pcs p = .filled k → s.lock = .proc p ∧ s.flag k.call.b = true ∧
    s.disk.availRing (Ring.cell num s.disk.availIdx) = k.i0

/-- The chains that are available, those that the device works on, those that are completed, and
those that virtio_disk_intr has seen. All but the last are the chains of the processes that wait
with b->disk set. -/
structure Flow (s : Sys) (Q W D S : List Chain) : Prop where
  order : ∃ T, s.published = T ++ Q ∧ T.Perm (W ++ (S ++ D))
  work : s.work = W.map Chain.work
  completed : s.completed = (S ++ D).map Chain.work
  cleared : s.cleared = S.map (fun k => k.call.b)
  ids : (s.published.map (fun k => k.call.id)).Nodup
  below : ∀ k ∈ s.published, k.call.id < s.calls
  fresh : ∀ p c, s.callOf p = some c → (∀ k, s.pcs p ≠ .asleep k) → ∀ k ∈ s.published, k.call.id ≠ c.id
  avail : Ring.window s.disk.availRing s.taken (s.disk.availIdx-s.taken).toNat = Q.map Chain.i0
  used : Ring.window s.disk.usedRing s.disk.seenIdx (s.disk.usedIdx-s.disk.seenIdx).toNat = D.map Chain.i0
  status : ∀ k ∈ D, s.disk.infoStatus k.i0 = 0
  flight : ∀ k, k ∈ Q ++ (W ++ D) ↔ s.flag k.call.b = true ∧ ∃ p, s.pcs p = .asleep k
  seen : ∀ p k, s.pcs p = .asleep k → s.flag k.call.b = false → k ∈ S
  returned : ∀ c ∈ s.returned, ∃ k ∈ S, k.call = c

theorem chainOf_of_asleep (h : s.pcs p = .asleep k) : s.chainOf p = some k := by
  rw [Sys.chainOf, h]
  rfl

theorem callOf_of_asleep (h : s.pcs p = .asleep k) : s.callOf p = some k.call := by
  rw [Sys.callOf, h]
  rfl

theorem chain_update (s : Sys) (p : ℕ) (x : Pc) :
    (fun q => (update s.pcs p x q).chain) = update s.chainOf p x.chain := by
  funext q
  by_cases hq : q = p
  · rw [hq, update_self, update_self]
  · rw [update_of_ne hq, update_of_ne hq]
    rfl

theorem asleep_update {x : Pc} (hp : ∀ k, s.pcs p ≠ .asleep k) (hx : ∀ k, x ≠ .asleep k) (q : ℕ)
    (l : Chain) : update s.pcs p x q = .asleep l ↔ s.pcs q = .asleep l := by
  by_cases hq : q = p
  · rw [hq, update_self]
    exact iff_of_false (hx l) (hp l)
  · rw [update_of_ne hq]

section
variable (h : Flow s Q W D S)
include h

theorem Flow.nodup : (Q ++ (W ++ D)).Nodup := by
  obtain ⟨T, hpub, hperm⟩ := h.order
  have hall : (T ++ Q).Nodup := hpub ▸ List.Nodup.of_map _ h.ids
  have hswap : (Q ++ (W ++ (S ++ D))).Nodup := (perm_append_comm.trans (hperm.append_left Q)).nodup_iff.mp hall
  exact hswap.sublist (((sublist_append_right S D).append_left W).append_left Q)

theorem Flow.asleep (hk : k ∈ Q ++ (W ++ D)) : s.flag k.call.b = true ∧ ∃ p, s.pcs p = .asleep k := (h.flight k).mp hk

theorem Flow.heads (hd : Driver s) :
    ((Q ++ (W ++ D)).map Chain.i0).Nodup ∧ ∀ i ∈ (Q ++ (W ++ D)).map Chain.i0, i < num := by
  refine ⟨h.nodup.map_on (fun k hk l hl heq => ?_), fun i hi => ?_⟩
  · obtain ⟨-, p, hp⟩ := h.asleep hk
    obtain ⟨-, q, hq⟩ := h.asleep hl
    have hpq := hd.owned.head_inj (chainOf_of_asleep hp) (chainOf_of_asleep hq) heq
    rw [hpq, hq] at hp
    exact (Pc.asleep.inj hp).symm
  · obtain ⟨k, hk, rfl⟩ := mem_map.mp hi
    obtain ⟨-, p, hp⟩ := h.asleep hk
    exact (hd.owned.busy p k (chainOf_of_asleep hp) k.i0 (head_mem k)).1

theorem Flow.length_le (hd : Driver s) : (Q ++ (W ++ D)).length ≤ num := by
  obtain ⟨hnodup, hlt⟩ := h.heads hd
  simpa only [length_map] using length_le_num hnodup hlt

theorem Flow.length_lt (hd : Driver s) {i : ℕ} (hi : i < num)
    (hnew : i ∉ (Q ++ (W ++ D)).map Chain.i0) : (Q ++ (W ++ D)).length < num := by
  obtain ⟨hnodup, hlt⟩ := h.heads hd
  have hle := length_le_num (nodup_cons.mpr ⟨hnew, hnodup⟩) (fun j hj => by
    rcases mem_cons.mp hj with rfl | hj
    · exact hi
    · exact hlt j hj)
  rwa [length_cons, length_map] at hle

theorem Flow.queued : (s.disk.availIdx-s.taken).toNat = Q.length := by
  simpa only [Ring.length_window, length_map] using congrArg List.length h.avail

theorem Flow.finished : (s.disk.usedIdx-s.disk.seenIdx).toNat = D.length := by
  simpa only [Ring.length_window, length_map] using congrArg List.length h.used

end

theorem num_dvd : num ∣ 2^16 := by norm_num

theorem Flow.avail_end (h : Flow s Q W D S) : s.taken+BitVec.ofNat 16 Q.length = s.disk.availIdx := by
  rw [← h.queued, Ring.add_count]

theorem Flow.used_end (h : Flow s Q W D S) : s.disk.seenIdx+BitVec.ofNat 16 D.length = s.disk.usedIdx := by
  rw [← h.finished, Ring.add_count]

theorem Flow.move (h : Flow s Q W D S) (hpub : t.published = s.published) (hwork : t.work = s.work)
    (hcom : t.completed = s.completed) (hcl : t.cleared = s.cleared) (hret : t.returned = s.returned)
    (hcalls : s.calls ≤ t.calls)
    (havail : Ring.window t.disk.availRing t.taken (t.disk.availIdx-t.taken).toNat =
      Ring.window s.disk.availRing s.taken (s.disk.availIdx-s.taken).toNat)
    (hused : Ring.window t.disk.usedRing t.disk.seenIdx (t.disk.usedIdx-t.disk.seenIdx).toNat =
      Ring.window s.disk.usedRing s.disk.seenIdx (s.disk.usedIdx-s.disk.seenIdx).toNat)
    (hstatus : ∀ k ∈ D, t.disk.infoStatus k.i0 = s.disk.infoStatus k.i0)
    (hasleep : ∀ q l, t.pcs q = .asleep l ↔ s.pcs q = .asleep l)
    (hflag : ∀ q l, s.pcs q = .asleep l → t.flag l.call.b = s.flag l.call.b)
    (hfresh : ∀ p c, t.callOf p = some c → (∀ k, t.pcs p ≠ .asleep k) →
      ∀ k ∈ s.published, k.call.id ≠ c.id) : Flow t Q W D S where
  order := hpub ▸ h.order
  work := hwork.trans h.work
  completed := hcom.trans h.completed
  cleared := hcl.trans h.cleared
  ids := hpub ▸ h.ids
  below k hk := (h.below k (hpub ▸ hk)).trans_le hcalls
  fresh p c hp hpc k hk := hfresh p c hp hpc k (hpub ▸ hk)
  avail := havail.trans h.avail
  used := hused.trans h.used
  status k hk := (hstatus k hk).trans (h.status k hk)
  flight k := by
    rw [h.flight k]
    constructor
    · rintro ⟨hf, q, hq⟩
      exact ⟨(hflag q k hq).trans hf, q, (hasleep q k).mpr hq⟩
    · rintro ⟨hf, q, hq⟩
      have hq' := (hasleep q k).mp hq
      exact ⟨(hflag q k hq').symm.trans hf, q, hq'⟩
  seen q k hq hf := by
    have hq' := (hasleep q k).mp hq
    exact h.seen q k hq' ((hflag q k hq').symm.trans hf)
  returned := hret ▸ h.returned

end Xv6.Virtio
