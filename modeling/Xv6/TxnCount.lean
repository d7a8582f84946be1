import Xv6.TxnModel

/-! The number of blocks that a write passes to the log. Several turns of its loop may log the
indirect block. -/
namespace Xv6.Txn
open Bytes Hoare Store List

def State.ind (s : State) (i : ℕ) : UInt32 := (s.itab i).din.addrs 12

structure LogsIn (i : ℕ) (S : Finset ℕ) (s u : State) : Prop where
  ind : s.ind i ≠ 0 → u.ind i = s.ind i
  new : ∃ new, u.logged = s.logged ++ new ∧ ∀ x ∈ new, x ∈ S ∨ (u.ind i ≠ 0 ∧ x = (u.ind i).toNat)

variable {sb : Superblock} {i b : ℕ} {S S' : Finset ℕ} {s t u : State} {p : Parts}

theorem LogsIn.refl (S : Finset ℕ) (s : State) : LogsIn i S s s :=
  ⟨fun _ => rfl, [], (append_nil _).symm, fun _ hx => absurd hx not_mem_nil⟩

theorem LogsIn.trans (h : LogsIn i S s t) (h' : LogsIn i S' t u) : LogsIn i (S ∪ S') s u := by
  obtain ⟨new, hnew, hin⟩ := h.new
  obtain ⟨new', hnew', hin'⟩ := h'.new
  refine ⟨fun h0 => ?_, new ++ new', by rw [hnew', hnew, append_assoc], fun x hx => ?_⟩
  · have ht := h.ind h0
    rw [h'.ind (by rw [ht]; exact h0), ht]
  rcases mem_append.mp hx with hx | hx
  · rcases hin x hx with hS | ⟨h0, rfl⟩
    · exact Or.inl (Finset.mem_union_left _ hS)
    · rw [h'.ind h0]
      exact Or.inr ⟨h0, rfl⟩
  · exact (hin' x hx).imp (Finset.mem_union_right _) id

theorem LogsIn.write (hb : b ∈ S) (data : Block) : LogsIn i S s ((s.fill b data).log b) :=
  ⟨fun _ => rfl, [b], rfl, fun _ hx => Or.inl (mem_singleton.mp hx ▸ hb)⟩

section Owned
variable (hg : Geometry sb) (ho : p.Owned sb ∅ ∅) (hl : p.Locked sb i) (hs : At sb p s.toFs)
include hg ho hl hs

variable {bn src off n : ℕ} {mem : ℕ → Option UInt8}

end Owned

theorem bmap_present (hl : (coreParts sb s.toCore).Locked sb i)
    (h0 : (coreParts sb s.toCore).block i bn ≠ 0) (h : bmap sb i bn s = .ok (b, u)) : u = s := by
  rw [Parts.block, hl.loaded.view] at h0
  unfold blockAt at h0
  unfold bmap at h
  by_cases hbn : bn < ndirect
  · rw [if_pos hbn] at h h0
    rcases addrSlot_ok h with ⟨-, -, hu⟩ | ⟨hz, -⟩
    · exact hu
    · exact absurd (congrArg UInt32.toNat hz) h0
  rw [if_neg hbn] at h h0
  by_cases hj : bn-ndirect < nindirect ∧ (s.itab i).din.addrs 12 ≠ 0
  · rw [if_pos hj.1] at h
    obtain ⟨c, v, hc, hv⟩ := run_bind_ok h
    rcases addrSlot_ok hc with ⟨-, rfl, rfl⟩ | ⟨hz, -⟩
    · rcases indirectEntry_ok hv with ⟨-, hu⟩ | ⟨hz, -⟩
      · exact hu
      · exact absurd ((if_pos hj).trans (congrArg UInt32.toNat hz)) h0
    · exact absurd hz hj.2
  · exact absurd (if_neg hj) h0

def span (ps : List Piece) : ℕ := (ps.map (fun c => c.n)).sum

/-- Transactions of filewrite for the bytes from `lo` to `hi` of the buffer at `addr`: each fits
its reservation, they come in order, and they end at `hi` unless one of them fails. -/
structure Tiles (addr lo hi : ℕ) (ps : List Piece) : Prop where
  fits : ∀ c ∈ ps, 0 < c.n ∧ c.n ≤ opMax ∧ c.logged.toFinset.card ≤ maxOpBlocks
  order : ∀ pre c post, ps = pre ++ c :: post → c.src = addr+lo+span pre
  le : lo+span ps ≤ hi
  all : (∀ c ∈ ps, c.ret = some c.n) → lo+span ps = hi

variable {addr lo hi ip : ℕ} {c : Piece} {ps : List Piece}

theorem Tiles.nil : Tiles addr lo lo [] := by
  refine ⟨fun _ h => absurd h not_mem_nil, fun pre c post h => ?_, le_rfl, fun _ => rfl⟩
  exact absurd h.symm (append_ne_nil_of_right_ne_nil _ (cons_ne_nil c post))

section
variable (hfits : 0 < c.n ∧ c.n ≤ opMax ∧ c.logged.toFinset.card ≤ maxOpBlocks) (hsrc : c.src = addr+lo)
include hfits hsrc

theorem Tiles.cons (h : Tiles addr (lo+c.n) hi ps) : Tiles addr lo hi (c :: ps) := by
  have hspan (ps : List Piece) : span (c :: ps) = c.n+span ps := by rw [span, map_cons, sum_cons, span]
  refine ⟨fun c' hc' => ?_, fun pre c' post heq => ?_, ?_, fun hall => ?_⟩
  · rcases mem_cons.mp hc' with rfl | hc'
    · exact hfits
    · exact h.fits c' hc'
  · cases pre with
    | nil =>
      obtain ⟨rfl, -⟩ := List.cons.inj heq
      exact hsrc
    | cons d pre =>
      obtain ⟨rfl, hps⟩ := List.cons.inj heq
      rw [h.order pre c' post hps, hspan]
      omega
  · have := h.le
    rw [hspan]
    omega
  · have := h.all (fun c' hc' => hall c' (mem_cons_of_mem _ hc'))
    rw [hspan]
    omega

end

end Xv6.Txn
