import Xv6.VmModel

/-! walk and the entries of page tables: a page table is a radix tree in physical memory, and
walk descends in it. -/
namespace Xv6.Vm
open Hoare Radix

/-- The tables of Sv39, with virtual addresses as keys. -/
def sv39 : Format 512 ℕ ℕ := ⟨fun pte => decide (pte &&& pteV ≠ 0), pte2pa, px⟩

/-- An entry that freewalk takes for a reference to a table. -/
def Plain (pte : ℕ) : Prop := pte &&& (pteR ||| pteW ||| pteX) = 0

section Entry
variable {pte pa perm va va' : ℕ}

theorem valid_iff : sv39.valid pte = true ↔ pte%2 = 1 := by
  rw [sv39, pteV, decide_eq_true_eq, Nat.and_one_is_mod]
  omega

theorem valid_iff_and : sv39.valid pte = true ↔ pte &&& pteV ≠ 0 := decide_eq_true_iff

theorem pte_eq (hperm : perm < 2^10) : pa2pte pa ||| perm ||| pteV = pa/2^12*2^10+(perm ||| pteV) := by
  rw [pa2pte, Nat.or_assoc, Nat.mul_comm]
  exact (Nat.two_pow_add_eq_or_of_lt (Nat.or_lt_two_pow hperm (by decide)) _).symm

theorem pte2pa_pte (hpa : pa < 2^64) (hperm : perm < 2^10) : pte2pa (pa2pte pa ||| perm ||| pteV) = pgrounddown pa := by
  have hor : perm ||| pteV < 2^10 := Nat.or_lt_two_pow hperm (by decide)
  rw [pte_eq hperm, pte2pa, pgrounddown, pgsize]
  omega

theorem pteFlags_pte (hperm : perm < 2^10) : pteFlags (pa2pte pa ||| perm ||| pteV) = perm ||| pteV := by
  have hor : perm ||| pteV < 2^10 := Nat.or_lt_two_pow hperm (by decide)
  rw [pte_eq hperm, pteFlags]
  omega

theorem valid_pte (a : ℕ) : sv39.valid (a ||| pteV) = true := by
  rw [valid_iff, pteV, Nat.or_mod_two_eq_one]
  exact Or.inr rfl

theorem and_flags {c : ℕ} (hc : c < 2^10) : pte &&& c = pteFlags pte &&& c := by
  have hmask : c = 2^10-1 &&& c := by rw [Nat.and_comm, Nat.and_two_pow_sub_one_eq_mod, Nat.mod_eq_of_lt hc]
  rw [hmask, ← Nat.and_assoc, Nat.and_two_pow_sub_one_eq_mod, ← hmask, pteFlags]

theorem pte2pa_table (h : pa%pgsize = 0) (hlt : pa < 2^64) : pte2pa (pa2pte pa ||| pteV) = pa := by
  have hpte := pte2pa_pte hlt (by decide : 0 < 2^10)
  rw [Nat.or_zero] at hpte
  rw [hpte, pgrounddown]
  exact Nat.div_mul_cancel (Nat.dvd_of_mod_eq_zero h)

theorem plain_table : Plain (pa2pte pa ||| pteV) := by
  have hflags := @pteFlags_pte pa 0 (by decide)
  rw [Nat.or_zero] at hflags
  rw [Plain, and_flags (by decide), hflags]
  decide

theorem same_iff (h : va < 2^39) (h' : va' < 2^39) : Same sv39 2 va va' ↔ va/pgsize = va'/pgsize := by
  rw [pgsize]
  constructor
  · intro hs
    have h0 := congrArg Fin.val (hs 0 (by omega))
    have h1 := congrArg Fin.val (hs 1 (by omega))
    have h2 := congrArg Fin.val (hs 2 (by omega))
    change va/2^12%512 = va'/2^12%512 at h0
    change va/2^21%512 = va'/2^21%512 at h1
    change va/2^30%512 = va'/2^30%512 at h2
    omega
  · intro he j _
    apply Fin.ext
    change va/2^(12+9*j)%512 = va'/2^(12+9*j)%512
    rw [Nat.pow_add, ← Nat.div_div_eq_div_mul, ← Nat.div_div_eq_div_mul]
    exact congrArg (fun n => n/2^(9*j)%512) he

end Entry

/-- A table after a change to its mappings: it may have more pages, and it has its pages for
itself. The pages in `R` are in use for other things. -/
structure Changed (m : Machine) (R : Multiset ℕ) (l pt : ℕ) (s t : Ram) : Prop where
  heap : Heap m t (nodes sv39 t.word l pt+R)
  keeps : Keeps R s t
  le : nodes sv39 s.word l pt ≤ nodes sv39 t.word l pt
  inner : Inner sv39 s.word Plain l pt → Inner sv39 t.word Plain l pt

/-- What walk may do to a table: new tables below it, that map nothing. -/
structure Grown (m : Machine) (R : Multiset ℕ) (l pt : ℕ) (s t : Ram) : Prop extends Changed m R l pt s t where
  look : ∀ k, look sv39 t.word l pt k = look sv39 s.word l pt k

variable {m : Machine} {s t u : Ram} {R : Multiset ℕ} {l pt va : ℕ}

theorem Grown.refl (h : Heap m s (nodes sv39 s.word l pt+R)) : Grown m R l pt s s :=
  ⟨⟨h, Keeps.refl R s, le_rfl, id⟩, fun _ => rfl⟩

theorem Grown.of_branch {i : Fin 512} (hv : sv39.valid (s.word pt i) = true)
    (h : Grown m (rest sv39 s.word l pt i+R) l (pte2pa (s.word pt i)) s t) :
    Grown m R (l+1) pt s t ∧ t.word pt = s.word pt ∧
    nodes sv39 t.word (l+1) pt+R = nodes sv39 t.word l (pte2pa (s.word pt i))+(rest sv39 s.word l pt i+R) := by
  have hkeep := h.keeps.left.word
  have hoff := Off.of_rest hkeep
  have hpt := hkeep pt self_mem_rest
  have hv' : sv39.valid (t.word pt i) = true := by rwa [hpt]
  have hnodes : nodes sv39 t.word (l+1) pt = rest sv39 s.word l pt i+nodes sv39 t.word l (pte2pa (s.word pt i)) := by
    rw [nodes_split i, rest_off hoff, branch_valid hv', hpt]
    rfl
  have hsum : nodes sv39 t.word (l+1) pt+R =
      nodes sv39 t.word l (pte2pa (s.word pt i))+(rest sv39 s.word l pt i+R) := by
    rw [hnodes, add_comm (rest sv39 s.word l pt i), add_assoc]
  refine ⟨⟨⟨hsum ▸ h.heap, h.keeps.right, ?_, fun hin => hin.off hoff (fun _ => ?_)⟩, fun k => ?_⟩, hpt, hsum⟩
  · rw [hnodes, nodes_split i, branch_valid hv]
    exact Multiset.add_le_add_iff_left.mpr h.le
  · rw [hpt]
    exact ⟨(hin i hv).1, h.inner (hin i hv).2⟩
  by_cases hk : sv39.digit (l+1) k = i
  · rw [look_valid (by rwa [hk]), look_valid (by rwa [hk]), hk, hpt]
    exact h.look k
  · exact look_off hoff hk

theorem Changed.trans (h : Changed m R l pt s t) (h' : Changed m R l pt t u) : Changed m R l pt s u :=
  ⟨h'.heap, h.keeps.trans h'.keeps, h.le.trans h'.le, fun hin => h'.inner (h.inner hin)⟩

theorem Grown.trans (h : Grown m R l pt s t) (h' : Grown m R l pt t u) : Grown m R l pt s u :=
  ⟨h.toChanged.trans h'.toChanged, fun k => (h'.look k).trans (h.look k)⟩

theorem Grown.graft {i : Fin 512} {q : ℕ} (hk : Keeps (nodes sv39 s.word (l+1) pt+R) s t)
    (hheap : Heap m t (q ::ₘ (nodes sv39 s.word (l+1) pt+R))) (hv : ¬sv39.valid (s.word pt i) = true) :
    Grown m R (l+1) pt s ((t.setPage q (filled 0)).setWord pt i (pa2pte q ||| pteV)) := by
  have hnodes : nodes sv39 t.word (l+1) pt = nodes sv39 s.word (l+1) pt := nodes_congr hk.left.word
  rw [← hnodes] at hheap
  have hnd := hheap.nodup
  rw [Multiset.nodup_cons, Multiset.nodup_add, Multiset.mem_add, not_or] at hnd
  obtain ⟨⟨hqt, hqR⟩, hndt, -, hdis⟩ := hnd
  have hptR : pt ∉ R := fun h => Multiset.disjoint_left.mp hdis self_mem_nodes h
  have hvt : ¬sv39.valid (t.word pt i) = true := by rwa [hk.left.word pt self_mem_nodes]
  obtain ⟨hal, -, hlt⟩ := pages_mem (hheap.mem_pages (Multiset.mem_cons_self q _))
  have hstop := m.phystop_lt
  have hblank (j : Fin 512) : ¬sv39.valid (filled 0 j) = true := by
    rw [valid_iff, filled]
    omega
  obtain ⟨hnew, hlook, hinner⟩ := @Radix.graft _ _ _ sv39 t.word l pt q i Plain (filled 0)
    (pa2pte q ||| pteV) hndt hqt hvt hblank (valid_pte _) (pte2pa_table hal (by omega))
  refine ⟨⟨?_, ?_, ?_, fun hin => hinner (hin.congr hk.left.word) plain_table⟩, fun k => ?_⟩
  · have hsum : q ::ₘ (nodes sv39 t.word (l+1) pt+R) = nodes sv39 t.word (l+1) pt+{q}+R := by
      rw [← Multiset.singleton_add, add_left_comm, add_assoc]
    have hmem := Multiset.mem_cons_of_mem (a := pt) (b := q)
      (Multiset.mem_add.mpr (Or.inl self_mem_nodes) : pt ∈ nodes sv39 t.word (l+1) pt+R)
    have hset := (hheap.setPage (Multiset.mem_cons_self q _) (filled 0)).setWord hmem i (pa2pte q ||| pteV)
    rw [hsum, ← hnew] at hset
    exact hset
  · exact hk.right.trans ((Keeps.setPage hqR _).trans (Keeps.setWord hptR _ _))
  · rw [← hnodes]
    exact (Multiset.le_add_right _ _).trans (le_of_eq hnew.symm)
  · exact (hlook k).trans (look_congr hk.left.word k)

theorem readWord_run (pa : ℕ) (i : Fin 512) (s : Ram) : readWord pa i s = .ok (s.word pa i, s) := rfl

theorem walkFrom_false (s : Ram) :
    walkFrom va false l pt s = .ok ((slot sv39 s.word l pt va).map (fun q => (q, px 0 va)), s) := by
  induction l generalizing pt with
  | zero => rfl
  | succ l ih =>
    rw [walkFrom, run_bind (readWord_run pt _ s)]
    by_cases hv : s.word pt (px (l+1) va) &&& pteV ≠ 0
    · rw [if_pos hv, ih, slot_valid (valid_iff_and.mpr hv)]
      rfl
    · rw [if_neg hv, if_pos rfl, slot_invalid (fun h => hv (valid_iff_and.mp h))]
      rfl

/-- walk with alloc: it grows the table, and it fails only if kalloc does. -/
theorem walkFrom_true (h : Heap m s (nodes sv39 s.word l pt+R)) :
    ∃ r t, walkFrom va true l pt s = .ok (r, t) ∧ Grown m R l pt s t ∧
      ((∃ q, r = some (q, px 0 va) ∧ slot sv39 t.word l pt va = some q) ∨
        (r = none ∧ (s.refuse = [] → nodes sv39 t.word l pt+R = m.pages))) := by
  induction l generalizing pt s R with
  | zero => exact ⟨_, s, rfl, Grown.refl h, Or.inl ⟨pt, rfl, rfl⟩⟩
  | succ l ih =>
    rw [walkFrom, run_bind (readWord_run pt _ s)]
    by_cases hv : s.word pt (px (l+1) va) &&& pteV ≠ 0
    · rw [if_pos hv]
      have hvalid := valid_iff_and.mpr hv
      rw [nodes_split (px (l+1) va), branch_valid hvalid, add_comm (rest _ _ _ _ _), add_assoc] at h
      obtain ⟨r, t, hrun, hgrown, hres⟩ := ih h
      obtain ⟨hup, hpt, hsum⟩ := hgrown.of_branch hvalid
      refine ⟨r, t, hrun, hup, hres.imp (fun ⟨q, hr, hq⟩ => ⟨q, hr, ?_⟩) (fun ⟨hr, hall⟩ => ⟨hr, ?_⟩)⟩
      · rw [slot_valid (by rwa [hpt]), hpt]
        exact hq
      · rw [hsum]
        exact hall
    · rw [if_neg hv, if_neg (by decide)]
      have hinvalid : ¬sv39.valid (s.word pt (px (l+1) va)) = true := fun h => hv (valid_iff_and.mp h)
      obtain ⟨q, t, hkalloc, hkeeps, hq⟩ := kalloc_spec h
      rw [run_bind hkalloc]
      rcases hq with ⟨rfl, hheap, hall⟩ | ⟨h0, hheap⟩
      · rw [if_pos rfl]
        have hnodes := nodes_congr hkeeps.left.word
        refine ⟨none, t, rfl, ⟨⟨hnodes ▸ hheap, hkeeps.right, le_of_eq hnodes.symm,
          fun hin => hin.congr hkeeps.left.word⟩, look_congr hkeeps.left.word⟩,
          Or.inr ⟨rfl, fun hr => ?_⟩⟩
        rw [hnodes]
        exact hall hr
      rw [if_neg h0]
      have hgraft := Grown.graft hkeeps hheap hinvalid
      obtain ⟨u, hu⟩ : ∃ u, u = (t.setPage q (filled 0)).setWord pt (px (l+1) va) (pa2pte q ||| pteV) := ⟨_, rfl⟩
      obtain ⟨hal, -, hlt⟩ := pages_mem (hheap.mem_pages (Multiset.mem_cons_self q _))
      have hstop := m.phystop_lt
      have hent : u.word pt (px (l+1) va) = pa2pte q ||| pteV := by
        rw [hu]
        exact write_self _
      have hnext : pte2pa (u.word pt (px (l+1) va)) = q := by rw [hent, pte2pa_table hal (by omega)]
      have hvalid : sv39.valid (u.word pt (px (l+1) va)) = true := by
        rw [hent]
        exact valid_pte _
      rw [← hu] at hgraft
      have hbelow := hgraft.heap
      rw [nodes_split (px (l+1) va), branch_valid hvalid, add_comm (rest _ _ _ _ _), add_assoc] at hbelow
      obtain ⟨r, v, hrun, hgrown, hres⟩ := ih hbelow
      obtain ⟨hup, hpt, hsum⟩ := hgrown.of_branch hvalid
      have hfirst : (memset q 0 >>= fun _ => writeWord pt (px (l+1) va) (pa2pte q ||| pteV) >>=
          fun _ => walkFrom va true l q) t = walkFrom va true l q u := by
        rw [hu]
        rfl
      have hrun' : walkFrom va true l q u = .ok (r, v) := by
        rw [← hrun]
        exact congrArg (fun p => walkFrom va true l p u) hnext.symm
      refine ⟨r, v, hfirst.trans hrun', hgraft.trans hup,
        hres.imp (fun ⟨q, hr, hq⟩ => ⟨q, hr, ?_⟩) (fun ⟨hr, hall⟩ => ⟨hr, fun hnil => ?_⟩)⟩
      · rw [slot_valid (by rwa [hpt]), hpt]
        exact hq
      · rw [hsum]
        exact hall (hgraft.keeps.refuse hnil)

end Xv6.Vm
