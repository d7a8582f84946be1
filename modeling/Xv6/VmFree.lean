import Xv6.VmMap

/-! freewalk and uvmfree: the pages of a table without mappings go back to the allocator. -/
namespace Xv6.Vm
open Hoare Radix List
variable {m : Machine} {s t u : Ram} {R : Multiset ℕ} {l pt n : ℕ}

theorem bare_of_none (h : ∀ k < 2^39, pteOf s pt k = none) : Bare sv39 s.word 2 pt := by
  intro i2 h2 i1 h1 i0 h0
  have hi0 := i0.isLt
  have hi1 := i1.isLt
  have hi2 := i2.isLt
  obtain ⟨k, hk⟩ : ∃ k, k = i2.val*2^30+i1.val*2^21+i0.val*2^12 := ⟨_, rfl⟩
  have hd2 : sv39.digit 2 k = i2 := Fin.ext (by
    change k/2^30%512 = i2.val
    omega)
  have hd1 : sv39.digit 1 k = i1 := Fin.ext (by
    change k/2^21%512 = i1.val
    omega)
  have hd0 : sv39.digit 0 k = i0 := Fin.ext (by
    change k/2^12%512 = i0.val
    omega)
  have hnone := h k (by omega)
  rw [← hd2] at h2 h1 h0
  rw [← hd1] at h1 h0
  rw [← hd0] at h0
  rw [pteOf, look_valid h2, look_valid h1, look_zero, Option.filter_eq_none_iff] at hnone
  exact hnone _ rfl h0

variable {free : ℕ → M Unit}

theorem freeEntry_invalid {i : Fin 512} (h : ¬sv39.valid (s.word pt i) = true) :
    freeEntry free pt i s = .ok ((), s) := by
  have hv : s.word pt i &&& pteV = 0 := not_not.mp (fun hne => h (valid_iff_and.mpr hne))
  rw [freeEntry, run_bind (readWord_run pt i s), if_neg (fun hne => hne.1 hv), if_neg (not_not.mpr hv)]
  rfl

theorem freeLeaves (h : ∀ i, ¬sv39.valid (s.word pt i) = true) (js : List (Fin 512)) :
    js.forM (freeEntry free pt) s = .ok ((), s) := by
  induction js with
  | nil => rfl
  | cons j js ih => rw [run_forM_cons (freeEntry_invalid (h j)), ih]

/-- What is left to free of a table in the loop of freewalk: the table itself and the subtables under
the entries `js`, which are as they were in `s`. -/
structure FreeRest (m : Machine) (R : Multiset ℕ) (l pt : ℕ) (s u : Ram) (js : List (Fin 512)) : Prop where
  heap : Heap m u (pt ::ₘ ((js.map (branch sv39 s.word l pt)).sum+R))
  entry : ∀ j ∈ js, u.word pt j = s.word pt j
  below : ∀ j ∈ js, ∀ q ∈ branch sv39 s.word l pt j, u.word q = s.word q

theorem FreeRest.tail {j : Fin 512} {js : List (Fin 512)} (h : FreeRest m R l pt s u (j :: js))
    (hv : ¬sv39.valid (s.word pt j) = true) : FreeRest m R l pt s u js := by
  refine ⟨?_, fun i hi => h.entry i (mem_cons_of_mem j hi), fun i hi => h.below i (mem_cons_of_mem j hi)⟩
  have hheap := h.heap
  rwa [map_cons, sum_cons, branch_invalid hv, zero_add] at hheap

theorem FreeRest.turn {j : Fin 512} {js : List (Fin 512)} (h : FreeRest m R l pt s u (j :: js)) (hnd : (j :: js).Nodup)
    (ht : Heap m t (pt ::ₘ ((js.map (branch sv39 s.word l pt)).sum+R)))
    (hk : Keeps (pt ::ₘ ((js.map (branch sv39 s.word l pt)).sum+R)) u t) :
    FreeRest m R l pt s (t.setWord pt j 0) js ∧ Keeps R u (t.setWord pt j 0) := by
  have hpt := Multiset.mem_cons_self pt ((js.map (branch sv39 s.word l pt)).sum+R)
  have hout := (Multiset.nodup_cons.mp ht.nodup).1
  rw [Multiset.mem_add, not_or] at hout
  refine ⟨⟨ht.setWord hpt j 0, fun i hi => ?_, fun i hi q hq => ?_⟩, ?_⟩
  · have hij : i ≠ j := fun he => (nodup_cons.mp hnd).1 (he ▸ hi)
    exact (write_entry hij 0).trans ((congrFun (hk.word pt hpt) i).trans (h.entry i (mem_cons_of_mem j hi)))
  · have hsum : q ∈ (js.map (branch sv39 s.word l pt)).sum :=
      Multiset.mem_of_le (single_le_sum (fun _ _ => Multiset.zero_le _) _ (mem_map_of_mem hi)) hq
    have hqpt : q ≠ pt := fun he => hout.1 (he ▸ hsum)
    refine (write_node hqpt 0).trans ((hk.word q ?_).trans (h.below i (mem_cons_of_mem j hi) q hq))
    exact Multiset.mem_cons_of_mem (Multiset.mem_add.mpr (Or.inl hsum))
  · refine (hk.mono (fun q hq => ?_)).trans (Keeps.setWord hout.2 j 0)
    exact Multiset.mem_cons_of_mem (Multiset.mem_add.mpr (Or.inr hq))

theorem freeEntry_plain {i : Fin 512} (hv : sv39.valid (s.word pt i) = true)
    (hp : Plain (s.word pt i)) (hfree : free (pte2pa (s.word pt i)) s = .ok ((), t)) :
    freeEntry free pt i s = .ok ((), t.setWord pt i 0) := by
  rw [freeEntry, run_bind (readWord_run pt i s), if_pos ⟨valid_iff_and.mp hv, hp⟩, run_bind hfree]
  rfl

/-- freewalk gives all pages of a table without mappings back. -/
theorem freewalk_spec (h : Heap m s (nodes sv39 s.word l pt+R)) (hbare : Bare sv39 s.word l pt)
    (hinner : Inner sv39 s.word Plain l pt) :
    ∃ t, freewalk m (l+1) pt s = .ok ((), t) ∧ Keeps R s t ∧ Heap m t R := by
  induction l generalizing pt s R with
  | zero =>
    rw [nodes_zero, Multiset.singleton_add] at h
    obtain ⟨t, ht, hk, hheap⟩ := kfree_spec h
    exact ⟨t, (run_bind (freeLeaves hbare _) _).trans ht, hk, hheap⟩
  | succ l ih =>
    -- the loop over the entries, by induction on those that are left
    have hloop (js : List (Fin 512)) (hnd : js.Nodup) (u : Ram) (hu : FreeRest m R l pt s u js) :
        ∃ t, js.forM (freeEntry (freewalk m (l+1)) pt) u = .ok ((), t) ∧ Keeps R u t ∧ Heap m t (pt ::ₘ R) := by
      induction js generalizing u with
      | nil =>
        refine ⟨u, rfl, Keeps.refl R u, ?_⟩
        simpa only [map_nil, sum_nil, zero_add] using hu.heap
      | cons j js ihj =>
        have hent := hu.entry j mem_cons_self
        by_cases hv : sv39.valid (s.word pt j) = true
        · have hbelow := hu.below j mem_cons_self
          rw [branch_valid hv] at hbelow
          have hheap := hu.heap
          rw [map_cons, sum_cons, branch_valid hv, ← nodes_congr hbelow, add_assoc, ← Multiset.add_cons] at hheap
          obtain ⟨t, ht, hk, hheap'⟩ := ih hheap ((hbare j hv).congr hbelow) ((hinner j hv).2.congr hbelow)
          obtain ⟨hrest, hkeep⟩ := hu.turn hnd hheap' hk
          rw [← hent] at hv
          have hturn := freeEntry_plain hv (hent ▸ (hinner j (hent ▸ hv)).1) (hent ▸ ht)
          obtain ⟨v, hrun, hkv, hheapv⟩ := ihj (nodup_cons.mp hnd).2 _ hrest
          exact ⟨v, (run_forM_cons hturn js).trans hrun, hkeep.trans hkv, hheapv⟩
        · have hturn : freeEntry (freewalk m (l+1)) pt j u = .ok ((), u) := freeEntry_invalid (by rwa [hent])
          obtain ⟨v, hrun, hkv, hheapv⟩ := ihj (nodup_cons.mp hnd).2 u (hu.tail hv)
          exact ⟨v, (run_forM_cons hturn js).trans hrun, hkv, hheapv⟩
    have hstart : FreeRest m R l pt s s (List.finRange 512) := by
      refine ⟨?_, fun _ _ => rfl, fun _ _ _ _ => rfl⟩
      rw [← Fin.sum_univ_def, ← Multiset.cons_add, ← nodes_succ]
      exact h
    obtain ⟨u, hrun, hk, hheap⟩ := hloop _ (nodup_finRange 512) s hstart
    obtain ⟨t, ht, hk', hheap'⟩ := kfree_spec hheap
    exact ⟨t, (run_bind hrun _).trans ht, hk.trans hk', hheap'⟩

end Xv6.Vm
