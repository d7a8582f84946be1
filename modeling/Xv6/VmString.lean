import Xv6.VmCopy

/-! copyinstr and fetchstr: the string at a user address, up to its NUL. -/
namespace Xv6.Vm
open Hoare Radix Bytes List

variable {s : Ram} {pt a p n max fuel k : ℕ} {bs : List UInt8}

/-- At `a` there are `k` bytes of user memory other than NUL, and then a NUL. -/
def StringAt (s : Ram) (pt a k : ℕ) : Prop :=
  (∀ i < k, ∃ b, userByte s pt ((a+i)%2^64) = some b ∧ b ≠ 0) ∧ userByte s pt ((a+k)%2^64) = some 0

theorem strLoop_spec (s : Ram) (n p : ℕ) : ∃ bs b, strLoop n p s = .ok ((bs, b), s) ∧ bs = load s.byte p bs.length ∧
      ((b = true ∧ bs.length ≤ n ∧ ∃ cs, bs = cs ++ [0] ∧ 0 ∉ cs) ∨ (b = false ∧ bs.length = n ∧ 0 ∉ bs)) := by
  induction n generalizing p with
  | zero => exact ⟨[], false, rfl, rfl, Or.inr ⟨rfl, rfl, not_mem_nil⟩⟩
  | succ n ih =>
    have hstart : strLoop (n+1) p s = (if s.byte p = 0 then return ([0], true) else do
        let r ← strLoop n (p+1)
        return (s.byte p :: r.1, r.2) : M (List UInt8 × Bool)) s := rfl
    have hload (len : ℕ) : load s.byte p (len+1) = s.byte p :: load s.byte (p+1) len := by
      rw [Nat.add_comm len, load_append]
      rfl
    rw [hstart]
    by_cases h0 : s.byte p = 0
    · rw [if_pos h0]
      refine ⟨[0], true, rfl, ?_, Or.inl ⟨rfl, Nat.succ_pos n, [], rfl, not_mem_nil⟩⟩
      rw [length_singleton, hload, h0]
      rfl
    obtain ⟨bs, b, hrun, hbs, hb⟩ := ih (p+1)
    rw [if_neg h0, run_bind hrun]
    refine ⟨s.byte p :: bs, b, rfl, ?_, hb.imp (fun ⟨hb, hn, cs, hcs, h0cs⟩ => ⟨hb, ?_, s.byte p :: cs, ?_, ?_⟩)
      (fun ⟨hb, hn, h0bs⟩ => ⟨hb, ?_, ?_⟩)⟩
    · rw [length_cons, hload, ← hbs]
    · exact Nat.succ_le_succ hn
    · rw [hcs, cons_append]
    · exact not_mem_cons_of_ne_of_not_mem (Ne.symm h0) h0cs
    · rw [length_cons, hn]
    · exact not_mem_cons_of_ne_of_not_mem (Ne.symm h0) h0bs

/-- What copyinstr stores: bytes of user memory, up to a NUL if it returns 0; if it returns -1 there is
no NUL among them, and the room or the mapped memory ends after them. -/
structure Fetched (s : Ram) (pt a max : ℕ) (r : ℤ) (bs : List UInt8) : Prop where
  bytes : userBytes s pt a bs.length = bs.map some
  fits : bs.length ≤ max
  result : (r = 0 ∧ ∃ cs, bs = cs ++ [0] ∧ 0 ∉ cs) ∨
    (r = -1 ∧ 0 ∉ bs ∧ (bs.length = max ∨ ¬UserMapped s pt ((a+bs.length)%2^64)))

theorem copyinstrLoop_spec (hs : ∀ va, userFrame s pt va ≠ some 0) (ha : a < 2^64) (hfuel : max ≤ fuel) :
    ∃ r bs, copyinstrLoop pt fuel a max s = .ok ((r, bs), s) ∧ Fetched s pt a max r bs := by
  induction fuel generalizing a max with
  | zero =>
    obtain rfl := Nat.le_zero.mp hfuel
    exact ⟨-1, [], rfl, rfl, le_rfl, Or.inr ⟨rfl, not_mem_nil, Or.inl rfl⟩⟩
  | succ fuel ih =>
    by_cases hzero : max = 0
    · subst hzero
      exact ⟨-1, [], rfl, rfl, le_rfl, Or.inr ⟨rfl, not_mem_nil, Or.inl rfl⟩⟩
    rw [copyinstrLoop, if_neg hzero, run_bind (walkaddr_user s pt a)]
    cases hf : userFrame s pt a with
    | none =>
      refine ⟨-1, [], rfl, rfl, Nat.zero_le _, Or.inr ⟨rfl, not_mem_nil, Or.inr ?_⟩⟩
      rw [length_nil, Nat.add_zero, Nat.mod_eq_of_lt ha, UserMapped, hf]
      exact Bool.false_ne_true
    | some f =>
      have hlt := userFrame_lt hf
      obtain ⟨bs, b, hrun, hbs, hb⟩ := strLoop_spec s (min (pgsize-a%pgsize) max) (f+a%pgsize)
      have hlen : bs.length ≤ min (pgsize-a%pgsize) max := hb.elim (fun h => h.2.1) (fun h => h.2.1.le)
      have hpage : userBytes s pt a bs.length = bs.map some := by
        rw [userBytes_page hf (hlen.trans (Nat.min_le_left _ _))]
        exact congrArg (List.map some) hbs.symm
      rw [Option.getD_some, if_neg (fun h0 : f = 0 => hs a (h0 ▸ hf)), run_bind hrun]
      rcases hb with ⟨rfl, -, hcs⟩ | ⟨rfl, hfull, h0⟩
      · exact ⟨0, bs, rfl, hpage, hlen.trans (Nat.min_le_right _ _), Or.inl ⟨rfl, hcs⟩⟩
      -- the page or the room is used up without a NUL
      rw [next_page_start hlt]
      by_cases hfit : max ≤ pgsize-a%pgsize
      · rw [Nat.min_eq_right hfit] at hfull
        have hdone : copyinstrLoop pt fuel (a+(pgsize-a%pgsize)) (max-bs.length) s = .ok ((-1, []), s) := by
          rw [hfull, Nat.sub_self]
          cases fuel <;> rfl
        refine ⟨-1, bs ++ [], run_bind hdone _, ?_⟩
        rw [append_nil]
        exact ⟨hpage, hfull.le, Or.inr ⟨rfl, h0, Or.inl hfull⟩⟩
      rw [Nat.min_eq_left (Nat.le_of_not_le hfit)] at hfull
      have hroom : 0 < pgsize-a%pgsize := Nat.sub_pos_of_lt (Nat.mod_lt _ (by decide))
      obtain ⟨r, cs, hrest, hcs, hfits, hr⟩ := @ih (a+(pgsize-a%pgsize)) (max-bs.length)
        (by rw [maxva] at hlt; rw [pgsize]; omega) (by omega)
      refine ⟨r, bs ++ cs, run_bind hrest _, ?_, ?_, hr.imp (fun h => ⟨h.1, ?_⟩)
        (fun h => ⟨h.1, ?_, h.2.2.imp (fun _ => ?_) (fun _ => ?_)⟩)⟩
      · rw [length_append, userBytes_add, hpage, hfull, hcs, map_append]
      · rw [length_append]
        omega
      · obtain ⟨ds, hds, h0ds⟩ := h.2
        refine ⟨bs ++ ds, by rw [hds, append_assoc], ?_⟩
        rw [mem_append, not_or]
        exact ⟨h0, h0ds⟩
      · rw [mem_append, not_or]
        exact ⟨h0, h.2.1⟩
      · rw [length_append]
        omega
      · rwa [length_append, ← Nat.add_assoc, hfull]

theorem copyinstr_spec (hs : ∀ va, userFrame s pt va ≠ some 0) (ha : a < 2^64) (max : ℕ) :
    ∃ r bs, copyinstr pt a max s = .ok ((r, bs), s) ∧ Fetched s pt a max r bs :=
  copyinstrLoop_spec hs ha le_rfl

theorem userBytes_get (h : userBytes s pt a bs.length = bs.map some) {i : ℕ} (hi : i < bs.length) :
    userByte s pt ((a+i)%2^64) = some bs[i] := by
  have hget := congrArg (fun l => l[i]?) h
  simp only [userBytes, List.getElem?_map, List.getElem?_range hi, List.getElem?_eq_getElem hi, Option.map_some] at hget
  have hbyte := Option.some.inj hget
  have hlt := (userMapped_of_byte hbyte).lt
  rw [maxva] at hlt
  rw [Nat.mod_eq_of_lt (by omega), hbyte]

theorem Fetched.stringAt (h : Fetched s pt a max 0 bs) : ∃ k, bs.length = k+1 ∧ StringAt s pt a k := by
  rcases h.result with ⟨-, cs, rfl, h0⟩ | ⟨hr, -⟩
  · have hget (i : ℕ) (hi : i < (cs ++ [0]).length) := userBytes_get h.bytes hi
    refine ⟨cs.length, length_append, fun i hi => ⟨cs[i], ?_, ?_⟩, ?_⟩
    · rw [hget i (by rw [length_append]; omega), getElem_append_left hi]
    · exact fun hc => h0 (hc ▸ getElem_mem hi)
    · rw [hget cs.length (by rw [length_append]; exact Nat.lt_succ_self _), getElem_append_right (le_refl _)]
      simp only [Nat.sub_self, getElem_cons_zero]
  · omega

theorem Fetched.of_stringAt {r : ℤ} (h : Fetched s pt a max r bs) (hk : StringAt s pt a k) (hmax : k < max) :
    r = 0 := by
  rcases h.result with ⟨hr, -⟩ | ⟨-, h0, hend⟩
  · exact hr
  exfalso
  by_cases hin : k < bs.length
  · have hget := userBytes_get h.bytes hin
    rw [hk.2] at hget
    exact h0 (Option.some.inj hget ▸ getElem_mem hin)
  rcases hend with hfull | hbad
  · omega
  apply hbad
  rcases Nat.lt_or_eq_of_le (not_lt.mp hin) with hlt | heq
  · obtain ⟨b, hb, -⟩ := hk.1 bs.length hlt
    exact userMapped_of_byte hb
  · rw [heq]
    exact userMapped_of_byte hk.2

theorem StringAt.unique {k' : ℕ} (h : StringAt s pt a k) (h' : StringAt s pt a k') : k = k' := by
  rcases Nat.lt_trichotomy k k' with hlt | heq | hlt
  · obtain ⟨b, hb, hne⟩ := h'.1 k hlt
    rw [h.2] at hb
    exact absurd (Option.some.inj hb).symm hne
  · exact heq
  · obtain ⟨b, hb, hne⟩ := h.1 k' hlt
    rw [h'.2] at hb
    exact absurd (Option.some.inj hb).symm hne

theorem Fetched.strlen (h : Fetched s pt a max 0 bs) : strlen bs+1 = bs.length := by
  rcases h.result with ⟨-, cs, rfl, h0⟩ | ⟨hr, -⟩
  · have htake : (cs ++ [0]).takeWhile (· ≠ 0) = cs := by
      rw [takeWhile_append_of_pos (fun b hb => ?_)]
      · rw [takeWhile_cons_of_neg (by decide), append_nil]
      · exact decide_eq_true (fun hb0 => h0 (hb0 ▸ hb))
    rw [Vm.strlen, htake, length_append]
    rfl
  · omega

/-- fetchstr returns the length of the string if there is one that fits. -/
theorem fetchstr_spec (hs : ∀ va, userFrame s pt va ≠ some 0) (ha : a < 2^64) (m : ℤ) :
    ∃ r bs, fetchstr pt a m s = .ok ((r, bs), s) ∧ ((r = -1 ∧ ∀ k : ℕ, k < (m%2^64).toNat → ¬StringAt s pt a k) ∨
        ∃ k : ℕ, k < (m%2^64).toNat ∧ r = (k : ℤ) ∧ StringAt s pt a k) := by
  obtain ⟨r, bs, hrun, hf⟩ := copyinstr_spec hs ha (m%2^64).toNat
  have hstart : fetchstr pt a m s =
      (if r < 0 then return (r, bs) else return ((strlen bs : ℤ), bs) : M (ℤ × List UInt8)) s :=
    run_bind hrun _
  rcases id hf.result with ⟨rfl, -⟩ | ⟨rfl, -⟩
  · obtain ⟨k, hlen, hk⟩ := hf.stringAt
    have hfits := hf.fits
    have hstrlen := hf.strlen
    refine ⟨strlen bs, bs, ?_, Or.inr ⟨k, by omega, by omega, hk⟩⟩
    rw [hstart, if_neg (lt_irrefl 0)]
    rfl
  · refine ⟨-1, bs, ?_, Or.inl ⟨rfl, fun k hk hstr => ?_⟩⟩
    · rw [hstart, if_pos (by decide)]
      rfl
    · have := hf.of_stringAt hstr hk
      omega

/-- copyinstr finds the string at an address if and only if it is all mapped and fits with its NUL, and
fetchstr returns its length. -/
theorem copyinstr_reads_string (s : Ram) (pt a max : ℕ) (hs : ∀ va, userFrame s pt va ≠ some 0) (ha : a < 2^64) :
    (∃ r bs, copyinstr pt a max s = .ok ((r, bs), s) ∧ (r = 0 ∨ r = -1) ∧
      (r = 0 ↔ ∃ k < max, StringAt s pt a k) ∧ bs.length ≤ max ∧
      ∀ k < max, StringAt s pt a k → bs.length = k+1 ∧ userBytes s pt a (k+1) = bs.map some) ∧
    (∀ m : ℤ, 0 ≤ m → m < 2^31 → ∃ r bs, fetchstr pt a m s = .ok ((r, bs), s) ∧
      ((r < 0 ∧ ∀ k : ℕ, (k : ℤ) < m → ¬StringAt s pt a k) ∨
        ∃ k : ℕ, r = (k : ℤ) ∧ (k : ℤ) < m ∧ StringAt s pt a k)) := by
  constructor
  · obtain ⟨r, bs, hrun, hf⟩ := copyinstr_spec hs ha max
    have hfits := hf.fits
    refine ⟨r, bs, hrun, hf.result.imp And.left And.left, ⟨?_, ?_⟩, hfits, fun k hk hstr => ?_⟩
    · rintro rfl
      obtain ⟨k, hlen, hk⟩ := hf.stringAt
      exact ⟨k, by omega, hk⟩
    · rintro ⟨k, hk, hstr⟩
      exact hf.of_stringAt hstr hk
    obtain rfl := hf.of_stringAt hstr hk
    obtain ⟨k', hlen, hk'⟩ := hf.stringAt
    obtain rfl := hstr.unique hk'
    exact ⟨hlen, hlen ▸ hf.bytes⟩
  · intro m hm hlt
    have hmod : ((m%2^64).toNat : ℤ) = m := by omega
    obtain ⟨r, bs, hrun, hr⟩ := fetchstr_spec hs ha m
    refine ⟨r, bs, hrun, hr.imp (fun h => ⟨by omega, fun k hk => h.2 k (by omega)⟩) ?_⟩
    rintro ⟨k, hk, hrk, hstr⟩
    exact ⟨k, hrk, by omega, hstr⟩

theorem onePage_string {f : ℕ} (hal : f%pgsize = 0) (hf : f < 2^64) (h0 : (onePage f).byte f = 0) :
    StringAt (onePage f) 4096 0 0 := by
  refine ⟨fun i hi => absurd hi (Nat.not_lt_zero i), ?_⟩
  have hframe : userFrame (onePage f) 4096 0 = some f := userFrame_onePage hal hf 0
  rw [Nat.add_zero, Nat.zero_mod, userByte, hframe, Option.map_some, Nat.zero_mod, Nat.add_zero, h0]

theorem empty_string_read :
    ∃ r bs, copyinstr 4096 0 1 (onePage 16384) = .ok ((r, bs), onePage 16384) ∧ (r = 0 ∨ r = -1) ∧
      (r = 0 ↔ ∃ k < 1, StringAt (onePage 16384) 4096 0 k) ∧ bs.length ≤ 1 ∧
      ∀ k < 1, StringAt (onePage 16384) 4096 0 k →
        bs.length = k+1 ∧ userBytes (onePage 16384) 4096 0 (k+1) = bs.map some :=
  (copyinstr_reads_string (onePage 16384) 4096 0 1 onePage_userSpace.ne_zero (by decide)).1

/-- A string in a page that is mapped to the page at address 0 is not found. And with a negative max
fetchstr returns a length that is not below it. -/
theorem string_at_frame_zero :
    (StringAt (onePage 0) 4096 0 0 ∧ copyinstr 4096 0 1 (onePage 0) = .ok ((-1, []), onePage 0)) ∧
    ∃ r bs, fetchstr 4096 0 (-1) (onePage 16384) = .ok ((r, bs), onePage 16384) ∧ 0 ≤ r ∧ ¬r < -1 := by
  refine ⟨⟨onePage_string (by decide) (by decide) (by decide), ?_⟩, ?_⟩
  · have hframe : userFrame (onePage 0) 4096 0 = some 0 := userFrame_onePage (by decide) (by decide) 0
    rw [copyinstr, copyinstrLoop, if_neg (by decide), run_bind (walkaddr_user _ _ _), hframe]
    rfl
  have hstr := @onePage_string 16384 (by decide) (by decide) (by decide)
  obtain ⟨r, bs, hrun, hr⟩ := fetchstr_spec onePage_userSpace.ne_zero (by decide : 0 < 2^64) (-1)
  refine ⟨r, bs, hrun, ?_⟩
  rcases hr with ⟨-, hno⟩ | ⟨k, -, hrk, -⟩
  · exact absurd hstr (hno 0 (by decide))
  · omega

end Xv6.Vm
