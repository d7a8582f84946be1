import Xv6.VmUser

/-! copyout and copyin: the loops over the pages of a range, and what they do to user memory. -/
namespace Xv6.Vm
open Hoare Radix Bytes List

variable {s t : Ram} {pt a fuel len : ℕ} {src : List UInt8}

theorem copyoutLoop_nil : copyoutLoop pt fuel a [] s = .ok (0, s) := by cases fuel <;> rfl

theorem copyoutLoop_turn {f : ℕ} (hsrc : src ≠ []) (hf : userFrame s pt a = some f) (h0 : f ≠ 0) :
    copyoutLoop pt (fuel+1) a src s = copyoutLoop pt fuel (a+(pgsize-a%pgsize))
      (src.drop (pgsize-a%pgsize)) (s.setBytes (f+a%pgsize) (src.take (pgsize-a%pgsize))) := by
  rw [copyoutLoop, if_neg hsrc, run_bind (walkaddr_user s pt a), hf, Option.getD_some, if_neg h0,
    next_page_start (userFrame_lt hf)]
  rfl

theorem copyoutLoop_spec (hs : UserSpace s pt) (ha : a < 2^64) (hfuel : src.length ≤ fuel) :
    ∃ r t n, copyoutLoop pt fuel a src s = .ok (r, t) ∧ Written s t pt a (src.take n) ∧
      Copied s pt a src.length r n := by
  -- by induction on the turns, with the part in the page of `a` split off
  induction fuel generalizing s a src with
  | zero =>
    obtain rfl := eq_nil_of_length_eq_zero (Nat.le_zero.mp hfuel)
    exact ⟨0, s, 0, rfl, Written.nil s pt a, Copied.zero s pt a⟩
  | succ fuel ih =>
    by_cases hnil : src = []
    · subst hnil
      exact ⟨0, s, 0, copyoutLoop_nil, Written.nil s pt a, Copied.zero s pt a⟩
    have hpos : 0 < src.length := length_pos_iff.mpr hnil
    cases hf : userFrame s pt a with
    | none =>
      refine ⟨-1, s, 0, ?_, Written.nil s pt a, Copied.bad ha hpos hf⟩
      rw [copyoutLoop, if_neg hnil, run_bind (walkaddr_user s pt a), hf]
      rfl
    | some f =>
      have hlt := userFrame_lt hf
      have hroom : 0 < pgsize-a%pgsize := Nat.sub_pos_of_lt (Nat.mod_lt _ (by decide))
      have hfirst := @UserSpace.memmove s pt a f (src.take (pgsize-a%pgsize)) hs hf (length_take_le _ _)
      rw [copyoutLoop_turn hnil hf (fun h0 => hs.ne_zero a (h0 ▸ hf))]
      by_cases hfit : src.length ≤ pgsize-a%pgsize
      · rw [take_of_length_le hfit] at hfirst ⊢
        rw [drop_of_length_le hfit, copyoutLoop_nil]
        refine ⟨0, _, src.length, rfl, by rwa [take_length], ?_⟩
        exact Copied.page hf hfit (Copied.zero s pt _)
      have htake : (src.take (pgsize-a%pgsize)).length = pgsize-a%pgsize := by
        rw [length_take]
        omega
      obtain ⟨r, t, n, hrun, hw, hc⟩ := @ih _ (a+(pgsize-a%pgsize)) (src.drop (pgsize-a%pgsize))
        (hs.congr hfirst) (by rw [maxva] at hlt; rw [pgsize]; omega) (by rw [length_drop]; omega)
      have hc' : Copied s pt (a+(pgsize-a%pgsize)) (src.drop (pgsize-a%pgsize)).length r n :=
        ⟨fun k hk => hfirst.mapped.mp (hc.mapped k hk),
          hc.result.imp id (fun h => ⟨h.1, h.2.1, fun hm => h.2.2 (hfirst.mapped.mpr hm)⟩)⟩
      refine ⟨r, t, pgsize-a%pgsize+n, hrun, ?_, ?_⟩
      · rw [take_add]
        exact hfirst.append (by rwa [htake])
      have hlen : src.length = pgsize-a%pgsize+(src.drop (pgsize-a%pgsize)).length := by
        rw [length_drop]
        omega
      rw [hlen]
      exact Copied.page hf le_rfl hc'

theorem copyout_spec (hs : UserSpace s pt) (ha : a < 2^64) (src : List UInt8) :
    ∃ r t n, copyout pt a src s = .ok (r, t) ∧ Written s t pt a (src.take n) ∧ Copied s pt a src.length r n :=
  copyoutLoop_spec hs ha le_rfl

def userBytes (s : Ram) (pt a n : ℕ) : List (Option UInt8) := (List.range n).map (fun k => userByte s pt (a+k))

theorem userBytes_add (s : Ram) (pt a n n' : ℕ) :
    userBytes s pt a (n+n') = userBytes s pt a n ++ userBytes s pt (a+n) n' := by
  rw [userBytes, range_add, map_append, map_map]
  simp only [userBytes, Function.comp_def, Nat.add_assoc]

theorem userBytes_page {f n : ℕ} (hf : userFrame s pt a = some f) (hn : n ≤ pgsize-a%pgsize) :
    userBytes s pt a n = ((List.range n).map (fun k => s.byte (f+a%pgsize+k))).map some := by
  rw [userBytes, map_map]
  refine map_congr_left (fun k hk => ?_)
  have hk' := mem_range.mp hk
  have hsame : (a+k)/pgsize = a/pgsize := by
    rw [pgsize] at *
    omega
  have hoff : f+(a+k)%pgsize = f+a%pgsize+k := by
    rw [pgsize] at *
    omega
  rw [userByte, userFrame_page hsame, hf, Option.map_some, hoff]
  rfl

theorem copyinLoop_spec (hs : ∀ va, userFrame s pt va ≠ some 0) (ha : a < 2^64) (hfuel : len ≤ fuel) :
    ∃ r bs, copyinLoop pt fuel a len s = .ok ((r, bs), s) ∧ userBytes s pt a bs.length = bs.map some ∧
      Copied s pt a len r bs.length := by
  induction fuel generalizing a len with
  | zero =>
    obtain rfl := Nat.le_zero.mp hfuel
    exact ⟨0, [], rfl, rfl, Copied.zero s pt a⟩
  | succ fuel ih =>
    by_cases hzero : len = 0
    · subst hzero
      exact ⟨0, [], rfl, rfl, Copied.zero s pt a⟩
    have hstart : copyinLoop pt (fuel+1) a len s = (do
        let pa0 ← walkaddr pt (pgrounddown a)
        if pa0 = 0 then return (-1, [])
        else do
          let bs ← readBytes (pa0+a%pgsize) (min (pgsize-a%pgsize) len)
          let r ← copyinLoop pt fuel ((pgrounddown a+pgsize)%2^64) (len-bs.length)
          return (r.1, bs ++ r.2) : M (ℤ × List UInt8)) s := by
      rw [copyinLoop, if_neg hzero]
    rw [hstart, run_bind (walkaddr_user s pt a)]
    cases hf : userFrame s pt a with
    | none => exact ⟨-1, [], rfl, rfl, Copied.bad ha (Nat.pos_of_ne_zero hzero) hf⟩
    | some f =>
      have hlt := userFrame_lt hf
      have hroom : 0 < pgsize-a%pgsize := Nat.sub_pos_of_lt (Nat.mod_lt _ (by decide))
      obtain ⟨bs, hbs⟩ : ∃ bs, bs = (List.range (min (pgsize-a%pgsize) len)).map
        (fun k => s.byte (f+a%pgsize+k)) := ⟨_, rfl⟩
      have hlen : bs.length = min (pgsize-a%pgsize) len := by rw [hbs, length_map, length_range]
      have hread : readBytes (f+a%pgsize) (min (pgsize-a%pgsize) len) s = .ok (bs, s) := by
        rw [hbs]
        rfl
      have hpage : userBytes s pt a bs.length = bs.map some := by
        rw [hlen, userBytes_page hf (Nat.min_le_left _ _), hbs]
      rw [Option.getD_some, if_neg (fun h0 : f = 0 => hs a (h0 ▸ hf)), run_bind hread, next_page_start hlt]
      by_cases hfit : len ≤ pgsize-a%pgsize
      · have hdone : copyinLoop pt fuel (a+(pgsize-a%pgsize)) (len-bs.length) s = .ok ((0, []), s) := by
          rw [hlen, Nat.min_eq_right hfit, Nat.sub_self]
          cases fuel <;> rfl
        rw [run_bind hdone]
        refine ⟨0, bs ++ [], rfl, by rwa [append_nil], ?_⟩
        rw [append_nil, hlen, Nat.min_eq_right hfit]
        exact Copied.page hf hfit (Copied.zero s pt _)
      rw [Nat.min_eq_left (Nat.le_of_not_le hfit)] at hlen
      rw [hlen]
      obtain ⟨r, cs, hrun, hcs, hc⟩ := @ih (a+(pgsize-a%pgsize)) (len-(pgsize-a%pgsize))
        (by rw [maxva] at hlt; rw [pgsize]; omega) (by omega)
      rw [run_bind hrun]
      refine ⟨r, bs ++ cs, rfl, ?_, ?_⟩
      · rw [length_append, userBytes_add, hpage, hlen, hcs, map_append]
      have hsplit : len = pgsize-a%pgsize+(len-(pgsize-a%pgsize)) := by omega
      rw [length_append, hlen]
      nth_rewrite 1 [hsplit]
      exact Copied.page hf le_rfl hc

theorem copyin_spec (hs : ∀ va, userFrame s pt va ≠ some 0) (ha : a < 2^64) (len : ℕ) :
    ∃ r bs, copyin pt a len s = .ok ((r, bs), s) ∧ userBytes s pt a bs.length = bs.map some ∧
      Copied s pt a len r bs.length :=
  copyinLoop_spec hs ha le_rfl

/-- A copy succeeds if and only if all the range is mapped. -/
theorem Copied.zero_iff {r : ℤ} {n : ℕ} (h : Copied s pt a len r n) :
    r = 0 ↔ ∀ k < len, UserMapped s pt ((a+k)%2^64) := by
  constructor
  · rintro rfl k hk
    rcases h.result with ⟨-, rfl⟩ | ⟨h0, -⟩
    · have hlt := (h.mapped k hk).lt
      rw [maxva] at hlt
      rw [Nat.mod_eq_of_lt (by omega)]
      exact h.mapped k hk
    · omega
  · intro hall
    rcases h.result with ⟨h0, -⟩ | ⟨-, hn, hbad⟩
    · exact h0
    · exact absurd (hall n hn) hbad

theorem Written.userBytes (h : Written s t pt a src) : userBytes t pt a src.length = src.map some := by
  apply ext_getElem
  · simp only [Vm.userBytes, length_map, length_range]
  intro k hk hk'
  rw [length_map] at hk'
  simp only [Vm.userBytes, getElem_map, getElem_range]
  rw [h.byte, if_pos (by omega), Nat.add_sub_cancel_left, List.getElem?_eq_getElem hk']

/-- copyout and copyin are writing and reading of user memory, from any address and with any
length, as far as the pages are mapped. -/
theorem copies_are_user_memory (s : Ram) (pt a : ℕ) (hs : UserSpace s pt) (ha : a < 2^64) :
    (∀ src, ∃ r t, copyout pt a src s = .ok (r, t) ∧ (r = 0 ↔ ∀ k < src.length, UserMapped s pt ((a+k)%2^64)) ∧
      ((r = 0 ∧ Written s t pt a src) ∨ (r = -1 ∧ ∃ n < src.length, (∀ k < n, UserMapped s pt (a+k)) ∧
          ¬UserMapped s pt ((a+n)%2^64) ∧ Written s t pt a (src.take n)))) ∧
    (∀ len, ∃ r bs, copyin pt a len s = .ok ((r, bs), s) ∧ (r = 0 ↔ ∀ k < len, UserMapped s pt ((a+k)%2^64)) ∧
      userBytes s pt a bs.length = bs.map some ∧
      ((r = 0 ∧ bs.length = len) ∨ (r = -1 ∧ bs.length < len ∧ (∀ k < bs.length, UserMapped s pt (a+k)) ∧
          ¬UserMapped s pt ((a+bs.length)%2^64)))) ∧
    (∀ src t, copyout pt a src s = .ok (0, t) → copyin pt a src.length t = .ok ((0, src), t)) := by
  refine ⟨fun src => ?_, fun len => ?_, fun src t hout => ?_⟩
  · obtain ⟨r, t, n, hrun, hw, hc⟩ := copyout_spec hs ha src
    refine ⟨r, t, hrun, hc.zero_iff, hc.result.imp (fun h => ⟨h.1, ?_⟩)
      (fun h => ⟨h.1, n, h.2.1, hc.mapped, h.2.2, hw⟩)⟩
    rwa [h.2, take_length] at hw
  · obtain ⟨r, bs, hrun, hbs, hc⟩ := copyin_spec hs.ne_zero ha len
    exact ⟨r, bs, hrun, hc.zero_iff, hbs, hc.result.imp id (fun h => ⟨h.1, h.2.1, hc.mapped, h.2.2⟩)⟩
  obtain ⟨r, t', n, hrun, hw, hc⟩ := copyout_spec hs ha src
  obtain ⟨rfl, rfl⟩ : r = 0 ∧ t' = t := by
    rw [hrun] at hout
    injection hout with hpair
    exact ⟨congrArg Prod.fst hpair, congrArg Prod.snd hpair⟩
  have hall := hc.zero_iff.mp rfl
  rcases hc.result with ⟨-, rfl⟩ | ⟨h0, -⟩
  · rw [take_length] at hw
    obtain ⟨r, bs, hin, hbs, hcin⟩ := copyin_spec (hs.congr hw).ne_zero ha src.length
    have hr : r = 0 := hcin.zero_iff.mpr (fun k hk => hw.mapped.mpr (hall k hk))
    subst hr
    rcases hcin.result with ⟨-, hlen⟩ | ⟨h0, -⟩
    · rw [hlen, hw.userBytes] at hbs
      rw [hin, map_injective_iff.mpr (Option.some_injective _) hbs]
    · omega
  · omega

def onePage (f : ℕ) : Ram where
  word := fun p i =>
    if p = 4096 ∧ i = 0 then pa2pte 8192 ||| pteV
    else if p = 8192 ∧ i = 0 then pa2pte 12288 ||| pteV
    else if p = 12288 ∧ i = 0 then pa2pte f ||| (pteR ||| pteW ||| pteU) ||| pteV
    else 0
  freelist := 0
  refuse := []

section OnePage
variable {f : ℕ}

theorem onePage_root (i : Fin 512) : (onePage f).word 4096 i = if i = 0 then pa2pte 8192 ||| pteV else 0 := by
  simp [onePage]

theorem onePage_mid (i : Fin 512) : (onePage f).word 8192 i = if i = 0 then pa2pte 12288 ||| pteV else 0 := by
  simp [onePage]

theorem onePage_leaf (i : Fin 512) : (onePage f).word 12288 i =
    if i = 0 then pa2pte f ||| (pteR ||| pteW ||| pteU) ||| pteV else 0 := by
  simp [onePage]

theorem not_valid_zero : ¬sv39.valid 0 = true := by decide

theorem onePage_tables : tables (onePage f) 4096 = {4096, 8192, 12288} := by
  have hroot : tables (onePage f) 4096 = 4096 ::ₘ nodes sv39 (onePage f).word 1 8192 := by
    have hent : (onePage f).word 4096 0 = pa2pte 8192 ||| pteV := onePage_root 0
    rw [tables, nodes_single (by rw [hent]; exact valid_pte _) (fun j hj => ?_), hent]
    · rfl
    · rw [onePage_root, if_neg hj]
      exact not_valid_zero
  have hmid : nodes sv39 (onePage f).word 1 8192 = 8192 ::ₘ nodes sv39 (onePage f).word 0 12288 := by
    have hent : (onePage f).word 8192 0 = pa2pte 12288 ||| pteV := onePage_mid 0
    rw [nodes_single (by rw [hent]; exact valid_pte _) (fun j hj => ?_), hent]
    · rfl
    · rw [onePage_mid, if_neg hj]
      exact not_valid_zero
  rw [hroot, hmid, nodes_zero]
  rfl

theorem pteOf_onePage {va : ℕ} (hva : va < maxva) : pteOf (onePage f) 4096 va =
    if va < pgsize then some (pa2pte f ||| (pteR ||| pteW ||| pteU) ||| pteV) else none := by
  have h2 : sv39.digit 2 va = 0 ↔ va/2^30 = 0 := by
    rw [Fin.ext_iff]
    change va/2^30%512 = 0 ↔ va/2^30 = 0
    rw [maxva] at hva
    omega
  have h1 : sv39.digit 1 va = 0 ↔ va/2^21%512 = 0 := Fin.ext_iff
  have h0 : sv39.digit 0 va = 0 ↔ va/2^12%512 = 0 := Fin.ext_iff
  rw [pgsize]
  by_cases hd2 : sv39.digit 2 va = 0
  · rw [pteOf, look_valid (by rw [onePage_root, if_pos hd2]; exact valid_pte _), onePage_root, if_pos hd2]
    change look sv39 (onePage f).word 1 8192 va = _
    by_cases hd1 : sv39.digit 1 va = 0
    · rw [look_valid (by rw [onePage_mid, if_pos hd1]; exact valid_pte _), onePage_mid, if_pos hd1]
      change look sv39 (onePage f).word 0 12288 va = _
      rw [look_zero, onePage_leaf]
      by_cases hd0 : sv39.digit 0 va = 0
      · rw [if_pos hd0, Option.filter_some_pos (valid_pte _), if_pos (by omega)]
      · rw [if_neg hd0, Option.filter_some_neg (Bool.eq_false_iff.mpr not_valid_zero), if_neg (by omega)]
    · rw [look_invalid (by rw [onePage_mid, if_neg hd1]; exact not_valid_zero), if_neg (by omega)]
  · rw [pteOf, look_invalid (by rw [onePage_root, if_neg hd2]; exact not_valid_zero), if_neg (by omega)]

theorem userFrame_onePage (hal : f%pgsize = 0) (hf : f < 2^64) (va : ℕ) :
    userFrame (onePage f) 4096 va = if va < pgsize then some f else none := by
  rw [userFrame]
  by_cases hva : va < maxva
  · have hflags : (pa2pte f ||| (pteR ||| pteW ||| pteU) ||| pteV) &&& pteU ≠ 0 := by
      rw [and_flags (by decide), pteFlags_pte (by decide)]
      decide
    rw [if_pos hva, pteOf_onePage hva]
    by_cases hpg : va < pgsize
    · rw [if_pos hpg, if_pos hpg, Option.filter_some_pos (by simpa using hflags), Option.map_some,
        pte2pa_pte hf (by decide), pgrounddown, Nat.div_mul_cancel (Nat.dvd_of_mod_eq_zero hal)]
    · rw [if_neg hpg, if_neg hpg, Option.filter_none, Option.map_none]
  · rw [if_neg hva, if_neg (fun h => hva (h.trans (by decide)))]

theorem onePage_inj (hal : f%pgsize = 0) (hf : f < 2^64) (va va' g : ℕ)
    (h : userFrame (onePage f) 4096 va = some g) (h' : userFrame (onePage f) 4096 va' = some g) :
    va/pgsize = va'/pgsize := by
  have hpage {a : ℕ} (ha : userFrame (onePage f) 4096 a = some g) : a < pgsize := by
    by_contra hpg
    rw [userFrame_onePage hal hf, if_neg hpg] at ha
    cases ha
  rw [Nat.div_eq_of_lt (hpage h), Nat.div_eq_of_lt (hpage h')]

end OnePage

theorem onePage_userSpace : UserSpace (onePage 16384) 4096 := by
  have hframe := @userFrame_onePage 16384 (by decide) (by decide)
  refine ⟨fun va h => ?_, fun va f hf => ?_, onePage_inj (by decide) (by decide)⟩
  · rw [hframe] at h
    split at h <;> cases h
  rw [hframe] at hf
  rw [onePage_tables]
  split at hf
  · cases hf
    decide
  · cases hf

theorem copies_at_page_end : ∃ r t, copyout 4096 4094 [1, 2] (onePage 16384) = .ok (r, t) ∧
      (r = 0 ↔ ∀ k < 2, UserMapped (onePage 16384) 4096 ((4094+k)%2^64)) ∧
      ((r = 0 ∧ Written (onePage 16384) t 4096 4094 [1, 2]) ∨
        (r = -1 ∧ ∃ n < 2, (∀ k < n, UserMapped (onePage 16384) 4096 (4094+k)) ∧
          ¬UserMapped (onePage 16384) 4096 ((4094+n)%2^64) ∧
          Written (onePage 16384) t 4096 4094 ([1, 2].take n))) :=
  (copies_are_user_memory (onePage 16384) 4096 4094 onePage_userSpace (by decide)).1 [1, 2]

/-- A user page that is mapped to the page at address 0: walkaddr returns 0 for it, which copyout
takes for an address that is not mapped. -/
theorem copyout_to_frame_zero :
    (∀ va va' f, userFrame (onePage 0) 4096 va = some f → userFrame (onePage 0) 4096 va' = some f →
      va/pgsize = va'/pgsize) ∧
    (∀ k < [(7 : UInt8)].length, UserMapped (onePage 0) 4096 ((0+k)%2^64)) ∧
    copyout 4096 0 [7] (onePage 0) = .ok (-1, onePage 0) := by
  have hframe : userFrame (onePage 0) 4096 0 = some 0 := userFrame_onePage (by decide) (by decide) 0
  refine ⟨onePage_inj (by decide) (by decide), fun k hk => ?_, ?_⟩
  · rw [Nat.lt_one_iff.mp hk, UserMapped, Nat.add_zero, Nat.zero_mod, hframe]
    rfl
  · rw [copyout, length_singleton, copyoutLoop, if_neg (cons_ne_nil _ _), run_bind (walkaddr_user _ _ _), hframe]
    rfl

end Xv6.Vm
