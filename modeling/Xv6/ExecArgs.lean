import Xv6.ExecLoad

/-! The argument strings and the array of pointers to them on the new stack. -/
namespace Xv6.Exec
open Hoare Vm Bytes List

def align16 (n : ℕ) : ℕ := (n+15)/16*16

def pushes (argv : List (List UInt8)) : List ℕ := argv.map (fun a => a.length+1) ++ [8*(argv.length+1)]

def total (ns : List ℕ) : ℕ := (ns.map align16).sum

def spAfter (sp : ℕ) (ns : List ℕ) : ℕ := ns.foldl pushSp sp

structure Accepted (argv : List (List UInt8)) : Prop where
  count : argv.length ≤ maxarg-1
  page : ∀ a ∈ argv, a.length < pgsize
  string : ∀ a ∈ argv, (0 : UInt8) ∉ a

variable {m : Machine} {R : Multiset ℕ} {s t : Ram} {pt n sp base tf : ℕ} {argv : List (List UInt8)} {us : List ℕ}

theorem align16_mod (n : ℕ) : align16 n%16 = 0 := Nat.mul_mod_left _ _

theorem le_align16 (n : ℕ) : n ≤ align16 n := by
  rw [align16]
  omega

theorem pushSp_eq (hsp : sp < 2^64) (hal : sp%16 = 0) (hn : n ≤ sp) : pushSp sp n = sp-align16 n := by
  rw [pushSp, align16, show (sp+(2^64-n))%2^64 = sp-n by omega]
  omega

theorem pushSp_lt (sp n : ℕ) : pushSp sp n < 2^64 := by
  rw [pushSp]
  omega

theorem copyout_safe {a : ℕ} {src : List UInt8} {j : ℕ} (hs : Space m (procMap m tf) R s pt n) (ha : a < 2^64)
    (hj : j ≤ n) (hja : pgsize*j ≤ a) :
    ∃ r t, copyout pt a src s = .ok (r, t) ∧ Space m (procMap m tf) R t pt n ∧ Kept R s t pt j := by
  obtain ⟨r, t, k, hrun, hw, -⟩ := copyout_spec hs.userSpace ha src
  exact ⟨r, t, hrun, hs.written hw, hs.written_kept hw hj hja⟩

theorem pushStrings_safe {j : ℕ} (hs : Space m (procMap m tf) R s pt n) (hj : j ≤ n) (hb : pgsize*j ≤ base) :
    ∃ r t, pushStrings pt base argv sp us s = .ok (r, t) ∧ Space m (procMap m tf) R t pt n ∧ Kept R s t pt j := by
  induction argv generalizing s sp us with
  | nil => exact ⟨some (sp, us), s, rfl, hs, Kept.refl R s pt j⟩
  | cons a argv ih =>
    rw [pushStrings]
    by_cases h1 : us.length ≥ maxarg
    · exact ⟨none, s, by rw [if_pos h1]; rfl, hs, Kept.refl R s pt j⟩
    by_cases h2 : pushSp sp (a.length+1) < base
    · exact ⟨none, s, by rw [if_neg h1, if_pos h2]; rfl, hs, Kept.refl R s pt j⟩
    obtain ⟨r, u, hrun, hu, hku⟩ := @copyout_safe m R s pt n tf _ (a ++ [0]) j hs (pushSp_lt sp (a.length+1)) hj
      (hb.trans (not_lt.mp h2))
    rw [if_neg h1, if_neg h2, run_bind hrun]
    by_cases h3 : r < 0
    · exact ⟨none, u, by rw [if_pos h3]; rfl, hu, hku⟩
    · obtain ⟨r', t, hrest, ht, hkt⟩ := @ih u (pushSp sp (a.length+1)) (us ++ [pushSp sp (a.length+1)]) hu
      exact ⟨r', t, by rw [if_neg h3, hrest], ht, hku.trans hkt⟩

theorem pushArgv_safe {j sz : ℕ} (hs : Space m (procMap m tf) R s pt n) (hj : j ≤ n)
    (hb : pgsize*j ≤ (sz+(2^64-pgsize))%2^64) :
    ∃ r t, pushArgv pt sz argv s = .ok (r, t) ∧ Space m (procMap m tf) R t pt n ∧ Kept R s t pt j := by
  obtain ⟨r, u, hrun, hu, hku⟩ := @pushStrings_safe m R s pt n sz _ tf argv [] j hs hj hb
  rw [pushArgv, run_bind hrun]
  cases r with
  | none => exact ⟨none, u, rfl, hu, hku⟩
  | some x =>
    obtain ⟨sp, us⟩ := x
    dsimp only
    by_cases h1 : pushSp sp (8*(argv.length+1)) < (sz+(2^64-pgsize))%2^64
    · exact ⟨none, u, by rw [if_pos h1]; rfl, hu, hku⟩
    obtain ⟨r, t, hrun', ht, hkt⟩ := @copyout_safe m R u pt n tf _ ((us ++ [0]).flatMap (leBytes 8)) j hu
      (pushSp_lt sp (8*(argv.length+1))) hj (hb.trans (not_lt.mp h1))
    rw [if_neg h1, run_bind hrun']
    by_cases h2 : r < 0
    · exact ⟨none, t, by rw [if_pos h2]; rfl, ht, hku.trans hkt⟩
    · exact ⟨some (pushSp sp (8*(argv.length+1))), t, by rw [if_neg h2]; rfl, ht, hku.trans hkt⟩

theorem copyout_mapped {a : ℕ} {src : List UInt8} (hs : UserSpace s pt) (ha : a < 2^64)
    (hmap : ∀ k < src.length, UserMapped s pt (a+k)) :
    ∃ t, copyout pt a src s = .ok (0, t) ∧ Written s t pt a src := by
  obtain ⟨r, t, k, hrun, hw, hc⟩ := copyout_spec hs ha src
  rcases hc.result with ⟨rfl, rfl⟩ | ⟨-, hk, hbad⟩
  · rw [take_length] at hw
    exact ⟨t, hrun, hw⟩
  · have hlt := (hmap k hk).lt
    rw [Nat.mod_eq_of_lt (hlt.trans (by decide))] at hbad
    exact absurd (hmap k hk) hbad

structure Only (s t : Ram) (pt lo hi : ℕ) : Prop where
  frame : ∀ va, userFrame t pt va = userFrame s pt va
  space : UserSpace t pt
  byte : ∀ va, va < lo ∨ hi ≤ va → userByte t pt va = userByte s pt va

theorem Only.of_written {lo hi a : ℕ} {bs : List UInt8} (hs : UserSpace s pt) (hw : Written s t pt a bs) (hlo : lo ≤ a)
    (hhi : a+bs.length ≤ hi) : Only s t pt lo hi :=
  ⟨hw.frame, hs.congr hw, fun va hva => by rw [hw.byte, if_neg (by omega)]⟩

theorem Only.trans {u : Ram} {lo mid hi : ℕ} (h : Only s t pt mid hi) (h' : Only t u pt lo mid) (hlo : lo ≤ mid)
    (hhi : mid ≤ hi) : Only s u pt lo hi :=
  ⟨fun va => (h'.frame va).trans (h.frame va), h'.space,
    fun va hva => (h'.byte va (by omega)).trans (h.byte va (by omega))⟩

theorem Only.userBytes {lo hi a n : ℕ} (h : Only s t pt lo hi) (ha : hi ≤ a) :
    userBytes t pt a n = userBytes s pt a n :=
  map_congr_left (fun k _ => h.byte (a+k) (Or.inr (by omega)))

def addrs (sp : ℕ) : List (List UInt8) → List ℕ
  | [] => []
  | a :: argv => (sp-align16 (a.length+1)) :: addrs (sp-align16 (a.length+1)) argv

def stringTotal (argv : List (List UInt8)) : ℕ := total (argv.map (fun a => a.length+1))

theorem stringTotal_cons (a : List UInt8) (argv : List (List UInt8)) :
    stringTotal (a :: argv) = align16 (a.length+1)+stringTotal argv := by
  rw [stringTotal, total, map_cons, map_cons, sum_cons]
  rfl

theorem stringTotal_mod (argv : List (List UInt8)) : stringTotal argv%16 = 0 := by
  induction argv with
  | nil => rfl
  | cons a =>
    have hmod := align16_mod (a.length+1)
    rw [stringTotal_cons]
    omega

theorem total_pushes (argv : List (List UInt8)) :
    total (pushes argv) = stringTotal argv+align16 (8*(argv.length+1)) := by
  rw [total, pushes, map_append, sum_append]
  rfl

def CString (t : Ram) (pt a : ℕ) (str : List UInt8) : Prop := userBytes t pt a (str.length+1) = (str ++ [0]).map some

theorem pushStrings_spec (hs : UserSpace s pt) (hmap : ∀ k, base ≤ k → k < base+pgsize → UserMapped s pt k)
    (hbase : pgsize ≤ base) (htop : base+pgsize < 2^64) (hal : sp%16 = 0) (hlo : base ≤ sp)
    (hhi : sp ≤ base+pgsize) (hcount : us.length+argv.length < maxarg) (hlen : ∀ a ∈ argv, a.length < pgsize) :
    ∃ r t, pushStrings pt base argv sp us s = .ok (r, t) ∧ ((r = none ∧ sp < base+stringTotal argv) ∨
        (r = some (sp-stringTotal argv, us ++ addrs sp argv) ∧ base+stringTotal argv ≤ sp ∧
          Only s t pt (sp-stringTotal argv) sp ∧ List.Forall₂ (CString t pt) (addrs sp argv) argv)) := by
  induction argv generalizing s sp us with
  | nil =>
    refine ⟨some (sp, us), s, rfl, Or.inr ⟨?_, hlo, ⟨fun _ => rfl, hs, fun _ _ => rfl⟩, List.Forall₂.nil⟩⟩
    rw [addrs, append_nil]
    rfl
  | cons a argv ih =>
    have ha : a.length < pgsize := hlen a mem_cons_self
    have hpush := @pushSp_eq (a.length+1) sp (by omega) hal (by omega)
    have hle := le_align16 (a.length+1)
    have hmod := align16_mod (a.length+1)
    have haddrs : addrs sp (a :: argv) = (sp-align16 (a.length+1)) :: addrs (sp-align16 (a.length+1)) argv := rfl
    rw [length_cons] at hcount
    rw [pushStrings, if_neg (by omega), hpush, stringTotal_cons]
    generalize align16 (a.length+1) = d at *
    by_cases hfit : sp-d < base
    · exact ⟨none, s, by rw [if_pos hfit]; rfl, Or.inl ⟨rfl, by omega⟩⟩
    obtain ⟨u, hrun, hw⟩ := @copyout_mapped s pt (sp-d) (a ++ [0]) hs (by omega) (fun k hk => by
      rw [length_append, length_singleton] at hk
      exact hmap _ (by omega) (by omega))
    have hlen' : (a ++ [0]).length = a.length+1 := by rw [length_append, length_singleton]
    have honly : Only s u pt (sp-d) sp := Only.of_written hs hw le_rfl (by omega)
    obtain ⟨r, t, hrest, hr⟩ := @ih u (sp-d) (us ++ [sp-d]) honly.space
      (fun k h1 h2 => hw.mapped.mpr (hmap k h1 h2)) (by omega) (by omega) (by omega)
      (by rw [length_append, length_singleton]; omega) (fun b hb => hlen b (mem_cons_of_mem a hb))
    refine ⟨r, t, ?_, ?_⟩
    · rw [if_neg hfit, run_bind hrun, if_neg (lt_irrefl 0), hrest]
    rcases hr with ⟨rfl, hno⟩ | ⟨rfl, hyes, honly', hall⟩
    · exact Or.inl ⟨rfl, by omega⟩
    have hstr : CString t pt (sp-d) a := by rw [CString, honly'.userBytes le_rfl, ← hlen', hw.userBytes]
    refine Or.inr ⟨?_, by omega, ?_, ?_⟩
    · rw [haddrs, append_assoc, singleton_append, Nat.sub_sub]
    · rw [← Nat.sub_sub]
      exact honly.trans honly' (by omega) (by omega)
    · rw [haddrs]
      exact List.Forall₂.cons hstr hall

theorem addrs_bounds (hal : sp%16 = 0) (hfit : stringTotal argv ≤ sp) :
    (∀ x ∈ (addrs sp argv).zip argv, sp-stringTotal argv ≤ x.1 ∧ x.1+(x.2.length+1) ≤ sp ∧ x.1%16 = 0) ∧
    ((addrs sp argv).zip argv).Pairwise (fun x y => y.1+(y.2.length+1) ≤ x.1) := by
  induction argv generalizing sp with
  | nil => exact ⟨nofun, List.Pairwise.nil⟩
  | cons a argv ih =>
    have hle := le_align16 (a.length+1)
    have hmod := align16_mod (a.length+1)
    rw [stringTotal_cons] at hfit ⊢
    rw [addrs, zip_cons_cons]
    generalize align16 (a.length+1) = d at *
    obtain ⟨hin, hpair⟩ := @ih (sp-d) (by omega) (by omega)
    refine ⟨fun x hx => ?_, List.Pairwise.cons (fun x hx => (hin x hx).2.1) hpair⟩
    rcases mem_cons.mp hx with rfl | hx
    · dsimp only
      omega
    · obtain ⟨h1, h2, h3⟩ := hin x hx
      exact ⟨by omega, by omega, h3⟩

theorem length_addrs (sp : ℕ) (argv : List (List UInt8)) : (addrs sp argv).length = argv.length := by
  induction argv generalizing sp with
  | nil => rfl
  | cons a argv ih => rw [addrs, length_cons, length_cons, ih]

/-- The arguments as main finds them: at sp an array of pointers that ends with 0, above it the strings
that they point to, all in the stack page and none over another. -/
structure Passed (t : Ram) (pt sz sp : ℕ) (argv : List (List UInt8)) (ptrs : List ℕ) : Prop where
  array : ∀ i v, (ptrs ++ [0])[i]? = some v → userBytes t pt (sp+8*i) 8 = (leBytes 8 v).map some
  strings : List.Forall₂ (CString t pt) ptrs argv
  aligned : sp%16 = 0 ∧ ∀ x ∈ ptrs.zip argv, x.1%16 = 0
  page : sz-pgsize ≤ sp ∧ sp+8*(argv.length+1) ≤ sz ∧
    ∀ x ∈ ptrs.zip argv, sp+8*(argv.length+1) ≤ x.1 ∧ x.1+(x.2.length+1) ≤ sz
  apart : (ptrs.zip argv).Pairwise (fun x y => y.1+(y.2.length+1) ≤ x.1)

theorem length_userBytes (s : Ram) (pt a n : ℕ) : (userBytes s pt a n).length = n := by
  rw [userBytes, length_map, length_range]

theorem userBytes_slice {a i k : ℕ} (h : i+k ≤ n) : userBytes s pt (a+i) k = ((userBytes s pt a n).drop i).take k := by
  obtain ⟨d, rfl⟩ := Nat.exists_eq_add_of_le h
  rw [Nat.add_assoc, userBytes_add, userBytes_add, drop_left' (length_userBytes s pt a i),
    take_left' (length_userBytes s pt (a+i) k)]

theorem userBytes_word {a i v : ℕ} {ws : List ℕ}
    (h : userBytes s pt a (8*ws.length) = (ws.flatMap (leBytes 8)).map some) (hi : ws[i]? = some v) :
    userBytes s pt (a+8*i) 8 = (leBytes 8 v).map some := by
  have hlt : i < ws.length := (List.getElem?_eq_some_iff.mp hi).1
  rw [@userBytes_slice s pt (8*ws.length) a (8*i) 8 (by omega), h, ← map_drop, ← map_take,
    take_drop_flatMap ws (leBytes 8) (length_leBytes 8) hi]

theorem length_words (ws : List ℕ) : (ws.flatMap (leBytes 8)).length = 8*ws.length := by
  induction ws with
  | nil => rfl
  | cons w ws ih => rw [flatMap_cons, length_append, length_leBytes, ih, length_cons]; omega

theorem pushArgv_spec {sz : ℕ} (hs : UserSpace s pt)
    (hmap : ∀ k, sz-pgsize ≤ k → k < sz → UserMapped s pt k) (hsz : 2*pgsize ≤ sz) (htop : sz < 2^64)
    (hal : sz%pgsize = 0) (hargv : Accepted argv) :
    ∃ r t, pushArgv pt sz argv s = .ok (r, t) ∧ ((r = none ∧ pgsize < total (pushes argv)) ∨
        ∃ sp ptrs, r = some sp ∧ total (pushes argv) ≤ pgsize ∧ Passed t pt sz sp argv ptrs) := by
  have hbase : (sz+(2^64-pgsize))%2^64 = sz-pgsize := by
    rw [pgsize] at *
    omega
  have hcount := hargv.count
  rw [maxarg] at hcount
  have hal' : sz%16 = 0 := by
    rw [pgsize] at hal
    omega
  obtain ⟨r, u, hrun, hr⟩ := @pushStrings_spec s pt sz (sz-pgsize) argv [] hs (fun k h1 h2 => hmap k h1 (by omega))
    (by omega) (by omega) hal' (by omega) (by omega) (by rw [length_nil, maxarg]; omega) hargv.page
  rw [pushArgv, hbase, run_bind hrun, total_pushes]
  rcases hr with ⟨rfl, hno⟩ | ⟨rfl, hyes, honly, hstr⟩
  · exact ⟨none, u, rfl, Or.inl ⟨rfl, by omega⟩⟩
  have hpg : pgsize = 4096 := rfl
  have htot := stringTotal_mod argv
  have hpush := @pushSp_eq (8*(argv.length+1)) (sz-stringTotal argv) (by omega) (by omega) (by omega)
  have hle := le_align16 (8*(argv.length+1))
  have hmod := align16_mod (8*(argv.length+1))
  obtain ⟨hin, hpair⟩ := @addrs_bounds sz argv hal' (by omega)
  dsimp only
  rw [hpush, nil_append]
  generalize align16 (8*(argv.length+1)) = d at *
  by_cases hfit : sz-stringTotal argv-d < sz-pgsize
  · exact ⟨none, u, by rw [if_pos hfit]; rfl, Or.inl ⟨rfl, by omega⟩⟩
  have hwords : (addrs sz argv ++ [0]).length = argv.length+1 := by rw [length_append, length_singleton, length_addrs]
  obtain ⟨t, hrun', hw⟩ := @copyout_mapped u pt (sz-stringTotal argv-d)
    ((addrs sz argv ++ [0]).flatMap (leBytes 8)) honly.space (by omega) (fun k hk => by
      rw [length_words, hwords] at hk
      rw [UserMapped, honly.frame]
      exact hmap _ (by omega) (by omega))
  have hbytes := hw.userBytes
  rw [length_words] at hbytes
  have honly' : Only u t pt (sz-stringTotal argv-d) (sz-stringTotal argv) :=
    Only.of_written honly.space hw le_rfl (by rw [length_words, hwords]; omega)
  refine ⟨some (sz-stringTotal argv-d), t, ?_, Or.inr ⟨_, addrs sz argv, rfl, by omega, ?_⟩⟩
  · rw [if_neg hfit, run_bind hrun']
    rfl
  refine ⟨fun i v hi => userBytes_word hbytes hi, ?_, ⟨by omega, fun x hx => ?_⟩, ⟨by omega, by omega, fun x hx => ?_⟩,
    hpair⟩
  · obtain ⟨hlen, hall⟩ := forall₂_iff_zip.mp hstr
    refine forall₂_iff_zip.mpr ⟨hlen, fun hab => ?_⟩
    rw [CString, honly'.userBytes (hin _ hab).1]
    exact hall hab
  · exact (hin x hx).2.2
  · obtain ⟨h1, h2, -⟩ := hin x hx
    exact ⟨by omega, h2⟩

/-- Every push that exec gets to is from an sp in the stack page and of at most a page, so that sp does
not go below 0. -/
theorem pushes_le {sz k : ℕ} {ns : List ℕ} (hsz : 2*pgsize ≤ sz) (hargv : Accepted argv)
    (hns : ns ++ [k] <+: pushes argv) (hfit : ∀ q, q <+: ns → sz-pgsize ≤ spAfter sz q) : k ≤ spAfter sz ns := by
  have hmem : k ∈ pushes argv := hns.subset (mem_append_right ns (mem_singleton_self k))
  have hk : k ≤ pgsize := by
    rcases mem_append.mp hmem with h | h
    · obtain ⟨a, ha, rfl⟩ := mem_map.mp h
      exact hargv.page a ha
    have hcount := hargv.count
    rw [mem_singleton.mp h, pgsize]
    rw [maxarg] at hcount
    omega
  have := hfit ns ⟨[], append_nil ns⟩
  omega

end Xv6.Exec
