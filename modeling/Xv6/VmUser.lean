import Xv6.VmMap
import Xv6.VmByte

/-! User memory: the bytes at the addresses that a page table maps for user space. copyout and
copyin write and read it page by page. -/
namespace Xv6.Vm
open Hoare Radix Bytes

def userFrame (s : Ram) (pt va : ℕ) : Option ℕ :=
  if va < maxva then ((pteOf s pt va).filter (fun w => decide (w &&& pteU ≠ 0))).map pte2pa else none

def userByte (s : Ram) (pt va : ℕ) : Option UInt8 := (userFrame s pt va).map (fun f => s.byte (f+va%pgsize))

def UserMapped (s : Ram) (pt va : ℕ) : Prop := (userFrame s pt va).isSome = true

instance (s : Ram) (pt va : ℕ) : Decidable (UserMapped s pt va) := inferInstanceAs (Decidable (_ = true))

/-- The user pages have frames of their own: no other user page is mapped to one, and no page of the
table is one. Address 0 is no frame. -/
structure UserSpace (s : Ram) (pt : ℕ) : Prop where
  ne_zero : ∀ va, userFrame s pt va ≠ some 0
  apart : ∀ va f, userFrame s pt va = some f → f ∉ tables s pt
  inj : ∀ va va' f, userFrame s pt va = some f → userFrame s pt va' = some f → va/pgsize = va'/pgsize

/-- User memory after the bytes `bs` were written from `a` on. Only the frames of these addresses
change, and the page table is as before. -/
structure Written (s t : Ram) (pt a : ℕ) (bs : List UInt8) : Prop where
  frame : ∀ va, userFrame t pt va = userFrame s pt va
  byte : ∀ va, userByte t pt va = if a ≤ va ∧ va < a+bs.length then bs[va-a]? else userByte s pt va
  word : ∀ q, (∀ k < bs.length, userFrame s pt (a+k) ≠ some q) → t.word q = s.word q
  tables : tables t pt = tables s pt
  freelist : t.freelist = s.freelist
  refuse : t.refuse = s.refuse

variable {s t u : Ram} {pt a va f n : ℕ} {bs cs : List UInt8}

theorem userFrame_page (h : va/pgsize = a/pgsize) : userFrame s pt va = userFrame s pt a := by
  rw [userFrame, userFrame]
  rw [pgsize] at h
  by_cases hva : va < maxva
  · have ha : a < maxva := by
      rw [maxva] at *
      omega
    have hsame := (same_iff (hva.trans (by decide)) (ha.trans (by decide))).mpr h
    rw [if_pos hva, if_pos ha, pteOf, pteOf, look_same hsame]
  · have ha : ¬a < maxva := by
      rw [maxva] at *
      omega
    rw [if_neg hva, if_neg ha]

theorem userFrame_lt (h : userFrame s pt va = some f) : va < maxva := by
  by_contra hva
  rw [userFrame, if_neg hva] at h
  cases h

theorem userFrame_aligned (h : userFrame s pt va = some f) : f%pgsize = 0 := by
  rw [userFrame, if_pos (userFrame_lt h)] at h
  obtain ⟨w, -, rfl⟩ := Option.map_eq_some_iff.mp h
  exact pte2pa_aligned w

theorem UserMapped.lt (h : UserMapped s pt va) : va < maxva := by
  obtain ⟨f, hf⟩ := Option.isSome_iff_exists.mp h
  exact userFrame_lt hf

theorem userMapped_of_byte {va : ℕ} {b : UInt8} (h : userByte s pt va = some b) : UserMapped s pt va := by
  obtain ⟨f, hf, -⟩ := Option.map_eq_some_iff.mp h
  rw [UserMapped, hf, Option.isSome_some]

theorem userPage_eq (w : Option ℕ) :
    userPage w = ((w.filter (fun w => decide (w &&& pteU ≠ 0))).map pte2pa).getD 0 := by
  cases w with
  | none => rfl
  | some w =>
    rw [userPage]
    by_cases hu : w &&& pteU = 0
    · rw [if_pos hu, Option.filter_some_neg (by simpa using hu)]
      rfl
    · rw [if_neg hu, Option.filter_some_pos (by simpa using hu)]
      rfl

theorem walkaddr_user (s : Ram) (pt va : ℕ) : walkaddr pt (pgrounddown va) s = .ok ((userFrame s pt va).getD 0, s) := by
  have hpage : pgrounddown va/pgsize = va/pgsize := by
    rw [pgrounddown, pgsize]
    omega
  rw [← userFrame_page hpage, userFrame]
  by_cases hva : pgrounddown va < maxva
  · rw [walkaddr_run hva, if_pos hva, userPage_eq]
  · rw [walkaddr, if_pos (not_lt.mp hva), if_neg hva]
    rfl

theorem userFrame_congr (h : ∀ q ∈ tables s pt, t.word q = s.word q) (va : ℕ) :
    userFrame t pt va = userFrame s pt va := by
  rw [userFrame, userFrame, pteOf, pteOf, look_congr h]

theorem UserSpace.congr (hs : UserSpace s pt) (h : Written s t pt a bs) : UserSpace t pt := by
  refine ⟨fun va => ?_, fun va f hf => ?_, fun va va' f hf hf' => ?_⟩
  · rw [h.frame]
    exact hs.ne_zero va
  · rw [h.tables]
    exact hs.apart va f ((h.frame va).symm.trans hf)
  · exact hs.inj va va' f ((h.frame va).symm.trans hf) ((h.frame va').symm.trans hf')

theorem Written.nil (s : Ram) (pt a : ℕ) : Written s s pt a [] :=
  ⟨fun _ => rfl, fun _ => by rw [List.length_nil, if_neg (by omega)], fun _ _ => rfl, rfl, rfl, rfl⟩

theorem Written.append (h : Written s t pt a bs) (h' : Written t u pt (a+bs.length) cs) :
    Written s u pt a (bs ++ cs) := by
  refine ⟨fun va => (h'.frame va).trans (h.frame va), fun va => ?_, fun q hq => ?_,
    h'.tables.trans h.tables, h'.freelist.trans h.freelist, h'.refuse.trans h.refuse⟩
  · rw [h'.byte, h.byte, List.length_append]
    by_cases hin : a+bs.length ≤ va ∧ va < a+bs.length+cs.length
    · rw [if_pos hin, if_pos (by omega), List.getElem?_append_right (by omega), Nat.sub_sub]
    rw [if_neg hin]
    by_cases hfirst : a ≤ va ∧ va < a+bs.length
    · rw [if_pos hfirst, if_pos (by omega), List.getElem?_append_left (by omega)]
    · rw [if_neg hfirst, if_neg (by omega)]
  · rw [List.length_append] at hq
    refine (h'.word q (fun k hk => ?_)).trans (h.word q (fun k hk => hq k (by omega)))
    rw [h.frame, Nat.add_assoc]
    exact hq _ (by omega)

theorem UserSpace.memmove (hs : UserSpace s pt) (hf : userFrame s pt a = some f) (hlen : bs.length ≤ pgsize-a%pgsize) :
    Written s (s.setBytes (f+a%pgsize) bs) pt a bs := by
  have hal := userFrame_aligned hf
  have hpage (k : ℕ) (hk : k < bs.length) : pgrounddown (f+a%pgsize+k) = f := by
    rw [Nat.add_assoc]
    exact pgrounddown_add hal (by omega)
  have hother {q : ℕ} (hq : q ≠ f) : (s.setBytes (f+a%pgsize) bs).word q = s.word q :=
    setBytes_word (fun k hk hpg => hq (hpg.symm.trans (hpage k hk)))
  have htable : ∀ q ∈ tables s pt, (s.setBytes (f+a%pgsize) bs).word q = s.word q :=
    fun q hq => hother (fun h => hs.apart a f hf (h ▸ hq))
  have hframe := userFrame_congr htable
  refine ⟨hframe, fun va => ?_, fun q hq => ?_, nodes_congr htable, setBytes_freelist, setBytes_refuse⟩
  · rw [userByte, hframe, byte_setBytes, userByte]
    by_cases hin : a ≤ va ∧ va < a+bs.length
    · -- the address lies in the page of `a`
      have hsame : va/pgsize = a/pgsize := by
        rw [pgsize] at *
        omega
      have hoff : f+va%pgsize = f+a%pgsize+(va-a) := by
        rw [pgsize] at *
        omega
      rw [if_pos hin, userFrame_page hsame, hf, Option.map_some, hoff, store, if_pos (by omega),
        Nat.add_sub_cancel_left, List.getD_eq_getElem?_getD, List.getElem?_eq_getElem (by omega), Option.getD_some]
    · rw [if_neg hin]
      cases hva : userFrame s pt va with
      | none => rfl
      | some f' =>
        rw [Option.map_some, Option.map_some, store, if_neg (fun hstore => hin ?_)]
        have hal' := userFrame_aligned hva
        have hff : f' = f := by
          rw [pgsize] at *
          omega
        have hsame := hs.inj va a f (hff ▸ hva) hf
        rw [pgsize] at *
        omega
  · rcases Nat.eq_zero_or_pos bs.length with h0 | hpos
    · rw [List.eq_nil_of_length_eq_zero h0]
      rfl
    · refine hother (fun h => hq 0 hpos ?_)
      rw [Nat.add_zero, hf, h]

theorem mapped_of_page (hf : userFrame s pt a = some f) {k : ℕ} (hk : k < pgsize-a%pgsize) : UserMapped s pt (a+k) := by
  have hsame : (a+k)/pgsize = a/pgsize := by
    rw [pgsize] at *
    omega
  rw [UserMapped, userFrame_page hsame, hf, Option.isSome_some]

theorem next_page_start (ha : a < maxva) : (pgrounddown a+pgsize)%2^64 = a+(pgsize-a%pgsize) := by
  rw [pgrounddown, pgsize, maxva] at *
  omega

theorem Written.mapped (h : Written s t pt a bs) {va : ℕ} : UserMapped t pt va ↔ UserMapped s pt va := by
  rw [UserMapped, UserMapped, h.frame]

/-- How far a copy of `len` bytes from or to `a` gets: `n` bytes, up to the first page that is not
mapped. -/
structure Copied (s : Ram) (pt a len : ℕ) (r : ℤ) (n : ℕ) : Prop where
  mapped : ∀ k < n, UserMapped s pt (a+k)
  result : (r = 0 ∧ n = len) ∨ (r = -1 ∧ n < len ∧ ¬UserMapped s pt ((a+n)%2^64))

theorem Copied.zero (s : Ram) (pt a : ℕ) : Copied s pt a 0 0 0 :=
  ⟨fun _ hk => absurd hk (Nat.not_lt_zero _), Or.inl ⟨rfl, rfl⟩⟩

theorem Copied.bad (ha : a < 2^64) (hn : 0 < n) (hf : userFrame s pt a = none) : Copied s pt a n (-1) 0 := by
  refine ⟨fun _ hk => absurd hk (Nat.not_lt_zero _), Or.inr ⟨rfl, hn, ?_⟩⟩
  rw [Nat.add_zero, Nat.mod_eq_of_lt ha, UserMapped, hf]
  exact Bool.false_ne_true

theorem Copied.page {len n' : ℕ} {r : ℤ} (hf : userFrame s pt a = some f) (hn : n ≤ pgsize-a%pgsize)
    (h : Copied s pt (a+n) len r n') : Copied s pt a (n+len) r (n+n') := by
  refine ⟨fun k hk => ?_, h.result.imp (fun h => ⟨h.1, by rw [h.2]⟩) (fun h => ⟨h.1, by omega, ?_⟩)⟩
  · by_cases hin : k < n
    · exact mapped_of_page hf (hin.trans_le hn)
    · have hk' := h.mapped (k-n) (by omega)
      rwa [Nat.add_assoc, Nat.add_sub_cancel' (not_lt.mp hin)] at hk'
  · rw [← Nat.add_assoc]
    exact h.2.2

end Xv6.Vm
