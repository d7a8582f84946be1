import Xv6.SignalCopy
import Xv6.SignalReturn

/-! Both copies of `sigaction` have the length of the whole structure, so the one that starts at its
second field ends eight bytes behind it. -/
namespace Xv6.Signal
open Function Bytes List

theorem length_handlerBytes (p : Proc) (i : Sig) : (handlerBytes p i).length = 16 := by
  have hi := i.isLt
  simp only [handlerBytes, length_take, length_drop, length_flatMap, length_leBytes,
    map_const', length_append, length_map, length_finRange, length_singleton,
    sum_replicate, smul_eq_mul]
  omega

theorem take_handlerBytes (p : Proc) (i : Sig) : (handlerBytes p i).take 8 = leBytes 8 (p.signalHandlers i).toNat := by
  have hi : ((List.finRange 32).map p.signalHandlers ++ [p.backupTrapframePtr])[i.val]? =
      some (p.signalHandlers i) := by
    rw [List.getElem?_append_left (by simp)]
    simp
  have hlen (w : Word) : (leBytes 8 w.toNat).length = 8 := length_leBytes 8 w.toNat
  rw [handlerBytes, take_take]
  exact take_drop_flatMap _ (fun w : Word => leBytes 8 w.toNat) hlen hi

theorem length_maskBytes {p : Proc} (ht : 12 ≤ p.slotTail.length) (i : Sig) : (maskBytes p i).length = 16 := by
  have hi := i.isLt
  simp only [maskBytes, length_take, length_drop, length_append, length_flatMap,
    length_leBytes, map_const', length_map, length_finRange, sum_replicate,
    smul_eq_mul]
  omega

theorem take_maskBytes (p : Proc) (i : Sig) : (maskBytes p i).take 4 = leBytes 4 (p.sigMaskArray i).toNat := by
  have hi : ((List.finRange 32).map p.sigMaskArray)[i.val]? = some (p.sigMaskArray i) := by simp
  have hlen : 4*i.val+4 ≤ (((List.finRange 32).map p.sigMaskArray).flatMap (fun w => leBytes 4 w.toNat)).length := by
    have := i.isLt
    simp only [length_flatMap, length_leBytes, map_const', length_map, length_finRange, sum_replicate, smul_eq_mul]
    omega
  rw [maskBytes, take_take, drop_append_of_le_length (by omega), take_append_of_le_length (by rw [length_drop]; omega)]
  exact take_drop_flatMap _ _ (fun w => length_leBytes 4 w.toNat) hi

variable {m : UserMem} {va : Word}

theorem UserMem.Written.holds {m' : UserMem} {bs : List UInt8} (h : m.Written m' va bs)
    (hlen : bs.length ≤ 2^64) : m'.Holds va bs := by
  intro k hk
  rw [h.get, BitVec.add_comm, BitVec.add_sub_cancel, BitVec.toNat_ofNat, Nat.mod_eq_of_lt (by omega),
    List.getElem?_eq_getElem hk, Option.some_or]

theorem UserMem.Holds.left {bs cs : List UInt8} (h : m.Holds va (bs ++ cs)) : m.Holds va bs := by
  intro k hk
  have h' := h k (by rw [length_append]; omega)
  rwa [getElem_append_left hk] at h'

theorem UserMem.Holds.right {bs cs : List UInt8} {n : ℕ}
    (h : m.Holds va (bs ++ cs)) (hn : bs.length = n) : m.Holds (va+BitVec.ofNat 64 n) cs := by
  subst hn
  intro k hk
  have h' := h (bs.length+k) (by rw [length_append]; omega)
  rw [getElem_append_right (Nat.le_add_right ..)] at h'
  simp only [Nat.add_sub_cancel_left] at h'
  rwa [BitVec.add_assoc, ← BitVec.ofNat_add]

def installed (p : Proc) (i : Sig) (m : UserMem) (bs : List UInt8) : Proc := { p with
    mem := m
    signalHandlers := update p.signalHandlers i (BitVec.ofNat 64 (leNat (bs.take 8)))
    sigMaskArray := update p.sigMaskArray i (BitVec.ofNat 32 (leNat ((bs.drop 8).take 4))) }

section
variable {p : Proc} (hm : p.mem.Flat) (ht : 12 ≤ p.slotTail.length) {i : Sig} (hk : i ≠ sigkill)
  (hs : i ≠ sigstop) {oldact : Word} (h0 : oldact ≠ 0)
include hk hs

theorem sigaction_in_range (act oldact : Word) : sigaction p i act oldact =
    match copyin p.mem act 16 with
    | none => (p, -1)
    | some bs =>
      if oldact = 0 then (installed p i p.mem bs, 0)
      else if (copyout p.mem oldact (handlerBytes p i)).2 ≠ 0 then
        ({ p with mem := (copyout p.mem oldact (handlerBytes p i)).1 }, -1)
      else if (copyout (copyout p.mem oldact (handlerBytes p i)).1 (oldact+8#64) (maskBytes p i)).2 ≠ 0 then
        ({ p with
          mem := (copyout (copyout p.mem oldact (handlerBytes p i)).1 (oldact+8#64) (maskBytes p i)).1 }, -1)
      else (installed p i
        (copyout (copyout p.mem oldact (handlerBytes p i)).1 (oldact+8#64) (maskBytes p i)).1 bs, 0) := by
  have hlt := i.isLt
  have hk' : (i.val : ℤ) ≠ 9 := fun h => hk (Fin.ext (by change i.val = 9; omega))
  have hs' : (i.val : ℤ) ≠ 17 := fun h => hs (Fin.ext (by change i.val = 17; omega))
  have hrange : ¬((i.val : ℤ) = 9 ∨ (i.val : ℤ) = 17 ∨ (i.val : ℤ) < 0 ∨ (i.val : ℤ) ≥ 32) := by omega
  have hfin : Fin.ofNat 32 (i.val : ℤ).toNat = i := by simp
  rw [sigaction, if_neg hrange, hfin]
  rfl

include hm ht h0

/-- The call succeeds if the new action and 24 bytes from `oldact` on are mapped, and then writes
all these bytes. -/
theorem sigaction_effect (act : Word) : (p.mem.Mapped act 16 ∧ p.mem.Mapped oldact 24 ∧
      ∃ m bs, sigaction p i act oldact = (installed p i m bs, 0) ∧ bs.length = 16 ∧ p.mem.Holds act bs ∧
        p.mem.Written m oldact ((handlerBytes p i).take 8 ++ maskBytes p i)) ∨
    (¬(p.mem.Mapped act 16 ∧ p.mem.Mapped oldact 24) ∧ ∃ m, sigaction p i act oldact = ({ p with mem := m }, -1)) := by
  have hlenH := length_handlerBytes p i
  have hlenM := length_maskBytes ht i
  have hsplit : p.mem.Mapped oldact 24 ↔ p.mem.Mapped oldact 8 ∧ p.mem.Mapped (oldact+8#64) 16 :=
    p.mem.mapped_add oldact 8 16
  have hsplit' : p.mem.Mapped oldact 24 ↔ p.mem.Mapped oldact 16 ∧ p.mem.Mapped (oldact+16#64) 8 :=
    p.mem.mapped_add oldact 16 8
  rw [sigaction_in_range hk hs]
  rcases copyin_spec p.mem act 16 with ⟨hact, bs, hbs, hlen, hholds⟩ | ⟨hact, hbs⟩
  · rw [hbs]
    dsimp only
    rw [if_neg h0]
    have h1 := copyout_spec p.mem oldact (handlerBytes p i) (by omega)
    rcases h1 with ⟨hmap, hret, hwalk, hw⟩ | ⟨hmap, hret⟩
    · rw [if_neg (by omega)]
      have h2 := copyout_spec (copyout p.mem oldact (handlerBytes p i)).1 (oldact+8#64) (maskBytes p i) (by omega)
      rcases h2 with ⟨hmap', hret', -, hw'⟩ | ⟨hmap', hret'⟩
      · rw [UserMem.Mapped.congr hwalk, hlenM] at hmap'
        rw [hlenH, p.mem.mapped_add oldact 8 8] at hmap
        rw [if_neg (by omega)]
        exact Or.inl ⟨hact, hsplit.mpr ⟨hmap.1, hmap'⟩, _, bs, rfl, hlen, hholds,
          (hw hm).over (hw' (hm.congr hwalk)) (by omega) (by omega) (by omega)⟩
      · rw [UserMem.Mapped.congr hwalk, hlenM] at hmap'
        rw [if_pos (by omega)]
        exact Or.inr ⟨fun h => hmap' (hsplit.mp h.2).2, _, rfl⟩
    · rw [hlenH] at hmap
      rw [if_pos (by omega)]
      exact Or.inr ⟨fun h => hmap (hsplit'.mp h.2).1, _, rfl⟩
  · rw [hbs]
    exact Or.inr ⟨fun h => hact h.1, p.mem, rfl⟩

end

/-- A successful call leaves the old action in the two fields, writes nothing outside them and
installs the new action for its own signal; a failed one leaves both tables alone. -/
def WritesOldAction (p : Proc) (i : Sig) (act oldact : Word) : Prop := ((sigaction p i act oldact).2 = 0 →
    (sigaction p i act oldact).1.mem.Holds oldact (leBytes 8 (p.signalHandlers i).toNat) ∧
    (sigaction p i act oldact).1.mem.Holds (oldact+8#64) (leBytes 4 (p.sigMaskArray i).toNat) ∧
    (∀ v, 16 ≤ (v-oldact).toNat → (sigaction p i act oldact).1.mem.get v = p.mem.get v) ∧
    ∃ bs, bs.length = 16 ∧ p.mem.Holds act bs ∧ (sigaction p i act oldact).1.signalHandlers =
        update p.signalHandlers i (BitVec.ofNat 64 (leNat (bs.take 8))) ∧
      (sigaction p i act oldact).1.sigMaskArray =
        update p.sigMaskArray i (BitVec.ofNat 32 (leNat ((bs.drop 8).take 4)))) ∧
  ((sigaction p i act oldact).2 = -1 → (sigaction p i act oldact).1.signalHandlers = p.signalHandlers ∧
    (sigaction p i act oldact).1.sigMaskArray = p.sigMaskArray)

/-- Behind the structure stays what was there just if the bytes written there are the same. -/
theorem frame_iff_tail {m' : UserMem} {hs ms : List UInt8} (hh : hs.length = 8)
    (hms : ms.length = 16) (h : m.Written m' va (hs ++ ms)) :
    (∀ v, 16 ≤ (v-va).toNat → m'.get v = m.get v) ↔ m.Holds (va+16#64) (ms.drop 8) := by
  have hback (k : ℕ) (hk : k < 8) : (va+16#64+BitVec.ofNat 64 k-va).toNat = 16+k := by bv_omega
  constructor
  · intro hframe k hk
    have hk8 : k < 8 := by simpa [hms] using hk
    have hv := hframe (va+16#64+BitVec.ofNat 64 k) (by rw [hback k hk8]; omega)
    rw [h.get, hback k hk8, List.getElem?_append_right (by omega), hh,
      List.getElem?_eq_getElem (by omega), Option.some_or] at hv
    rw [← hv, getElem_drop]
    congr 2
    omega
  intro hold v hv
  rw [h.get]
  by_cases hin : (v-va).toNat < 24
  · have hat := hold ((v-va).toNat-16) (by rw [length_drop]; omega)
    have hv' : va+16#64+BitVec.ofNat 64 ((v-va).toNat-16) = v := by
      apply BitVec.eq_of_toNat_eq
      rw [BitVec.toNat_add, BitVec.toNat_add, BitVec.toNat_ofNat, BitVec.toNat_ofNat]
      have := BitVec.toNat_sub v va
      omega
    rw [hv', getElem_drop] at hat
    rw [hat, List.getElem?_append_right (by omega), hh, List.getElem?_eq_getElem (by omega), Option.some_or]
    congr 2
    omega
  · have hout : (hs ++ ms)[(v-va).toNat]? = none := by
      rw [List.getElem?_eq_none_iff, length_append]
      omega
    rw [hout, Option.none_or]

/-- `sigaction` writes exactly the old action just if the eight bytes behind it already are what
the second copy puts there, or the call fails. -/
theorem sigaction_writes_old_action_iff {p : Proc} (hm : p.mem.Flat) (ht : 12 ≤ p.slotTail.length)
    {i : Sig} (hk : i ≠ sigkill) (hs : i ≠ sigstop) (act : Word) {oldact : Word} (h0 : oldact ≠ 0) :
    WritesOldAction p i act oldact ↔ (p.mem.Mapped act 16 → p.mem.Mapped oldact 24 →
        p.mem.Holds (oldact+16#64) ((maskBytes p i).drop 8)) := by
  have hlenM := length_maskBytes ht i
  have hlenH : ((handlerBytes p i).take 8).length = 8 := by
    rw [length_take, length_handlerBytes]
    rfl
  rcases sigaction_effect hm ht hk hs h0 act with
    ⟨hact, hold, m, bs, hrun, hlen, hbs, hw⟩ | ⟨hfail, m, hrun⟩
  · have hframe := frame_iff_tail hlenH hlenM hw
    have hall := hw.holds (by rw [length_append]; omega)
    have hfields : m.Holds oldact (leBytes 8 (p.signalHandlers i).toNat) ∧
        m.Holds (oldact+8#64) (leBytes 4 (p.sigMaskArray i).toNat) := by
      have hmask := hall.right hlenH
      rw [← take_append_drop 4 (maskBytes p i)] at hmask
      exact ⟨take_handlerBytes p i ▸ hall.left, take_maskBytes p i ▸ hmask.left⟩
    rw [WritesOldAction, hrun]
    constructor
    · intro h _ _
      exact hframe.mp (h.1 rfl).2.2.1
    intro h
    refine ⟨fun _ => ⟨hfields.1, hfields.2, hframe.mpr (h hact hold), bs, hlen, hbs, rfl, rfl⟩, ?_⟩
    intro hret
    cases hret
  · rw [WritesOldAction, hrun]
    refine iff_of_true ⟨?_, fun _ => ⟨rfl, rfl⟩⟩ (fun hact hold => absurd ⟨hact, hold⟩ hfail)
    intro hret
    cases hret

theorem flat_identity (f : Word → UInt8) : UserMem.Flat ⟨some, f⟩ := by
  refine ⟨fun u pa h => ?_, fun u v pa hu hv => Option.some.inj (hu.trans hv.symm)⟩
  cases h
  exact pgRoundDown_aligned u

def marked (a : Word) : Proc := { interrupted 0 with
    mem := ⟨some, fun v => if v = a then 255 else 0⟩
    slotTail := List.replicate 12 0 }

theorem old_action_written_far_mark : (marked 0x6000).mem.Mapped 0x5000 16 ∧
    (marked 0x6000).mem.Mapped 0x4000 24 ∧ WritesOldAction (marked 0x6000) 15 0x5000 0x4000 := by
  refine ⟨fun _ _ => rfl, fun _ _ => rfl, (sigaction_writes_old_action_iff (flat_identity _) ?_
    (i := 15) ?_ ?_ 0x5000 ?_).mpr ?_⟩
  · decide
  · decide
  · decide
  · decide
  · intro _ _
    unfold UserMem.Holds
    decide

/-- The byte sixteen behind `oldact`, outside the structure, is lost. -/
theorem sigaction_overwrites_neighbour : (marked 0x4010).mem.Flat ∧
    (marked 0x4010).mem.Mapped 0x5000 16 ∧ (marked 0x4010).mem.Mapped 0x4000 16 ∧
    (sigaction (marked 0x4010) 15 0x5000 0x4000).2 = 0 ∧
    (marked 0x4010).mem.get 0x4010 = some 255 ∧
    (sigaction (marked 0x4010) 15 0x5000 0x4000).1.mem.get 0x4010 = some 0 :=
  ⟨flat_identity _, fun _ _ => rfl, fun _ _ => rfl, by decide, by decide, by decide⟩

end Xv6.Signal
