import Mathlib.Tactic
import Mathlib.Data.List.Nodup
import Mathlib.Logic.Function.Basic

/-! Ordered atomic writes to a store, and crashes between them: a crash keeps a prefix of
the writes, and a recovery procedure that is itself cut short can be run again. -/
namespace Xv6.WriteTrace

open Function List
variable {A V : Type*} [DecidableEq A]

def applyWrites (d : A → V) (ws : List (A × V)) : A → V := ws.foldl (fun e w => update e w.1 w.2) d

@[simp] theorem applyWrites_nil (d : A → V) : applyWrites d [] = d := rfl

theorem applyWrites_cons (d : A → V) (w : A × V) (ws : List (A × V)) :
    applyWrites d (w :: ws) = applyWrites (update d w.1 w.2) ws := rfl

theorem applyWrites_append (d : A → V) (ws vs : List (A × V)) :
    applyWrites d (ws ++ vs) = applyWrites (applyWrites d ws) vs := by
  simp only [applyWrites, foldl_append]

theorem applyWrites_of_notMem (d : A → V) (ws : List (A × V)) (a : A)
    (h : a ∉ ws.map Prod.fst) : applyWrites d ws a = d a := by
  induction ws generalizing d with
  | nil => rfl
  | cons w ws ih =>
    simp only [map_cons, mem_cons, not_or] at h
    rw [applyWrites_cons, ih _ h.2, update_of_ne h.1]

theorem applyWrites_of_mem (d : A → V) (ws : List (A × V)) (a : A) (v : V)
    (hn : (ws.map Prod.fst).Nodup) (h : (a, v) ∈ ws) : applyWrites d ws a = v := by
  induction ws generalizing d with
  | nil => cases h
  | cons w ws ih =>
    rw [map_cons, nodup_cons] at hn
    rw [applyWrites_cons]
    rcases mem_cons.mp h with hw | hw
    · subst hw
      rw [applyWrites_of_notMem _ ws a hn.1, update_self]
    · exact ih _ hn.2 hw

theorem applyWrites_of_prefix (d : A → V) {pre ws : List (A × V)} (hp : pre <+: ws) (a : A)
    (h : a ∉ ws.map Prod.fst) : applyWrites d pre a = d a := by
  apply applyWrites_of_notMem
  intro ha
  exact h ((hp.map Prod.fst).subset ha)

/-- The stores found after any number of crashes, each keeping a prefix of the writes of
one run of the recovery procedure `R` on the store of the moment. -/
inductive Crashes (R : (A → V) → List (A × V) → Prop) (d : A → V) : (A → V) → Prop
  | none : Crashes R d d
  | again {e : A → V} {ws pre : List (A × V)} (h : Crashes R d e) (hR : R e ws)
      (hp : pre <+: ws) : Crashes R d (applyWrites e pre)

theorem Crashes.invariant {R : (A → V) → List (A × V) → Prop} {I : (A → V) → Prop} {d e : A → V}
    (h : Crashes R d e) (h0 : I d)
    (hstep : ∀ e ws pre, I e → R e ws → pre <+: ws → I (applyWrites e pre)) : I e := by
  induction h with
  | none => exact h0
  | again _ hR hp ih => exact hstep _ _ _ ih hR hp

end Xv6.WriteTrace
