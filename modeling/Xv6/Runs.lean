import Mathlib.Tactic
import Mathlib.Data.List.Infix

/-! Runs of a deterministic labelled transition system given by a partial step function. -/
namespace Xv6.Runs
variable {σ ε : Type*} (step : σ → ε → Option σ)

def run (s : σ) : List ε → Option σ
  | [] => some s
  | e :: es => (step s e).bind (fun t => run t es)

@[simp] theorem run_nil (s : σ) : run step s [] = some s := rfl

theorem run_cons (s : σ) (e : ε) (es : List ε) : run step s (e :: es) = (step s e).bind (fun t => run step t es) := rfl

theorem run_append (s : σ) (es fs : List ε) :
    run step s (es ++ fs) = (run step s es).bind (fun t => run step t fs) := by
  induction es generalizing s with
  | nil => rfl
  | cons e es ih =>
    simp only [List.cons_append, run_cons, Option.bind_assoc]
    exact congrArg _ (funext ih)

theorem run_snoc {s t u : σ} {es : List ε} {e : ε} (h : run step s es = some t)
    (he : step t e = some u) : run step s (es ++ [e]) = some u := by
  rw [run_append, h, Option.bind_some, run_cons, he, Option.bind_some, run_nil]

def Visits (s : σ) (es : List ε) (t : σ) : Prop := ∃ pre, pre <+: es ∧ run step s pre = some t

/-- The states reached from `s` by steps that all meet the condition `C`. -/
inductive Reach (C : σ → ε → Prop) (s : σ) : σ → Prop
  | start : Reach C s s
  | next {t u : σ} {e : ε} (h : Reach C s t) (hc : C t e) (hs : step t e = some u) : Reach C s u

variable {step}

/-- The invariant rule: true at the start and kept by every step that meets the condition. -/
theorem Reach.invariant {C : σ → ε → Prop} {I : σ → Prop} {s t : σ} (h : Reach step C s t)
    (h0 : I s) (hstep : ∀ t e u, I t → C t e → step t e = some u → I u) : I t := by
  induction h with
  | start => exact h0
  | next _ hc hs ih => exact hstep _ _ _ ih hc hs

theorem Reach.of_run {C : σ → ε → Prop} [∀ s e, Decidable (C s e)] {s t : σ} {es : List ε}
    (h : run (fun u e => if C u e then step u e else none) s es = some t) : Reach step C s t := by
  suffices hgen : ∀ u, Reach step C s u →
      run (fun u e => if C u e then step u e else none) u es = some t → Reach step C s t from
    hgen s .start h
  clear h
  induction es with
  | nil =>
    intro u hu h
    rw [run_nil] at h
    exact Option.some.inj h ▸ hu
  | cons e es ih =>
    intro u hu h
    rw [run_cons, Option.bind_eq_some_iff] at h
    obtain ⟨v, hv, hrest⟩ := h
    split_ifs at hv with hc
    exact ih v (.next hu hc hv) hrest

theorem Reach.run {C : σ → ε → Prop} {s t u : σ} {es : List ε} (h : Reach step C s t)
    (hes : ∀ e ∈ es, ∀ v, C v e) (hrun : run step t es = some u) : Reach step C s u := by
  induction es generalizing t with
  | nil =>
    rw [run_nil] at hrun
    exact Option.some.inj hrun ▸ h
  | cons e es ih =>
    rw [run_cons, Option.bind_eq_some_iff] at hrun
    obtain ⟨v, hv, hrest⟩ := hrun
    have hnext : Reach step C s v := .next h (hes e List.mem_cons_self t) hv
    exact ih hnext (fun e' he' => hes e' (List.mem_cons_of_mem _ he')) hrest

theorem Reach.mono {C D : σ → ε → Prop} (hCD : ∀ s e, C s e → D s e) {s t : σ}
    (h : Reach step C s t) : Reach step D s t := by
  induction h with
  | start => exact .start
  | next _ hc hs ih => exact .next ih (hCD _ _ hc) hs

theorem reach_of_run {s t : σ} {es : List ε} (h : run step s es = some t) : Reach step (fun _ _ => True) s t := by
  have hcheck : run (fun u e => if True then step u e else none) s es = some t := by simpa using h
  exact Reach.of_run hcheck

theorem run_invariant {I : σ → Prop} (hstep : ∀ t e u, I t → step t e = some u → I u)
    {s t : σ} {es : List ε} (h : run step s es = some t) (h0 : I s) : I t := by
  induction es generalizing s with
  | nil =>
    rw [run_nil] at h
    exact Option.some.inj h ▸ h0
  | cons e es ih =>
    rw [run_cons, Option.bind_eq_some_iff] at h
    obtain ⟨u, hu, hrest⟩ := h
    exact ih hrest (hstep s e u h0 hu)

theorem Visits.invariant {I : σ → Prop} {s t : σ} {es : List ε} (h : Visits step s es t) (h0 : I s)
    (hstep : ∀ pre e u v, pre ++ [e] <+: es → run step s pre = some u → I u → step u e = some v → I v) : I t := by
  obtain ⟨pre, hpre, hrun⟩ := h
  induction pre using List.reverseRecOn generalizing t with
  | nil =>
    rw [run_nil] at hrun
    exact Option.some.inj hrun ▸ h0
  | append_singleton pre e ih =>
    rw [run_append, Option.bind_eq_some_iff] at hrun
    obtain ⟨u, hu, hlast⟩ := hrun
    rw [run_cons, Option.bind_eq_some_iff] at hlast
    obtain ⟨v, hv, hnil⟩ := hlast
    rw [run_nil] at hnil
    have hI := ih ((List.prefix_append pre [e]).trans hpre) hu
    exact Option.some.inj hnil ▸ hstep pre e u v hpre hu hI hv

end Xv6.Runs
