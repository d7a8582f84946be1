import Mathlib.Tactic

/-! Partial correctness of programs with a state and exceptions. A triple also bounds the
exceptions that may be thrown. -/
namespace Xv6.Hoare
variable {σ ε α β : Type}

abbrev Prog (σ ε α : Type) := StateT σ (Except ε) α

def Triple (E : ε → Prop) (P : σ → Prop) (x : Prog σ ε α) (Q : α → σ → Prop) : Prop := ∀ s, P s → match x s with
    | .ok (a, t) => Q a t
    | .error e => E e

variable {E : ε → Prop} {P P' : σ → Prop} {Q Q' : α → σ → Prop}

theorem Triple.run_ok {x : Prog σ ε α} (h : Triple E P x Q) {s t : σ} {a : α} (hs : P s)
    (hx : x s = .ok (a, t)) : Q a t := by
  have := h s hs
  rwa [hx] at this

theorem Triple.run_error {x : Prog σ ε α} (h : Triple E P x Q) {s : σ} {e : ε} (hs : P s)
    (hx : x s = .error e) : E e := by
  have := h s hs
  rwa [hx] at this

theorem Triple.run_total {x : Prog σ ε α} (h : Triple (fun _ => False) P x Q) {s : σ} (hs : P s) :
    ∃ a t, x s = .ok (a, t) ∧ Q a t := by
  have := h s hs
  cases hx : x s with
  | error =>
    rw [hx] at this
    exact this.elim
  | ok r =>
    rw [hx] at this
    exact ⟨r.1, r.2, rfl, this⟩

theorem run_bind {x : Prog σ ε β} {s t : σ} {b : β} (h : x s = .ok (b, t)) (f : β → Prog σ ε α) :
    (x >>= f) s = f b t := by
  change (x s >>= fun r => f r.1 r.2) = f b t
  rw [h]
  rfl

theorem run_bind_error {x : Prog σ ε β} {s : σ} {e : ε} (h : x s = .error e) (f : β → Prog σ ε α) :
    (x >>= f) s = .error e := by
  change (x s >>= fun r => f r.1 r.2) = .error e
  rw [h]
  rfl

theorem run_bind_ok {x : Prog σ ε β} {f : β → Prog σ ε α} {s t : σ} {a : α}
    (h : (x >>= f) s = .ok (a, t)) : ∃ b u, x s = .ok (b, u) ∧ f b u = .ok (a, t) := by
  change (x s >>= fun r => f r.1 r.2) = .ok (a, t) at h
  cases hx : x s with
  | error =>
    rw [hx] at h
    cases h
  | ok r =>
    rw [hx] at h
    exact ⟨r.1, r.2, rfl, h⟩

theorem run_forM_cons {f : β → Prog σ ε Unit} {s t : σ} {b : β} (h : f b s = .ok ((), t)) (bs : List β) :
    (b :: bs).forM f s = bs.forM f t := run_bind h _

theorem Triple.conseq {x : Prog σ ε α} (h : Triple E P x Q) (hP : ∀ s, P' s → P s)
    (hQ : ∀ a s, Q a s → Q' a s) : Triple E P' x Q' := by
  intro s hs
  have := h s (hP s hs)
  cases hx : x s with
  | error =>
    rw [hx] at this
    exact this
  | ok r =>
    rw [hx] at this
    exact hQ r.1 r.2 this

theorem Triple.pre {x : Prog σ ε α} (h : Triple E P x Q) (hP : ∀ s, P' s → P s) : Triple E P' x Q :=
  h.conseq hP (fun _ _ hq => hq)

theorem Triple.post {x : Prog σ ε α} (h : Triple E P x Q) (hQ : ∀ a s, Q a s → Q' a s) : Triple E P x Q' :=
  h.conseq (fun _ hp => hp) hQ

theorem Triple.pure {a : α} (h : ∀ s, P s → Q a s) : Triple E P (pure a) Q := fun s hs => h s hs

theorem Triple.throw {e : ε} (h : ∀ s, P s → E e) : Triple E P (throw e : Prog σ ε α) Q := fun s hs => h s hs

theorem Triple.bind {x : Prog σ ε β} {f : β → Prog σ ε α} {R : β → σ → Prop}
    (hx : Triple E P x R) (hf : ∀ b, Triple E (R b) (f b) Q) : Triple E P (x >>= f) Q := by
  intro s hs
  have h := hx s hs
  change match (x s >>= fun r => f r.1 r.2) with
    | .ok (a, t) => Q a t
    | .error e => E e
  cases hr : x s with
  | error =>
    rw [hr] at h
    exact h
  | ok r =>
    rw [hr] at h
    exact hf r.1 r.2 h

theorem Triple.bind_two {γ : Type} {x : Prog σ ε γ} {g : γ → Prog σ ε β} {f : β → Prog σ ε α}
    {R : β → σ → Prop} (hx : Triple E P (x >>= g) R) (hf : ∀ b, Triple E (R b) (f b) Q) :
    Triple E P (x >>= fun a => g a >>= f) Q := by
  rw [← bind_assoc]
  exact hx.bind hf

theorem Triple.get {f : σ → Prog σ ε α} (h : ∀ s, P s → Triple E (fun t => t = s) (f s) Q) : Triple E P (get >>= f) Q :=
  fun s hs => h s hs s rfl

theorem Triple.modify {f : σ → σ} {Q : Unit → σ → Prop} (h : ∀ s, P s → Q () (f s)) :
    Triple E P (modify f : Prog σ ε Unit) Q :=
  fun s hs => h s hs

theorem Triple.ite {c : Prop} [Decidable c] {x y : Prog σ ε α} (hx : c → Triple E P x Q)
    (hy : ¬ c → Triple E P y Q) : Triple E P (if c then x else y) Q := by
  split_ifs with h
  · exact hx h
  · exact hy h

theorem Triple.assume {p : Prop} {x : Prog σ ε α} (h : p → Triple E P x Q) : Triple E (fun s => p ∧ P s) x Q :=
  fun s hs => h hs.1 s hs.2

theorem Triple.exceptions {x : Prog σ ε α} (h : Triple (fun _ => True) P x Q)
    (hx : Triple E (fun _ => True) x (fun _ _ => True)) : Triple E P x Q := by
  intro s hs
  have h1 := h s hs
  have h2 := hx s trivial
  cases hr : x s with
  | error =>
    rw [hr] at h2
    exact h2
  | ok =>
    rw [hr] at h1
    exact h1

theorem Triple.exists_pre {ι : Sort*} {p : ι → Prop} {R : ι → σ → Prop} {x : Prog σ ε α}
    (h : ∀ i, p i → Triple E (R i) x Q) : Triple E (fun s => ∃ i, p i ∧ R i s) x Q := by
  rintro s ⟨i, hp, hi⟩
  exact h i hp s hi

theorem Triple.bind_and {p : β → Prop} {R : β → σ → Prop} {x : Prog σ ε β} {f : β → Prog σ ε α}
    (hx : Triple E P x (fun b s => p b ∧ R b s)) (hf : ∀ b, p b → Triple E (R b) (f b) Q) : Triple E P (x >>= f) Q :=
  hx.bind (fun b => Triple.assume (hf b))

theorem Triple.bind_exists {ι : Sort*} {p : β → ι → Prop} {R : β → ι → σ → Prop} {x : Prog σ ε β}
    {f : β → Prog σ ε α} (hx : Triple E P x (fun b s => ∃ i, p b i ∧ R b i s))
    (hf : ∀ b i, p b i → Triple E (R b i) (f b) Q) : Triple E P (x >>= f) Q :=
  hx.bind (fun b => Triple.exists_pre (hf b))

theorem Triple.ite_throw {c : Prop} [Decidable c] {e : ε} {x : Prog σ ε α} (he : E e)
    (hx : ¬ c → Triple E P x Q) : Triple E P (if c then MonadExcept.throw e else x) Q :=
  Triple.ite (fun _ => Triple.throw (fun _ _ => he)) hx

/-- Whatever state the program starts from, what it returns is in `Q`. -/
def Returns (x : Prog σ ε α) (Q : α → Prop) : Prop := ∀ s a t, x s = .ok (a, t) → Q a

section Returns
variable {A : α → Prop} {x : Prog σ ε β} {f : β → Prog σ ε α}

theorem Returns.pure {a : α} (h : A a) : Returns (pure a : Prog σ ε α) A := by
  intro s b t hb
  cases hb
  exact h

theorem Returns.bind {B : β → Prop} (hx : Returns x B) (hf : ∀ b, B b → Returns (f b) A) : Returns (x >>= f) A := by
  intro s a t h
  obtain ⟨b, u, hb, h⟩ := run_bind_ok h
  exact hf b (hx s b u hb) u a t h

theorem Returns.skip (hf : ∀ b, Returns (f b) A) : Returns (x >>= f) A :=
  Returns.bind (B := fun _ => True) (fun _ _ _ _ => trivial) (fun b _ => hf b)

theorem Returns.ite {c : Prop} [Decidable c] {y z : Prog σ ε α} (hy : c → Returns y A) (hz : ¬ c → Returns z A) :
    Returns (if c then y else z) A := by
  split_ifs with h
  · exact hy h
  · exact hz h

theorem Returns.mono {A' : α → Prop} {y : Prog σ ε α} (h : Returns y A) (hA : ∀ a, A a → A' a) : Returns y A' :=
  fun s a t ha => hA a (h s a t ha)

end Returns

/-! A program over a larger state that does to a part of it what another program does. -/

section Erases
variable {τ : Type} {π : τ → σ}

def Erases (π : τ → σ) (x : Prog τ ε α) (y : Prog σ ε α) : Prop := ∀ s, (x s).map (fun r => (r.1, π r.2)) = y (π s)

theorem Erases.run_ok {x : Prog τ ε α} {y : Prog σ ε α} (h : Erases π x y) {s t : τ} {a : α}
    (hx : x s = .ok (a, t)) : y (π s) = .ok (a, π t) := by
  rw [← h s, hx]
  rfl

theorem Erases.pure (a : α) : Erases π (pure a : Prog τ ε α) (pure a) := fun _ => rfl

theorem Erases.throw (e : ε) : Erases π (throw e : Prog τ ε α) (throw e) := fun _ => rfl

theorem Erases.bind {x : Prog τ ε β} {y : Prog σ ε β} {f : β → Prog τ ε α} {g : β → Prog σ ε α}
    (hx : Erases π x y) (hf : ∀ b, Erases π (f b) (g b)) : Erases π (x >>= f) (y >>= g) := by
  intro s
  change (x s >>= fun r => f r.1 r.2).map _ = (y (π s) >>= fun r => g r.1 r.2)
  rw [← hx s]
  cases x s with
  | error => rfl
  | ok r => exact hf r.1 r.2

theorem Erases.ite {c : Prop} [Decidable c] {x x' : Prog τ ε α} {y y' : Prog σ ε α}
    (h : Erases π x y) (h' : Erases π x' y') :
    Erases π (if c then x else x') (if c then y else y') := by
  split_ifs
  · exact h
  · exact h'

end Erases

end Xv6.Hoare
