import Xv6.SignalFlag

/-! usertrap tests `killed` for the last time before usertrapret runs the signal pass, and the
default actions of that pass set it. -/
namespace Xv6.Signal
open Runs

def Act.isFatal : Act → Bool
  | .kill | .stop => true
  | .cont | .frame => false

/-- A pass entered in `p` that ends leaves `killed` set by what it did, or as it was. -/
def KilledBy (p : Proc) (r : Pass) : Prop :=
  r.done = true → r.proc.killed = if r.acts.any (fun a => a.2.isFatal) then 1 else p.killed

theorem KilledBy.after {p q : Proc} {r : Pass} (i : Sig) {a : Act} (h : KilledBy q r)
    (hq : q.killed = if a.isFatal then 1 else p.killed) : KilledBy p (r.after (i, a)) := by
  intro hd
  have hr : r.proc.killed = if r.acts.any (fun a => a.2.isFatal) then 1 else q.killed := h hd
  have hany : (r.after (i, a)).acts.any (fun a => a.2.isFatal) = (a.isFatal || r.acts.any (fun a => a.2.isFatal)) := rfl
  rw [hany]
  show r.proc.killed = _
  rw [hr, hq, Bool.or_comm]
  cases r.acts.any (fun a => a.2.isFatal) <;> rfl

end Xv6.Signal
