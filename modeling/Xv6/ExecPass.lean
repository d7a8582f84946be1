import Xv6.ExecRun
import Xv6.VmString

/-! The arguments of exec: what sys_exec takes from the calling program is what main finds on its
stack. -/
namespace Xv6.Exec
open Function Hoare Vm Bytes List

variable {m : Machine} {top : ℕ → Option ℕ} {R : Multiset ℕ} {s t : Ram} {p : Proc} {pt n tf : ℕ}
  {argv : List (List UInt8)} {bs : List UInt8}

theorem Passed.congr {v : Ram} {sz sp : ℕ} {ptrs : List ℕ} (h : Passed v pt sz sp argv ptrs)
    (hb : ∀ va, userByte t pt va = userByte v pt va) : Passed t pt sz sp argv ptrs := by
  have hbytes (a n : ℕ) : userBytes t pt a n = userBytes v pt a n := map_congr_left (fun k _ => hb (a+k))
  refine ⟨fun i v hi => ?_, h.strings.imp (fun a str hstr => ?_), h.aligned, h.page, h.apart⟩
  · rw [hbytes, h.array i v hi]
  · rw [CString, hbytes, hstr]

/-- No push that exec gets to takes sp below 0. -/
def NoUnderflow (sz : ℕ) (argv : List (List UInt8)) : Prop :=
  2*pgsize ≤ sz ∧ ∀ ns k, ns ++ [k] <+: pushes argv → (∀ q, q <+: ns → sz-pgsize ≤ spAfter sz q) → k ≤ spAfter sz ns

/-- What exec is to do with the arguments, once the image and the stack are there: it fails exactly if
they do not fit in the stack page, and otherwise main finds them at a1. -/
structure PassesArgs (t : Ram) (p p' : Proc) (argv : List (List UInt8)) (im : Loaded) (r : ℤ) : Prop where
  fails : r = -1 ↔ pgsize < total (pushes argv)
  noUnderflow : NoUnderflow im.sz argv
  passed : r ≠ -1 → r = argv.length ∧ p'.pagetable = im.pagetable ∧ p'.sz = im.sz ∧
    ∃ ptrs, Passed t p'.pagetable p'.sz (t.word p.trapframe frameA1) argv ptrs ∧
      t.word p.trapframe frameSp = t.word p.trapframe frameA1

/-- exec passes the arguments intact. -/
theorem exec_passes_arguments (m : Machine) (hm : m.pageCount < 2^26) (R : Multiset ℕ) (s : Ram) (p : Proc)
    (path : List UInt8) (file : Option Inode) (argv : List (List UInt8)) (calls : List FsCall)
    (h : Space m (procMap m p.trapframe) R s p.pagetable (pageNum p.sz)) (htf : p.trapframe ∈ R)
    (hargv : Accepted argv) :
    ∃ r p' t, exec m p path file argv ⟨s, calls⟩ = .ok ((r, p'), t) ∧ ((file = none ∧ r = -1) ∨
        ∃ ip x u, file = some ip ∧ load m p ip ⟨s, calls ++ [.beginOp, .namei true]⟩ = .ok (x, u) ∧
          ((∃ b, x = .error b ∧ r = -1) ∨ ∃ im, x = .ok im ∧ PassesArgs t.ram p p' argv im r)) := by
  cases file with
  | none => exact ⟨-1, p, _, exec_none m p path argv s calls, Or.inl ⟨rfl, rfl⟩⟩
  | some ip =>
    obtain ⟨x, u, r, p', t, hload, hrun, hx⟩ := execInode_spec hm h htf path ip argv (calls ++ [.beginOp, .namei true])
    rw [exec_some]
    refine ⟨r, p', _, hrun, Or.inr ⟨ip, x, u, rfl, hload, hx.imp (fun ⟨b, hx, hf, _⟩ => ⟨b, hx, hf.result⟩) ?_⟩⟩
    rintro ⟨im, y, v, rfl, hpush, hl, hu, hy⟩
    obtain ⟨y', v', hpush', hy'⟩ := hl.pushArgv hu hargv
    rw [hpush] at hpush'
    cases hpush'
    have hsz : 2*pgsize ≤ im.sz := by
      rw [hl.sz, pgsize]
      omega
    have hno : NoUnderflow im.sz argv := ⟨hsz, fun ns k => pushes_le hsz hargv⟩
    refine ⟨im, rfl, ?_⟩
    rcases hy with ⟨rfl, hf⟩ | ⟨sp, rfl, rfl, rfl, hrep, -⟩
    · rcases hy' with ⟨-, hbig⟩ | ⟨sp, ptrs, hsome, -⟩
      · exact ⟨iff_of_true hf.result hbig, hno, fun hr => absurd hf.result hr⟩
      · cases hsome
    rcases hy' with ⟨hnone, -⟩ | ⟨sp', ptrs, hsome, hfit, hpass⟩
    · cases hnone
    cases hsome
    have ha1 : t.word p.trapframe frameA1 = sp := by
      rw [hrep.frame, execFrame, update_of_ne (by decide), update_of_ne (by decide), update_self]
    have hsp : t.word p.trapframe frameSp = sp := by rw [hrep.frame, execFrame, update_self]
    refine ⟨iff_of_false (by omega) (by omega), hno, fun _ => ⟨rfl, rfl, rfl, ptrs, ?_, hsp.trans ha1.symm⟩⟩
    change Passed t im.pagetable im.sz (t.word p.trapframe frameA1) argv ptrs
    rw [ha1]
    exact hpass.congr hrep.bytes

theorem one_argument_passed : ∃ s p, p.sz = 4096 ∧ Accepted [[115, 104]] ∧
    ∃ r p' t, exec roomy p [115, 104] (some smallFile) [[115, 104]] ⟨s, []⟩ = .ok ((r, p'), t) ∧
      ((some smallFile = none ∧ r = -1) ∨ ∃ ip x u, some smallFile = some ip ∧
          load roomy p ip ⟨s, [] ++ [.beginOp, .namei true]⟩ = .ok (x, u) ∧
          ((∃ b, x = .error b ∧ r = -1) ∨ ∃ im, x = .ok im ∧ PassesArgs t.ram p p' [[115, 104]] im r)) := by
  obtain ⟨s, p, hsz, -, hs, -⟩ := roomy_process
  have hargv : Accepted [[115, 104]] := ⟨by decide, by decide, by decide⟩
  exact ⟨s, p, hsz, hargv, exec_passes_arguments roomy (by rw [roomy_pageCount]; decide) {p.trapframe} s p _ _ _ _ hs
    (Multiset.mem_singleton_self _) hargv⟩

end Xv6.Exec
