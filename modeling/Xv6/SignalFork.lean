import Xv6.SignalReturn

/-! allocproc gives a child a backup page of its own and clears the flag, and fork copies neither
the flag nor what the set-up of a handler frame has saved. -/
namespace Xv6.Signal

-- kalloc fills the page that it returns with this.
def junkWord : Word := 0x0505050505050505

def junkRegs : UserRegs :=
  ⟨junkWord, junkWord, junkWord, junkWord, junkWord, junkWord, junkWord, junkWord, junkWord, junkWord,
   junkWord, junkWord, junkWord, junkWord, junkWord, junkWord, junkWord, junkWord, junkWord, junkWord,
   junkWord, junkWord, junkWord, junkWord, junkWord, junkWord, junkWord, junkWord, junkWord, junkWord,
   junkWord⟩

def junkFrame : Trapframe := ⟨junkWord, junkWord, junkWord, junkWord, junkWord, junkRegs⟩

/-- The free slot `slot` as a successful allocproc leaves it. `page` is the kalloc for the backup
page, null if that fails: its result is not checked. -/
def allocproc (slot : Proc) (pid : ℤ) (page : Word) : Proc := { slot with
    pid := pid
    state := .used
    trapframe := junkFrame
    signalMask := 0
    pendingSignals := 0
    sigHandlerFlag := 0
    frozen := 0
    backupTrapframePtr := page
    backupTrapframe := junkFrame
    signalHandlers := fun _ => sigDfl
    sigMaskArray := fun _ => 0 }

/-- The child of a successful fork of `p`; `mem` is the copy of the user memory. -/
def fork (p slot : Proc) (pid : ℤ) (page : Word) (mem : UserMem) : Proc :=
  let np := allocproc slot pid page
  { np with
    mem := mem
    signalMask := p.signalMask
    signalHandlers := p.signalHandlers
    sigMaskArray := p.sigMaskArray
    trapframe := { p.trapframe with regs := { p.trapframe.regs with a0 := 0 } }
    state := .runnable }

/-- sigret as a system call: with a null backup page its memmove faults in the kernel. -/
def sigretCall (p : Proc) : Option Proc := if p.backupTrapframePtr = 0 then none else some (sigret p)

def userContext (t : Trapframe) : Word × UserRegs := (t.epc, { t.regs with a0 := 0 })

def SharesActions (p c : Proc) : Prop :=
  c.signalMask = p.signalMask ∧ c.signalHandlers = p.signalHandlers ∧ c.sigMaskArray = p.sigMaskArray ∧
  c.pendingSignals = 0

/-- Where the parent would get by sigret, the child gets, too. -/
def ReturnsAs (p c : Proc) : Prop := ∀ q, sigretCall p = some q → ∃ r, sigretCall c = some r ∧
    userContext r.trapframe = userContext q.trapframe ∧ r.signalMask = q.signalMask

section
variable (p slot : Proc) (pid : ℤ) (page : Word) (mem : UserMem)
include p slot pid page mem

theorem fork_sharesActions : SharesActions p (fork p slot pid page mem) := ⟨rfl, rfl, rfl, rfl⟩

/-- The child of a fork returns from a handler with what kalloc and the last user of its slot have
left there. -/
theorem fork_returnsAs_iff : ReturnsAs p (fork p slot pid page mem) ↔
      (p.backupTrapframePtr ≠ 0 → page ≠ 0 ∧ userContext junkFrame = userContext p.backupTrapframe ∧
        slot.backupSigMask = p.backupSigMask) := by
  constructor
  · intro h hptr
    obtain ⟨r, hr, hctx, hmask⟩ := h (sigret p) (by rw [sigretCall, if_neg hptr])
    by_cases hpage : page = 0
    · rw [sigretCall, if_pos (show (fork p slot pid page mem).backupTrapframePtr = 0 from hpage)] at hr
      cases hr
    · rw [sigretCall, if_neg (show (fork p slot pid page mem).backupTrapframePtr ≠ 0 from hpage)] at hr
      cases hr
      exact ⟨hpage, hctx, hmask⟩
  intro h q hq
  by_cases hptr : p.backupTrapframePtr = 0
  · rw [sigretCall, if_pos hptr] at hq
    cases hq
  rw [sigretCall, if_neg hptr] at hq
  cases hq
  obtain ⟨hpage, hctx, hmask⟩ := h hptr
  refine ⟨sigret (fork p slot pid page mem), ?_, hctx, hmask⟩
  rw [sigretCall, if_neg (show (fork p slot pid page mem).backupTrapframePtr ≠ 0 from hpage)]

/-- A child shares the actions of its parent. It has the parent's handler in progress just if there
is none. -/
theorem fork_keeps_handler_iff :
    (SharesActions p (fork p slot pid page mem) ∧ (fork p slot pid page mem).sigHandlerFlag = p.sigHandlerFlag ∧
      ReturnsAs p (fork p slot pid page mem) ↔
      p.sigHandlerFlag = 0 ∧
        (p.backupTrapframePtr ≠ 0 → page ≠ 0 ∧ userContext junkFrame = userContext p.backupTrapframe ∧
          slot.backupSigMask = p.backupSigMask)) ∧
    (SharesActions p (fork p slot pid page mem) ∧ (fork p slot pid page mem).sigHandlerFlag = p.sigHandlerFlag ∧
      (p.sigHandlerFlag = 1 → ReturnsAs p (fork p slot pid page mem)) ↔
      p.sigHandlerFlag = 0) := by
  have hshare := fork_sharesActions p slot pid page mem
  have hflag : (fork p slot pid page mem).sigHandlerFlag = p.sigHandlerFlag ↔ p.sigHandlerFlag = 0 :=
    ⟨fun h => h.symm, fun h => h.symm⟩
  refine ⟨?_, ?_⟩
  · rw [hflag, fork_returnsAs_iff]
    exact and_iff_right hshare
  rw [hflag]
  refine ⟨fun h => h.2.1, fun h => ⟨hshare, h, fun h1 => ?_⟩⟩
  rw [h] at h1
  cases h1

end

def inHandlerProc : Proc := { (handling 0).proc with backupTrapframePtr := 0x87ffe000 }

/-- A child forked in a handler is sent to the junk that kalloc fills pages with. -/
theorem fork_in_handler_returns_junk : inHandlerProc.sigHandlerFlag = 1 ∧
    (fork inHandlerProc (interrupted 0) 4 0x87ffd000 inHandlerProc.mem).sigHandlerFlag = 0 ∧
    (sigretCall inHandlerProc).map (fun q => q.trapframe.epc) = some 0x2000 ∧
    (sigretCall (fork inHandlerProc (interrupted 0) 4 0x87ffd000 inHandlerProc.mem)).map
      (fun q => q.trapframe.epc) = some 0x0505050505050505 := by
  decide

end Xv6.Signal
