import Mathlib.Data.List.DropRight
import Mathlib.Data.List.TakeWhile
import Xv6.DirSpec

/-! Path lookup of kernel/fs.c with the locks of the inodes: namex walks from directory to directory
and swaps its reference hand over hand. -/
namespace Xv6.Path
open Function Hoare Dir List

/-- The file system with the inode locks that the caller holds. A lock of another process is waited
for until that process has released it. -/
structure State extends Fs where
  lock : ℕ → Bool

inductive Stop where
  | panic (e : Panic)
  -- the caller would sleep on a lock that it holds itself
  | sleeps
  deriving DecidableEq

abbrev L := Prog State Stop

def lift {α : Type} (x : M α) : L α := fun s => match x s.toFs with
  | .ok (a, t) => .ok (a, { s with toFs := t })
  | .error e => .error (.panic e)

def setLock (i : ℕ) (b : Bool) : L Unit := modify fun s => { s with lock := update s.lock i b }

def acquiresleep (i : ℕ) : L Unit := do
  let s ← get
  if s.lock i then throw .sleeps else setLock i true

def readIn (i : ℕ) : L Unit := do
  let s ← get
  if s.valid i then pure ()
  else do
    modify fun s => { s with valid := update s.valid i true }
    if (s.inodes i).type = .free then throw (.panic .ilockNoType) else pure ()

def ilock (i : ℕ) : L Unit := do
  let s ← get
  if s.ref i < 1 then throw (.panic .ilock)
  else do
    acquiresleep i
    readIn i

def iunlock (i : ℕ) : L Unit := do
  let s ← get
  if s.lock i = false ∨ s.ref i < 1 then throw (.panic .iunlock) else setLock i false

def freeUnlinked (i : ℕ) : L Unit := do
  let s ← get
  if s.ref i = 1 ∧ s.valid i = true ∧ (s.inodes i).nlink = 0 then do
    acquiresleep i
    lift (update i freed)
    modify fun s => { s with valid := update s.valid i false }
    setLock i false
  else pure ()

def iput (i : ℕ) : L Unit := do
  freeUnlinked i
  modify fun s =>
    { s with ref := update s.ref i (s.ref i-1), nslots := if s.ref i = 1 then s.nslots-1 else s.nslots }

def iunlockput (i : ℕ) : L Unit := do
  iunlock i
  iput i

def isSlash (c : UInt8) : Bool := decide (c = slash)

/-- Where skipelem cuts a path: slashes, an element `w`, and what is behind it. -/
structure Cut (path w r : List UInt8) : Prop where
  path : path.dropWhile isSlash = w ++ r
  nonempty : w ≠ []
  element : ∀ c ∈ w, isSlash c = false
  behind : r = [] ∨ ∃ r', r = slash :: r'

variable {path rest : List UInt8} {name : Name}

theorem skipelem_some (h : skipelem path = some (name, rest)) :
    ∃ w r, Cut path w r ∧ name = w.take dirSiz ∧ rest = r.dropWhile isSlash := by
  unfold skipelem at h
  cases hp : path.dropWhile isSlash with
  | nil =>
    have hp' : path.dropWhile (fun c => decide (c = slash)) = [] := hp
    rw [hp'] at h
    cases h
  | cons c cs =>
    have hp' : path.dropWhile (fun c => decide (c = slash)) = c :: cs := hp
    rw [hp'] at h
    cases h
    have hc : c ≠ slash := by
      have hhead := head_dropWhile_not isSlash (l := path) (by rw [hp]; exact cons_ne_nil c cs)
      simpa only [hp, head_cons, isSlash, decide_eq_false_iff_not] using hhead
    refine ⟨_, _, ⟨hp.trans (takeWhile_append_dropWhile (p := fun c => decide (c ≠ slash))).symm,
      ?_, fun x hx => ?_, ?_⟩, rfl, rfl⟩
    · rw [takeWhile_cons_of_pos (by simpa using hc)]
      exact cons_ne_nil _ _
    · have hx' := mem_takeWhile_imp hx
      simpa [isSlash] using hx'
    cases hr : (c :: cs).dropWhile (fun c => decide (c ≠ slash)) with
    | nil => exact Or.inl rfl
    | cons x r' =>
      have hhead := head_dropWhile_not (fun c => decide (c ≠ slash)) (l := c :: cs) (by rw [hr]; exact cons_ne_nil x r')
      simp only [hr, head_cons, decide_eq_false_iff_not, not_not] at hhead
      exact Or.inr ⟨r', by rw [hhead]⟩

theorem skipelem_lt (h : skipelem path = some (name, rest)) : rest.length < path.length := by
  obtain ⟨w, r, hcut, -, rfl⟩ := skipelem_some h
  have h1 := (dropWhile_sublist isSlash (l := path)).length_le
  have h2 := (dropWhile_sublist isSlash (l := r)).length_le
  have hw := length_pos_iff.mpr hcut.nonempty
  rw [hcut.path, length_append] at h1
  omega

def runs (path : List UInt8) : List (List UInt8) := (path.splitOnP isSlash).filter (fun w => decide (w ≠ []))

theorem runs_slash (path : List UInt8) : runs (slash :: path) = runs path := by
  rw [runs, splitOnP_cons_eq_if_modifyHead, if_pos (by decide), filter_cons_of_neg (by decide)]
  rfl

theorem runs_dropWhile (path : List UInt8) : runs (path.dropWhile isSlash) = runs path := by
  induction path with
  | nil => rfl
  | cons c cs ih =>
    by_cases hc : isSlash c = true
    · obtain rfl : c = slash := of_decide_eq_true hc
      rw [dropWhile_cons_of_pos hc, ih, runs_slash]
    · rw [dropWhile_cons_of_neg hc]

theorem Cut.runs {w r : List UInt8} (h : Cut path w r) : runs path = w :: runs (r.dropWhile isSlash) := by
  have hw (ws : List (List UInt8)) : (w :: ws).filter (fun w => decide (w ≠ [])) =
      w :: ws.filter (fun w => decide (w ≠ [])) := filter_cons_of_pos (by simpa using h.nonempty)
  rw [runs_dropWhile, ← runs_dropWhile path, h.path]
  rcases h.behind with rfl | ⟨r', rfl⟩
  · rw [append_nil, Path.runs, splitOnP_eq_singleton h.element, hw]
    rfl
  · rw [runs_slash, Path.runs, splitOnP_append_cons_of_forall_mem h.element slash (by decide), hw]
    rfl

theorem skipelem_none (h : skipelem path = none) : path.dropWhile isSlash = [] := by
  cases hp : path.dropWhile isSlash with
  | nil => rfl
  | cons c cs =>
    have hp' : path.dropWhile (fun c => decide (c = slash)) = c :: cs := hp
    rw [skipelem, hp'] at h
    cases h

theorem runs_none (h : skipelem path = none) : runs path = [] := by
  rw [← runs_dropWhile, skipelem_none h]
  rfl

theorem runs_dropWhile_nil {r : List UInt8} : runs (r.dropWhile isSlash) = [] ↔ r.dropWhile isSlash = [] := by
  constructor
  · intro hnil
    cases hs : skipelem (r.dropWhile isSlash) with
    | none =>
      have hidem : (r.dropWhile isSlash).dropWhile isSlash = r.dropWhile isSlash := dropWhile_idempotent isSlash r
      rw [← hidem, skipelem_none hs]
    | some =>
      obtain ⟨w, r', hcut, -⟩ := skipelem_some hs
      rw [hcut.runs] at hnil
      cases hnil
  · intro hnil
    rw [hnil]
    rfl

def namexEnd (parent : Bool) (ip : ℕ) : L (Option (ℕ × Name)) :=
  if parent then do
    iput ip
    return none
  else return some (ip, [])

def namexLoop (parent : Bool) (path : List UInt8) (ip : ℕ) : L (Option (ℕ × Name)) :=
  match _h : skipelem path with
  | none => namexEnd parent ip
  | some (name, rest) => do
    ilock ip
    let d ← lift (dinode ip)
    if d.type ≠ .dir then do
      iunlockput ip
      return none
    else if parent ∧ rest = [] then do
      iunlock ip
      return some (ip, name)
    else do
      match ← lift (dirlookup ip name) with
      | none => do
        iunlockput ip
        return none
      | some (next, _) => do
        iunlockput ip
        namexLoop parent rest next
termination_by path.length
decreasing_by exact skipelem_lt _h

theorem namexLoop_none (h : skipelem path = none) (parent : Bool) (ip : ℕ) :
    namexLoop parent path ip = namexEnd parent ip := by
  rw [namexLoop]
  split
  · rfl
  · next hs =>
    rw [h] at hs
    cases hs

theorem namexLoop_some (h : skipelem path = some (name, rest)) (parent : Bool) (ip : ℕ) : namexLoop parent path ip = (do
      ilock ip
      let d ← lift (dinode ip)
      if d.type ≠ .dir then do
        iunlockput ip
        return none
      else if parent ∧ rest = [] then do
        iunlock ip
        return some (ip, name)
      else do
        match ← lift (dirlookup ip name) with
        | none => do
          iunlockput ip
          return none
        | some (next, _) => do
          iunlockput ip
          namexLoop parent rest next) := by
  rw [namexLoop]
  split
  · next hs =>
    rw [h] at hs
    cases hs
  · next name' rest' hs =>
    obtain ⟨rfl, rfl⟩ := Prod.mk.inj (Option.some.inj (h.symm.trans hs))
    rfl

def namex (p : ℕ) (parent : Bool) (path : List UInt8) : L (Option (ℕ × Name)) := do
  let ip ← lift (namexStart p path)
  namexLoop parent path ip

def namei (p : ℕ) (path : List UInt8) : L (Option ℕ) := do
  let r ← namex p false path
  return r.map Prod.fst

def nameiparent (p : ℕ) (path : List UInt8) : L (Option (ℕ × Name)) := namex p true path

end Xv6.Path
