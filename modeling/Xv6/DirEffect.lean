import Xv6.DirCalls

/-! The effect of each completed system call on the directory tree and on the processes. -/
namespace Xv6.Dir
open Hoare List

def Proc.holds (q : Proc) : List ℕ := q.cwd.toList ++ q.ofile.filterMap id

def uses (pr : List Proc) (i : ℕ) : ℕ := (pr.map (fun q => q.holds.count i)).sum

variable {p i c : ℕ} {q : Proc} {s : Fs}

theorem uses_modify {pr : List Proc} (f : Proc → Proc) (hq : pr[p]? = some q)
    (i : ℕ) : uses (pr.modify p f) i+q.holds.count i = uses pr i+(f q).holds.count i := by
  induction pr generalizing p with
  | nil => simp at hq
  | cons r pr ih =>
    cases p with
    | zero =>
      obtain rfl : r = q := by simpa using hq
      simp only [uses, modify_zero_cons, map_cons, sum_cons]
      omega
    | succ p =>
      have := ih (p := p) (by simpa using hq)
      simp only [uses, modify_succ_cons, map_cons, sum_cons] at this ⊢
      omega

theorem count_filterMap_set {l : List (Option ℕ)} {k : ℕ} {o : Option ℕ} (o' : Option ℕ) (hk : l[k]? = some o) (i : ℕ) :
    ((l.set k o').filterMap id).count i+o.toList.count i = (l.filterMap id).count i+o'.toList.count i := by
  induction l generalizing k with
  | nil => simp at hk
  | cons a l ih =>
    have hcons (b : Option ℕ) (l' : List (Option ℕ)) :
        ((b :: l').filterMap id).count i = b.toList.count i+(l'.filterMap id).count i := by
      cases b with
      | none => simp
      | some =>
        simp only [filterMap_cons, id_eq, Option.toList_some, count_cons, count_nil]
        omega
    cases k with
    | zero =>
      obtain rfl : a = o := by simpa using hk
      rw [set_cons_zero, hcons, hcons]
      omega
    | succ k =>
      have := ih (k := k) (by simpa using hk)
      rw [set_cons_succ, hcons, hcons]
      omega

def withFile (pr : List Proc) (p fd ip : ℕ) : List Proc :=
  pr.modify p (fun q => { q with ofile := q.ofile.set fd (some ip) })

def withoutFile (pr : List Proc) (p fd : ℕ) : List Proc :=
  pr.modify p (fun q => { q with ofile := q.ofile.set fd none })

def withCwd (pr : List Proc) (p : ℕ) (c : Option ℕ) : List Proc := pr.modify p (fun q => { q with cwd := c })

theorem one_apply (i j : ℕ) : one i j = [i].count j := by
  by_cases hij : j = i
  · subst hij
    simp
  · simp [hij, Ne.symm hij]

theorem uses_withFile {pr : List Proc} {fd ip : ℕ} (hq : pr[p]? = some q)
    (hfd : q.ofile[fd]? = some none) : uses (withFile pr p fd ip) = uses pr+one ip := by
  funext i
  have hm := uses_modify (fun q => { q with ofile := q.ofile.set fd (some ip) }) hq i
  have hc := count_filterMap_set (some ip) hfd i
  simp only [Proc.holds, count_append, Option.toList_none, Option.toList_some, count_nil] at hm hc
  rw [Pi.add_apply, one_apply, withFile]
  omega

theorem uses_withoutFile {pr : List Proc} {fd : ℕ} (hq : pr[p]? = some q)
    (hfd : q.ofile[fd]? = some (some i)) : uses pr = uses (withoutFile pr p fd)+one i := by
  funext j
  have hm := uses_modify (fun q => { q with ofile := q.ofile.set fd none }) hq j
  have hc := count_filterMap_set none hfd j
  simp only [Proc.holds, count_append, Option.toList_none, Option.toList_some, count_nil] at hm hc
  rw [Pi.add_apply, one_apply, withoutFile]
  omega

theorem uses_withCwd {pr : List Proc} (hq : pr[p]? = some q) (hc : q.cwd = some c) (o : Option ℕ) (j : ℕ) :
    uses (withCwd pr p o) j+one c j = uses pr j+o.toList.count j := by
  have hm := uses_modify (fun q => { q with cwd := o }) hq j
  simp only [Proc.holds, count_append, hc, Option.toList_some] at hm
  rw [one_apply, withCwd]
  omega

variable {d : ℕ → Dinode} {pr : List Proc} {u h : ℕ → ℕ} {L : List ℕ} {E : Panic → Prop}

theorem At.handover (hs : At d pr u (h+one i) L s) (hi : i ∈ L) : At d pr (u+one i) h L s := by
  refine ⟨hs.inodes, hs.procs, fun j => ?_⟩
  have hj' := hs.slots j
  by_cases hj : j = i
  · subst hj
    have href := hj'.ref
    rw [add_one_self] at href ⊢
    exact ⟨by omega, fun _ => (hj'.locked hi).1, hj'.locked, hj'.typed⟩
  · rw [add_one_of_ne _ hj] at hj' ⊢
    exact hj'

theorem At.takeover (hs : At d pr (u+one i) h L s) : At d pr u (h+one i) (i :: L) s := by
  refine ⟨hs.inodes, hs.procs, fun j => ?_⟩
  have hj' := hs.slots j
  by_cases hj : j = i
  · subst hj
    have href := hj'.ref
    have hused := hj'.used
    rw [add_one_self] at href hused ⊢
    exact ⟨by omega, fun _ => hused (by omega), fun _ => ⟨hused (by omega), by omega⟩, hj'.typed⟩
  · rw [add_one_of_ne _ hj] at hj' ⊢
    exact ⟨hj'.ref, hj'.used, fun hl => hj'.locked ((mem_cons.mp hl).resolve_left hj), hj'.typed⟩

theorem At.withProcs (hs : At d pr u h L s) (pr' : List Proc) (n : ℕ) :
    At d pr' u h L { s with procs := pr', nfiles := n } :=
  ⟨hs.inodes, rfl, hs.slots⟩

def released (d : ℕ → Dinode) (w : ℕ → ℕ) (i : ℕ) : ℕ → Dinode :=
  if (d i).nlink = 0 ∧ w i = 0 then Function.update d i (freed (d i)) else d

theorem iput_spec (i : ℕ) {K : List ℕ} (hL : ∀ j ∈ K, j ∈ L) (hi : i ∈ L) (hlast : i ∈ K → 0 < u i+h i) :
    Triple E (At d pr u (h+one i) L) (iput i) (fun _ => At (released d (u+h) i) pr u h K) := by
  unfold released
  split_ifs with hfree
  · rw [Pi.add_apply] at hfree
    exact iput_last i hL hi (fun hc => by have := hlast hc; omega) hfree.1 (by omega) (by omega)
  apply (iput_keep i hL hlast).pre
  intro s hs
  refine ⟨hs, fun hn h0 => absurd ⟨hn, ?_⟩ hfree⟩
  rw [Pi.add_apply]
  exact h0

theorem iunlockput_spec (hE : Benign E) (i : ℕ) {K : List ℕ} (hL : ∀ j ∈ K, j ∈ L) (hi : i ∈ L)
    (hlast : i ∈ K → 0 < u i+h i) :
    Triple E (At d pr u (h+one i) L) (iunlockput i) (fun _ => At (released d (u+h) i) pr u h K) :=
  Triple.bind (iunlock_spec hE i) (fun _ => iput_spec i hL hi hlast)

structure Alive (pr : List Proc) (p : ℕ) (q : Proc) (c : ℕ) : Prop where
  proc : pr[p]? = some q
  cwd : q.cwd = some c

theorem Alive.cwdOf (ha : Alive pr p q c) : cwdOf pr p = c := by simp [Dir.cwdOf, ha.proc, ha.cwd]

theorem Alive.ofileOf (ha : Alive pr p q c) : ofileOf pr p = q.ofile := by simp [Dir.ofileOf, ha.proc]

theorem Alive.uses_eq (ha : Alive pr p q c) (j : ℕ) : uses pr j = uses (withCwd pr p none) j+one c j := by
  have := uses_withCwd ha.proc ha.cwd none j
  simpa using this.symm

theorem Alive.uses_pos (ha : Alive pr p q c) : 0 < uses pr c := by
  rw [ha.uses_eq c]
  simp

theorem openFile_spec (hE : Benign E) {ip : ℕ} (ha : Alive pr p q c) (hkeep : (d ip).nlink = 0 → 0 < uses pr ip) :
    Triple E (Holding d pr (uses pr) ip) (openFile p ip)
      (fun _ s => ∃ pr', (pr' = pr ∨ ∃ fd, q.ofile[fd]? = some none ∧ pr' = withFile pr p fd ip) ∧
        Idle d pr' (uses pr') s) := by
  have hfail : Triple E (Holding d pr (uses pr) ip) (do iunlockput ip; return false)
      (fun _ s => ∃ pr', (pr' = pr ∨ ∃ fd, q.ofile[fd]? = some none ∧ pr' = withFile pr p fd ip) ∧
        Idle d pr' (uses pr') s) := by
    refine .bind (iunlockput_idle hE hkeep) (fun _ => ?_)
    apply Triple.pure
    exact fun s hs => ⟨pr, Or.inl rfl, hs⟩
  apply Triple.get
  intro s hs
  rw [hs.procs, ha.ofileOf]
  cases hfd : q.ofile.findIdx? Option.isNone with
  | none => exact hfail.pre (fun t ht => ht ▸ hs)
  | some fd =>
    apply Triple.ite
    · exact fun _ => hfail.pre (fun t ht => ht ▸ hs)
    intro _
    obtain ⟨hlt, hnone, -⟩ := List.findIdx?_eq_some_iff_getElem.mp hfd
    have hfd' : q.ofile[fd]? = some none := by rw [List.getElem?_eq_getElem hlt, Option.isNone_iff_eq_none.mp hnone]
    refine .bind (R := fun _ => Idle d (withFile pr p fd ip) (uses (withFile pr p fd ip))) ?_ (fun _ => ?_)
    · apply Triple.modify
      rintro t rfl
      have hh := (hs.handover (mem_singleton.mpr rfl)).mono (K := []) (by simp)
      rw [← uses_withFile ha.proc hfd'] at hh
      have hw := hh.withProcs (withFile pr p fd ip) (t.nfiles+1)
      simp only [setProc, hs.procs]
      exact hw
    · refine .bind (iunlock_spec hE ip) (fun _ => ?_)
      apply Triple.pure
      exact fun t ht => ⟨_, Or.inr ⟨fd, hfd', rfl⟩, ht⟩

def detached (d : ℕ → Dinode) (dp ip k : ℕ) : ℕ → Dinode := Function.update d dp { d dp with
    nlink := if (d ip).type = .dir then short ((d dp).nlink-1) else (d dp).nlink
    ents := (d dp).ents.set k ⟨0, []⟩ }

def unlinked (d : ℕ → Dinode) (w : ℕ → ℕ) (dp ip k : ℕ) : ℕ → Dinode :=
  let d' := released (detached d dp ip k) w dp
  released (Function.update d' ip (addLinks (-1) (d' ip))) w ip

def exitTree (d : ℕ → Dinode) (pr : List Proc) (p : ℕ) : List ℕ → (ℕ → Dinode) × List Proc
  | [] => (d, pr)
  | fd :: fds => match fileAt pr p fd with
    | none => exitTree d pr p fds
    | some i => exitTree (released d (uses (withoutFile pr p fd)) i) (withoutFile pr p fd) p fds

structure Removes (d : ℕ → Dinode) (pr : List Proc) (p : ℕ) (path : List UInt8)
    (dp : ℕ) (name : Name) (ip k : ℕ) : Prop where
  parent : walkPath d pr p true path = some (dp, name)
  proper : name ≠ dot ∧ name ≠ dotdot
  found : look d dp name = some (ip, k)
  nlink : 1 ≤ (d ip).nlink
  empty : (d ip).type = .dir → isdirempty (d ip) = true

structure Links (d : ℕ → Dinode) (pr : List Proc) (p : ℕ) (old new : List UInt8)
    (dp : ℕ) (name : Name) (ip : ℕ) : Prop where
  target : ∃ nm, walkPath d pr p false old = some (ip, nm)
  type : (d ip).type ≠ .dir ∧ (d ip).type ≠ .free
  parent : walkPath d pr p true new = some (dp, name)
  absent : look d dp name = none

def creation : Call → Option (List UInt8 × IType × ℤ × ℤ)
  | .openFile path omode =>
    if omode &&& oCreate ≠ 0 then (argstr path).map (fun str => (str, .file, 0, 0)) else none
  | .mkdir path => (argstr path).map (fun str => (str, .dir, short 0, short 0))
  | .mknod path major minor => (argstr path).map (fun str => (str, .device, short major, short minor))
  | _ => none

def enters (d : ℕ → Dinode) (pr : List Proc) (p : ℕ) (c : Call) (dp : ℕ) : Prop :=
  (∃ old new ostr nstr name ip, c = .link old new ∧ argstr old = some ostr ∧
    argstr new = some nstr ∧ Links d pr p ostr nstr dp name ip) ∨
  ∃ path type major minor name, creation c = some (path, type, major, minor) ∧
    walkPath d pr p true path = some (dp, name) ∧ look d dp name = none

def exitUses (pr : List Proc) (p i : ℕ) : ℕ := (cwdOf pr p :: (List.range nofile).filterMap (fileAt pr p)).count i

def lastUse (d : ℕ → Dinode) (pr : List Proc) (p : ℕ) (c : Call) (i : ℕ) : Prop :=
  match c with
  | .unlink path => ∃ str dp name ip k, argstr path = some str ∧
    Removes d pr p str dp name ip k ∧ uses pr i = 0 ∧ (d i).nlink = 1 ∧
    (i = ip ∨ (i = dp ∧ (d ip).type = .dir))
  | .chdir path => ∃ str ip nm, argstr path = some str ∧
    walkPath d pr p false str = some (ip, nm) ∧ (d ip).type = .dir ∧ i = cwdOf pr p ∧ i ≠ ip ∧
    (d i).nlink = 0 ∧ uses pr i = 1
  | .close fd => fileAt pr p fd = some i ∧ (d i).nlink = 0 ∧ uses pr i = 1
  | .exit => (d i).nlink = 0 ∧ 0 < uses pr i ∧ uses pr i = exitUses pr p i
  | _ => False

structure Refused (d : ℕ → Dinode) (pr : List Proc) (p : ℕ) (c : Call) : Prop where
  enter : ∀ dp, ¬enters d pr p c dp
  leave : ∀ i, ¬lastUse d pr p c i

/-- What a completed call of process `p` makes of the tree `d` and the processes `pr`. -/
inductive Effect (ninodes : ℕ) (d : ℕ → Dinode) (pr : List Proc) (p : ℕ) : Call → (ℕ → Dinode) → List Proc → Prop
  | fails {c : Call} (h : Refused d pr p c) : Effect ninodes d pr p c d pr
  | opens {path : List UInt8} {omode : BitVec 32} {q : Proc} {ip fd : ℕ}
      (h : Refused d pr p (.openFile path omode)) (hp : pr[p]? = some q)
      (hi : (d ip).type ≠ .free) (hfd : q.ofile[fd]? = some none) :
      Effect ninodes d pr p (.openFile path omode) d (withFile pr p fd ip)
  | creates {c : Call} {path : List UInt8} {type : IType} {major minor : ℤ} {dp ip : ℕ} {name : Name}
      (hc : creation c = some (path, type, major, minor))
      (h : Creates ninodes d pr p path dp name ip) :
      Effect ninodes d pr p c (created d dp name ip type major minor) pr
  | createsOpen {path str : List UInt8} {omode : BitVec 32} {q : Proc} {dp ip fd : ℕ} {name : Name}
      (hc : creation (.openFile path omode) = some (str, .file, 0, 0))
      (h : Creates ninodes d pr p str dp name ip)
      (hp : pr[p]? = some q) (hfd : q.ofile[fd]? = some none) :
      Effect ninodes d pr p (.openFile path omode) (created d dp name ip .file 0 0) (withFile pr p fd ip)
  | links {old new ostr nstr : List UInt8} {dp ip : ℕ} {name : Name}
      (ho : argstr old = some ostr) (hn : argstr new = some nstr)
      (h : Links d pr p ostr nstr dp name ip) :
      Effect ninodes d pr p (.link old new) (linked (Function.update d ip (addLinks 1 (d ip))) dp name ip) pr
  | unlinks {path str : List UInt8} {dp ip k : ℕ} {name : Name} (ha : argstr path = some str)
      (h : Removes d pr p str dp name ip k) :
      Effect ninodes d pr p (.unlink path) (unlinked d (uses pr) dp ip k) pr
  | chdirs {path str : List UInt8} {ip : ℕ} {nm : Name} (ha : argstr path = some str)
      (hw : walkPath d pr p false str = some (ip, nm)) (hd : (d ip).type = .dir) :
      Effect ninodes d pr p (.chdir path)
        (released d (uses (withCwd pr p (some ip))) (cwdOf pr p)) (withCwd pr p (some ip))
  | closes {fd i : ℕ} (hf : fileAt pr p fd = some i) :
      Effect ninodes d pr p (.close fd) (released d (uses (withoutFile pr p fd)) i) (withoutFile pr p fd)
  | exits {d1 : ℕ → Dinode} {pr1 : List Proc}
      (hf : exitTree d pr p (List.range nofile) = (d1, pr1)) :
      Effect ninodes d pr p .exit (released d1 (uses (withCwd pr1 p none)) (cwdOf pr1 p)) (withCwd pr1 p none)

end Xv6.Dir
