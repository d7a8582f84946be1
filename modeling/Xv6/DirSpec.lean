import Xv6.DirModel

/-! What the inode functions do, in terms of the inodes on disk and of who holds references. A
system call accounts for the references it takes itself in `h`. -/
namespace Xv6.Dir
open Function (update_self update_of_ne)
open Hoare

/-- An entry of the inode table with count `r` and flag `v`, for an inode of type `t`: it is
referenced `u+h` times, and if `l` it has been locked. -/
structure SlotOk (t : IType) (u h : ℕ) (l : Prop) (r : ℕ) (v : Bool) : Prop where
  ref : r = u+h
  used : 0 < u → v = true
  locked : l → v = true ∧ 0 < r
  typed : 0 < r → v = true → t ≠ .free

/-- The inodes on disk are `d`, and the inode table agrees with the references. -/
structure At (d : ℕ → Dinode) (pr : List Proc) (u h : ℕ → ℕ) (L : List ℕ) (s : Fs) : Prop where
  inodes : s.inodes = d
  procs : s.procs = pr
  slots : ∀ i, SlotOk (d i).type (u i) (h i) (i ∈ L) (s.ref i) (s.valid i)

variable {d : ℕ → Dinode} {pr : List Proc} {u h : ℕ → ℕ} {L : List ℕ} {E : Panic → Prop}

abbrev one (i : ℕ) : ℕ → ℕ := Pi.single i 1

theorem add_one_self (h : ℕ → ℕ) (i : ℕ) : (h+one i) i = h i+1 := by simp

theorem add_one_of_ne (h : ℕ → ℕ) {i j : ℕ} (hij : j ≠ i) : (h+one i) j = h j := by simp [hij]

variable {K : List ℕ}

theorem At.mono {s : Fs} (hs : At d pr u h L s) (hL : ∀ i ∈ K, i ∈ L) : At d pr u h K s :=
  ⟨hs.inodes, hs.procs, fun i => ⟨(hs.slots i).ref, (hs.slots i).used,
    fun hi => (hs.slots i).locked (hL i hi), (hs.slots i).typed⟩⟩

/-- Only "ilock: no type" may be ruled out by `E`. -/
def Benign (E : Panic → Prop) : Prop := ∀ e, e ≠ .ilockNoType → E e

theorem iget_spec (hE : Benign E) (i : ℕ) : Triple E (At d pr u h L) (iget i)
      (fun _ s => At d pr u (h+one i) L s ∧ (u i+h i = 0 → s.valid i = false)) := by
  apply Triple.get
  intro s hs
  have hi := hs.slots i
  have href := hi.ref
  apply Triple.ite
  · intro hpos
    apply Triple.modify
    rintro t rfl
    refine ⟨⟨hs.inodes, hs.procs, fun j => ?_⟩, fun h0 => by omega⟩
    by_cases hj : j = i
    · subst hj
      simp only [setRef, update_self, add_one_self]
      exact ⟨by omega, hi.used, fun hl => ⟨(hi.locked hl).1, by omega⟩, fun _ => hi.typed hpos⟩
    · simp only [setRef, update_of_ne hj, add_one_of_ne h hj]
      exact hs.slots j
  · intro hzero
    refine .ite_throw (hE _ (by decide)) (fun _ => ?_)
    apply Triple.modify
    rintro t rfl
    refine ⟨⟨hs.inodes, hs.procs, fun j => ?_⟩, fun _ => by simp⟩
    by_cases hj : j = i
    · subst hj
      simp only [setRef, update_self, add_one_self]
      refine ⟨by omega, fun hu => by omega, fun hl => ?_, fun _ hv => by cases hv⟩
      have := (hi.locked hl).2
      omega
    · simp only [setRef, update_of_ne hj, add_one_of_ne h hj]
      exact hs.slots j

theorem idup_spec (i : ℕ) (hi : 0 < u i) : Triple E (At d pr u h L) (idup i) (fun _ => At d pr u (h+one i) L) := by
  apply Triple.modify
  intro s hs
  refine ⟨hs.inodes, hs.procs, fun j => ?_⟩
  by_cases hj : j = i
  · subst hj
    have hself := hs.slots j
    have href := hself.ref
    simp only [setRef, update_self, add_one_self]
    exact ⟨by omega, hself.used, fun hl => ⟨(hself.locked hl).1, by omega⟩, fun _ => hself.typed (by omega)⟩
  · simp only [setRef, update_of_ne hj, add_one_of_ne h hj]
    exact hs.slots j

theorem ilock_spec (hE : Benign E) (i : ℕ) (href : 0 < u i+h i) (htype : E .ilockNoType ∨ (d i).type ≠ .free) :
    Triple E (At d pr u h L) (ilock i) (fun _ s => (d i).type ≠ .free ∧ At d pr u h (i :: L) s) := by
  apply Triple.get
  intro s hs
  have hi := hs.slots i
  refine .ite_throw (hE _ (by decide)) (fun hpos => ?_)
  apply Triple.ite
  · intro hv
    apply Triple.pure
    rintro t rfl
    refine ⟨hi.typed (by omega) hv, hs.inodes, hs.procs, fun j => ?_⟩
    refine ⟨(hs.slots j).ref, (hs.slots j).used, fun hl => ?_, (hs.slots j).typed⟩
    rcases List.mem_cons.mp hl with rfl | hl
    · exact ⟨hv, by omega⟩
    · exact (hs.slots j).locked hl
  intro hv
  refine .bind (R := fun _ t =>
    t = { s with valid := Function.update s.valid i true }) ?_ (fun _ => ?_)
  · apply Triple.modify
    rintro t rfl
    rfl
  apply Triple.ite
  · intro hfree
    apply Triple.throw
    intro _ _
    rw [hs.inodes] at hfree
    exact htype.resolve_right (not_not.mpr hfree)
  intro hty
  rw [hs.inodes] at hty
  apply Triple.pure
  rintro t rfl
  refine ⟨hty, hs.inodes, hs.procs, fun j => ?_⟩
  by_cases hj : j = i
  · subst hj
    simp only [update_self]
    exact ⟨hi.ref, fun _ => rfl, fun _ => ⟨rfl, by omega⟩, fun _ _ => hty⟩
  · simp only [update_of_ne hj]
    refine ⟨(hs.slots j).ref, (hs.slots j).used, fun hl => ?_, (hs.slots j).typed⟩
    exact (hs.slots j).locked ((List.mem_cons.mp hl).resolve_left hj)

theorem iunlock_spec (hE : Benign E) (i : ℕ) : Triple E (At d pr u h L) (iunlock i) (fun _ => At d pr u h L) := by
  apply Triple.get
  intro s hs
  refine .ite_throw (hE _ (by decide)) (fun _ => ?_)
  apply Triple.pure
  rintro t rfl
  exact hs

theorem dropRef_spec (i : ℕ) (hL : ∀ j ∈ K, j ∈ L) (hlast : i ∈ K → 0 < u i+h i) :
    Triple E (At d pr u (h+one i) L) (modify fun s => { setRef i (s.ref i-1) s with
        nslots := if s.ref i = 1 then s.nslots-1 else s.nslots })
      (fun _ => At d pr u h K) := by
  apply Triple.modify
  intro s hs
  refine ⟨hs.inodes, hs.procs, fun j => ?_⟩
  have hj' := hs.slots j
  by_cases hj : j = i
  · subst hj
    have href := hj'.ref
    rw [add_one_self] at href
    simp only [setRef, update_self]
    refine ⟨by omega, hj'.used, fun hl => ?_, fun hr => hj'.typed (by omega)⟩
    have := hlast hl
    exact ⟨(hj'.locked (hL j hl)).1, by omega⟩
  · rw [add_one_of_ne h hj] at hj'
    simp only [setRef, update_of_ne hj]
    exact ⟨hj'.ref, hj'.used, fun hl => hj'.locked (hL j hl), hj'.typed⟩

theorem iput_keep (i : ℕ) (hL : ∀ j ∈ K, j ∈ L) (hlast : i ∈ K → 0 < u i+h i) :
    Triple E (fun s => At d pr u (h+one i) L s ∧ ((d i).nlink = 0 → u i+h i = 0 → s.valid i = false))
      (iput i) (fun _ => At d pr u h K) := by
  refine .bind (R := fun _ => At d pr u (h+one i) L) ?_ (fun _ => dropRef_spec i hL hlast)
  apply Triple.get
  rintro s ⟨hs, hv⟩
  apply Triple.ite
  · rintro ⟨href, hvalid, hlink⟩
    have hr := (hs.slots i).ref
    rw [add_one_self] at hr
    rw [hs.inodes] at hlink
    rw [hv hlink (by omega)] at hvalid
    cases hvalid
  · intro _
    apply Triple.pure
    rintro t rfl
    exact hs

theorem update_spec (i : ℕ) (f : Dinode → Dinode) (hf : (d i).type ≠ .free → (f (d i)).type ≠ .free) :
    Triple E (At d pr u h L) (update i f) (fun _ => At (Function.update d i (f (d i))) pr u h L) := by
  apply Triple.modify
  intro s hs
  refine ⟨by rw [← hs.inodes], hs.procs, fun j => ?_⟩
  have hj' := hs.slots j
  by_cases hj : j = i
  · subst hj
    rw [update_self]
    exact ⟨hj'.ref, hj'.used, hj'.locked, fun hr hv => hf (hj'.typed hr hv)⟩
  · rw [update_of_ne hj]
    exact hj'

theorem iput_last (i : ℕ) (hL : ∀ j ∈ K, j ∈ L) (hi : i ∈ L) (hi' : i ∉ K)
    (hlink : (d i).nlink = 0) (hu : u i = 0) (hh : h i = 0) :
    Triple E (At d pr u (h+one i) L) (iput i) (fun _ => At (Function.update d i (freed (d i))) pr u h K) := by
  have hL' : ∀ j ∈ K, j ∈ K := fun _ hj => hj
  refine .bind (R := fun _ => At (Function.update d i (freed (d i))) pr u (h+one i) K) ?_
    (fun _ => dropRef_spec i hL' (fun hc => absurd hc hi'))
  apply Triple.get
  intro s hs
  have hr := (hs.slots i).ref
  rw [add_one_self] at hr
  apply Triple.ite
  · intro _
    refine .bind (R := fun _ t =>
      t = { s with inodes := Function.update s.inodes i (freed (s.inodes i)) }) ?_ (fun _ => ?_)
    · apply Triple.modify
      rintro t rfl
      rfl
    apply Triple.modify
    rintro t rfl
    refine ⟨by simp only [hs.inodes], hs.procs, fun j => ?_⟩
    have hj' := hs.slots j
    by_cases hj : j = i
    · subst hj
      simp only [update_self]
      exact ⟨hj'.ref, fun hc => by omega, fun hc => absurd hc hi', fun _ hc => by cases hc⟩
    · simp only [update_of_ne hj]
      exact ⟨hj'.ref, hj'.used, fun hl => hj'.locked (hL j hl), hj'.typed⟩
  · intro hnot
    exfalso
    apply hnot
    rw [hs.inodes]
    exact ⟨by omega, ((hs.slots i).locked hi).1, hlink⟩

theorem dinode_spec {α : Type} {i : ℕ} {f : Dinode → M α} {Q : α → Fs → Prop}
    (hf : Triple E (At d pr u h L) (f (d i)) Q) :
    Triple E (At d pr u h L) (dinode i >>= f) Q := by
  intro s hs
  have hrun := hf s hs
  rw [← hs.inodes] at hrun
  exact hrun

theorem ialloc_spec (hE : Benign E) (ninodes : ℕ) (type : IType) (ht : type ≠ .free) :
    Triple E (At d pr u h L) (ialloc ninodes type) (fun i s => freeInum ninodes d = some i ∧
        At (Function.update d i ⟨type, 0, 0, 0, []⟩) pr u (h+one i) L s) := by
  apply Triple.get
  intro s hs
  rw [hs.inodes]
  cases hfree : freeInum ninodes d with
  | none =>
    apply Triple.throw
    exact fun _ _ => hE _ (by decide)
  | some i =>
    refine .bind (R := fun _ => At (Function.update d i ⟨type, 0, 0, 0, []⟩) pr u h L) ?_ (fun _ => ?_)
    · exact (update_spec i (fun _ => ⟨type, 0, 0, 0, []⟩) (fun _ => ht)).pre (fun t ht => ht ▸ hs)
    refine .bind (iget_spec hE i) (fun _ => ?_)
    apply Triple.pure
    rintro t ⟨ht, -⟩
    exact ⟨rfl, ht⟩

def look (d : ℕ → Dinode) (dp : ℕ) (name : Name) : Option (ℕ × ℕ) :=
  (findName name (d dp).ents).map (fun k => ((slot (d dp).ents k).inum, k))

theorem dirlookup_spec (hE : Benign E) (dp : ℕ) (name : Name) (hdir : (d dp).type = .dir) :
    Triple E (At d pr u h L) (dirlookup dp name) (fun r s => r = look d dp name ∧ match r with
        | none => At d pr u h L s
        | some (i, _) => At d pr u (h+one i) L s ∧ (u i+h i = 0 → s.valid i = false)) := by
  apply dinode_spec
  apply Triple.ite
  · exact fun hc => absurd hdir hc
  intro _
  cases hf : findName name (d dp).ents with
  | none =>
    apply Triple.pure
    intro s hs
    exact ⟨by simp [look, hf], hs⟩
  | some =>
    refine .bind (iget_spec hE _) (fun _ => ?_)
    apply Triple.pure
    intro s hs
    exact ⟨by simp [look, hf], hs⟩

def linked (d : ℕ → Dinode) (dp : ℕ) (name : Name) (inum : ℕ) : ℕ → Dinode :=
  Function.update d dp { d dp with ents := addEntry ⟨inum, name⟩ (d dp).ents }

theorem dirlink_spec (hE : Benign E) (dp : ℕ) (name : Name) (inum : ℕ) (hdir : (d dp).type = .dir)
    (hnum : inum < 65536) :
    Triple E (At d pr u h L) (dirlink dp name inum)
      (fun r s => if (look d dp name).isSome then r = false ∧ At d pr u h L s
        else r = true ∧ At (linked d dp name inum) pr u h L s) := by
  refine .bind_and (dirlookup_spec hE dp name hdir) (fun r hr => ?_)
  cases r with
  | some x =>
    obtain ⟨i, k⟩ := x
    rw [← hr]
    refine .bind (R := fun _ => At d pr u h L) ?_ (fun _ => ?_)
    · intro s hs
      -- the inode was looked up but not locked: its entry is new or somebody else holds it
      have hlast : i ∈ L → 0 < u i+h i := by
        intro hl
        by_contra h0
        have := ((hs.1.slots i).locked hl).1
        rw [hs.2 (by omega)] at this
        cases this
      exact iput_keep i (fun _ hj => hj) hlast s ⟨hs.1, fun _ => hs.2⟩
    · apply Triple.pure
      exact fun s hs => ⟨rfl, hs⟩
  | none =>
    rw [← hr]
    apply dinode_spec
    rw [Nat.mod_eq_of_lt hnum]
    refine .ite_throw (hE _ (by decide)) (fun _ => ?_)
    refine .bind (update_spec dp _ (fun ht => ht)) (fun _ => ?_)
    apply Triple.pure
    exact fun s hs => ⟨rfl, hs⟩

theorem iunlockput_keep (hE : Benign E) (i : ℕ) (hkeep : (d i).nlink = 0 → 0 < u i+h i) (hlast : i ∈ L → 0 < u i+h i) :
    Triple E (At d pr u (h+one i) (i :: L)) (iunlockput i) (fun _ => At d pr u h L) := by
  refine .bind (iunlock_spec hE i) (fun _ => ?_)
  apply (iput_keep i (fun _ hj => List.mem_cons_of_mem _ hj) hlast).pre
  intro s hs
  refine ⟨hs, fun hn h0 => ?_⟩
  have := hkeep hn
  omega

def Anchored (d : ℕ → Dinode) (u : ℕ → ℕ) : Prop := ∀ i, (d i).type ≠ .free → (d i).nlink = 0 → 0 < u i

/-- No used entry of a directory names a free inode. -/
def Solid (d : ℕ → Dinode) : Prop := ∀ D, (d D).type = .dir → ∀ e ∈ (d D).ents, e.inum ≠ 0 → (d e.inum).type ≠ .free

def walk (d : ℕ → Dinode) (parent : Bool) (ip : ℕ) : List Name → Option (ℕ × Name)
  | [] => if parent then none else some (ip, [])
  | name :: rest =>
    if (d ip).type ≠ .dir then none
    else if parent ∧ rest = [] then some (ip, name)
    else match look d ip name with
      | none => none
      | some (next, _) => walk d parent next rest

def heldBy : Option (ℕ × Name) → ℕ → ℕ
  | none => 0
  | some (i, _) => one i

theorem look_type (hs : Solid d) {dp i k : ℕ} {name : Name} (hdir : (d dp).type = .dir)
    (hl : look d dp name = some (i, k)) : (d i).type ≠ .free := by
  obtain ⟨k', hk, he⟩ := Option.map_eq_some_iff.mp hl
  obtain ⟨hlt, hp, -⟩ := List.findIdx?_eq_some_iff_getElem.mp hk
  have hslot : slot (d dp).ents k' = (d dp).ents[k'] := by simp [slot, hlt]
  simp only [hslot, Prod.mk.injEq] at he
  simp only [Bool.and_eq_true, decide_eq_true_eq] at hp
  rw [← he.1]
  exact hs dp hdir _ (List.getElem_mem hlt) hp.1

theorem namexLoop_spec (hE : Benign E) (hA : Anchored d u) (parent : Bool) (es : List Name) (ip : ℕ)
    (hS : E .ilockNoType ∨ Solid d) (hip : E .ilockNoType ∨ (d ip).type ≠ .free)
    (hnil : parent = true → es = [] → (d ip).type ≠ .free) (hL : ∀ i ∈ L, 0 < u i+h i) :
    Triple E (At d pr u (h+one ip) L) (namexLoop parent ip es)
      (fun r s => r = walk d parent ip es ∧ At d pr u (h+heldBy r) L s) := by
  induction es generalizing ip with
  | nil =>
    cases parent with
    | true =>
      refine .bind ((iput_keep ip (fun _ hj => hj) (hL ip)).pre (fun s hs => ⟨hs, ?_⟩)) (fun _ => ?_)
      · intro hn h0
        have := hA ip (hnil rfl rfl) hn
        omega
      · apply Triple.pure
        exact fun s hs => ⟨rfl, hs⟩
    | false =>
      apply Triple.pure
      exact fun s hs => ⟨rfl, hs⟩
  | cons name rest ih =>
    have hpos : 0 < u ip+(h+one ip) ip := by
      rw [add_one_self]
      omega
    refine .bind_and (ilock_spec hE ip hpos hip) (fun _ hty => ?_)
    have hkeep (g : ℕ → ℕ) : (d ip).nlink = 0 → 0 < u ip+g ip := by
      intro hn
      have := hA ip hty hn
      omega
    apply dinode_spec
    apply Triple.ite
    · intro hnd
      refine .bind (iunlockput_keep hE ip (hkeep h) (hL ip)) (fun _ => ?_)
      apply Triple.pure
      intro s hs
      exact ⟨by simp only [walk, if_pos hnd], hs⟩
    intro hd
    apply Triple.ite
    · intro hlast
      refine .bind (iunlock_spec hE ip) (fun _ => ?_)
      apply Triple.pure
      intro s hs
      exact ⟨by simp only [walk, if_neg hd, if_pos hlast], hs.mono (fun _ hj => List.mem_cons_of_mem _ hj)⟩
    intro hmore
    refine .bind_and (dirlookup_spec hE ip name (not_not.mp hd)) (fun r hr => ?_)
    cases r with
    | none =>
      refine .bind (iunlockput_keep hE ip (hkeep h) (hL ip)) (fun _ => ?_)
      apply Triple.pure
      intro s hs
      exact ⟨by simp only [walk, if_neg hd, if_neg hmore, ← hr], hs⟩
    | some x =>
      obtain ⟨next, k⟩ := x
      have hwalk : walk d parent ip (name :: rest) = walk d parent next rest := by
        simp only [walk, if_neg hd, if_neg hmore, ← hr]
      rw [hwalk]
      have hswap : h+one ip+one next = h+one next+one ip := add_right_comm _ _ _
      simp only [hswap]
      refine .bind ((iunlockput_keep hE ip (hkeep _) (fun hl => ?_)).pre (fun s hs => hs.1)) (fun _ => ?_)
      · have := hL ip hl
        simp only [Pi.add_apply]
        omega
      · apply ih next
        · exact hS.imp_right (fun hs => look_type hs (not_not.mp hd) hr.symm)
        · exact fun hp hrest => absurd ⟨hp, hrest⟩ hmore

def startOf (pr : List Proc) (p : ℕ) (path : List UInt8) : ℕ :=
  if path.head? = some slash then rootIno else cwdOf pr p

def walkPath (d : ℕ → Dinode) (pr : List Proc) (p : ℕ) (parent : Bool) (path : List UInt8) : Option (ℕ × Name) :=
  walk d parent (startOf pr p path) (elems path)

structure Grounded (d : ℕ → Dinode) (pr : List Proc) (u : ℕ → ℕ) (p : ℕ) : Prop where
  root : (d rootIno).type ≠ .free
  cwd : 0 < u (cwdOf pr p) ∧ (d (cwdOf pr p)).type ≠ .free

theorem Grounded.start {p : ℕ} (hg : Grounded d pr u p) (path : List UInt8) : (d (startOf pr p path)).type ≠ .free := by
  unfold startOf
  split_ifs
  · exact hg.root
  · exact hg.cwd.2

theorem namex_spec (hE : Benign E) (hA : Anchored d u) (hS : E .ilockNoType ∨ Solid d) {p : ℕ}
    (hg : Grounded d pr u p) (parent : Bool) (path : List UInt8) (hL : ∀ i ∈ L, 0 < u i+h i) :
    Triple E (At d pr u h L) (namex p parent path)
      (fun r s => r = walkPath d pr p parent path ∧ At d pr u (h+heldBy r) L s) := by
  refine .bind (R := fun ip s => ip = startOf pr p path ∧ At d pr u (h+one ip) L s) ?_ (fun ip => ?_)
  · apply Triple.ite
    · intro hslash
      refine .bind (iget_spec hE rootIno) (fun _ => ?_)
      apply Triple.pure
      exact fun s hs => ⟨by rw [startOf, if_pos hslash], hs.1⟩
    intro hslash
    apply Triple.get
    intro s hs
    rw [hs.procs]
    refine .bind ((idup_spec (d := d) (h := h) (L := L) _ hg.cwd.1).pre (fun t ht => ht ▸ hs)) (fun _ => ?_)
    apply Triple.pure
    exact fun t ht => ⟨by rw [startOf, if_neg hslash], ht⟩
  · apply Triple.assume
    rintro rfl
    exact namexLoop_spec hE hA parent (elems path) _ hS (Or.inr (hg.start path)) (fun _ _ => hg.start path) hL

theorem walk_parent_dir {ip dp : ℕ} {es : List Name} {name : Name}
    (hw : walk d true ip es = some (dp, name)) : (d dp).type = .dir := by
  induction es generalizing ip with
  | nil => simp [walk] at hw
  | cons nm rest ih =>
    simp only [walk] at hw
    split_ifs at hw with hd hlast
    · obtain ⟨rfl, -⟩ := Prod.mk.inj (Option.some.inj hw)
      exact not_not.mp hd
    · split at hw
      · cases hw
      · exact ih hw

theorem walk_type (hs : Solid d) {parent : Bool} {ip j : ℕ} {es : List Name} {nm : Name}
    (hip : (d ip).type ≠ .free) (hw : walk d parent ip es = some (j, nm)) : (d j).type ≠ .free := by
  induction es generalizing ip with
  | nil =>
    simp only [walk] at hw
    split_ifs at hw
    obtain ⟨rfl, -⟩ := Prod.mk.inj (Option.some.inj hw)
    exact hip
  | cons name rest ih =>
    simp only [walk] at hw
    split_ifs at hw with hd hlast
    · obtain ⟨rfl, -⟩ := Prod.mk.inj (Option.some.inj hw)
      exact hip
    split at hw
    · cases hw
    · rename_i next k hl
      exact ih (look_type hs (not_not.mp hd) hl) hw

end Xv6.Dir
