import Xv6.PathModel

/-! A path lookup leaves behind one reference to the inode that it returns, no lock, and nothing
else. -/
namespace Xv6.Path
open Function Hoare Dir List

/-! The elements of a path. -/

def components (path : List UInt8) : List Name :=
  ((path.splitOnP isSlash).filter (fun w => decide (w ≠ []))).map (fun w => w.take dirSiz)

theorem components_eq (path : List UInt8) : components path = (runs path).map (fun w => w.take dirSiz) := rfl

theorem components_none {path : List UInt8} (h : skipelem path = none) : components path = [] := by
  rw [components_eq, runs_none h, map_nil]

variable {name : Name} {p : ℕ}

theorem components_some {path rest : List UInt8} (h : skipelem path = some (name, rest)) :
    components path = name :: components rest := by
  obtain ⟨w, r, hcut, rfl, rfl⟩ := skipelem_some h
  rw [components_eq, hcut.runs, map_cons, components_eq]

theorem components_rest_nil {path rest : List UInt8} (h : skipelem path = some (name, rest)) :
    components rest = [] ↔ rest = [] := by
  obtain ⟨w, r, -, -, rfl⟩ := skipelem_some h
  exact map_eq_nil_iff.trans runs_dropWhile_nil

/-! References and locks. -/

def slots (s : State) (l : List ℕ) : ℕ := (l.toFinset.filter (fun i => s.ref i = 0)).card

theorem slots_cons (s : State) (i : ℕ) (l : List ℕ) :
    slots s (i :: l) = slots s l+(if s.ref i+l.count i = 0 then 1 else 0) := by
  rw [slots, toFinset_cons, Finset.filter_insert]
  by_cases h0 : s.ref i = 0
  · rw [if_pos h0, h0, Nat.zero_add]
    by_cases hl : i ∈ l
    · rw [Finset.insert_eq_of_mem (Finset.mem_filter.mpr ⟨mem_toFinset.mpr hl, h0⟩),
        if_neg (count_pos_iff.mpr hl).ne', slots]
      rfl
    · rw [Finset.card_insert_of_notMem (fun h => hl (mem_toFinset.mp (Finset.mem_filter.mp h).1)),
        if_pos (count_eq_zero.mpr hl), slots]
  · rw [if_neg h0, if_neg (by omega), slots]
    rfl

theorem slots_le (s : State) (l : List ℕ) : slots s l ≤ l.length :=
  (Finset.card_filter_le ..).trans (toFinset_card_le l)

/-- `t` is `s` with one more reference for each inode in `l`, and the locks `K` are held. -/
structure Held (s t : State) (l : List ℕ) (K : ℕ → Bool) : Prop where
  inodes : t.inodes = s.inodes
  procs : t.procs = s.procs
  ref : ∀ i, t.ref i = s.ref i+l.count i
  nslots : t.nslots = s.nslots+slots s l
  lock : t.lock = K

variable {s t : State} {l l' : List ℕ} {K : ℕ → Bool} {i : ℕ}

theorem Held.perm (h : Held s t l K) (hp : l.Perm l') : Held s t l' K := by
  have hset : l.toFinset = l'.toFinset := toFinset_eq_of_perm _ _ hp
  refine ⟨h.inodes, h.procs, fun i => ?_, ?_, h.lock⟩
  · rw [h.ref, hp.count_eq]
  · rw [h.nslots, slots, hset, slots]

theorem lift_ok {α : Type} {x : M α} {a : α} {u : Fs} (h : x t.toFs = .ok (a, u)) :
    lift x t = .ok (a, { t with toFs := u }) := by
  rw [lift, h]

theorem iget_held (h : Held s t l K) (hslot : t.nslots < ninode) (i : ℕ) :
    ∃ u, iget i t.toFs = .ok ((), u) ∧ Held s { t with toFs := u } (i :: l) K := by
  have hdef : iget i t.toFs = (if t.ref i > 0 then modify (setRef i (t.ref i+1))
      else if t.nslots ≥ ninode then throw .igetNoInodes
      else modify fun s =>
        { setRef i 1 s with valid := update s.valid i false, nslots := s.nslots+1 } : M Unit) t.toFs := rfl
  have href := h.ref i
  have hcount (j : ℕ) : update t.ref i (t.ref i+1) j = s.ref j+(i :: l).count j := by
    by_cases hj : j = i
    · rw [hj, update_self, href, count_cons_self, Nat.add_assoc]
    · rw [update_of_ne hj, h.ref, count_cons_of_ne (Ne.symm hj)]
  by_cases h0 : t.ref i > 0
  · rw [if_pos h0] at hdef
    refine ⟨_, hdef, h.inodes, h.procs, hcount, ?_, h.lock⟩
    rw [slots_cons, if_neg (by omega)]
    exact h.nslots
  rw [if_neg h0, if_neg (by omega)] at hdef
  refine ⟨_, hdef, h.inodes, h.procs, fun j => ?_, ?_, h.lock⟩
  · have h1 : 1 = t.ref i+1 := by omega
    have hj := hcount j
    rw [← h1] at hj
    exact hj
  · rw [slots_cons, if_pos (by omega), ← Nat.add_assoc, ← h.nslots]

theorem ilock_held (h : Held s t l K) (href : 0 < t.ref i) (hK : K i = false) (htype : (s.inodes i).type ≠ .free) :
    ∃ u, ilock i t = .ok ((), u) ∧ Held s u l (update K i true) := by
  have hdef : ilock i t = (if t.ref i < 1 then throw (.panic .ilock)
      else do
        acquiresleep i
        readIn i : L Unit) t := rfl
  have hacq : acquiresleep i t = (if t.lock i then throw .sleeps else setLock i true : L Unit) t := rfl
  rw [h.lock, hK, if_neg Bool.false_ne_true] at hacq
  rw [if_neg (by omega), run_bind hacq] at hdef
  rw [← h.inodes] at htype
  have hread : readIn i { t with lock := update t.lock i true } = (if t.valid i then pure ()
      else do
        modify fun s => { s with valid := update s.valid i true }
        if (t.inodes i).type = .free then throw (.panic .ilockNoType) else pure () : L Unit)
      { t with lock := update t.lock i true } := rfl
  have hlock : update t.lock i true = update K i true := by rw [h.lock]
  by_cases hv : t.valid i = true
  · rw [if_pos hv] at hread
    exact ⟨_, hdef.trans hread, h.inodes, h.procs, h.ref, h.nslots, hlock⟩
  · rw [if_neg hv, if_neg htype] at hread
    exact ⟨_, hdef.trans hread, h.inodes, h.procs, h.ref, h.nslots, hlock⟩

theorem iunlock_held (h : Held s t l (update K i true)) (hK : K i = false) (href : 0 < t.ref i) :
    ∃ u, iunlock i t = .ok ((), u) ∧ Held s u l K := by
  have hdef : iunlock i t = (if t.lock i = false ∨ t.ref i < 1 then throw (.panic .iunlock)
      else setLock i false : L Unit) t := rfl
  have hlock : t.lock i = true := by rw [h.lock, update_self]
  have hback : update t.lock i false = K := by rw [h.lock, update_idem, ← hK, update_eq_self]
  rw [if_neg (by rw [hlock]; simp only [Bool.true_eq_false, false_or]; omega)] at hdef
  exact ⟨_, hdef, h.inodes, h.procs, h.ref, h.nslots, hback⟩

theorem iput_held (h : Held s t (i :: l) K) (hlive : (s.inodes i).nlink = 0 → 0 < s.ref i) :
    ∃ u, iput i t = .ok ((), u) ∧ Held s u l K := by
  have href : t.ref i = s.ref i+(l.count i+1) := by rw [h.ref, count_cons_self]
  have hfree : freeUnlinked i t = .ok ((), t) := by
    have hdef : freeUnlinked i t = (if t.ref i = 1 ∧ t.valid i = true ∧ (t.inodes i).nlink = 0 then do
        acquiresleep i
        lift (update i freed)
        modify fun s => { s with valid := update s.valid i false }
        setLock i false
      else pure () : L Unit) t := rfl
    rw [hdef, if_neg]
    · rfl
    rintro ⟨h1, -, h0⟩
    rw [h.inodes] at h0
    have := hlive h0
    omega
  refine ⟨_, run_bind hfree _, h.inodes, h.procs, fun j => ?_, ?_, h.lock⟩
  · change update t.ref i (t.ref i-1) j = _
    by_cases hj : j = i
    · rw [hj, update_self]
      omega
    · rw [update_of_ne hj, h.ref, count_cons_of_ne (Ne.symm hj)]
  change (if t.ref i = 1 then t.nslots-1 else t.nslots) = _
  rw [h.nslots, slots_cons]
  by_cases h0 : s.ref i+l.count i = 0
  · rw [if_pos (by omega), if_pos h0]
    omega
  · rw [if_neg (by omega), if_neg h0, Nat.add_zero]

theorem iunlockput_held (h : Held s t (i :: l) (update K i true)) (hK : K i = false)
    (hlive : (s.inodes i).nlink = 0 → 0 < s.ref i) :
    ∃ u, iunlockput i t = .ok ((), u) ∧ Held s u l K := by
  have href : 0 < t.ref i := by
    rw [h.ref, count_cons_self]
    omega
  obtain ⟨u, hu, hheld⟩ := iunlock_held h hK href
  obtain ⟨v, hv, hheld'⟩ := iput_held hheld hlive
  exact ⟨v, (run_bind hu _).trans hv, hheld'⟩

theorem dirlookup_run (dp : ℕ) (name : Name) (s : Fs) : dirlookup dp name s =
    (if (s.inodes dp).type ≠ .dir then throw .dirlookupNotDir
      else match findName name (s.inodes dp).ents with
        | none => return none
        | some k => do
          iget (slot (s.inodes dp).ents k).inum
          return some ((slot (s.inodes dp).ents k).inum, k) : M (Option (ℕ × ℕ))) s := rfl

theorem dirlookup_held (h : Held s t l K) (hslot : t.nslots < ninode) {dp : ℕ} (name : Name)
    (hdir : (s.inodes dp).type = .dir) : ∃ u, lift (dirlookup dp name) t = .ok (look s.inodes dp name, u) ∧
      Held s u ((look s.inodes dp name).elim l (fun x => x.1 :: l)) K := by
  have hdef := dirlookup_run dp name t.toFs
  rw [h.inodes, if_neg (not_not.mpr hdir)] at hdef
  unfold look
  cases hf : findName name (s.inodes dp).ents with
  | none =>
    rw [hf] at hdef
    exact ⟨_, lift_ok hdef, h⟩
  | some k =>
    rw [hf] at hdef
    obtain ⟨u, hu, hheld⟩ := iget_held h hslot (slot (s.inodes dp).ents k).inum
    exact ⟨_, lift_ok (hdef.trans (run_bind hu _)), hheld⟩

/-! The walk. -/

def Live (s : State) (i : ℕ) : Prop := (s.inodes i).type ≠ .free ∧ ((s.inodes i).nlink = 0 → 0 < s.ref i)

def NoDangling (s : State) : Prop :=
  ∀ D, Live s D → (s.inodes D).type = .dir → ∀ e ∈ (s.inodes D).ents, e.inum ≠ 0 → Live s e.inum

theorem NoDangling.look (h : NoDangling s) {D k : ℕ} (hD : Live s D)
    (hdir : (s.inodes D).type = .dir) (hl : look s.inodes D name = some (i, k)) : Live s i := by
  obtain ⟨k', hk, he⟩ := Option.map_eq_some_iff.mp hl
  obtain ⟨hlt, hp, -⟩ := List.findIdx?_eq_some_iff_getElem.mp hk
  have hslot : slot (s.inodes D).ents k' = (s.inodes D).ents[k'] := by simp [slot, hlt]
  simp only [hslot, Prod.mk.injEq] at he
  simp only [Bool.and_eq_true, decide_eq_true_eq] at hp
  rw [← he.1]
  exact h D hD hdir _ (getElem_mem hlt) hp.1

def returned : Option (ℕ × Name) → List ℕ
  | none => []
  | some (i, _) => [i]

def noLocks : ℕ → Bool := fun _ => false

theorem namexLoop_held (hd : NoDangling s) (hroom : s.nslots+2 ≤ ninode) (parent : Bool) (path : List UInt8)
    {ip : ℕ} (hip : Live s ip) (h : Held s t [ip] noLocks) :
    ∃ u, namexLoop parent path ip t = .ok (walk s.inodes parent ip (components path), u) ∧
      Held s u (returned (walk s.inodes parent ip (components path))) noLocks := by
  induction hn : path.length using Nat.strong_induction_on generalizing path ip t with
  | _ n ih =>
  cases hs : skipelem path with
  | none =>
    rw [components_none hs, namexLoop_none hs, walk]
    cases parent with
    | true =>
      obtain ⟨u, hu, hheld⟩ := iput_held h hip.2
      exact ⟨u, run_bind hu _, hheld⟩
    | false => exact ⟨t, rfl, h⟩
  | some x =>
    obtain ⟨name, rest⟩ := x
    have href : 0 < t.ref ip := by
      rw [h.ref, count_cons_self]
      omega
    obtain ⟨u, hu, hlocked⟩ := ilock_held h href rfl hip.1
    have hino : lift (dinode ip) u = .ok (s.inodes ip, u) := by
      rw [← hlocked.inodes]
      rfl
    rw [components_some hs, walk, namexLoop_some hs, run_bind hu, run_bind hino]
    by_cases hdir : (s.inodes ip).type ≠ .dir
    · rw [if_pos hdir, if_pos hdir]
      obtain ⟨v, hv, hheld⟩ := iunlockput_held hlocked rfl hip.2
      exact ⟨v, run_bind hv _, hheld⟩
    rw [if_neg hdir, if_neg hdir]
    by_cases hlast : parent = true ∧ rest = []
    · rw [if_pos hlast, if_pos ⟨hlast.1, (components_rest_nil hs).mpr hlast.2⟩]
      obtain ⟨v, hv, hheld⟩ := iunlock_held hlocked rfl (by rw [hlocked.ref, count_cons_self]; omega)
      exact ⟨v, run_bind hv _, hheld⟩
    rw [if_neg hlast, if_neg (fun hc => hlast ⟨hc.1, (components_rest_nil hs).mp hc.2⟩)]
    have hslot : u.nslots < ninode := by
      have hle := slots_le s [ip]
      rw [hlocked.nslots]
      rw [length_singleton] at hle
      omega
    obtain ⟨v, hv, hfound⟩ := dirlookup_held hlocked hslot name (not_not.mp hdir)
    rw [run_bind hv]
    cases hl : look s.inodes ip name with
    | none =>
      rw [hl] at hfound
      obtain ⟨w, hw, hheld⟩ := iunlockput_held hfound rfl hip.2
      exact ⟨w, run_bind hw _, hheld⟩
    | some x =>
      obtain ⟨next, k⟩ := x
      rw [hl] at hfound
      -- the reference to the directory goes, that to what was found in it stays
      have hboth : Held s v [ip, next] (update noLocks ip true) := hfound.perm (List.Perm.swap ..)
      obtain ⟨w, hw, hheld⟩ := iunlockput_held hboth rfl hip.2
      have hnext := hd.look hip (not_not.mp hdir) hl
      obtain ⟨z, hz, hend⟩ := ih rest.length (hn ▸ skipelem_lt hs) rest hnext hheld rfl
      exact ⟨z, (run_bind hw _).trans hz, hend⟩

/-! Where a path leads. -/

def follow (d : ℕ → Dinode) (ip : ℕ) : List Name → Option ℕ
  | [] => some ip
  | name :: rest => if (d ip).type = .dir then (look d ip name).bind (fun x => follow d x.1 rest) else none

def followParent (d : ℕ → Dinode) (ip : ℕ) (names : List Name) : Option (ℕ × Name) :=
  names.getLast?.bind (fun name => (follow d ip names.dropLast).bind (fun dp =>
    if (d dp).type = .dir then some (dp, name) else none))

variable {d : ℕ → Dinode} {names : List Name} {ip : ℕ}

theorem walk_false (d : ℕ → Dinode) (ip : ℕ) (names : List Name) :
    walk d false ip names = (follow d ip names).map (fun i => (i, [])) := by
  induction names generalizing ip with
  | nil => rfl
  | cons name rest ih =>
    rw [walk, follow]
    by_cases hdir : (d ip).type = .dir
    · rw [if_neg (not_not.mpr hdir), if_neg (fun h => Bool.false_ne_true h.1), if_pos hdir]
      cases look d ip name with
      | none => rfl
      | some x => exact ih x.1
    · rw [if_pos hdir, if_neg hdir]
      rfl

theorem walk_true (d : ℕ → Dinode) (ip : ℕ) (names : List Name) : walk d true ip names = followParent d ip names := by
  induction names generalizing ip with
  | nil => rfl
  | cons name rest ih =>
    rw [walk]
    by_cases hdir : (d ip).type = .dir
    · rw [if_neg (not_not.mpr hdir)]
      cases rest with
      | nil =>
        rw [if_pos ⟨rfl, rfl⟩]
        exact (if_pos hdir).symm
      | cons name' rest =>
        have hmore : ¬((true : Bool) = true ∧ name' :: rest = []) := fun h => cons_ne_nil _ _ h.2
        rw [if_neg hmore, followParent, List.getLast?_cons_cons, dropLast_cons_cons, follow, if_pos hdir]
        cases look d ip name with
        | none => cases (name' :: rest).getLast? <;> rfl
        | some x => exact ih x.1
    · rw [if_pos hdir]
      cases rest with
      | nil => exact (if_neg hdir).symm
      | cons name' rest =>
        rw [followParent, dropLast_cons_cons, follow, if_neg hdir]
        cases (name :: name' :: rest).getLast? <;> rfl

theorem look_eq_none_iff : look d ip name = none ↔ ∀ e ∈ (d ip).ents, e.inum ≠ 0 → e.name ≠ name := by
  rw [look, Option.map_eq_none_iff, findName, List.findIdx?_eq_none_iff]
  simp

def Broken (d : ℕ → Dinode) (ip : ℕ) (names : List Name) : Prop :=
  ∃ before name after, names = before ++ name :: after ∧ ∃ dp, follow d ip before = some dp ∧
    ((d dp).type ≠ .dir ∨ ∀ e ∈ (d dp).ents, e.inum ≠ 0 → e.name ≠ name)

theorem follow_eq_none_iff : follow d ip names = none ↔ Broken d ip names := by
  induction names generalizing ip with
  | nil =>
    refine iff_of_false (Option.some_ne_none ip) ?_
    rintro ⟨before, name, after, heq, -⟩
    exact append_ne_nil_of_right_ne_nil before (cons_ne_nil _ _) heq.symm
  | cons name rest ih =>
    rw [follow]
    by_cases hdir : (d ip).type = .dir
    · rw [if_pos hdir]
      cases hl : look d ip name with
      | none => exact iff_of_true rfl ⟨[], name, rest, rfl, ip, rfl, Or.inr (look_eq_none_iff.mp hl)⟩
      | some =>
        rw [Option.bind_some, ih]
        constructor
        · rintro ⟨before, nm, after, rfl, dp, hdp, hno⟩
          refine ⟨name :: before, nm, after, rfl, dp, ?_, hno⟩
          rw [follow, if_pos hdir, hl]
          exact hdp
        rintro ⟨before, nm, after, heq, dp, hdp, hno⟩
        cases before with
        | nil =>
          obtain ⟨rfl, rfl⟩ := List.cons.inj heq
          cases hdp
          rcases hno with hno | hno
          · exact absurd hdir hno
          · rw [look_eq_none_iff.mpr hno] at hl
            cases hl
        | cons nm' before =>
          obtain ⟨rfl, rfl⟩ := List.cons.inj heq
          rw [follow, if_pos hdir, hl] at hdp
          exact ⟨before, nm, after, rfl, dp, hdp, hno⟩
    · rw [if_neg hdir]
      exact iff_of_true rfl ⟨[], name, rest, rfl, ip, rfl, Or.inl hdir⟩

theorem followParent_eq_none_iff : followParent d ip names = none ↔ names = [] ∨
    Broken d ip names.dropLast ∨ ∃ dp, follow d ip names.dropLast = some dp ∧ (d dp).type ≠ .dir := by
  rw [followParent, ← follow_eq_none_iff]
  cases hn : names.getLast? with
  | none => exact iff_of_true rfl (Or.inl (List.getLast?_eq_none_iff.mp hn))
  | some =>
    have hne : names ≠ [] := by
      rintro rfl
      cases hn
    rw [Option.bind_some]
    cases hf : follow d ip names.dropLast with
    | none => exact iff_of_true rfl (Or.inr (Or.inl rfl))
    | some dp =>
      rw [Option.bind_some]
      by_cases hdir : (d dp).type = .dir
      · rw [if_pos hdir]
        refine iff_of_false (Option.some_ne_none _) ?_
        rintro (h | h | ⟨dp', h, hno⟩)
        · exact hne h
        · cases h
        · cases h
          exact hno hdir
      · rw [if_neg hdir]
        exact iff_of_true rfl (Or.inr (Or.inr ⟨dp, rfl, hdir⟩))

/-! The result. -/

/-- A tree that process `p` can look up names in: no entry dangles, the root directory is there and so
is the current directory, and the process holds no inode lock. -/
structure Tree (s : State) (p : ℕ) : Prop where
  entries : NoDangling s
  root : Live s rootIno
  cwd : 0 < s.ref (cwdOf s.procs p) ∧ (s.inodes (cwdOf s.procs p)).type ≠ .free
  unlocked : s.lock = noLocks

theorem Tree.start (h : Tree s p) (path : List UInt8) : Live s (startOf s.procs p path) := by
  unfold startOf
  split_ifs
  · exact h.root
  · exact ⟨h.cwd.2, fun _ => h.cwd.1⟩

theorem held_refl (h : s.lock = K) : Held s s [] K := ⟨rfl, rfl, fun _ => rfl, rfl, h⟩

theorem namexStart_held (h : Tree s p) (hroom : s.nslots+2 ≤ ninode) (path : List UInt8) :
    ∃ t, lift (namexStart p path) s = .ok (startOf s.procs p path, t) ∧ Held s t [startOf s.procs p path] noLocks := by
  have hdef : namexStart p path s.toFs = (if path.head? = some slash then do
      iget rootIno
      return rootIno
    else do
      let s ← get
      idup (cwdOf s.procs p)
      return cwdOf s.procs p : M ℕ) s.toFs := rfl
  unfold startOf
  by_cases hslash : path.head? = some slash
  · rw [if_pos hslash] at hdef ⊢
    obtain ⟨u, hu, hheld⟩ := iget_held (held_refl h.unlocked) (by omega) rootIno
    exact ⟨_, lift_ok (hdef.trans (run_bind hu _)), hheld⟩
  rw [if_neg hslash] at hdef ⊢
  refine ⟨_, lift_ok hdef, rfl, rfl, fun i => ?_, ?_, h.unlocked⟩
  · change update s.ref _ _ i = _
    by_cases hi : i = cwdOf s.procs p
    · rw [hi, update_self, count_cons_self, count_nil]
    · rw [update_of_ne hi, count_cons_of_ne (Ne.symm hi), count_nil, Nat.add_zero]
  · have hcwd := h.cwd.1
    rw [slots_cons, if_neg (by omega)]
    rfl

theorem namex_held (h : Tree s p) (hroom : s.nslots+2 ≤ ninode) (parent : Bool) (path : List UInt8) :
    ∃ t, namex p parent path s = .ok (walk s.inodes parent (startOf s.procs p path) (components path), t) ∧
      Held s t (returned (walk s.inodes parent (startOf s.procs p path) (components path))) noLocks := by
  obtain ⟨u, hu, hheld⟩ := namexStart_held h hroom path
  obtain ⟨t, ht, hend⟩ := namexLoop_held h.entries hroom parent path (h.start path) hheld
  exact ⟨t, (run_bind hu _).trans ht, hend⟩

/-- A path lookup returns the inode that the elements of the path lead to, with one reference more,
and leaves no other trace. -/
theorem path_lookup_balances {p : ℕ} (h : Tree s p) (hroom : s.nslots+2 ≤ ninode) (path : List UInt8) :
    (∃ r t, namei p path s = .ok (r, t) ∧ r = follow s.inodes (startOf s.procs p path) (components path) ∧
      Held s t r.toList noLocks ∧
      (r = none ↔ Broken s.inodes (startOf s.procs p path) (components path))) ∧
    ∃ r t, nameiparent p path s = .ok (r, t) ∧ r = followParent s.inodes (startOf s.procs p path) (components path) ∧
      Held s t (returned r) noLocks ∧
      (r = none ↔ components path = [] ∨ Broken s.inodes (startOf s.procs p path) (components path).dropLast ∨
        ∃ dp, follow s.inodes (startOf s.procs p path) (components path).dropLast = some dp ∧
          (s.inodes dp).type ≠ .dir) := by
  constructor
  · obtain ⟨t, ht, hheld⟩ := namex_held h hroom false path
    rw [walk_false] at ht hheld
    refine ⟨_, t, ?_, rfl, ?_, follow_eq_none_iff⟩
    · rw [namei, run_bind ht]
      cases follow s.inodes (startOf s.procs p path) (components path) <;> rfl
    cases hf : follow s.inodes (startOf s.procs p path) (components path) with
    | none =>
      rw [hf] at hheld
      exact hheld
    | some =>
      rw [hf] at hheld
      exact hheld
  · obtain ⟨t, ht, hheld⟩ := namex_held h hroom true path
    rw [walk_true] at ht hheld
    exact ⟨_, t, ht, rfl, hheld, followParent_eq_none_iff⟩

/-- A tree with the directory /a (inode 2) and the file /a/b (inode 3). The root directory and `n` files
in it are in use by processes, so that the inode table has `n+1` entries. -/
def deepTree (n : ℕ) : State where
  inodes i := if i = 1 then ⟨.dir, 0, 0, 2, [⟨1, dot⟩, ⟨1, dotdot⟩, ⟨2, [97]⟩] ++
        (List.range' 10 n).map (fun i => ⟨i, [UInt8.ofNat (i+100)]⟩)⟩
    else if i = 2 then ⟨.dir, 0, 0, 1, [⟨2, dot⟩, ⟨1, dotdot⟩, ⟨3, [98]⟩]⟩
    else ⟨.file, 0, 0, 1, []⟩
  ref i := if i = 1 ∨ (10 ≤ i ∧ i < 10+n) then 1 else 0
  valid _ := true
  nslots := n+1
  nfiles := n
  procs := [⟨some 1, []⟩]
  lock := noLocks

theorem deepTree_tree (n : ℕ) : Tree (deepTree n) 0 := by
  have hino (i : ℕ) : ((deepTree n).inodes i).type ≠ .free ∧ ((deepTree n).inodes i).nlink ≠ 0 := by
    simp only [deepTree]
    split_ifs <;> simp
  have hlive (i : ℕ) : Live (deepTree n) i := ⟨(hino i).1, fun h => absurd h (hino i).2⟩
  exact ⟨fun _ _ _ e _ _ => hlive e.inum, hlive _, ⟨Nat.one_pos, fun h => by cases h⟩, rfl⟩

def deepPath : List UInt8 := [47, 97, 47, 98]

theorem lookup_two_levels : ∃ t, namei 0 deepPath (deepTree 0) = .ok (some 3, t) ∧ Held (deepTree 0) t [3] noLocks := by
  obtain ⟨⟨r, t, hrun, hr, hheld, -⟩, -⟩ := path_lookup_balances (deepTree_tree 0) (by decide) deepPath
  have h3 : r = some 3 := hr.trans (by decide)
  rw [h3] at hrun hheld
  exact ⟨t, hrun, hheld⟩

/-- One free entry of the inode table goes to /a, and there is none left for /a/b. -/
theorem one_entry_too_few : Tree (deepTree 48) 0 ∧ (deepTree 48).nslots = 49 ∧
    namei 0 deepPath (deepTree 48) = .error (.panic .igetNoInodes) := by
  refine ⟨deepTree_tree 48, rfl, ?_⟩
  have h1 : skipelem deepPath = some ([97], [98]) := by decide
  have h2 : skipelem [98] = some ([98], []) := by decide
  simp only [namei, namex, namexLoop_some h1, namexLoop_some h2]
  rfl

end Xv6.Path
