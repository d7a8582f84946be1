import Xv6.DirAccount

/-! The 16-bit link count of a file over any number of link and unlink calls. -/
namespace Xv6.Dir
open Function (update_self update_of_ne)
open Hoare Multigraph Runs List

variable {n N : ℕ} {d : ℕ → Dinode} {pr : List Proc} {p : ℕ} {s t : Fs}

def FilesCounted (n : ℕ) (d : ℕ → Dinode) : Prop :=
  ∀ i, (d i).type ≠ .dir → (d i).type ≠ .free → (d i).nlink = names n d i

structure Counted (n : ℕ) (d : ℕ → Dinode) : Prop where
  exact : ∀ i, (links n d i : ℤ) = (d i).nlink
  named : ∀ i, (d i).type = .dir → (d i).nlink ≠ 0 → i ≠ rootIno → 0 < names n d i

def isLinkCall : Call → Bool
  | .link _ _ | .unlink _ => true
  | _ => false

/-- A link call that enters a new name finds the count of the file below the largest short. -/
def RoomForLink (s : Fs) (e : Event) : Prop :=
  ∀ old new ostr nstr dp name ip, e.call = .link old new → argstr old = some ostr →
    argstr new = some nstr → Links s.inodes s.procs e.proc ostr nstr dp name ip →
    (s.inodes ip).nlink < 32767

theorem Tree.links_file (ht : Tree n d) {i : ℕ} (hd : (d i).type ≠ .dir) : links n d i = names n d i := by
  have hroot : i ≠ rootIno := by
    rintro rfl
    exact hd ht.root
  rw [links, subdirs, live_of_nil (ht.plain i hd), Multiset.countP_zero, if_neg hroot, add_zero, add_zero]

theorem Counted.files (h : Counted n d) (ht : Tree n d) : FilesCounted n d := by
  intro i hd _
  rw [← h.exact, ht.links_file hd]

variable {path : List UInt8} {e : Event}

section
variable (h : Counted n d) (hc : Consistent n d (uses pr)) {dp ip k : ℕ} {name : Name}
  (hr : Removes d pr p path dp name ip k)
include h hc hr

theorem Counted.parent_kept : released (detached d dp ip k) (uses pr) dp = detached d dp ip k := by
  have hlive := hr.live hc.tree
  refine if_neg (fun hf => ?_)
  rw [(hc.tree.detach hr).2.2] at hf
  by_cases hdir : (d ip).type = .dir
  · -- the removed ".." is not the only link of the parent, which has a name or is the root
    have hsub : 0 < subdirs d dp := Multiset.countP_pos.mpr ⟨_, hlive, hdir⟩
    have hex := h.exact dp
    have hnamed := h.named dp hr.dir
    rw [if_pos hdir] at hf
    unfold links at hex
    split_ifs at hex with hroot
    · omega
    · have := hnamed (by omega) hroot
      omega
  · rw [if_neg hdir, sub_zero] at hf
    have := hc.anchored dp (by rw [hr.dir]; decide) hf.1
    omega

theorem Counted.unlink : Counted n (unlinked d (uses pr) dp ip k) := by
  have hkeep := h.parent_kept hc hr
  have hexact (i : ℕ) := hr.unlinked_links hkeep hc.tree (h.exact i)
  refine ⟨hexact, fun i hdir h0 hroot => ?_⟩
  have hnames := hr.unlinked_names hkeep hc.tree i
  have htype : (d i).type = .dir := by
    have h1 := released_dir hdir
    rw [addLinks_type] at h1
    have h2 := released_dir h1
    rwa [detached_type] at h2
  by_cases hip : ip = i
  · -- a directory that is removed is empty, so the links it has left are names
    subst hip
    have hex := hexact ip
    rw [links, subdirs, hr.unlinked_live hkeep hc.tree, if_neg (hr.ne hc.tree),
      hr.empty_live hc.tree, Multiset.countP_zero, if_neg hroot] at hex
    omega
  rw [if_neg hip] at hnames
  have hold : (d i).nlink ≠ 0 := by
    have hnn := (hc.unlink hr).tree.nlink_nonneg i
    rw [hc.tree.unlinked_nlink hr] at h0 hnn
    split_ifs at h0 hnn <;> omega
  have := h.named i htype hold hroot
  omega

end

theorem linked_nlink {dp ip : ℕ} {name : Name} (i : ℕ) :
    (linked (Function.update d ip (addLinks 1 (d ip))) dp name ip i).nlink =
      if i = ip then short ((d ip).nlink+1) else (d i).nlink := by
  rw [(linked_type ip i).2]
  by_cases hi : i = ip
  · rw [if_pos hi, hi, update_self]
    rfl
  · rw [if_neg hi, update_of_ne hi]

theorem Links.swap {old new : List UInt8} {dp ip : ℕ} {name : Name}
    (hl : Links d pr p old new dp name ip) : linked (Function.update d ip (addLinks 1 (d ip))) dp name ip =
      Function.update (linked d dp name ip) ip (addLinks 1 (linked d dp name ip ip)) := by
  unfold linked
  rw [update_of_ne hl.ne, update_of_ne hl.ne.symm, Function.update_comm hl.ne]

section
variable {old new : List UInt8} {dp ip : ℕ} {name : Name} (hl : Links d pr p old new dp name ip)
  (ht : Tree n d)
include hl ht

theorem Links.links_eq (i : ℕ) : links n (linked (Function.update d ip (addLinks 1 (d ip))) dp name ip) i =
      links n d i+if ip = i then 1 else 0 := by
  have hnd : ¬(i = dp ∧ (d ip).type = .dir) := fun h => hl.type.1 h.2
  have hsame : links n (Function.update (linked d dp name ip) ip
      (addLinks 1 (linked d dp name ip ip))) = links n (linked d dp name ip) :=
    links_update_same rfl rfl
  rw [hl.swap, hsame, ht.links_linked hl.dir (ht.inum_ne hl.type.2), if_neg hnd, add_zero]

theorem Links.names_eq (i : ℕ) : names n (linked (Function.update d ip (addLinks 1 (d ip))) dp name ip) i =
      names n d i+if ip = i then 1 else 0 := by
  have hdp := (ht.range dp (by rw [hl.dir]; decide)).2
  have hlive := ht.linked_live hl.dir (ht.inum_ne hl.type.2) name
  have hout : (fun v => (linked (Function.update d ip (addLinks 1 (d ip))) dp name ip v).live) =
      Function.update (fun v => (d v).live) dp (⟨ip, name⟩ ::ₘ (d dp).live) := by
    funext v
    rw [hl.swap]
    by_cases hv : v = dp
    · rw [hv, update_of_ne hl.ne, hlive, update_self]
    rw [update_of_ne hv]
    by_cases hvi : v = ip
    · rw [hvi, update_self, linked, update_of_ne hl.ne.symm]
      rfl
    · rw [update_of_ne hvi, linked, update_of_ne hv]
  unfold names
  rw [hout]
  exact indegree_cons (fun v => (d v).live) _ hdp _ i

theorem Counted.link (h : Counted n d) (hip : (d ip).nlink < 32767) :
    Counted n (linked (Function.update d ip (addLinks 1 (d ip))) dp name ip) := by
  refine ⟨fun i => ?_, fun i hdir h0 hroot => ?_⟩
  · have hnn := ht.nlink_nonneg ip
    rw [hl.links_eq ht, linked_nlink]
    by_cases hi : ip = i
    · subst hi
      rw [if_pos rfl, if_pos rfl, short_of_range (by omega)]
      push_cast
      rw [h.exact]
    · rw [if_neg hi, if_neg (Ne.symm hi), add_zero, h.exact]
  rw [(linked_type ip i).1, addLinks_type] at hdir
  have hi : i ≠ ip := by
    rintro rfl
    exact hl.type.1 hdir
  rw [linked_nlink, if_neg hi] at h0
  have := h.named i hdir h0 hroot
  rw [hl.names_eq ht]
  omega

theorem Links.not_counted (h : FilesCounted n d) (hip : ¬ (d ip).nlink < 32767) :
    ¬ FilesCounted n (linked (Function.update d ip (addLinks 1 (d ip))) dp name ip) := by
  intro hc
  have hold := h ip hl.type.1 hl.type.2
  have hsmall := ht.small ip
  have hnew := hc ip (by rw [(linked_type ip ip).1, addLinks_type]; exact hl.type.1)
    (by rw [(linked_type ip ip).1, addLinks_type]; exact hl.type.2)
  have hmax : (d ip).nlink = 32767 := by omega
  rw [linked_nlink, if_pos rfl, hl.names_eq ht, if_pos rfl, hmax] at hnew
  have hwrap : short (32767+1) = -32768 := by decide
  omega

end

theorem step_linkCall (h : isLinkCall e.call = true) (N n : ℕ) (s : Fs) : step N s e = step n s e := by
  obtain ⟨p, call⟩ := e
  cases call with
  | link | unlink => rfl
  | openFile | mkdir | mknod | chdir | close | exit => cases h

theorem Sound.linkStep_cases (hs : Sound n s) (hn : n ≤ 65536)
    (hcall : isLinkCall e.call = true) (hstep : Dir.step N s e = some t) :
    Idle t.inodes t.procs (uses t.procs) t ∧ t.procs = s.procs ∧
      ((Refused s.inodes s.procs e.proc e.call ∧ t.inodes = s.inodes) ∨
      (∃ old new ostr nstr dp name ip, e.call = .link old new ∧ argstr old = some ostr ∧
        argstr new = some nstr ∧ Links s.inodes s.procs e.proc ostr nstr dp name ip ∧
        t.inodes = linked (Function.update s.inodes ip (addLinks 1 (s.inodes ip))) dp name ip) ∨
      ∃ path str dp name ip k, e.call = .unlink path ∧ Removes s.inodes s.procs e.proc str dp name ip k ∧
        t.inodes = unlinked s.inodes (uses s.procs) dp ip k) := by
  rw [step_linkCall hcall N n] at hstep
  obtain ⟨d', pr', he, hidle⟩ := step_effect (hs.consistent.sane hn) hn hs.idle hstep
  obtain rfl := hidle.inodes
  obtain rfl := hidle.procs
  refine ⟨hidle, ?_⟩
  obtain ⟨q, call⟩ := e
  generalize t.inodes = d' at he ⊢
  generalize t.procs = pr' at he ⊢
  cases he with
  | fails h => exact ⟨rfl, Or.inl ⟨h, rfl⟩⟩
  | links ho hw h => exact ⟨rfl, Or.inr (Or.inl ⟨_, _, _, _, _, _, _, rfl, ho, hw, h, rfl⟩)⟩
  | unlinks ha h => exact ⟨rfl, Or.inr (Or.inr ⟨_, _, _, _, _, _, rfl, h, rfl⟩)⟩
  | creates hc =>
    cases call with
    | link | unlink => cases hc
    | openFile | mkdir | mknod | chdir | close | exit => cases hcall
  | opens | createsOpen | chdirs | closes | exits => cases hcall

theorem roomForLink_of_unlink (h : e.call = .unlink path) : RoomForLink s e := by
  intro old new _ _ _ _ _ hcall
  rw [h] at hcall
  cases hcall

theorem roomForLink_of_refused (h : Refused s.inodes s.procs e.proc e.call) : RoomForLink s e := by
  intro old new ostr nstr dp name ip hcall ho hw hl
  exact absurd (Or.inl ⟨old, new, ostr, nstr, name, ip, hcall, ho, hw, hl⟩) (h.enter dp)

theorem Links.target_eq {old new old' new' : List UInt8} {dp dp' ip ip' : ℕ} {name name' : Name}
    (h : Links d pr p old new dp name ip) (h' : Links d pr p old' new' dp' name' ip')
    (he : old' = old) : ip' = ip := by
  obtain ⟨_, hw⟩ := h.target
  obtain ⟨_, hw'⟩ := h'.target
  rw [he, hw, Option.some.injEq, Prod.mk.injEq] at hw'
  exact hw'.1.symm

theorem Sound.linkStep (hs : Sound n s) (hc : Counted n s.inodes) (hn : n ≤ 65536)
    (hcall : isLinkCall e.call = true) (hroom : RoomForLink s e) (hstep : Dir.step N s e = some t) :
    Sound n t ∧ Counted n t.inodes := by
  obtain ⟨hidle, hprocs, heff⟩ := hs.linkStep_cases hn hcall hstep
  have hcons := hs.consistent
  obtain ⟨-, heq⟩ | ⟨old, new, ostr, nstr, dp, name, ip, hlink, ho, hw, hl, heq⟩ |
    ⟨path, str, dp, name, ip, k, -, hr, heq⟩ := heff
  · refine ⟨⟨?_, hidle⟩, ?_⟩
    · rw [heq, hprocs]
      exact hcons
    · rw [heq]
      exact hc
  · have hip := hroom old new ostr nstr dp name ip hlink ho hw hl
    refine ⟨⟨?_, hidle⟩, ?_⟩
    · rw [heq, hprocs]
      exact hcons.link hl hip
    · rw [heq]
      exact hc.link hl hcons.tree hip
  · refine ⟨⟨?_, hidle⟩, ?_⟩
    · rw [heq, hprocs]
      exact hcons.unlink hr
    · rw [heq]
      exact hc.unlink hcons hr

theorem Sound.filesCounted_iff (hs : Sound n s) (hc : Counted n s.inodes) (hn : n ≤ 65536)
    (hcall : isLinkCall e.call = true) (hstep : Dir.step N s e = some t) :
    FilesCounted n t.inodes ↔ RoomForLink s e := by
  constructor
  · intro hfiles
    obtain ⟨-, -, heff⟩ := hs.linkStep_cases hn hcall hstep
    obtain ⟨hr, -⟩ | ⟨old, new, ostr, nstr, dp, name, ip, hlink, ho, hw, hl, heq⟩ |
      ⟨path, str, dp, name, ip, k, hun, -, -⟩ := heff
    · exact roomForLink_of_refused hr
    · intro old' new' ostr' nstr' dp' name' ip' hcall' ho' _ hl'
      obtain ⟨rfl, -⟩ := Call.link.inj (hlink.symm.trans hcall')
      obtain rfl := hl.target_eq hl' (Option.some.inj (ho'.symm.trans ho))
      by_contra hmax
      rw [heq] at hfiles
      exact hl.not_counted hs.consistent.tree (hc.files hs.consistent.tree) hmax hfiles
    · exact roomForLink_of_unlink hun
  · intro hroom
    obtain ⟨ht, hct⟩ := hs.linkStep hc hn hcall hroom hstep
    exact hct.files ht.consistent.tree

/-! unlink panics only at a name whose inode has no links. -/

/-- The program does not panic with "unlink: nlink < 1". -/
def Quiet {α : Type} (x : M α) : Prop := Triple (fun e => e ≠ .unlinkNlink) (fun _ => True) x (fun _ _ => True)

theorem Quiet.bind {α β : Type} {x : M α} {f : α → M β} (hx : Quiet x) (hf : ∀ a, Quiet (f a)) :
    Quiet (x >>= f) := Triple.bind hx hf

theorem Quiet.pure {α : Type} (a : α) : Quiet (pure a) := Triple.pure (fun _ _ => trivial)

theorem Quiet.modify (f : Fs → Fs) : Quiet (modify f) := Triple.modify (fun _ _ => trivial)

theorem Quiet.throw {α : Type} {e : Panic} (h : e ≠ .unlinkNlink) : Quiet (throw e : M α) := Triple.throw (fun _ _ => h)

theorem Quiet.get {α : Type} {f : Fs → M α} (h : ∀ s, Quiet (f s)) : Quiet (get >>= f) :=
  Triple.get (fun s _ => (h s).pre (fun _ _ => trivial))

theorem Quiet.ite {α : Type} {c : Prop} [Decidable c] {x y : M α} (hx : Quiet x) (hy : Quiet y) :
    Quiet (if c then x else y) := Triple.ite (fun _ => hx) (fun _ => hy)

theorem quiet_iget (i : ℕ) : Quiet (iget i) := .get (fun _ => .ite (.modify _) (.ite (.throw (by decide)) (.modify _)))

theorem quiet_ilock (i : ℕ) : Quiet (ilock i) := .get (fun _ => .ite (.throw (by decide)) (.ite (.pure _)
    ((Quiet.modify _).bind (fun _ => .ite (.throw (by decide)) (.pure _)))))

theorem quiet_iunlock (i : ℕ) : Quiet (iunlock i) := .get (fun _ => .ite (.throw (by decide)) (.pure _))

theorem quiet_iput (i : ℕ) : Quiet (iput i) :=
  Quiet.bind (.get (fun _ => .ite ((Quiet.modify _).bind (fun _ => .modify _)) (.pure _))) (fun _ => .modify _)

theorem quiet_iunlockput (i : ℕ) : Quiet (iunlockput i) := (quiet_iunlock i).bind (fun _ => quiet_iput i)

theorem quiet_dirlookup (dp : ℕ) (name : Name) : Quiet (dirlookup dp name) := by
  apply Quiet.get
  intro s
  refine .ite (.throw (by decide)) ?_
  cases findName name (s.inodes dp).ents with
  | none => exact .pure _
  | some => exact (quiet_iget _).bind (fun _ => .pure _)

theorem quiet_namexLoop (parent : Bool) (ip : ℕ) (es : List Name) : Quiet (namexLoop parent ip es) := by
  have hdinode (i : ℕ) : Quiet (dinode i) := .get (fun _ => .pure _)
  induction es generalizing ip with
  | nil => exact .ite ((quiet_iput ip).bind (fun _ => .pure _)) (.pure _)
  | cons name rest ih =>
    refine (quiet_ilock ip).bind (fun _ => (hdinode ip).bind (fun d => ?_))
    refine .ite ((quiet_iunlockput ip).bind (fun _ => .pure _)) ?_
    refine .ite ((quiet_iunlock ip).bind (fun _ => .pure _)) ?_
    refine (quiet_dirlookup ip name).bind (fun r => ?_)
    cases r with
    | none => exact (quiet_iunlockput ip).bind (fun _ => .pure _)
    | some x => exact (quiet_iunlockput ip).bind (fun _ => ih x.1)

theorem quiet_namex (p : ℕ) (parent : Bool) (path : List UInt8) : Quiet (namex p parent path) := by
  refine Quiet.bind (.ite ((quiet_iget _).bind (fun _ => .pure _)) ?_) (fun ip => quiet_namexLoop parent ip _)
  exact .get (fun s => (Quiet.modify _).bind (fun _ => .pure _))

theorem quiet_unlinkEntry (dp ip k : ℕ) (x : Dinode) : Quiet (unlinkEntry dp ip k x) := by
  refine (Quiet.modify _).bind (fun _ => Quiet.bind (.ite (.modify _) (.pure _)) (fun _ => ?_))
  exact (quiet_iunlockput dp).bind (fun _ => (Quiet.modify _).bind (fun _ => quiet_iunlockput ip))

theorem sysUnlink_quiet (hc : Consistent n d (uses pr)) (hn : n ≤ 65536) {q : Proc} {c : ℕ}
    (ha : Alive pr p q c) (path : List UInt8) :
    Triple (fun e => e ≠ .unlinkNlink) (Idle d pr (uses pr)) (sysUnlink p path) (fun _ _ => True) := by
  have hs := hc.sane hn
  have hE : Benign (fun _ => True) := fun _ _ => trivial
  have hfail (i : ℕ) : Quiet (do iunlockput i; return false) := (quiet_iunlockput i).bind (fun _ => .pure _)
  unfold sysUnlink
  cases argstr path with
  | none => exact .pure (fun _ _ => trivial)
  | some str =>
    have hp : 0 < uses pr (cwdOf pr p) := by
      rw [ha.cwdOf]
      exact ha.uses_pos
    refine .bind_and ((namex_spec hE hs.anchored (Or.inl trivial) (hs.grounded hp) true str
      (by simp)).exceptions (quiet_namex p true str)) (fun r hr => ?_)
    cases r with
    | none => exact .pure (fun _ _ => trivial)
    | some x =>
      obtain ⟨dp, name⟩ := x
      have hdir : (d dp).type = .dir := walk_parent_dir hr.symm
      refine .bind ((ilock_spec hE dp (by simp [heldBy]) (Or.inl trivial)).exceptions
        (quiet_ilock dp)) (fun _ => ?_)
      apply Triple.ite
      · exact fun _ => (hfail dp).pre (fun _ _ => trivial)
      intro hproper
      rw [not_or] at hproper
      refine .bind_and (((dirlookup_spec hE dp name hdir).pre (fun s hs => hs.2)).exceptions
        (quiet_dirlookup dp name)) (fun r hl => ?_)
      cases r with
      | none => exact (hfail dp).pre (fun _ _ => trivial)
      | some y =>
        obtain ⟨ip, k⟩ := y
        refine .bind_and (((ilock_spec hE ip (by simp) (Or.inl trivial)).pre
          (fun s hs => hs.1)).exceptions (quiet_ilock ip)) (fun _ _ => ?_)
        apply dinode_spec
        apply Triple.ite
        · intro hlt
          have hlive := hc.tree.look_live hdir hproper hl.symm
          have hpos := hc.tree.names_pos hlive
          have hcov := hc.tree.covered ip
          dsimp only at hpos
          unfold links at hcov
          omega
        · intro _
          refine .pre (P := fun _ => True) (Triple.ite ?_ ?_) (fun _ _ => trivial)
          · exact fun _ => (quiet_iunlockput ip).bind (fun _ => hfail dp)
          · exact fun _ => (quiet_unlinkEntry dp ip k (d ip)).bind (fun _ => .pure _)

/-- Over any number of link and unlink calls that find room for a new link, the link count of a file
is the number of its entries; a call without room spoils that. -/
theorem link_counts_match_entries (hn : n ≤ 65536) (hs : Sound n s) (hc : Counted n s.inodes)
    (h : Reach (step N) (fun s e => isLinkCall e.call = true ∧ RoomForLink s e) s t) :
    FilesCounted n t.inodes ∧
    (∀ p path, alive t.procs p = true → syscall N ⟨p, .unlink path⟩ t ≠ .error .unlinkNlink) ∧
    (∀ i, 0 < names n t.inodes i → (t.inodes i).type ≠ .free) ∧
    ∀ e u, isLinkCall e.call = true → step N t e = some u → (FilesCounted n u.inodes ↔ RoomForLink t e) := by
  obtain ⟨ht, hct⟩ := h.invariant (I := fun s => Sound n s ∧ Counted n s.inodes) ⟨hs, hc⟩
    (fun s e u hi he hstep => hi.1.linkStep hi.2 hn he.1 he.2 hstep)
  refine ⟨hct.files ht.consistent.tree, fun p path hl hrun => ?_, fun i hi hf => ?_, fun e u he hstep =>
    ht.filesCounted_iff hct hn he hstep⟩
  · obtain ⟨q, c, ha⟩ := alive_of_true hl
    exact (sysUnlink_quiet ht.consistent hn ha path).run_error ht.idle hrun rfl
  have hcov := ht.consistent.tree.covered i
  rw [ht.consistent.tree.free i hf] at hcov
  unfold links at hcov
  omega

def farmName (k : ℕ) : Name := [97+UInt8.ofNat (k%26), 97+UInt8.ofNat (k/26%26), 97+UInt8.ofNat (k/26^2%26),
    97+UInt8.ofNat (k/26^3%26)]

def farmDir (i m : ℕ) : Dinode :=
  ⟨.dir, 0, 0, 1, ⟨i, dot⟩ :: ⟨rootIno, dotdot⟩ :: (List.range m).map (fun k => ⟨2, farmName k⟩)⟩

def linkFarm (i : ℕ) : Dinode :=
  if i = 1 then ⟨.dir, 0, 0, 3, [⟨1, dot⟩, ⟨1, dotdot⟩, ⟨2, [102]⟩, ⟨3, [97]⟩, ⟨4, [98]⟩]⟩
  else if i = 2 then ⟨.file, 0, 0, 32767, []⟩
  else if i = 3 ∨ i = 4 then farmDir i 16383
  else ⟨.free, 0, 0, 0, []⟩

theorem farmDir_live (i m : ℕ) :
    (farmDir i m).live = ((List.range m).map (fun k => (⟨2, farmName k⟩ : Dirent)) : Multiset Dirent) := by
  rw [live_dots rfl, filter_eq_self.mpr]
  intro e he
  obtain ⟨k, -, rfl⟩ := mem_map.mp he
  rfl

theorem farmDir_count (i m j : ℕ) : (farmDir i m).live.countP (fun e => e.inum = j) = if j = 2 then m else 0 := by
  rw [farmDir_live, Multiset.coe_countP, countP_map]
  by_cases hj : j = 2
  · rw [if_pos hj, countP_eq_length.mpr (fun k _ => by simp [hj]), length_range]
  · rw [if_neg hj, countP_eq_zero.mpr (fun k _ => by simpa using Ne.symm hj)]

theorem linkFarm_farm {v : ℕ} (h : v = 3 ∨ v = 4) : linkFarm v = farmDir v 16383 := by rcases h with rfl | rfl <;> rfl

theorem linkFarm_free {v : ℕ} (h : v ≠ 1 ∧ v ≠ 2 ∧ v ≠ 3 ∧ v ≠ 4) : linkFarm v = ⟨.free, 0, 0, 0, []⟩ := by
  rw [linkFarm, if_neg h.1, if_neg h.2.1, if_neg (not_or.mpr h.2.2)]

theorem linkFarm_root_live : (linkFarm 1).live = {⟨2, [102]⟩, ⟨3, [97]⟩, ⟨4, [98]⟩} := rfl

theorem linkFarm_names (i : ℕ) : names 10 linkFarm i =
    (if i = 2 ∨ i = 3 ∨ i = 4 then 1 else 0)+if i = 2 then 32766 else 0 := by
  have hroot : (linkFarm 1).live.countP (fun e => e.inum = i) =
      if i = 2 ∨ i = 3 ∨ i = 4 then 1 else 0 := by
    rw [linkFarm_root_live]
    simp only [Multiset.insert_eq_cons, Multiset.countP_cons, ← Multiset.cons_zero, Multiset.countP_zero]
    split_ifs <;> omega
  have hfree {v : ℕ} (h : v ≠ 1 ∧ v ≠ 2 ∧ v ≠ 3 ∧ v ≠ 4) : (linkFarm v).live.countP (fun e => e.inum = i) = 0 := by
    rw [linkFarm_free h]
    rfl
  have hfile : (linkFarm 2).live.countP (fun e => e.inum = i) = 0 := rfl
  unfold names indegree
  simp only [Finset.sum_range_succ, Finset.sum_range_zero]
  rw [hroot, hfile, linkFarm_farm (Or.inl rfl), linkFarm_farm (Or.inr rfl), farmDir_count, farmDir_count,
    hfree (by decide), hfree (by decide), hfree (by decide), hfree (by decide), hfree (by decide),
    hfree (by decide)]
  split_ifs <;> rfl

theorem linkFarm_subdirs (i : ℕ) : subdirs linkFarm i = if i = 1 then 2 else 0 := by
  by_cases h1 : i = 1
  · subst h1
    rfl
  rw [if_neg h1, subdirs, Multiset.countP_eq_zero]
  intro e he
  by_cases h3 : i = 3 ∨ i = 4
  · rw [linkFarm_farm h3, farmDir_live] at he
    obtain ⟨k, -, rfl⟩ := mem_map.mp (Multiset.mem_coe.mp he)
    change ¬IType.file = .dir
    decide
  by_cases h2 : i = 2
  · subst h2
    exact absurd he (Multiset.notMem_zero e)
  · rw [linkFarm_free ⟨h1, h2, not_or.mp h3⟩] at he
    exact absurd he (Multiset.notMem_zero e)

theorem linkFarm_exact (i : ℕ) : (links 10 linkFarm i : ℤ) = (linkFarm i).nlink := by
  rw [links, linkFarm_names, linkFarm_subdirs]
  unfold linkFarm farmDir rootIno
  by_cases h1 : i = 1
  · subst h1
    rfl
  by_cases h2 : i = 2
  · subst h2
    rfl
  by_cases h3 : i = 3 ∨ i = 4
  · rcases h3 with rfl | rfl <;> rfl
  · simp only [h1, h2, h3, if_false, or_false]
    rfl

theorem linkFarm_mem {i : ℕ} {e : Dirent} (h : e ∈ (linkFarm i).live) :
    (i = 1 ∧ (e = ⟨2, [102]⟩ ∨ e = ⟨3, [97]⟩ ∨ e = ⟨4, [98]⟩)) ∨ ∃ k, e = ⟨2, farmName k⟩ := by
  by_cases h1 : i = 1
  · subst h1
    rw [linkFarm_root_live] at h
    exact Or.inl ⟨rfl, by simpa using h⟩
  by_cases h3 : i = 3 ∨ i = 4
  · rw [linkFarm_farm h3, farmDir_live] at h
    obtain ⟨k, -, rfl⟩ := mem_map.mp (Multiset.mem_coe.mp h)
    exact Or.inr ⟨k, rfl⟩
  by_cases h2 : i = 2
  · subst h2
    exact absurd h (Multiset.notMem_zero e)
  · rw [linkFarm_free ⟨h1, h2, not_or.mp h3⟩] at h
    exact absurd h (Multiset.notMem_zero e)

theorem linkFarm_image : Image 10 linkFarm := by
  have hcases (i : ℕ) : i = 1 ∨ i = 2 ∨ i = 3 ∨ i = 4 ∨ linkFarm i = ⟨.free, 0, 0, 0, []⟩ := by
    by_cases h : i ≠ 1 ∧ i ≠ 2 ∧ i ≠ 3 ∧ i ≠ 4
    · exact Or.inr (Or.inr (Or.inr (Or.inr (linkFarm_free h))))
    · omega
  refine ⟨by decide, ⟨rfl, rfl, fun i hi => ?_, fun i hi => ?_, fun i hi => ?_, fun i hi => ?_,
    fun i e he => ?_, fun i e he hd => ?_, fun i => (linkFarm_exact i).le, fun i => ?_⟩, fun i hi => ?_⟩
  · obtain rfl | rfl | rfl | rfl | h := hcases i
    · decide
    · decide
    · decide
    · decide
    · rw [h] at hi
      exact absurd rfl hi
  · obtain rfl | rfl | rfl | rfl | h := hcases i
    · cases hi
    · cases hi
    · cases hi
    · cases hi
    · rw [h]
  · obtain rfl | rfl | rfl | rfl | h := hcases i
    · exact absurd rfl hi
    · rfl
    · exact absurd rfl hi
    · exact absurd rfl hi
    · rw [h]
  · obtain rfl | rfl | rfl | rfl | h := hcases i
    · exact ⟨1, _, by decide, rfl⟩
    · cases hi
    · exact ⟨1, _, by decide, rfl⟩
    · exact ⟨1, _, by decide, rfl⟩
    · rw [h] at hi
      cases hi
  · rcases linkFarm_mem he with ⟨-, rfl | rfl | rfl⟩ | ⟨k, rfl⟩
    · decide
    · decide
    · decide
    · constructor <;> simp [farmName, dot, dotdot]
  · rcases linkFarm_mem he with ⟨rfl, rfl | rfl | rfl⟩ | ⟨k, rfl⟩
    · cases hd
    · exact ⟨rfl, by decide⟩
    · exact ⟨rfl, by decide⟩
    · cases hd
  · obtain rfl | rfl | rfl | rfl | h := hcases i
    · decide
    · decide
    · decide
    · decide
    · rw [h]
      decide
  obtain rfl | rfl | rfl | rfl | h := hcases i
  · decide
  · decide
  · decide
  · decide
  · rw [h] at hi
    exact absurd rfl hi

theorem linkFarm_counted : Counted 10 linkFarm := by
  refine ⟨linkFarm_exact, fun i hd _ hroot => ?_⟩
  by_cases h : i = 2 ∨ i = 3 ∨ i = 4
  · rw [linkFarm_names, if_pos h]
    omega
  · rw [not_or, not_or] at h
    rw [linkFarm_free ⟨hroot, h⟩] at hd
    cases hd

/-- Taking the name f away leaves 32766 names and the count 32766. -/
theorem unlink_counts_match : ∃ t, step 10 (boot linkFarm 1) ⟨0, .unlink [102]⟩ = some t ∧
    (t.inodes 2).nlink = 32766 ∧ FilesCounted 10 t.inodes := by
  have hrun : ∃ t, step 10 (boot linkFarm 1) ⟨0, .unlink [102]⟩ = some t ∧ (t.inodes 2).nlink = 32766 := ⟨_, rfl, rfl⟩
  obtain ⟨t, hstep, hnlink⟩ := hrun
  exact ⟨t, hstep, hnlink, (link_counts_match_entries (by decide) (linkFarm_image.sound 1)
    linkFarm_counted (.next .start ⟨rfl, roomForLink_of_unlink rfl⟩ hstep)).1⟩

/-- One more name for the file with 32767 names: its count wraps, and unlink panics on the new
name. -/
theorem link_wraps_count : Sound 10 (boot linkFarm 1) ∧ Counted 10 linkFarm ∧
    ∃ t, step 10 (boot linkFarm 1) ⟨0, .link [102] [103]⟩ = some t ∧
      (t.inodes 2).nlink = -32768 ∧ names 10 t.inodes 2 = 32768 ∧
      syscall 10 ⟨0, .unlink [103]⟩ t = .error .unlinkNlink := by
  have hsound := linkFarm_image.sound 1
  refine ⟨hsound, linkFarm_counted, ?_⟩
  have hrun : ∃ t, step 10 (boot linkFarm 1) ⟨0, .link [102] [103]⟩ = some t ∧
      (t.inodes 2).nlink = -32768 ∧ syscall 10 ⟨0, .unlink [103]⟩ t = .error .unlinkNlink :=
    ⟨_, rfl, rfl, rfl⟩
  obtain ⟨t, hstep, hnlink, hpanic⟩ := hrun
  refine ⟨t, hstep, hnlink, ?_, hpanic⟩
  have hfile : (linkFarm 2).nlink = 32767 := rfl
  obtain ⟨-, -, ⟨-, heq⟩ | ⟨old, new, ostr, nstr, dp, name, ip, -, -, -, hl, heq⟩ |
    ⟨path, str, dp, name, ip, k, hcall, -⟩⟩ := hsound.linkStep_cases (by decide) rfl hstep
  · rw [heq] at hnlink
    exact absurd (hfile.symm.trans hnlink) (by decide)
  · rw [heq, linked_nlink] at hnlink
    by_cases hip : 2 = ip
    · rw [heq, hl.names_eq linkFarm_image.tree, if_pos hip.symm]
      change names 10 linkFarm 2+1 = 32768
      rw [linkFarm_names]
      rfl
    · rw [if_neg hip] at hnlink
      exact absurd (hfile.symm.trans hnlink) (by decide)
  · cases hcall

end Xv6.Dir
