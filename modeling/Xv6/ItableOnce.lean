import Xv6.ItableInv

/-! Every inode is in the table once, and iput frees it once. -/
namespace Xv6.Itable
open Store (Dinode)
open Function Runs

variable {disk : Key → Dinode} {s t u : Sys} {k : Slot} {p : ℕ}

theorem advance_inv (h : Inv disk s) (hstep : advance s k = some t) : Inv disk t := by
  have hlock {q : ℕ} {stage : Stage} (hl : (s.tab k).lock = .freeing q stage) :
      0 < (s.tab k).ref := h.pos (by rw [hl]; exact nofun)
  have hag {q : ℕ} {stage : Stage} (hl : (s.tab k).lock = .freeing q stage) :
      Agrees { s.tab k with lock := .freeing q stage } (s.disk (s.tab k).key) := by
    have hold := h.agrees k (hlock hl)
    rwa [← hl]
  unfold advance at hstep
  split at hstep
  · rename_i q hl
    cases hstep
    obtain ⟨hv, hdin, hne⟩ := hag hl
    have htype : (s.tab k).din.type = (s.disk (s.tab k).key).type := congrArg Dinode.type hdin
    refine h.set (hlock hl) rfl rfl (by rw [hl]; rfl) (Nat.zero_le _) ?_
    exact ⟨hv, htype, hne⟩
  · rename_i q hl
    cases hstep
    obtain ⟨hv, htype, hne⟩ := hag hl
    refine h.writeBack (hlock hl) rfl rfl (by rw [hl]; rfl) (Nat.zero_le _) htype ?_
    exact ⟨hv, rfl, by rw [htype]; exact hne⟩
  · rename_i q hl
    cases hstep
    obtain ⟨hv, -, hne⟩ := hag hl
    refine h.set (hlock hl) rfl rfl (by rw [hl]; rfl) (Nat.zero_le _) ?_
    exact ⟨hv, rfl, hne⟩
  · rename_i q hl
    cases hstep
    obtain ⟨hv, htype, hne⟩ := hag hl
    have hr := h.ref k
    rw [hl] at hr
    apply h.move ((Moves.writeBack s k { s.tab k with lock := .freeing q .released } rfl).setFrees
      (s.frees (s.tab k).key+1)) (hlock hl)
    · simp only [Sys.set_tab, Sys.set_refs, Sys.writeBack_refs, Sys.set_finishing, Sys.writeBack_finishing]
      exact hr
    · simp only [Sys.set_tab]
      exact Nat.zero_le _
    · simp only [Sys.set_tab]
      exact fun _ => hv
    · have hzero : alive (s.tab k).din = 0 := if_pos htype
      simp only [Sys.set_disk, Sys.writeBack_disk, update_self, hzero, alive_of_ne hne]
  · rename_i q hl
    cases hstep
    have hr := h.ref k
    rw [hl] at hr
    apply h.move ((Moves.set s k { s.tab k with valid := false, lock := .free } rfl).setFinishing
      (s.finishing k+1)) (hlock hl)
    · simp only [Sys.set_tab, Sys.set_refs, update_self]
      change (s.tab k).ref = s.refs k+(s.finishing k+1)+0
      change (s.tab k).ref = s.refs k+s.finishing k+1 at hr
      omega
    · simp only [Sys.set_tab]
      exact Nat.zero_le _
    · simp only [Sys.set_tab]
      exact fun _ hv => absurd hv Bool.false_ne_true
    · rfl
  · cases hstep

variable {e : Event}

theorem step_inv (h : Inv disk s) (hc : writesBack s e = true) (hstep : step s e = some t) : Inv disk t := by
  cases e with
  | ialloc => exact ialloc_inv h hstep
  | iget => exact iget_inv h hstep
  | idup => exact idup_inv h hstep
  | ilock => exact ilock_inv h hstep
  | load => exact load_inv h hstep
  | setFields => exact setFields_inv h hstep
  | iupdate => exact iupdate_inv h hstep
  | iunlock => exact iunlock_inv h (of_decide_eq_true hc) hstep
  | iput => exact iput_inv h hstep
  | advance => exact advance_inv h hstep
  | finish => exact finish_inv h hstep

theorem reach_inv (h : Reach step (fun s e => writesBack s e = true) (init disk) t) : Inv disk t :=
  h.invariant (Inv.init disk) (fun _ _ _ hinv hc hstep => step_inv hinv hc hstep)

def Stage.next : Stage → Option Stage
  | .trunc => some .truncated
  | .truncated => some .emptied
  | .emptied => some .typed
  | .typed => some .released
  | .released => none

/-- If entry `k` has lock `l` after the event and that is iput freeing the inode, then iput was
there before, or it has come there by its test or by its previous statement. -/
def Comes (s : Sys) (e : Event) (k : Slot) (l : Lock) : Prop := ∀ p stage, l = .freeing p stage → (s.tab k).lock = l ∨
    (e = .iput p k ∧ stage = .trunc ∧ (s.tab k).last) ∨
    (e = .advance k ∧ ∃ prev, prev.next = some stage ∧ (s.tab k).lock = .freeing p prev)

theorem Comes.same (s : Sys) (e : Event) (k : Slot) : Comes s e k (s.tab k).lock := fun _ _ _ => Or.inl rfl

theorem Comes.next {prev stage : Stage} (hl : (s.tab k).lock = .freeing p prev)
    (h : prev.next = some stage) : Comes s (.advance k) k (.freeing p stage) := by
  intro q st heq
  cases heq
  exact Or.inr (Or.inr ⟨rfl, prev, h, hl⟩)

inductive Frame (s : Sys) : Event → Sys → Prop
  | set {t : Sys} (e : Event) (k : Slot) (x : Entry) (htab : t.tab = update s.tab k x)
      (hx : x.key = (s.tab k).key) (hdisk : t.disk = s.disk) (hl : Comes s e k x.lock) : Frame s e t
  | writeBack {t : Sys} (e : Event) (k : Slot) (x : Entry)
      (htab : t.tab = update s.tab k x) (hx : x.key = (s.tab k).key)
      (hdisk : t.disk = (s.writeBack k).disk) (hl : Comes s e k x.lock)
      (hold : (∃ p dirty, (s.tab k).lock = .held p dirty) ∨ (∃ p, (s.tab k).lock = .freeing p .truncated) ∨
        (e = .advance k ∧ ∃ p, (s.tab k).lock = .freeing p .typed)) : Frame s e t
  | recycle {t : Sys} (key : Key) (k : Slot) (x : Entry) (h0 : (s.tab k).ref = 0)
      (htab : t.tab = update s.tab k x) (hdisk : t.disk = s.disk)
      (hl : x.lock = (s.tab k).lock) : Frame s (.iget key) t
  | alloc {t : Sys} (key : Key) (type : Int16) (ht : type ≠ 0) (htab : t.tab = s.tab)
      (hdisk : t.disk = update s.disk key (Store.dinodeZero type)) :
      Frame s (.ialloc key type) t

theorem iget_frame {key : Key} (hstep : iget s key = some t) : Frame s (.iget key) t := by
  unfold iget at hstep
  split at hstep
  · rename_i k hf
    cases hstep
    exact .set _ k _ rfl rfl rfl (.same s _ k)
  split at hstep
  · rename_i k he
    cases hstep
    have h0 := List.find?_some he
    exact .recycle _ k _ (of_decide_eq_true h0) rfl rfl rfl
  · cases hstep

theorem iput_frame (hstep : iput s p k = some t) : Frame s (.iput p k) t := by
  unfold iput at hstep
  split_ifs at hstep with hrefs hlast hfree
  · cases hstep
    refine .set _ k _ rfl rfl rfl (fun q st heq => ?_)
    cases heq
    exact Or.inr (Or.inl ⟨rfl, rfl, hlast⟩)
  · cases hstep
    exact .set _ k _ rfl rfl rfl (.same s _ k)

theorem advance_frame (hstep : advance s k = some t) : Frame s (.advance k) t := by
  unfold advance at hstep
  split at hstep
  · rename_i q hl
    cases hstep
    exact .set _ k _ rfl rfl rfl (.next hl rfl)
  · rename_i q hl
    cases hstep
    exact .writeBack _ k _ rfl rfl rfl (.next hl rfl) (Or.inr (Or.inl ⟨q, hl⟩))
  · rename_i q hl
    cases hstep
    exact .set _ k _ rfl rfl rfl (.next hl rfl)
  · rename_i q hl
    cases hstep
    exact .writeBack _ k _ rfl rfl rfl (.next hl rfl) (Or.inr (Or.inr ⟨rfl, q, hl⟩))
  · cases hstep
    exact .set _ k _ rfl rfl rfl nofun
  · cases hstep

theorem step_frame (hstep : step s e = some t) : Frame s e t := by
  cases e with
  | ialloc key type =>
    simp only [step, ialloc] at hstep
    split_ifs at hstep with hc
    cases hstep
    exact .alloc key type hc.1 rfl rfl
  | iget => exact iget_frame hstep
  | idup k =>
    simp only [step, idup] at hstep
    split_ifs at hstep
    cases hstep
    exact .set _ k _ rfl rfl rfl (.same s _ k)
  | ilock p k =>
    simp only [step, ilock] at hstep
    split_ifs at hstep
    all_goals
      cases hstep
      exact .set _ k _ rfl rfl rfl nofun
  | load k =>
    simp only [step, load] at hstep
    split at hstep
    · split_ifs at hstep
      cases hstep
      exact .set _ k _ rfl rfl rfl nofun
    · cases hstep
  | setFields k =>
    simp only [step, setFields] at hstep
    split at hstep
    · cases hstep
      exact .set _ k _ rfl rfl rfl nofun
    · cases hstep
  | iupdate k =>
    simp only [step, iupdate] at hstep
    split at hstep
    · rename_i q dirty hl
      cases hstep
      exact .writeBack _ k _ rfl rfl rfl nofun (Or.inl ⟨q, dirty, hl⟩)
    · cases hstep
  | iunlock p k =>
    simp only [step, iunlock] at hstep
    split at hstep
    · split_ifs at hstep
      cases hstep
      exact .set _ k _ rfl rfl rfl nofun
    · cases hstep
  | iput => exact iput_frame hstep
  | advance => exact advance_frame hstep
  | finish k =>
    simp only [step, finish] at hstep
    split_ifs at hstep
    cases hstep
    exact .set _ k _ rfl rfl rfl (.same s _ k)

theorem key_update {x : Entry} (hx : x.key = (s.tab k).key) (j : Slot) : (update s.tab k x j).key = (s.tab j).key := by
  by_cases hj : j = k
  · rw [hj, update_self, hx]
  · rw [update_of_ne hj]

theorem Frame.recycled (h : Frame s e t) {j : Slot} (hne : (t.tab j).key ≠ (s.tab j).key) : (s.tab j).ref = 0 := by
  cases h with
  | set _ k x htab hx =>
    rw [htab] at hne
    exact absurd (key_update hx j) hne
  | writeBack _ k x htab hx =>
    rw [htab] at hne
    exact absurd (key_update hx j) hne
  | recycle key k x h0 htab =>
    by_cases hj : j = k
    · rw [hj, h0]
    · rw [htab, update_of_ne hj] at hne
      exact absurd rfl hne
  | alloc key type _ htab =>
    rw [htab] at hne
    exact absurd rfl hne

theorem Frame.cleared (h : Inv disk s) (hf : Frame s e t) {key : Key}
    (hne : (s.disk key).type ≠ 0) (h0 : (t.disk key).type = 0) :
    ∃ k p, e = .advance k ∧ (s.tab k).key = key ∧ (s.tab k).lock = .freeing p .typed := by
  cases hf with
  | set _ k x _ hx hdisk =>
    rw [hdisk] at h0
    exact absurd h0 hne
  | recycle _ k x _ _ hdisk =>
    rw [hdisk] at h0
    exact absurd h0 hne
  | alloc key' type ht _ hdisk =>
    rw [hdisk] at h0
    by_cases hk : key = key'
    · rw [hk, update_self] at h0
      exact absurd h0 ht
    · rw [update_of_ne hk] at h0
      exact absurd h0 hne
  | writeBack _ k x _ hx hdisk _ hold =>
    rw [hdisk] at h0
    by_cases hk : key = (s.tab k).key
    · rw [hk, Sys.writeBack_disk] at h0
      rw [hk] at hne
      rcases hold with ⟨p, dirty, hl⟩ | ⟨p, hl⟩ | ⟨he, p, hl⟩
      · exact absurd ((h.held hl).2.2.2.1.symm.trans h0) hne
      · have hag := h.agrees k (h.pos (by rw [hl]; exact nofun))
        unfold Agrees at hag
        rw [hl] at hag
        exact absurd (hag.2.1.symm.trans h0) hne
      · exact ⟨k, p, he, hk.symm, hl⟩
    · have hsame : (s.writeBack k).disk key = s.disk key := update_of_ne hk ..
      rw [hsame] at h0
      exact absurd h0 hne

theorem Frame.comes (h : Frame s e t) (k : Slot) : Comes s e k (t.tab k).lock := by
  have hset {j : Slot} {x : Entry} (htab : t.tab = update s.tab j x)
      (hl : Comes s e j x.lock) : Comes s e k (t.tab k).lock := by
    rw [htab]
    by_cases hk : k = j
    · subst hk
      rwa [update_self]
    · rw [update_of_ne hk]
      exact .same s e k
  cases h with
  | set _ j x htab _ _ hl => exact hset htab hl
  | writeBack _ j x htab _ _ hl => exact hset htab hl
  | recycle key j x _ htab _ hl =>
    apply hset htab
    rw [hl]
    exact .same s _ j
  | alloc key type _ htab =>
    rw [htab]
    exact .same s _ k

/-- iput of a reference that nobody needs does not block; it begins to free the inode if its test
says so, and otherwise drops the reference. -/
theorem iput_run (h : Inv disk s) (hrefs : (s.tab k).lock.users < s.refs k) (p : ℕ) : ∃ t, step s (.iput p k) = some t ∧
      ((s.tab k).last → t.tab k = { s.tab k with lock := .freeing p .trunc }) ∧
      (¬ (s.tab k).last → t.tab k = { s.tab k with ref := (s.tab k).ref-1 } ∧ t.disk = s.disk) := by
  have hr := h.ref k
  simp only [step, iput]
  rw [if_neg (not_le.mpr hrefs)]
  by_cases hlast : (s.tab k).last
  · have hfree : (s.tab k).lock = .free := by
      by_contra hl
      have hb := Lock.busy hl
      have h1 := hlast.1
      omega
    rw [if_pos hlast, if_pos hfree]
    exact ⟨_, rfl, fun _ => Sys.set_tab .., fun hno => absurd hlast hno⟩
  · rw [if_neg hlast]
    exact ⟨_, rfl, fun hyes => absurd hyes hlast, fun _ => ⟨Sys.set_tab .., rfl⟩⟩

/-- Left alone, iput empties the inode, clears its type on disk and drops its reference. -/
theorem free_run (hl : (s.tab k).lock = .freeing p .trunc) :
    ∃ t, run step s (List.replicate 5 (.advance k) ++ [.finish k]) = some t ∧
      t.disk (s.tab k).key = { (s.tab k).din.empty with type := 0 } ∧
      (t.tab k).ref = (s.tab k).ref-1 ∧ (t.tab k).lock = .free := by
  simp [run, List.replicate, step, advance, finish, hl, Sys.set, Sys.writeBack]

theorem advance_enabled {stage : Stage} (hl : (s.tab k).lock = .freeing p stage) :
    (step s (.advance k)).isSome = true := by
  simp only [step, advance, hl]
  cases stage <;> rfl

/-- The inode table under callers that write changed fields back before they unlock: an inode has at
most one entry, and iput frees it exactly if the reference is the last one and the copy is valid and
has no links. -/
theorem inode_table_caches_once (h : Reach step (fun s e => writesBack s e = true) (init disk) t) :
    (∀ j k, 0 < (t.tab j).ref → 0 < (t.tab k).ref → (t.tab j).key = (t.tab k).key → j = k) ∧
    (∀ e u k, step t e = some u → (u.tab k).key ≠ (t.tab k).key → (t.tab k).ref = 0) ∧
    (∀ k, (t.tab k).valid = true → 0 < (t.tab k).ref → (t.tab k).lock = .free → (t.tab k).din = t.disk (t.tab k).key) ∧
    (∀ p k, (t.tab k).lock.users < t.refs k → ∃ u, step t (.iput p k) = some u ∧
      ((t.tab k).last → u.tab k = { t.tab k with lock := .freeing p .trunc }) ∧
      (¬ (t.tab k).last → u.tab k = { t.tab k with ref := (t.tab k).ref-1 } ∧ u.disk = t.disk)) ∧
    (∀ e u k, step t e = some u → Comes t e k (u.tab k).lock) ∧
    (∀ p k stage, (t.tab k).lock = .freeing p stage → (step t (.advance k)).isSome = true) ∧
    (∀ p k, (t.tab k).lock = .freeing p .trunc →
      ∃ u, run step t (List.replicate 5 (.advance k) ++ [.finish k]) = some u ∧
        u.disk (t.tab k).key = { (t.tab k).din.empty with type := 0 } ∧
        (u.tab k).ref = (t.tab k).ref-1 ∧ (u.tab k).lock = .free) ∧
    (∀ e u key, step t e = some u → (t.disk key).type ≠ 0 → (u.disk key).type = 0 →
      ∃ k p, e = .advance k ∧ (t.tab k).key = key ∧ (t.tab k).lock = .freeing p .typed) ∧
    ∀ key, t.frees key+alive (t.disk key) = t.allocs key+alive (disk key) := by
  have hinv := reach_inv h
  refine ⟨hinv.once, fun e u k hstep hne => (step_frame hstep).recycled hne,
    fun k hv hpos hfree => ?_, fun p k hrefs => iput_run hinv hrefs p,
    fun e u k hstep => (step_frame hstep).comes k, fun p k stage hl => advance_enabled hl,
    fun p k hl => free_run hl, fun e u key hstep hne h0 => (step_frame hstep).cleared hinv hne h0,
    hinv.count⟩
  have hag := hinv.agrees k hpos
  unfold Agrees at hag
  rw [hfree] at hag
  exact (hag hv).1

def newFile : List Event := [.ialloc (1, 1) Store.tFile, .iget (1, 1)]

/-- Its entry is locked once and then put: iput frees the inode. -/
theorem inode_table_frees_new_file :
    ∃ t u, Reach step (fun s e => writesBack s e = true) (init (fun _ => Store.dinodeZero 0)) t ∧
      (t.tab 0).lock = .freeing 0 .trunc ∧
      run step t (List.replicate 5 (.advance 0) ++ [.finish 0]) = some u ∧
      (u.disk (t.tab 0).key).type = 0 := by
  have hsome : (run (fun s e => if writesBack s e = true then step s e else none) (init (fun _ => Store.dinodeZero 0))
      (newFile ++ [.ilock 0 0, .load 0, .iunlock 0 0, .iput 0 0])).any
        (fun t => decide ((t.tab 0).lock = .freeing 0 .trunc)) = true := by decide
  obtain ⟨t, ht, hl⟩ := (Option.any_eq_true _ _).mp hsome
  have hl := of_decide_eq_true hl
  obtain ⟨u, hu, hdisk, -⟩ := (inode_table_caches_once (Reach.of_run ht)).2.2.2.2.2.2.1 0 0 hl
  exact ⟨t, u, Reach.of_run ht, hl, hu, by rw [hdisk]⟩

/-- The same entry put without having been locked: the reference is the last one and the inode has
no links, in the table and on disk, but the inode stays allocated. -/
theorem unread_inode_not_released : ∃ t u, run step (init (fun _ => Store.dinodeZero 0)) newFile = some t ∧
      step t (.iput 0 0) = some u ∧ (t.tab 0).key = (1, 1) ∧ (t.tab 0).ref = 1 ∧
      (t.tab 0).din.nlink = 0 ∧ (t.disk (1, 1)).nlink = 0 ∧
      (u.tab 0).ref = 0 ∧ (u.tab 0).lock = .free ∧ u.finishing 0 = 0 ∧ (u.disk (1, 1)).type ≠ 0 := by
  have hsome : (run step (init (fun _ => Store.dinodeZero 0)) newFile).any (fun t =>
      (step t (.iput 0 0)).any (fun u => decide ((t.tab 0).key = (1, 1) ∧ (t.tab 0).ref = 1 ∧
        (t.tab 0).din.nlink = 0 ∧ (t.disk (1, 1)).nlink = 0 ∧ (u.tab 0).ref = 0 ∧
        (u.tab 0).lock = .free ∧ u.finishing 0 = 0 ∧ (u.disk (1, 1)).type ≠ 0))) = true := by
    decide
  obtain ⟨t, ht, hput⟩ := (Option.any_eq_true _ _).mp hsome
  obtain ⟨u, hu, hall⟩ := (Option.any_eq_true _ _).mp hput
  exact ⟨t, u, ht, hu, of_decide_eq_true hall⟩

end Xv6.Itable
