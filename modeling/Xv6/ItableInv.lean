import Xv6.ItableModel

/-! The invariant of the inode table. A step changes one entry and at most the inode on disk that
the entry is a copy of, except where iget takes a new entry and ialloc a free inode. -/
namespace Xv6.Itable

open Function
open Store (Dinode)

def Lock.puts : Lock → ℕ
  | .freeing _ _ => 1
  | _ => 0

def Agrees (e : Entry) (d : Dinode) : Prop :=
  match e.lock with
  | .free => e.valid = true → e.din = d ∧ d.type ≠ 0
  | .loading _ => e.valid = false
  | .held _ dirty => e.valid = true ∧ e.din.type = d.type ∧ d.type ≠ 0 ∧ (dirty = false → e.din = d)
  | .freeing _ .trunc => e.valid = true ∧ e.din = d ∧ d.type ≠ 0
  | .freeing _ .truncated => e.valid = true ∧ e.din.type = d.type ∧ d.type ≠ 0
  | .freeing _ .emptied => e.valid = true ∧ e.din = d ∧ d.type ≠ 0
  | .freeing _ .typed => e.valid = true ∧ e.din.type = 0 ∧ d.type ≠ 0
  | .freeing _ .released => e.valid = true

def alive (d : Dinode) : ℕ := if d.type = 0 then 0 else 1

structure Inv (disk : Key → Dinode) (s : Sys) : Prop where
  ref : ∀ k, (s.tab k).ref = s.refs k+s.finishing k+(s.tab k).lock.puts
  users : ∀ k, (s.tab k).lock.users ≤ s.refs k
  once : ∀ j k, 0 < (s.tab j).ref → 0 < (s.tab k).ref → (s.tab j).key = (s.tab k).key → j = k
  agrees : ∀ k, 0 < (s.tab k).ref → Agrees (s.tab k) (s.disk (s.tab k).key)
  count : ∀ key, s.frees key+alive (s.disk key) = s.allocs key+alive (disk key)

structure Moves (s t : Sys) (k : Slot) : Prop where
  key : (t.tab k).key = (s.tab k).key
  tab : ∀ j, j ≠ k → t.tab j = s.tab j
  refs : ∀ j, j ≠ k → t.refs j = s.refs j
  finishing : ∀ j, j ≠ k → t.finishing j = s.finishing j
  disk : ∀ key, key ≠ (s.tab k).key → t.disk key = s.disk key ∧ t.frees key = s.frees key
  allocs : t.allocs = s.allocs

variable {disk : Key → Dinode} {s t : Sys} {k : Slot} {p : ℕ}

theorem Inv.init (disk : Key → Dinode) : Inv disk (init disk) :=
  ⟨fun _ => rfl, fun _ => le_rfl, fun _ _ h => absurd h (Nat.lt_irrefl 0),
    fun _ h => absurd h (Nat.lt_irrefl 0), fun _ => rfl⟩

theorem Lock.busy {l : Lock} (h : l ≠ .free) : 0 < l.users+l.puts := by
  cases l with
  | free => exact absurd rfl h
  | loading | held | freeing => exact Nat.one_pos

theorem Inv.pos (h : Inv disk s) (hl : (s.tab k).lock ≠ .free) : 0 < (s.tab k).ref := by
  have hb := Lock.busy hl
  have hr := h.ref k
  have hu := h.users k
  omega

theorem Inv.unlocked (h : Inv disk s) (h0 : (s.tab k).ref = 0) : (s.tab k).lock = .free := by
  by_contra hl
  have := h.pos hl
  omega

theorem Inv.move (h : Inv disk s) (hm : Moves s t k) (hpos : 0 < (s.tab k).ref)
    (href : (t.tab k).ref = t.refs k+t.finishing k+(t.tab k).lock.puts)
    (husers : (t.tab k).lock.users ≤ t.refs k)
    (hagrees : 0 < (t.tab k).ref → Agrees (t.tab k) (t.disk (s.tab k).key))
    (hcount : t.frees (s.tab k).key+alive (t.disk (s.tab k).key) = s.frees (s.tab k).key+alive (s.disk (s.tab k).key)) :
    Inv disk t := by
  have hkey (j : Slot) : (t.tab j).key = (s.tab j).key := by
    by_cases hj : j = k
    · rw [hj, hm.key]
    · rw [hm.tab j hj]
  have hold {j : Slot} (hj : 0 < (t.tab j).ref) : 0 < (s.tab j).ref := by
    by_cases hjk : j = k
    · exact hjk ▸ hpos
    · rwa [hm.tab j hjk] at hj
  refine ⟨fun j => ?_, fun j => ?_, fun i j hi hj heq => ?_, fun j hj => ?_, fun key => ?_⟩
  · by_cases hjk : j = k
    · rw [hjk, href]
    · rw [hm.tab j hjk, hm.refs j hjk, hm.finishing j hjk, h.ref j]
  · by_cases hjk : j = k
    · rw [hjk]
      exact husers
    · rw [hm.tab j hjk, hm.refs j hjk]
      exact h.users j
  · rw [hkey i, hkey j] at heq
    exact h.once i j (hold hi) (hold hj) heq
  · by_cases hjk : j = k
    · subst hjk
      rw [hm.key]
      exact hagrees hj
    · have hne : (s.tab j).key ≠ (s.tab k).key := fun heq => hjk (h.once j k (hold hj) hpos heq)
      rw [hkey j, (hm.disk _ hne).1, hm.tab j hjk]
      exact h.agrees j (hold hj)
  · rw [hm.allocs, ← h.count key]
    by_cases hk : key = (s.tab k).key
    · rw [hk, hcount]
    · rw [(hm.disk key hk).1, (hm.disk key hk).2]

@[simp] theorem Sys.set_tab (s : Sys) (k : Slot) (e : Entry) : (s.set k e).tab k = e := update_self ..

@[simp] theorem Sys.set_refs (s : Sys) (k : Slot) (e : Entry) : (s.set k e).refs = s.refs := rfl

@[simp] theorem Sys.set_finishing (s : Sys) (k : Slot) (e : Entry) : (s.set k e).finishing = s.finishing := rfl

@[simp] theorem Sys.set_disk (s : Sys) (k : Slot) (e : Entry) : (s.set k e).disk = s.disk := rfl

@[simp] theorem Sys.writeBack_refs (s : Sys) (k : Slot) : (s.writeBack k).refs = s.refs := rfl

@[simp] theorem Sys.writeBack_finishing (s : Sys) (k : Slot) : (s.writeBack k).finishing = s.finishing := rfl

@[simp] theorem Sys.writeBack_disk (s : Sys) (k : Slot) :
    (s.writeBack k).disk (s.tab k).key = (s.tab k).din := update_self ..

theorem Moves.set (s : Sys) (k : Slot) (e : Entry) (he : e.key = (s.tab k).key) : Moves s (s.set k e) k :=
  ⟨by rw [Sys.set_tab, he], fun _ hj => update_of_ne hj .., fun _ _ => rfl, fun _ _ => rfl, fun _ _ => ⟨rfl, rfl⟩, rfl⟩

theorem Moves.writeBack (s : Sys) (k : Slot) (e : Entry) (he : e.key = (s.tab k).key) :
    Moves s ((s.writeBack k).set k e) k :=
  ⟨by rw [Sys.set_tab, he], fun _ hj => update_of_ne hj .., fun _ _ => rfl,
    fun _ _ => rfl, fun key hkey => ⟨update_of_ne hkey .., rfl⟩, rfl⟩

theorem Moves.setRefs (h : Moves s t k) (n : ℕ) : Moves s { t with refs := update s.refs k n } k :=
  ⟨h.key, h.tab, fun _ hj => update_of_ne hj .., h.finishing, h.disk, h.allocs⟩

theorem Moves.setFinishing (h : Moves s t k) (n : ℕ) : Moves s { t with finishing := update s.finishing k n } k :=
  ⟨h.key, h.tab, h.refs, fun _ hj => update_of_ne hj .., h.disk, h.allocs⟩

theorem Moves.setFrees (h : Moves s t k) (n : ℕ) : Moves s { t with frees := update s.frees (s.tab k).key n } k :=
  ⟨h.key, h.tab, h.refs, h.finishing, fun key hkey => ⟨(h.disk key hkey).1, update_of_ne hkey ..⟩, h.allocs⟩

theorem alive_of_ne {d : Dinode} (h : d.type ≠ 0) : alive d = 1 := if_neg h

variable {e : Entry} {key : Key}

theorem Agrees.of_free {d : Dinode} (h : Agrees e d) (hd : d.type = 0) (d' : Dinode) : Agrees e d' := by
  obtain ⟨key, ref, valid, din, lock⟩ := e
  cases lock with
  | free => exact fun hv => absurd hd (h hv).2
  | loading => exact h
  | held => exact absurd hd h.2.2.1
  | freeing _ stage =>
    cases stage with
    | released => exact h
    | trunc | truncated | emptied | typed => exact absurd hd h.2.2

theorem Inv.addRef (h : Inv disk s) (hpos : 0 < (s.tab k).ref) :
    Inv disk ((s.set k { s.tab k with ref := (s.tab k).ref+1 }).addRef k) := by
  have hr := h.ref k
  have hu := h.users k
  apply h.move ((Moves.set s k { s.tab k with ref := (s.tab k).ref+1 } rfl).setRefs (s.refs k+1)) hpos
  · simp only [Sys.set_tab, update_self, Sys.set_finishing]
    omega
  · simp only [Sys.set_tab, update_self]
    omega
  · simp only [Sys.set_tab]
    exact fun _ => h.agrees k hpos
  · rfl

theorem Inv.set (h : Inv disk s) (hpos : 0 < (s.tab k).ref)
    (hkey : e.key = (s.tab k).key) (href : e.ref = (s.tab k).ref)
    (hputs : e.lock.puts = (s.tab k).lock.puts) (husers : e.lock.users ≤ s.refs k)
    (hagrees : Agrees e (s.disk (s.tab k).key)) : Inv disk (s.set k e) := by
  apply h.move (Moves.set s k e hkey) hpos
  · simp only [Sys.set_tab, Sys.set_refs, Sys.set_finishing, href, hputs]
    exact h.ref k
  · simp only [Sys.set_tab, Sys.set_refs]
    exact husers
  · simp only [Sys.set_tab, Sys.set_disk]
    exact fun _ => hagrees
  · rfl

theorem find_some {s : Sys} (h : s.find key = some k) : 0 < (s.tab k).ref ∧ (s.tab k).key = key := by
  have hk := List.find?_some h
  exact of_decide_eq_true hk

theorem find_none {s : Sys} (h : s.find key = none) (k : Slot) (hpos : 0 < (s.tab k).ref) : (s.tab k).key ≠ key := by
  intro hk
  exact List.find?_eq_none.mp h k (List.mem_finRange k) (decide_eq_true ⟨hpos, hk⟩)

section
variable (h : Inv disk s)
include h

theorem iget_inv (hstep : iget s key = some t) : Inv disk t := by
  unfold iget at hstep
  cases hf : s.find key with
  | some =>
    rw [hf] at hstep
    cases hstep
    exact h.addRef (find_some hf).1
  | none =>
    rw [hf] at hstep
    cases he : s.empty with
    | none =>
      rw [he] at hstep
      cases hstep
    | some k =>
      rw [he] at hstep
      cases hstep
      have hempty := List.find?_some he
      have h0 : (s.tab k).ref = 0 := of_decide_eq_true hempty
      have hfree := h.unlocked h0
      have hr := h.ref k
      have htab {j : Slot} (hj : j ≠ k) : update s.tab k
          { s.tab k with key := key, ref := 1, valid := false } j = s.tab j :=
        update_of_ne hj ..
      refine ⟨fun j => ?_, fun j => ?_, fun i j hi hj heq => ?_, fun j hj => ?_, h.count⟩
      all_goals simp only [Sys.addRef, Sys.set] at *
      · by_cases hjk : j = k
        · subst hjk
          simp only [update_self, hfree, Lock.puts]
          omega
        · rw [htab hjk, update_of_ne hjk]
          exact h.ref j
      · by_cases hjk : j = k
        · subst hjk
          simp only [update_self, hfree, Lock.users]
          exact Nat.zero_le _
        · rw [htab hjk, update_of_ne hjk]
          exact h.users j
      · by_cases hik : i = k
        · by_cases hjk : j = k
          · rw [hik, hjk]
          · rw [htab hjk] at hj heq
            rw [hik, update_self] at heq
            exact absurd heq.symm (find_none hf j hj)
        rw [htab hik] at hi heq
        by_cases hjk : j = k
        · rw [hjk, update_self] at heq
          exact absurd heq (find_none hf i hi)
        · rw [htab hjk] at hj heq
          exact h.once i j hi hj heq
      · by_cases hjk : j = k
        · subst hjk
          simp only [update_self, Agrees, hfree, Bool.false_eq_true, false_implies]
        · rw [htab hjk] at hj ⊢
          exact h.agrees j hj

theorem ialloc_inv {type : Int16} (hstep : ialloc s key type = some t) : Inv disk t := by
  unfold ialloc at hstep
  split_ifs at hstep with hc
  cases hstep
  refine ⟨h.ref, h.users, h.once, fun k hk => ?_, fun key' => ?_⟩
  · have hag := h.agrees k hk
    by_cases hkey : (s.tab k).key = key
    · rw [hkey] at hag
      dsimp only
      rw [hkey, update_self]
      exact hag.of_free hc.2 _
    · dsimp only
      rw [update_of_ne hkey]
      exact hag
  · dsimp only
    by_cases hkey : key' = key
    · subst hkey
      have hcount := h.count key'
      rw [alive, if_pos hc.2] at hcount
      rw [update_self, update_self, alive_of_ne hc.1]
      omega
    · rw [update_of_ne hkey, update_of_ne hkey]
      exact h.count key'

theorem idup_inv (hstep : idup s k = some t) : Inv disk t := by
  unfold idup at hstep
  split_ifs at hstep with hc
  cases hstep
  have hr := h.ref k
  exact h.addRef (by omega)

theorem ilock_inv (hstep : ilock s p k = some t) : Inv disk t := by
  unfold ilock at hstep
  by_cases hc : 0 < s.refs k ∧ 1 ≤ (s.tab k).ref ∧ (s.tab k).lock = .free
  · rw [if_pos hc] at hstep
    cases hstep
    obtain ⟨hrefs, hpos, hfree⟩ := hc
    have hag := h.agrees k hpos
    unfold Agrees at hag
    rw [hfree] at hag
    by_cases hv : (s.tab k).valid = true
    · rw [if_pos hv]
      obtain ⟨hdin, htype⟩ := hag hv
      refine h.set hpos rfl rfl (by rw [hfree]; rfl) hrefs ?_
      exact ⟨hv, by rw [hdin], htype, fun _ => hdin⟩
    · rw [if_neg hv]
      refine h.set hpos rfl rfl (by rw [hfree]; rfl) hrefs ?_
      exact Bool.eq_false_of_not_eq_true hv
  · rw [if_neg hc] at hstep
    cases hstep

theorem load_inv (hstep : load s k = some t) : Inv disk t := by
  unfold load at hstep
  split at hstep
  · rename_i q hl
    split_ifs at hstep with hc
    cases hstep
    have hu := h.users k
    rw [hl] at hu
    refine h.set (h.pos (by rw [hl]; exact nofun)) rfl rfl (by rw [hl]; rfl) hu ?_
    exact ⟨rfl, rfl, hc, fun _ => rfl⟩
  · cases hstep

theorem Inv.held {dirty : Bool} (hl : (s.tab k).lock = .held p dirty) :
    0 < (s.tab k).ref ∧ 1 ≤ s.refs k ∧ (s.tab k).valid = true ∧
      (s.tab k).din.type = (s.disk (s.tab k).key).type ∧ (s.disk (s.tab k).key).type ≠ 0 ∧
      (dirty = false → (s.tab k).din = s.disk (s.tab k).key) := by
  have hpos := h.pos (k := k) (by rw [hl]; exact nofun)
  have hu := h.users k
  have hag := h.agrees k hpos
  unfold Agrees at hag
  rw [hl] at hu hag
  exact ⟨hpos, hu, hag⟩

theorem setFields_inv {x : Dinode} (hstep : setFields s k x = some t) : Inv disk t := by
  unfold setFields at hstep
  split at hstep
  · rename_i q dirty hl
    cases hstep
    obtain ⟨hpos, hrefs, hv, htype, hne, -⟩ := h.held hl
    refine h.set hpos rfl rfl (by rw [hl]; rfl) hrefs ?_
    exact ⟨hv, htype, hne, nofun⟩
  · cases hstep

theorem Inv.writeBack (hpos : 0 < (s.tab k).ref) (hkey : e.key = (s.tab k).key) (href : e.ref = (s.tab k).ref)
    (hputs : e.lock.puts = (s.tab k).lock.puts) (husers : e.lock.users ≤ s.refs k)
    (htype : (s.tab k).din.type = (s.disk (s.tab k).key).type)
    (hagrees : Agrees e (s.tab k).din) : Inv disk ((s.writeBack k).set k e) := by
  apply h.move (Moves.writeBack s k e hkey) hpos
  · simp only [Sys.set_tab, Sys.set_refs, Sys.writeBack_refs, Sys.set_finishing, Sys.writeBack_finishing, href, hputs]
    exact h.ref k
  · simp only [Sys.set_tab, Sys.set_refs, Sys.writeBack_refs]
    exact husers
  · simp only [Sys.set_tab, Sys.set_disk, Sys.writeBack_disk]
    exact fun _ => hagrees
  · simp only [Sys.set_disk, Sys.writeBack_disk, alive, htype]
    rfl

theorem iupdate_inv (hstep : iupdate s k = some t) : Inv disk t := by
  unfold iupdate at hstep
  split at hstep
  · rename_i q dirty hl
    cases hstep
    obtain ⟨hpos, hrefs, hv, htype, hne, -⟩ := h.held hl
    refine h.writeBack hpos rfl rfl (by rw [hl]; rfl) hrefs htype ?_
    exact ⟨hv, rfl, by rw [htype]; exact hne, fun _ => rfl⟩
  · cases hstep

theorem iunlock_inv (hc : (s.tab k).lock ≠ .held p true) (hstep : iunlock s p k = some t) : Inv disk t := by
  unfold iunlock at hstep
  split at hstep
  · rename_i q dirty hl
    split_ifs at hstep with hq
    cases hstep
    obtain ⟨hpos, -, -, -, hne, hclean⟩ := h.held hl
    have hdirty : dirty = false := by
      cases dirty with
      | false => rfl
      | true => exact absurd (hq.1 ▸ hl) hc
    exact h.set hpos rfl rfl (by rw [hl]; rfl) (Nat.zero_le _) (fun _ => ⟨hclean hdirty, hne⟩)
  · cases hstep

theorem iput_inv (hstep : iput s p k = some t) : Inv disk t := by
  have hr := h.ref k
  unfold iput at hstep
  split_ifs at hstep with hrefs hlast hfree
  · cases hstep
    have hpos : 0 < (s.tab k).ref := by omega
    have hag := h.agrees k hpos
    unfold Agrees at hag
    rw [hfree] at hag hr
    apply h.move ((Moves.set s k { s.tab k with lock := .freeing p .trunc } rfl).setRefs (s.refs k-1)) hpos
    · simp only [Sys.set_tab, Sys.set_finishing, update_self, Lock.puts] at hr ⊢
      rw [hfree] at hrefs
      omega
    · simp only [Sys.set_tab, update_self, Lock.users]
      exact Nat.zero_le _
    · simp only [Sys.set_tab]
      exact fun _ => ⟨hlast.2.1, hag hlast.2.1⟩
    · rfl
  · cases hstep
    apply h.move ((Moves.set s k { s.tab k with ref := (s.tab k).ref-1 } rfl).setRefs (s.refs k-1)) (by omega)
    · simp only [Sys.set_tab, Sys.set_finishing, update_self]
      omega
    · simp only [Sys.set_tab, update_self]
      omega
    · simp only [Sys.set_tab]
      exact fun hpos => h.agrees k (by omega)
    · rfl

theorem finish_inv (hstep : finish s k = some t) : Inv disk t := by
  have hr := h.ref k
  unfold finish at hstep
  split_ifs at hstep with hc
  cases hstep
  apply h.move ((Moves.set s k { s.tab k with ref := (s.tab k).ref-1 } rfl).setFinishing (s.finishing k-1)) (by omega)
  · simp only [Sys.set_tab, Sys.set_refs, update_self]
    omega
  · simp only [Sys.set_tab, Sys.set_refs]
    exact h.users k
  · simp only [Sys.set_tab]
    exact fun hpos => h.agrees k (by omega)
  · rfl

end

end Xv6.Itable
