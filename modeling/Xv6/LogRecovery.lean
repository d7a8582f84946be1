import Xv6.LogCommit

/-! At every moment of a commit the disk is settled, with an empty log, or the log holds the whole
transaction and recovery installs it, any number of times. -/
namespace Xv6.Logging
open Bytes WriteTrace List

theorem loadLE_fillBlocks_below (bs : List ℕ) (h : Block) (i off : ℕ) (hoff : off+4 ≤ 4+4*i) :
    loadLE (fillBlocks h i bs) off 4 = loadLE h off 4 := by
  induction bs generalizing h i with
  | nil => rfl
  | cons b bs ih => rw [fillBlocks, ih _ (i+1) (by omega), loadLE_storeLE_disjoint _ _ _ _ _ _ (Or.inr hoff)]

theorem headBlock_fillBlocks (bs : List ℕ) (h : Block) (i j : ℕ) (hb : ∀ b ∈ bs, b < 256^4)
    (hj : j < bs.length) : headBlock (fillBlocks h i bs) (i+j) = bs[j] := by
  induction bs generalizing h i j with
  | nil => simp at hj
  | cons b bs ih =>
    cases j with
    | zero =>
      rw [Nat.add_zero, headBlock, fillBlocks, loadLE_fillBlocks_below _ _ _ _ (by omega),
        loadLE_storeLE_same _ _ _ _ (hb b mem_cons_self), getElem_cons_zero]
    | succ j =>
      have hrest := ih (storeLE h (4+4*i) 4 b) (i+1) j (fun c hc => hb c (mem_cons_of_mem _ hc)) (by simpa using hj)
      rw [fillBlocks, show i+(j+1) = i+1+j from by omega, hrest, getElem_cons_succ]

theorem headN_fillHead (h : Block) (bs : List ℕ) (hl : bs.length < 256^4) : headN (fillHead h bs) = bs.length := by
  rw [headN, fillHead, loadLE_fillBlocks_below _ _ _ _ (by omega), loadLE_storeLE_same _ _ _ _ hl]

theorem headList_fillHead (h : Block) (bs : List ℕ) (hl : bs.length < 2^31)
    (hb : ∀ b ∈ bs, b < 256^4) : headList (fillHead h bs) = bs := by
  have hn : headN (fillHead h bs) = bs.length := headN_fillHead h bs (by omega)
  rw [headList, hn, if_pos hl]
  apply ext_getElem
  · simp
  intro j hj hj'
  have := headBlock_fillBlocks bs (storeLE h 0 4 bs.length) 0 j hb hj'
  rw [Nat.zero_add] at this
  simpa only [getElem_map, getElem_range, fillHead] using this

theorem headList_of_headN_zero (h : Block) (hn : headN h = 0) : headList h = [] := by simp [headList, hn]

def InLog (l : Log) (b : ℕ) : Prop := b = l.start ∨ (l.start < b ∧ b < l.start+l.size)

/-- What log_write guarantees of the header that commit finds. -/
structure WfHeader (l : Log) : Prop where
  nodup : l.lh.Nodup
  outside : ∀ b ∈ l.lh, ¬ InLog l b
  number : ∀ b ∈ l.lh, b < 2^32
  array : l.lh.length ≤ logSize
  room : ∀ i, i < l.lh.length → i+1 < l.size

variable {l : Log} {v : ℕ → Block} {D e : Disk} {pre : List (ℕ × Block)} {m : Machine}

theorem WfHeader.apart (h : WfHeader l) (b : ℕ) (hb : b ∈ l.lh) : b ≤ l.start ∨ l.start+0+l.lh.length < b := by
  have hpos : 0 < l.lh.length := length_pos_of_mem hb
  have hroom := h.room (l.lh.length-1) (by omega)
  have hout := h.outside b hb
  simp only [InLog, not_or, not_and, not_lt] at hout
  by_contra hn
  push Not at hn
  have := hout.2 hn.1
  omega

def txn (l : Log) (v : ℕ → Block) : List (ℕ × Block) := l.lh.map (fun b => (b, v b))

@[simp] theorem txn_fst (l : Log) (v : ℕ → Block) : (txn l v).map Prod.fst = l.lh := by simp [txn, Function.comp_def]

theorem logCopies_read (start tail : ℕ) (d v : ℕ → Block) (bs : List ℕ) (i : ℕ) (hi : i < bs.length) :
    applyWrites d (logCopies start tail v bs) (start+tail+i+1) = v bs[i] := by
  induction bs generalizing d tail i with
  | nil => simp at hi
  | cons b bs ih =>
    rw [logCopies, applyWrites_cons]
    cases i with
    | zero =>
      rw [applyWrites_of_notMem, Nat.add_zero, Function.update_self, getElem_cons_zero]
      intro hx
      have := mem_logCopies start (tail+1) v bs _ hx
      omega
    | succ i =>
      rw [show start+tail+(i+1)+1 = start+(tail+1)+i+1 from by omega,
        ih (tail+1) _ i (by simpa using hi), getElem_cons_succ]

theorem homeCopies_eq_txn (l : Log) (d v : ℕ → Block) (h : ∀ i (hi : i < l.lh.length), d (l.start+i+1) = v l.lh[i]) :
    homeCopies l.start 0 d l.lh = txn l v := by
  have hgen (bs : List ℕ) (tail : ℕ) (hbs : ∀ i (hi : i < bs.length), d (l.start+tail+i+1) = v bs[i]) :
      homeCopies l.start tail d bs = bs.map (fun b => (b, v b)) := by
    induction bs generalizing tail with
    | nil => rfl
    | cons b bs ih =>
      have h0 := hbs 0 (by simp)
      have hrest := ih (tail+1) (fun i hi => by
        have := hbs (i+1) (by simpa using hi)
        rw [show l.start+(tail+1)+i+1 = l.start+tail+(i+1)+1 from by omega]
        exact this)
      simp only [homeCopies, map_cons, hrest]
      rw [show l.start+tail+1 = l.start+tail+0+1 from by omega, h0, getElem_cons_zero]
  apply hgen
  intro i hi
  rw [Nat.add_zero]
  exact h i hi

def Settled (l : Log) (D e : Disk) : Prop := headN (e l.start) = 0 ∧ ∀ b, ¬ InLog l b → e b = D b

/-- The log holds the whole transaction; its home blocks may have any contents. -/
structure Logged (l : Log) (v : ℕ → Block) (D e : Disk) : Prop where
  header : headList (e l.start) = l.lh
  slots : ∀ i (hi : i < l.lh.length), e (l.start+i+1) = v l.lh[i]
  rest : ∀ b, ¬ InLog l b → b ∉ l.lh → e b = D b

theorem WfHeader.slot_not_home (h : WfHeader l) (i : ℕ) (hi : i < l.lh.length) : l.start+i+1 ∉ l.lh := by
  intro hmem
  have hroom := h.room i hi
  exact h.outside _ hmem (Or.inr ⟨by omega, by omega⟩)

theorem WfHeader.start_not_home (h : WfHeader l) : l.start ∉ l.lh := fun hmem => h.outside _ hmem (Or.inl rfl)

theorem Logged.install (hl : WfHeader l) (h : Logged l v D e) (hp : pre <+: txn l v) :
    Logged l v D (applyWrites e pre) := by
  have hkeep (b : ℕ) (hb : b ∉ l.lh) : applyWrites e pre b = e b := applyWrites_of_prefix e hp b (by simpa using hb)
  refine ⟨?_, ?_, ?_⟩
  · rw [hkeep _ hl.start_not_home]
    exact h.header
  · intro i hi
    rw [hkeep _ (hl.slot_not_home i hi)]
    exact h.slots i hi
  · intro b hb hout
    rw [hkeep b hout]
    exact h.rest b hb hout

theorem Logged.settle (hl : WfHeader l) {d : Disk} (h : Logged l v d e) (hdr : Block) (hn : headN hdr = 0) :
    Settled l (applyWrites d (txn l v)) (applyWrites e (txn l v ++ [(l.start, hdr)])) := by
  rw [applyWrites_append]
  refine ⟨by simpa [applyWrites] using hn, fun b hb => ?_⟩
  have hne : b ≠ l.start := fun he => hb (Or.inl he)
  rw [applyWrites_of_notMem _ [(l.start, hdr)] b (by simpa using hne)]
  by_cases hmem : b ∈ l.lh
  · have hw : (b, v b) ∈ txn l v := mem_map_of_mem (f := fun b => (b, v b)) hmem
    have hnd : ((txn l v).map Prod.fst).Nodup := by simpa using hl.nodup
    rw [applyWrites_of_mem e _ b _ hnd hw, applyWrites_of_mem d _ b _ hnd hw]
  · rw [applyWrites_of_notMem _ _ b (by simpa using hmem), applyWrites_of_notMem _ _ b (by simpa using hmem)]
    exact h.rest b hb hmem

theorem Settled.clear (h : Settled l D e) (hdr : Block) (hn : headN hdr = 0) :
    Settled l D (applyWrites e [(l.start, hdr)]) := by
  refine ⟨by simpa [applyWrites] using hn, fun b hb => ?_⟩
  have hne : b ≠ l.start := fun he => hb (Or.inl he)
  rw [applyWrites_of_notMem _ _ b (by simpa using hne)]
  exact h.2 b hb

theorem headN_clear (h : Block) : headN (fillHead h []) = 0 := headN_fillHead h [] (by simp)

theorem readHead_traced (h : CacheOk m) : Traced m [] (readHead m) ∧
    (readHead m).log = { m.log with lh := headList (view m m.log.start) } := by
  obtain ⟨hdata, hr⟩ := bread_wrote h m.log.start
  simp only [readHead, hdata, hr.log, and_true]
  exact ⟨hr.disk, hr.view, hr.writes, hr.cache⟩

theorem recoverFromLog_traced (h : CacheOk m) (bs : List ℕ) (hbs : headList (view m m.log.start) = bs)
    (hout : ∀ b ∈ bs, b ≤ m.log.start ∨ m.log.start+0+bs.length < b) :
    ∃ hdr, headN hdr = 0 ∧
      Traced m (homeCopies m.log.start 0 (view m) bs ++ [(m.log.start, hdr)]) (recoverFromLog m) := by
  obtain ⟨hr, hlog⟩ := readHead_traced h
  rw [hbs] at hlog
  have hi : Wrote (readHead m) (homeCopies m.log.start 0 (view m) bs) (installTrans true (readHead m)) := by
    have hloop := installLoop_wrote true hr.cache 0 bs (by rw [hlog]; exact hout)
    rw [hlog, hr.view, applyWrites_nil] at hloop
    rw [installTrans, hlog]
    exact hloop
  have hc := clearHead_traced hi.cache
  have hstart : (installTrans true (readHead m)).log.start = m.log.start := by rw [hi.log, hlog]
  rw [hstart] at hc
  exact ⟨_, headN_clear _, by simpa only [recoverFromLog, nil_append] using (hr.trans hi.toTraced).trans hc⟩

/-- The block writes of one run of recovery at a start of the machine. -/
def RecoveryWrites (l : Log) (e : Disk) (ws : List (ℕ × Block)) : Prop :=
  ∃ recycled, (initlog l.start l.size e recycled).writes = ws

theorem initlog_trace (l : Log) (e : Disk) (recycled : List (List ℕ)) (bs : List ℕ)
    (hbs : headList (e l.start) = bs) (hout : ∀ b ∈ bs, b ≤ l.start ∨ l.start+0+bs.length < b) :
    ∃ hdr, headN hdr = 0 ∧ (initlog l.start l.size e recycled).writes = homeCopies l.start 0 e bs ++ [(l.start, hdr)] ∧
      (initlog l.start l.size e recycled).disk = applyWrites e (homeCopies l.start 0 e bs ++ [(l.start, hdr)]) := by
  obtain ⟨hdr, hn, ht⟩ := recoverFromLog_traced
    (m := ⟨⟨l.start, l.size, 0, false, []⟩, e, fun _ => none, fun _ => 0, recycled, []⟩)
    (fun _ => Or.inl rfl) bs hbs hout
  exact ⟨hdr, hn, ht.writes, ht.disk⟩

theorem Settled.recover (h : Settled l D e) (recycled : List (List ℕ)) :
    Settled l D (initlog l.start l.size e recycled).disk ∧
    ∀ pre, pre <+: (initlog l.start l.size e recycled).writes → Settled l D (applyWrites e pre) := by
  obtain ⟨hdr, hn, hw, hd⟩ := initlog_trace l e recycled [] (headList_of_headN_zero _ h.1) (by simp)
  rw [hd, hw, homeCopies]
  refine ⟨h.clear hdr hn, fun pre hp => ?_⟩
  rcases prefix_concat_iff.mp hp with rfl | hp
  · exact h.clear hdr hn
  · rw [prefix_nil.mp hp, applyWrites_nil]
    exact h

/-- Every disk between the commit of a transaction and the end of recovery. -/
def Recoverable (l : Log) (v : ℕ → Block) (d e : Disk) : Prop := Settled l (applyWrites d (txn l v)) e ∨ Logged l v d e

theorem Recoverable.recover (hl : WfHeader l) {d : Disk} (h : Recoverable l v d e) (recycled : List (List ℕ)) :
    Settled l (applyWrites d (txn l v)) (initlog l.start l.size e recycled).disk ∧
    ∀ pre, pre <+: (initlog l.start l.size e recycled).writes → Recoverable l v d (applyWrites e pre) := by
  rcases h with h | h
  · obtain ⟨hdisk, hpre⟩ := h.recover recycled
    exact ⟨hdisk, fun pre hp => Or.inl (hpre pre hp)⟩
  obtain ⟨hdr, hn, hw, hd⟩ := initlog_trace l e recycled l.lh h.header hl.apart
  rw [homeCopies_eq_txn l e v h.slots] at hw hd
  rw [hd, hw]
  refine ⟨h.settle hl hdr hn, fun pre hp => ?_⟩
  rcases prefix_concat_iff.mp hp with rfl | hp
  · exact Or.inl (h.settle hl hdr hn)
  · exact Or.inr (h.install hl hp)

/-- A machine about to commit: the log on disk is empty, and only the blocks of the
header, which log_write has pinned, may differ from their disk blocks. -/
structure Committing (m : Machine) : Prop where
  header : WfHeader m.log
  empty : headN (m.disk m.log.start) = 0
  cache : CacheOk m
  clean : ∀ b, b ∉ m.log.lh → view m b = m.disk b
  fresh : m.writes = []

theorem Committing.start_view (h : Committing m) :
    applyWrites (view m) (logCopies m.log.start 0 (view m) m.log.lh) m.log.start = m.disk m.log.start := by
  rw [applyWrites_of_notMem, h.clean _ h.header.start_not_home]
  intro hx
  have := mem_logCopies _ _ _ _ _ hx
  omega

theorem commit_traced (h : Committing m) (hne : m.log.lh ≠ []) : ∃ hdr, headN hdr = 0 ∧
      (commit m).writes = logCopies m.log.start 0 (view m) m.log.lh ++
        [(m.log.start, fillHead (m.disk m.log.start) m.log.lh)] ++
        (txn m.log (view m) ++ [(m.log.start, hdr)]) := by
  have hl : Wrote m _ (writeLog m) := writeLogLoop_wrote h.cache 0 m.log.lh h.header.apart
  have hh := writeHead_wrote hl.cache
  rw [hl.log, hl.view, h.start_view] at hh
  have hlog := hl.trans hh
  -- the log slots now hold the cached contents of the home blocks
  have hslots : ∀ i (hi : i < m.log.lh.length),
      view (writeHead (writeLog m)) (m.log.start+i+1) = view m m.log.lh[i] := by
    intro i hi
    rw [hlog.view, applyWrites_append, applyWrites_of_notMem _ [_]]
    · simpa only [Nat.add_zero] using logCopies_read m.log.start 0 (view m) (view m) m.log.lh i hi
    · simp only [map_cons, map_nil, mem_singleton]
      omega
  have hi : Wrote (writeHead (writeLog m)) (txn m.log (view m)) (installTrans false (writeHead (writeLog m))) := by
    have hloop := installLoop_wrote false hlog.cache 0 m.log.lh (by
      rw [hlog.log]
      exact h.header.apart)
    rw [hlog.log, homeCopies_eq_txn m.log _ (view m) hslots] at hloop
    rw [installTrans, hlog.log]
    exact hloop
  have hc := clearHead_traced hi.cache
  have hstart : (installTrans false (writeHead (writeLog m))).log.start = m.log.start := by rw [hi.log, hlog.log]
  rw [hstart] at hc
  have hall := (hlog.trans hi).toTraced.trans hc
  have hpos : m.log.lh.length > 0 := length_pos_iff.mpr hne
  have hw := hall.writes
  rw [h.fresh, nil_append, append_assoc _ (txn m.log (view m))] at hw
  rw [commit, if_pos hpos]
  exact ⟨_, headN_clear _, hw⟩

theorem settled_before_header (h : Committing m) (hp : pre <+: logCopies m.log.start 0 (view m) m.log.lh) :
    m.log.start ∉ pre.map Prod.fst ∧ Settled m.log m.disk (applyWrites m.disk pre) := by
  have hslot (b : ℕ) (hb : b ∈ pre.map Prod.fst) : m.log.start < b ∧ b < m.log.start+m.log.size := by
    obtain ⟨hlo, hhi⟩ := mem_logCopies _ _ _ _ _ ((hp.map Prod.fst).subset hb)
    have hroom := h.header.room (m.log.lh.length-1) (by omega)
    omega
  have hstart : m.log.start ∉ pre.map Prod.fst := fun hx => absurd (hslot _ hx).1 (lt_irrefl _)
  refine ⟨hstart, ?_, fun b hb => ?_⟩
  · rw [applyWrites_of_notMem _ _ _ hstart]
    exact h.empty
  · apply applyWrites_of_notMem
    exact fun hx => hb (Or.inr (hslot b hx))

theorem logged_of_header (h : Committing m) : Logged m.log (view m) m.disk (applyWrites m.disk
      (logCopies m.log.start 0 (view m) m.log.lh ++ [(m.log.start, fillHead (m.disk m.log.start) m.log.lh)])) := by
  rw [applyWrites_append]
  have hlen := h.header.array
  have hother (b : ℕ) (hb : b ≠ m.log.start) (e : Disk) (hdr : Block) : applyWrites e [(m.log.start, hdr)] b = e b :=
    applyWrites_of_notMem _ _ _ (by simpa using hb)
  refine ⟨?_, fun i hi => ?_, fun b hb hout => ?_⟩
  · have hself (e : Disk) (hdr : Block) : applyWrites e [(m.log.start, hdr)] m.log.start = hdr := by simp [applyWrites]
    rw [hself]
    apply headList_fillHead
    · simp only [logSize, maxOpBlocks] at hlen
      omega
    · intro b hb
      have := h.header.number b hb
      omega
  · rw [hother _ (by omega)]
    simpa only [Nat.add_zero] using logCopies_read m.log.start 0 m.disk (view m) m.log.lh i hi
  · rw [hother b (fun he => hb (Or.inl he))]
    apply applyWrites_of_notMem
    intro hx
    have hin := mem_logCopies _ _ _ _ _ hx
    have hroom := h.header.room (m.log.lh.length-1) (by omega)
    exact hb (Or.inr ⟨by omega, by omega⟩)

/-- A crash during commit leaves the old disk, or a transaction that recovery completes
if and only if the header has been written. -/
theorem commit_cut (h : Committing m) (hp : pre <+: (commit m).writes) :
    (m.log.start ∉ pre.map Prod.fst ∧ Settled m.log m.disk (applyWrites m.disk pre)) ∨
    (m.log.start ∈ pre.map Prod.fst ∧ Recoverable m.log (view m) m.disk (applyWrites m.disk pre)) := by
  by_cases hne : m.log.lh = []
  · have hnone : (commit m).writes = [] := by simp [commit, hne, h.fresh]
    rw [hnone] at hp
    rw [prefix_nil.mp hp]
    exact Or.inl ⟨by simp, h.empty, fun _ _ => rfl⟩
  obtain ⟨hdr, hn, hw⟩ := commit_traced h hne
  have hlogged := logged_of_header h
  rw [hw] at hp
  rcases prefix_or_prefix_of_prefix hp (prefix_append _ _) with hp | ⟨rest, rfl⟩
  · rcases prefix_concat_iff.mp hp with rfl | hp
    · exact Or.inr ⟨by simp, Or.inr hlogged⟩
    · exact Or.inl (settled_before_header h hp)
  have hrest := (prefix_append_right_inj _).mp hp
  rw [applyWrites_append]
  refine Or.inr ⟨by simp, ?_⟩
  rcases prefix_concat_iff.mp hrest with rfl | hrest
  · exact Or.inl (hlogged.settle h.header hdr hn)
  · exact Or.inr (hlogged.install h.header hrest)

/-- Any crash in commit, followed by any number of crashes in recovery: once a recovery
completes, the transaction has happened entirely or not at all. -/
theorem commit_crash_atomic (m : Machine) (h : Committing m) (pre : List (ℕ × Block))
    (hp : pre <+: (commit m).writes) (e : Disk)
    (hcrash : Crashes (RecoveryWrites m.log) (applyWrites m.disk pre) e)
    (recycled : List (List ℕ)) :
    (∀ b ∈ m.log.lh, (initlog m.log.start m.log.size e recycled).disk b =
      if m.log.start ∈ pre.map Prod.fst then view m b else m.disk b) ∧
    (∀ b, b ∉ m.log.lh → ¬ InLog m.log b → (initlog m.log.start m.log.size e recycled).disk b = m.disk b) ∧
    headN ((initlog m.log.start m.log.size e recycled).disk m.log.start) = 0 := by
  have hsettled : Settled m.log
      (if m.log.start ∈ pre.map Prod.fst then applyWrites m.disk (txn m.log (view m)) else m.disk)
      (initlog m.log.start m.log.size e recycled).disk := by
    rcases commit_cut h hp with ⟨hout, hs⟩ | ⟨hin, hr⟩
    · rw [if_neg hout]
      refine (Settled.recover (hcrash.invariant hs ?_) recycled).1
      rintro e' ws pre' he ⟨rc, rfl⟩ hpre
      exact (he.recover rc).2 pre' hpre
    rw [if_pos hin]
    refine (Recoverable.recover h.header (hcrash.invariant hr ?_) recycled).1
    rintro e' ws pre' he ⟨rc, rfl⟩ hpre
    exact (he.recover h.header rc).2 pre' hpre
  refine ⟨fun b hb => ?_, fun b hb hout => ?_, hsettled.1⟩
  · rw [hsettled.2 b (h.header.outside b hb)]
    split_ifs
    · apply applyWrites_of_mem
      · simpa using h.header.nodup
      · exact mem_map_of_mem (f := fun b => (b, view m b)) hb
    · rfl
  · rw [hsettled.2 b hout]
    split_ifs
    · exact applyWrites_of_notMem _ _ b (by simpa using hb)
    · rfl

/-! Blocks 50 and 60 are about to be committed on a zeroed disk. -/

def twoBlocks : Machine where
  log := ⟨2, 30, 0, true, [50, 60]⟩
  disk := fun _ _ => 0
  cache := fun b => if b = 50 then some (fun _ => 1) else if b = 60 then some (fun _ => 2) else none
  pins := fun b => if b = 50 ∨ b = 60 then 1 else 0
  recycled := []
  writes := []

theorem twoBlocks_committing : Committing twoBlocks where
  header := ⟨by decide, by simp [twoBlocks, InLog], by decide, by decide, by decide⟩
  empty := by decide
  cache := by
    intro b
    by_cases hb : b = 50 ∨ b = 60
    · exact Or.inr (Or.inr (by simp [twoBlocks, hb]))
    · rw [not_or] at hb
      exact Or.inl (by simp [twoBlocks, hb.1, hb.2])
  clean := by
    intro b hb
    simp only [twoBlocks, mem_cons, not_mem_nil, or_false, not_or] at hb
    simp [view, twoBlocks, hb.1, hb.2]
  fresh := rfl

/-- The machine crashes when two log blocks, the header and one home block are written. -/
theorem twoBlocks_crash : Committing twoBlocks ∧
    (initlog 2 30 (applyWrites twoBlocks.disk ((commit twoBlocks).writes.take 4)) []).disk 60 = fun _ => 2 := by
  refine ⟨twoBlocks_committing, ?_⟩
  have h := (commit_crash_atomic twoBlocks twoBlocks_committing ((commit twoBlocks).writes.take 4)
    ( take_prefix 4 _) _ .none []).1 60 (by decide)
  rw [if_pos (by decide)] at h
  exact h

end Xv6.Logging
