import Mathlib.Tactic

/-! malloc of user/umalloc.c with morecore, free and the system call sbrk. Addresses and sizes are numbers;
a header stands at an address, and a unit has 16 bytes. -/
namespace Xv6.Malloc

open Function List

/-- union header: s.ptr and s.size, which is a uint. -/
structure Header where
  ptr : ℕ
  size : ℕ

/-- The headers, freep, and p->sz of the process. `calls` lists the calls of sbrk: the int that is passed,
and the number of bytes that morecore has asked for. -/
structure State where
  hdr : ℕ → Header
  freep : ℕ
  sz : ℕ
  calls : List (ℤ × ℕ)

inductive Ret where
  | ptr (p : ℕ)
  | null
  -- the process is killed
  | fault
  | fuel
  deriving DecidableEq

def pgroundup (a : ℕ) : ℕ := (a+4095)/4096*4096

/-- growproc of kernel/proc.c. The local variable sz is a uint; `ok` if uvmalloc gets its pages. -/
def growproc (ok : Bool) (psz : ℕ) (n : ℤ) : Option ℕ :=
  let sz := psz%2^32
  let newsz := ((sz+n)%2^32).toNat
  if n > 0 then
    -- uvmalloc
    if newsz < sz then some sz else if ok then some newsz else none
  else if n < 0 then
    -- uvmdealloc
    some (if newsz ≥ sz then sz else newsz)
  else some sz

/-- sys_sbrk: what it returns as a pointer, where -1 is a failure, and p->sz. -/
def sbrk (ok : Bool) (psz : ℕ) (n : ℤ) : ℕ × ℕ :=
  match growproc ok psz n with
  | none => (2^64-1, psz)
  -- addr is an int
  | some sz => ((Int.bmod psz (2^32)%2^64).toNat, sz)

def State.setPtr (s : State) (a ptr : ℕ) : State := { s with hdr := update s.hdr a ⟨ptr, (s.hdr a).size⟩ }

def State.setSize (s : State) (a size : ℕ) : State := { s with hdr := update s.hdr a ⟨(s.hdr a).ptr, size⟩ }

def freeLoop (hdr : ℕ → Header) (bp : ℕ) : ℕ → ℕ → Option ℕ
  | 0, _ => none
  | fuel+1, p =>
    if bp > p ∧ bp < (hdr p).ptr then some p
    else if p ≥ (hdr p).ptr ∧ (bp > p ∨ bp < (hdr p).ptr) then some p
    else freeLoop hdr bp fuel (hdr p).ptr

def insert (bp p : ℕ) (s : State) : State :=
  let q := (s.hdr p).ptr
  let s := if bp+16*(s.hdr bp).size = q
    then (s.setSize bp (((s.hdr bp).size+(s.hdr q).size)%2^32)).setPtr bp (s.hdr q).ptr
    else s.setPtr bp q
  let s := if p+16*(s.hdr p).size = bp
    then (s.setSize p (((s.hdr p).size+(s.hdr bp).size)%2^32)).setPtr p (s.hdr bp).ptr
    else s.setPtr p bp
  { s with freep := p }

def free (fuel ap : ℕ) (s : State) : Option State :=
  (freeLoop s.hdr (ap-16) fuel s.freep).map fun p => insert (ap-16) p s

/-- The end of morecore, with the address `p` that sbrk has returned. It returns freep. -/
def addcore (fuel nu p : ℕ) (s : State) : Ret × State :=
  if p = 2^64-1 then (.null, s)
  -- hp->s.size = nu needs a page
  else if p+16 > pgroundup s.sz then (.fault, s)
  else match free fuel (p+16) (s.setSize p nu) with
    | none => (.fuel, s)
    | some s => (.ptr s.freep, s)

def morecore (ok : Bool) (fuel nu : ℕ) (s : State) : Ret × State :=
  let nu := if nu < 4096 then 4096 else nu
  let arg := Int.bmod (nu*16) (2^32)
  let r := sbrk ok s.sz arg
  addcore fuel nu r.1 { s with sz := r.2, calls := s.calls ++ [(arg, nu*16)] }

def carve (nunits prevp p : ℕ) (s : State) : Ret × State :=
  if (s.hdr p).size = nunits then (.ptr (p+16), { s.setPtr prevp (s.hdr p).ptr with freep := prevp })
  else
    let size := (s.hdr p).size-nunits
    (.ptr (p+16*size+16), { (s.setSize p size).setSize (p+16*size) nunits with freep := prevp })

/-- The loop of malloc. `more` calls morecore. -/
def mallocLoop (more : ℕ → State → Ret × State) (nunits : ℕ) : ℕ → ℕ → ℕ → State → Ret × State
  | 0, _, _, s => (.fuel, s)
  | fuel+1, prevp, p, s =>
    if (s.hdr p).size ≥ nunits then carve nunits prevp p s
    else if p = s.freep then
      match more fuel s with
      | (.ptr q, s) => mallocLoop more nunits fuel q (s.hdr q).ptr s
      | r => r
    else mallocLoop more nunits fuel p (s.hdr p).ptr s

-- in 64 bits, so that it does not overflow
def units (nbytes : ℕ) : ℕ := (nbytes+15)/16+1

def prepare (base : ℕ) (s : State) : State :=
  if s.freep = 0 then { s with hdr := update s.hdr base ⟨base, 0⟩, freep := base } else s

/-- `ok k` is how the call number `k` of uvmalloc ends. -/
def malloc (base : ℕ) (ok : ℕ → Bool) (fuel nbytes : ℕ) (s : State) : Ret × State :=
  let s := prepare base s
  mallocLoop (fun fuel s => morecore (ok s.calls.length) fuel (units nbytes) s) (units nbytes) fuel
    s.freep (s.hdr s.freep).ptr s

/-! The free list. -/

def Path (hdr : ℕ → Header) : ℕ → List ℕ → ℕ → Prop
  | a, [], b => (hdr a).ptr = b
  | a, c :: l, b => (hdr a).ptr = c ∧ Path hdr c l b

/-- The free list is a circle through freep, and its blocks are below the program break. -/
structure Circle (s : State) (rest : List ℕ) : Prop where
  path : Path s.hdr s.freep rest s.freep
  once : (s.freep :: rest).Nodup
  inside : ∀ a ∈ s.freep :: rest, a < s.sz ∧ a+16*(s.hdr a).size ≤ s.sz

/-- The program break is not above the 128 MB of RAM, since every page below it has its own physical page. -/
structure FreeList (s : State) (rest : List ℕ) : Prop extends Circle s rest where
  ram : s.sz ≤ 2^27

variable {hdr hdr' : ℕ → Header} {s t : State} {l rest : List ℕ} {a b bp fuel nunits : ℕ}
  {more : ℕ → State → Ret × State}

theorem Path.congr {a' : ℕ} (h : Path hdr a l b) (hptr : (hdr' a').ptr = (hdr a).ptr)
    (heq : ∀ c ∈ l, (hdr' c).ptr = (hdr c).ptr) : Path hdr' a' l b := by
  induction l generalizing a a' with
  | nil => exact hptr.trans h
  | cons c l ih => exact ⟨hptr.trans h.1, ih h.2 (heq c mem_cons_self) (fun d hd => heq d (mem_cons_of_mem c hd))⟩

variable {c nu : ℕ}

theorem path_append {u v : List ℕ} : Path hdr a (u ++ c :: v) b ↔ Path hdr a u c ∧ Path hdr c v b := by
  induction u generalizing a with
  | nil => exact Iff.rfl
  | cons d u ih =>
    rw [cons_append]
    exact (and_congr_right (fun _ => ih)).trans and_assoc.symm

theorem Path.rotate (h : Path hdr a l a) (hb : b ∈ a :: l) : ∃ l', Path hdr b l' b ∧ (b :: l').Perm (a :: l) := by
  rcases mem_cons.mp hb with rfl | hmem
  · exact ⟨l, h, List.Perm.refl _⟩
  · obtain ⟨u, v, rfl⟩ := append_of_mem hmem
    obtain ⟨hu, hv⟩ := path_append.mp h
    exact ⟨v ++ a :: u, path_append.mpr ⟨hv, hu⟩, (perm_append_comm : (b :: v ++ a :: u).Perm _)⟩

theorem freeLoop_above (h : Path hdr a l b) (hle : b ≤ a) (hbp : ∀ c ∈ a :: l, c < bp) (hb : b < bp)
    (hfuel : l.length < fuel) : ∃ p ∈ a :: l, freeLoop hdr bp fuel a = some p ∧ (hdr p).ptr ≤ p := by
  induction l generalizing a fuel with
  | nil =>
    obtain ⟨f, rfl⟩ : ∃ f, fuel = f+1 := ⟨fuel-1, by omega⟩
    have hptr : (hdr a).ptr = b := h
    refine ⟨a, mem_cons_self, ?_, by omega⟩
    rw [freeLoop, if_neg (by omega), if_pos ⟨by omega, Or.inl (hbp a mem_cons_self)⟩]
  | cons c l ih =>
    rw [length_cons] at hfuel
    obtain ⟨f, rfl⟩ : ∃ f, fuel = f+1 := ⟨fuel-1, by omega⟩
    have hc := hbp c (mem_cons_of_mem a mem_cons_self)
    by_cases hdown : c ≤ a
    · refine ⟨a, mem_cons_self, ?_, by rw [h.1]; exact hdown⟩
      rw [freeLoop, h.1, if_neg (by omega), if_pos ⟨hdown, Or.inl (hbp a mem_cons_self)⟩]
    obtain ⟨p, hp, hrun, hptr⟩ := ih h.2 (by omega) (fun d hd => hbp d (mem_cons_of_mem a hd))
      (show l.length < f by omega)
    refine ⟨p, mem_cons_of_mem a hp, ?_, hptr⟩
    rw [freeLoop, h.1, if_neg (by omega), if_neg (by omega), hrun]

/-! The loop of malloc. -/

theorem mallocLoop_found (more : ℕ → State → Ret × State) (h : Path s.hdr a l s.freep) (honce : s.freep ∉ l)
    (hfuel : l.length < fuel) (hfits : ∃ c ∈ l ++ [s.freep], nunits ≤ (s.hdr c).size) :
    ∃ c ∈ l ++ [s.freep], ∃ prevp, nunits ≤ (s.hdr c).size ∧
      mallocLoop more nunits fuel a (s.hdr a).ptr s = carve nunits prevp c s := by
  induction l generalizing a fuel with
  | nil =>
    obtain ⟨f, rfl⟩ : ∃ f, fuel = f+1 := ⟨fuel-1, by omega⟩
    obtain ⟨c, hc, hsize⟩ := hfits
    obtain rfl := mem_singleton.mp hc
    have hptr : (s.hdr a).ptr = s.freep := h
    refine ⟨_, hc, a, hsize, ?_⟩
    rw [mallocLoop, hptr, if_pos hsize]
  | cons c l ih =>
    rw [length_cons] at hfuel
    rw [mem_cons, not_or] at honce
    obtain ⟨f, rfl⟩ : ∃ f, fuel = f+1 := ⟨fuel-1, by omega⟩
    rw [mallocLoop, h.1]
    by_cases hc : (s.hdr c).size ≥ nunits
    · rw [if_pos hc]
      exact ⟨c, mem_cons_self, a, hc, rfl⟩
    have hrest : ∃ d ∈ l ++ [s.freep], nunits ≤ (s.hdr d).size := by
      obtain ⟨d, hd, hsize⟩ := hfits
      rcases mem_cons.mp hd with rfl | hd
      · exact absurd hsize hc
      · exact ⟨d, hd, hsize⟩
    obtain ⟨d, hd, prevp, hsize, hrun⟩ := ih h.2 honce.2 (show l.length < f by omega) hrest
    rw [if_neg hc, if_neg (Ne.symm honce.1)]
    exact ⟨d, mem_cons_of_mem c hd, prevp, hsize, hrun⟩

theorem mallocLoop_more (h : Path s.hdr a l s.freep) (honce : s.freep ∉ l)
    (hnone : ∀ c ∈ l ++ [s.freep], (s.hdr c).size < nunits) :
    mallocLoop more nunits (l.length+1+fuel) a (s.hdr a).ptr s =
      match more fuel s with
      | (.ptr q, s) => mallocLoop more nunits fuel q (s.hdr q).ptr s
      | r => r := by
  induction l generalizing a with
  | nil =>
    have hptr : (s.hdr a).ptr = s.freep := h
    have hsize := hnone s.freep mem_cons_self
    rw [length_nil, Nat.add_comm (0+1), mallocLoop, hptr, if_neg (by omega), if_pos rfl]
  | cons c l ih =>
    have hsize := hnone c mem_cons_self
    rw [mem_cons, not_or] at honce
    have hlen : (c :: l).length+1+fuel = l.length+1+fuel+1 := by
      rw [length_cons]
      omega
    rw [hlen, mallocLoop, h.1, if_neg (by omega), if_neg (Ne.symm honce.1)]
    exact ih h.2 honce.2 (fun d hd => hnone d (mem_cons_of_mem c hd))

theorem carve_eq (nunits prevp p : ℕ) (s : State) :
    (carve nunits prevp p s).1 = .ptr (p+16*((s.hdr p).size-nunits)+16) ∧ (carve nunits prevp p s).2.sz = s.sz ∧
      (carve nunits prevp p s).2.calls = s.calls := by
  unfold carve
  by_cases heq : (s.hdr p).size = nunits
  · rw [if_pos heq, heq, Nat.sub_self]
    exact ⟨rfl, rfl, rfl⟩
  · rw [if_neg heq]
    exact ⟨rfl, rfl, rfl⟩

/-! The calls of sbrk. -/

theorem bmod_small {x : ℕ} (h : x < 2^31) : Int.bmod x (2^32) = x := by apply Int.bmod_eq_of_le <;> omega

theorem bmod_lt_int (x : ℤ) : Int.bmod x (2^32) < 2^31 := by
  refine lt_of_lt_of_le (Int.bmod_lt (Nat.two_pow_pos 32)) ?_
  norm_num

theorem sbrk_small {sz n : ℕ} (b : Bool) (hsz : sz ≤ 2^27) (h0 : 0 < n) (hn : n < 2^31) :
    sbrk b sz n = if b then (sz, sz+n) else (2^64-1, sz) := by
  have hnew : (((sz : ℤ)+n)%2^32).toNat = sz+n := by omega
  have hgrow : growproc b sz n = if b then some (sz+n) else none := by
    rw [growproc, Nat.mod_eq_of_lt (by omega), if_pos (by omega), hnew, if_neg (by omega)]
  have haddr : (Int.bmod sz (2^32)%2^64).toNat = sz := by
    rw [bmod_small (by omega)]
    omega
  rw [sbrk, hgrow]
  cases b with
  | false => rfl
  | true =>
    simp only [if_true]
    rw [haddr]

theorem insert_above {p : ℕ} (hptr : (s.hdr p).ptr ≤ p) (hp : p < bp) : insert bp p s = { s with
      hdr := update (update s.hdr bp ⟨(s.hdr p).ptr, (s.hdr bp).size⟩) p
        (if p+16*(s.hdr p).size = bp then ⟨(s.hdr p).ptr, ((s.hdr p).size+(s.hdr bp).size)%2^32⟩
          else ⟨bp, (s.hdr p).size⟩)
      freep := p } := by
  have hno : ¬ bp+16*(s.hdr bp).size = (s.hdr p).ptr := by omega
  have hself : (s.setPtr bp (s.hdr p).ptr).hdr bp = ⟨(s.hdr p).ptr, (s.hdr bp).size⟩ := update_self ..
  have hother : (s.setPtr bp (s.hdr p).ptr).hdr p = s.hdr p := update_of_ne hp.ne ..
  simp only [insert, if_neg hno]
  rw [hself, hother]
  by_cases hend : p+16*(s.hdr p).size = bp
  · simp only [if_pos hend, State.setPtr, State.setSize, update_idem, update_self]
  · simp only [if_neg hend]
    rw [State.setPtr, hother]
    rfl

def State.grown (s : State) (nu : ℕ) (calls : List (ℤ × ℕ)) : State :=
  { s with sz := s.sz+16*nu, calls }.setSize s.sz nu

theorem grown_hdr {calls : List (ℤ × ℕ)} (hc : c ≠ s.sz) : (s.grown nu calls).hdr c = s.hdr c := update_of_ne hc ..

theorem grown_size {calls : List (ℤ × ℕ)} : ((s.grown nu calls).hdr s.sz).size = nu := by
  simp only [State.grown, State.setSize, update_self]

theorem free_grown (h : FreeList s rest) (calls : List (ℤ × ℕ)) (h0 : 0 < nu) (hnu : 16*nu < 2^31)
    (hfuel : rest.length < fuel) :
    ∃ t rest', free fuel (s.sz+16) (s.grown nu calls) = some t ∧ t.sz = s.sz+16*nu ∧ t.calls = calls ∧ Circle t rest' ∧
      rest'.length ≤ rest.length+1 ∧ ∃ c ∈ t.freep :: rest', nu ≤ (t.hdr c).size := by
  have hbelow {c : ℕ} (hc : c ∈ s.freep :: rest) : c < s.sz := (h.inside c hc).1
  have hold {c : ℕ} (hc : c ∈ s.freep :: rest) : (s.grown nu calls).hdr c = s.hdr c := grown_hdr (hbelow hc).ne
  have hpath : Path (s.grown nu calls).hdr s.freep rest s.freep :=
    h.path.congr (by rw [hold mem_cons_self]) (fun c hc => by rw [hold (mem_cons_of_mem _ hc)])
  obtain ⟨p, hp, hrun, hdown⟩ := freeLoop_above hpath le_rfl (fun c hc => hbelow hc) (hbelow mem_cons_self) hfuel
  have hsize := h.inside p hp
  have hram := h.ram
  obtain ⟨l, hl, hperm⟩ := h.path.rotate hp
  have honce : p ∉ l ∧ l.Nodup := nodup_cons.mp (hperm.nodup_iff.mpr h.once)
  have hmem {c : ℕ} (hc : c ∈ p :: l) : c ∈ s.freep :: rest := hperm.mem_iff.mp hc
  have hne {c : ℕ} (hc : c ∈ l) : c ≠ p := fun heq => honce.1 (heq ▸ hc)
  have hlen : l.length = rest.length := by simpa using hperm.length_eq
  have hrun' : free fuel (s.sz+16) (s.grown nu calls) = some (insert s.sz p (s.grown nu calls)) := by
    rw [free, Nat.add_sub_cancel]
    exact congrArg _ hrun
  rw [hrun', insert_above hdown hsize.1, hold hp, grown_size]
  generalize hh : (if p+16*(s.hdr p).size = s.sz then (⟨(s.hdr p).ptr, ((s.hdr p).size+nu)%2^32⟩ : Header)
    else ⟨s.sz, (s.hdr p).size⟩) = x
  generalize hH : update (update (s.grown nu calls).hdr s.sz ⟨(s.hdr p).ptr, nu⟩) p x = hdr
  refine ⟨⟨hdr, p, s.sz+16*nu, calls⟩, ?_⟩
  have hself : hdr p = x := by rw [← hH, update_self]
  have hnew : hdr s.sz = ⟨(s.hdr p).ptr, nu⟩ := by rw [← hH, update_of_ne hsize.1.ne', update_self]
  -- the other blocks do not change
  have hrest {c : ℕ} (hc : c ∈ l) : hdr c = s.hdr c := by
    have hc' := hmem (mem_cons_of_mem p hc)
    rw [← hH, update_of_ne (hne hc), update_of_ne (hbelow hc').ne, hold hc']
  have hinside {c : ℕ} (hc : c ∈ l) : c < s.sz+16*nu ∧ c+16*(hdr c).size ≤ s.sz+16*nu := by
    rw [hrest hc]
    have hc' := h.inside c (hmem (mem_cons_of_mem p hc))
    omega
  by_cases hend : p+16*(s.hdr p).size = s.sz
  · -- p has grown
    rw [if_pos hend, Nat.mod_eq_of_lt (by omega), ← hself] at hh
    have hpptr : (hdr p).ptr = (s.hdr p).ptr := by rw [← hh]
    have hpsize : (hdr p).size = (s.hdr p).size+nu := by rw [← hh]
    refine ⟨l, rfl, rfl, rfl, ⟨hl.congr hpptr (fun c hc => congrArg Header.ptr (hrest hc)),
      hperm.nodup_iff.mpr h.once, ?_⟩, by omega, p, mem_cons_self, ?_⟩
    · rintro c (_ | ⟨_, hc⟩)
      · show p < s.sz+16*nu ∧ p+16*(hdr p).size ≤ s.sz+16*nu
        omega
      · exact hinside hc
    · show nu ≤ (hdr p).size
      omega
  · -- the new block follows p
    rw [if_neg hend, ← hself] at hh
    have hpptr : (hdr p).ptr = s.sz := by rw [← hh]
    have hpsize : (hdr p).size = (s.hdr p).size := by rw [← hh]
    have hnptr : (hdr s.sz).ptr = (s.hdr p).ptr := by rw [hnew]
    have hnsize : (hdr s.sz).size = nu := by rw [hnew]
    have hout : s.sz ∉ p :: l := fun hc => absurd (hbelow (hmem hc)) (lt_irrefl _)
    have honce' := (List.Perm.swap p s.sz l).nodup_iff.mp (nodup_cons.mpr ⟨hout, hperm.nodup_iff.mpr h.once⟩)
    refine ⟨s.sz :: l, rfl, rfl, rfl, ⟨⟨hpptr, hl.congr hnptr (fun c hc => congrArg Header.ptr (hrest hc))⟩, honce', ?_⟩,
      by rw [length_cons, hlen], s.sz, mem_cons_of_mem _ mem_cons_self, hnsize.ge⟩
    rintro c (_ | ⟨_, _ | ⟨_, hc⟩⟩)
    · show p < s.sz+16*nu ∧ p+16*(hdr p).size ≤ s.sz+16*nu
      omega
    · show s.sz < s.sz+16*nu ∧ s.sz+16*(hdr s.sz).size ≤ s.sz+16*nu
      omega
    · exact hinside hc

theorem insert_calls (bp p : ℕ) (s : State) : (insert bp p s).calls = s.calls := by
  unfold insert
  dsimp only
  split_ifs <;> rfl

theorem addcore_calls (fuel nu p : ℕ) (s : State) : (addcore fuel nu p s).2.calls = s.calls := by
  unfold addcore
  split_ifs
  · rfl
  · rfl
  unfold free
  generalize freeLoop _ _ _ _ = r
  cases r with
  | none => rfl
  | some => exact insert_calls ..

theorem morecore_calls (b : Bool) (hnu : (if nunits < 4096 then 4096 else nunits) = nu) :
    (morecore b fuel nunits s).2.calls = s.calls ++ [(Int.bmod (nu*16) (2^32), nu*16)] := by
  rw [morecore, hnu, addcore_calls]

theorem mallocLoop_calls (hmore : ∀ f u, u.calls ⊆ (more f u).2.calls) (prevp p : ℕ) (s : State) :
    s.calls ⊆ (mallocLoop more nunits fuel prevp p s).2.calls := by
  induction fuel generalizing prevp p s with
  | zero => exact List.Subset.refl _
  | succ fuel ih =>
    rw [mallocLoop]
    split_ifs with hsize hlast
    · rw [(carve_eq nunits prevp p s).2.2]
      exact List.Subset.refl _
    · have hstep := hmore fuel s
      generalize more fuel s = r at hstep
      obtain ⟨ret, u⟩ := r
      cases ret with
      | ptr q => exact List.Subset.trans hstep (ih q _ u)
      | null | fault | fuel => exact hstep
    · exact ih p _ s

theorem mallocLoop_more_calls (hmore : ∀ f u, u.calls ⊆ (more f u).2.calls) (h : Path s.hdr a l s.freep)
    (honce : s.freep ∉ l) (hnone : ∀ c ∈ l ++ [s.freep], (s.hdr c).size < nunits) :
    (more fuel s).2.calls ⊆ (mallocLoop more nunits (l.length+1+fuel) a (s.hdr a).ptr s).2.calls := by
  rw [mallocLoop_more h honce hnone]
  generalize more fuel s = r
  obtain ⟨ret, u⟩ := r
  cases ret with
  | ptr q => exact mallocLoop_calls hmore q _ u
  | null | fault | fuel => exact List.Subset.refl _

theorem morecore_small (h : FreeList s rest) (hnu : (if nunits < 4096 then 4096 else nunits) = nu)
    (hint : 16*nu < 2^31) (hfuel : rest.length < fuel) (b : Bool) :
    (∃ t, morecore b fuel nunits s = (.null, t)) ∨
    ∃ t rest', morecore b fuel nunits s = (.ptr t.freep, t) ∧ t.sz = s.sz+16*nu ∧ Circle t rest' ∧
      rest'.length ≤ rest.length+1 ∧ ∃ c ∈ t.freep :: rest', nunits ≤ (t.hdr c).size := by
  have hpos : 4096 ≤ nu ∧ nunits ≤ nu := by
    rw [← hnu]
    split_ifs <;> omega
  have hram := h.ram
  have harg : Int.bmod ((nu : ℤ)*16) (2^32) = (16*nu : ℕ) := by
    rw [← bmod_small hint]
    push_cast
    rw [Int.mul_comm]
  cases b with
  | false =>
    left
    rw [morecore, hnu, harg, sbrk_small false hram (by omega) hint, if_neg Bool.false_ne_true]
    exact ⟨_, if_pos rfl⟩
  | true =>
    right
    obtain ⟨t, rest', hfree, hsz, -, hcircle, hlen, c, hc, hsize⟩ :=
      free_grown h (s.calls ++ [(((16*nu : ℕ) : ℤ), nu*16)]) (by omega) hint hfuel
    have hpage : ¬ s.sz+16 > pgroundup (s.sz+16*nu) := by
      rw [pgroundup]
      omega
    refine ⟨t, rest', ?_, hsz, hcircle, hlen, c, hc, by omega⟩
    rw [morecore, hnu, harg, sbrk_small true hram (by omega) hint, if_pos rfl, addcore, if_neg (by omega), if_neg hpage]
    rw [State.grown] at hfree
    rw [hfree]

/-! What malloc hands out. -/

/-- sbrk gets the number of bytes, and malloc returns 0 or a pointer to bytes below the program break. -/
def Sound (nbytes : ℕ) (r : Ret × State) : Prop := (∀ c ∈ r.2.calls, c.1 = c.2) ∧
  match r.1 with
  | .ptr p => p+nbytes ≤ r.2.sz
  | .null => True
  | _ => False

variable {nbytes base : ℕ} {ok : ℕ → Bool}

theorem Sound.below {r : Ret × State} {p : ℕ} (h : Sound nbytes r) (hret : r.1 = .ptr p) : p+nbytes ≤ r.2.sz := by
  obtain ⟨-, h⟩ := h
  rw [hret] at h
  exact h

theorem mem_circle : c ∈ rest ++ [s.freep] ↔ c ∈ s.freep :: rest := (perm_append_singleton s.freep rest).mem_iff

theorem sound_found (more : ℕ → State → Ret × State) (h : Circle s rest) (hcalls : ∀ c ∈ s.calls, c.1 = c.2)
    (hfuel : rest.length < fuel) (hfits : ∃ c ∈ s.freep :: rest, units nbytes ≤ (s.hdr c).size) :
    Sound nbytes (mallocLoop more (units nbytes) fuel s.freep (s.hdr s.freep).ptr s) := by
  obtain ⟨c, hc, hsize⟩ := hfits
  obtain ⟨d, hd, prevp, hlarge, hrun⟩ := mallocLoop_found more h.path (nodup_cons.mp h.once).1 hfuel
    ⟨c, mem_circle.mpr hc, hsize⟩
  have hinside := (h.inside d (mem_circle.mp hd)).2
  have hunits : nbytes+16 ≤ 16*units nbytes := by
    rw [units]
    omega
  obtain ⟨hret, hsz, hcall⟩ := carve_eq (units nbytes) prevp d s
  rw [hrun, Sound, hret, hsz, hcall]
  refine ⟨hcalls, ?_⟩
  show d+16*((s.hdr d).size-units nbytes)+16+nbytes ≤ s.sz
  omega

theorem malloc_sound_iff (h : FreeList (prepare base s) rest) (hcalls : s.calls = []) (hfuel : 2*rest.length+3 ≤ fuel) :
    Sound nbytes (malloc base ok fuel nbytes s) ↔
      nbytes ≤ 2^31-32 ∨ ∃ a ∈ (prepare base s).freep :: rest, units nbytes ≤ ((prepare base s).hdr a).size := by
  have hempty : (prepare base s).calls = [] := by
    rw [← hcalls, prepare]
    split_ifs <;> rfl
  rw [malloc]
  generalize prepare base s = u at *
  generalize hmore : (fun fuel s => morecore (ok s.calls.length) fuel (units nbytes) s) = more
  have happ (f : ℕ) (v : State) : more f v = morecore (ok v.calls.length) f (units nbytes) v := by rw [← hmore]
  by_cases hfits : ∃ a ∈ u.freep :: rest, units nbytes ≤ (u.hdr a).size
  · have hsound := sound_found more h.toCircle (by rw [hempty]; exact fun c hc => absurd hc not_mem_nil)
      (show rest.length < fuel by omega) hfits
    exact iff_of_true hsound (Or.inr hfits)
  rw [or_iff_left hfits]
  push Not at hfits
  -- no block is large enough, so morecore is called
  obtain ⟨f, rfl⟩ : ∃ f, fuel = rest.length+1+f := ⟨fuel-(rest.length+1), by omega⟩
  obtain ⟨nu, hnu⟩ : ∃ nu, (if units nbytes < 4096 then 4096 else units nbytes) = nu := ⟨_, rfl⟩
  have hunits : units nbytes = (nbytes+15)/16+1 := rfl
  have hcall (f : ℕ) (v : State) : (more f v).2.calls = v.calls ++ [(Int.bmod (nu*16) (2^32), nu*16)] := by
    rw [happ, morecore_calls _ hnu]
  have hlast := hcall f u
  rw [hempty, nil_append] at hlast
  have honce := (nodup_cons.mp h.once).1
  have hnone (c : ℕ) (hc : c ∈ rest ++ [u.freep]) := hfits c (mem_circle.mp hc)
  by_cases hint : nbytes ≤ 2^31-32
  · have hnu' : 16*nu < 2^31 := by
      rw [← hnu]
      split_ifs <;> omega
    have hequal : Int.bmod (nu*16) (2^32) = ((nu*16 : ℕ) : ℤ) := by
      exact_mod_cast bmod_small (show nu*16 < 2^31 by omega)
    have hcalls' : ∀ c ∈ (more f u).2.calls, c.1 = c.2 := by
      rw [hlast, hequal]
      exact forall_mem_singleton.mpr rfl
    refine iff_of_true ?_ hint
    rw [mallocLoop_more h.path honce hnone]
    rcases morecore_small h hnu hnu' (show rest.length < f by omega) (ok u.calls.length) with
      ⟨t, ht⟩ | ⟨t, rest', ht, -, hcircle, hlen, hlarge⟩
    · rw [happ, ht] at hcalls' ⊢
      exact ⟨hcalls', trivial⟩
    · rw [happ, ht] at hcalls' ⊢
      exact sound_found more hcircle hcalls' (show rest'.length < f by omega) hlarge
  · -- the int is not the number of bytes
    refine iff_of_false (fun hsound => ?_) hint
    have hmono : (more f u).2.calls ⊆ _ := mallocLoop_more_calls
      (fun g w => by rw [hcall g w]; exact subset_append_left ..) h.path honce hnone
    have hbound := bmod_lt_int ((nu : ℤ)*16)
    generalize Int.bmod ((nu : ℤ)*16) (2^32) = arg at hlast hbound
    have hequal : arg = ((nu*16 : ℕ) : ℤ) := hsound.1 (arg, nu*16) (hmono (by rw [hlast]; exact mem_cons_self))
    have hnu' : 2^31 ≤ nu*16 := by
      rw [← hnu]
      split_ifs <;> omega
    rw [hequal] at hbound
    omega

def allTaken : State := ⟨fun _ => ⟨0x3000, 0⟩, 0x3000, 86400, []⟩

/-- malloc(0x80000000) asks sbrk for a negative number of bytes and returns a pointer to the end of memory. -/
theorem malloc_hands_out_nothing : ¬ Sound 0x80000000 (malloc 0x3000 (fun _ => true) 5 0x80000000 allTaken) := by
  have hret : (malloc 0x3000 (fun _ => true) 5 0x80000000 allTaken).1 = .ptr 86416 := by decide +kernel
  have hsz : (malloc 0x3000 (fun _ => true) 5 0x80000000 allTaken).2.sz = 86400 := by decide +kernel
  intro hsound
  have hbelow := hsound.below hret
  rw [hsz] at hbelow
  norm_num at hbelow

theorem malloc_sound_page : Sound 4096 (malloc 0x3000 (fun _ => true) 5 4096 allTaken) := by
  have hlist : FreeList (prepare 0x3000 allTaken) [] :=
    ⟨⟨rfl, nodup_singleton _, forall_mem_singleton.mpr (by decide)⟩, by decide⟩
  exact (malloc_sound_iff hlist rfl (by decide)).mpr (Or.inl (by decide))

end Xv6.Malloc
