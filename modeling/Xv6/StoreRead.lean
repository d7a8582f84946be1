import Xv6.StoreBmap
import Xv6.StoreInode

/-! Reading: readi returns the bytes of the file and changes nothing. The loops over a directory
read its entries. -/
namespace Xv6.Store
open Bytes Hoare List

variable {sb : Superblock} {p p' : Parts} {E : Panic → Prop} {i dp : ℕ}

variable {off fuel : ℕ}

theorem load_block {m : ℕ} (hm : off%bsize+m ≤ bsize) :
    load (p.data (p.block i (off/bsize))) (off%bsize) m = load (p.byte i) off m := by
  have hb : bsize = 1024 := rfl
  apply map_congr_left
  intro k hk
  have hk' := mem_range.mp hk
  have hdiv : (off+k)/bsize = off/bsize := by
    rw [hb] at hm ⊢
    omega
  have hmod : (off+k)%bsize = off%bsize+k := by
    rw [hb] at hm ⊢
    omega
  rw [Parts.byte, hdiv, hmod]

theorem readiLoop_spec (ho : p.Owned sb ∅ ∅) (hl : p.Locked sb i) (ok : ℕ → Bool) {n : ℕ}
    (hfuel : n ≤ fuel) {dst : ℕ} {acc : List UInt8}
    (hfull : ∀ k, off ≤ k → k < off+n → p.block i (k/bsize) ≠ 0) :
    Triple E (At sb p) (readiLoop sb i ok fuel dst off n acc)
      (fun r s => (∀ bs, r = some bs → bs = acc ++ load (p.byte i) off n) ∧ At sb p s) := by
  have hb : bsize = 1024 := rfl
  induction fuel generalizing dst off n acc with
  | zero =>
    apply Triple.pure
    intro s hs
    refine ⟨fun bs hbs => ?_, hs⟩
    have hn : n = 0 := by omega
    rw [← Option.some.inj hbs, hn]
    exact (append_nil acc).symm
  | succ fuel ih =>
    apply Triple.ite
    · intro hn
      apply Triple.pure
      intro s hs
      refine ⟨fun bs hbs => ?_, hs⟩
      rw [← Option.some.inj hbs, hn]
      exact (append_nil acc).symm
    intro hn
    have h0 : p.block i (off/bsize) ≠ 0 := hfull off (by omega) (by omega)
    obtain ⟨hlo, hhi⟩ := ho.block_range hl.live h0
    refine .bind_and (bmap_present ho hl h0) ?_
    rintro b rfl
    apply bread_data hlo hhi
    apply Triple.ite
    · intro _
      have hmin : min n (bsize-off%bsize) ≤ n := Nat.min_le_left ..
      have hmod : off%bsize < bsize := Nat.mod_lt _ (by decide)
      have hle : off%bsize+min n (bsize-off%bsize) ≤ bsize := by omega
      refine Triple.post (ih (by omega) (fun k hk hk' => hfull k (by omega) (by omega))) ?_
      rintro r s ⟨hr, hs⟩
      refine ⟨fun bs hbs => ?_, hs⟩
      calc
        bs = (acc ++ load (p.byte i) off (min n (bsize-off%bsize))) ++
            load (p.byte i) (off+min n (bsize-off%bsize)) (n-min n (bsize-off%bsize)) := by
          rw [hr bs hbs, load_block hle]
        _ = acc ++ load (p.byte i) off n := by rw [append_assoc, ← load_append, Nat.add_sub_cancel' hmin]
    · intro _
      apply Triple.pure
      exact fun s hs => ⟨fun bs hbs => (nomatch hbs), hs⟩

theorem readi_spec (h : p.Sound sb) (hl : p.Locked sb i) (ok : ℕ → Bool) (dst off n : ℕ) :
    Triple E (At sb p) (readi sb i ok dst off n)
      (fun r s => (∀ bs, r = some bs → bs ≠ [] → off+bs.length ≤ (p.view i).size.toNat ∧
        bs = load (p.byte i) off bs.length) ∧ At sb p s) := by
  apply incore_bind
  rw [← hl.loaded.view]
  apply Triple.ite
  · intro _
    apply Triple.pure
    exact fun s hs => ⟨fun bs hbs hne => absurd (Option.some.inj hbs).symm hne, hs⟩
  intro hoff
  push Not at hoff
  have hle : off+(if off+n > (p.view i).size.toNat then (p.view i).size.toNat-off else n) ≤ (p.view i).size.toNat := by
    split_ifs with hc <;> omega
  apply (readiLoop_spec h.owned hl ok le_rfl (fun k _ hk => (h.file hl).block_ne (hk.trans_le hle))).post
  rintro r s ⟨hr, hs⟩
  refine ⟨fun bs hbs _ => ?_, hs⟩
  have hbs' := hr bs hbs
  rw [nil_append] at hbs'
  have hlen := congrArg List.length hbs'
  rw [length_load] at hlen
  rw [hlen]
  exact ⟨hle, hbs'⟩

section
variable (hE : Calm E) (h : p.Sound sb) (hl : p.Locked sb dp)
include hE h hl

theorem readDirent_spec (off : ℕ) {e : Panic} (he : e ≠ .freeingFreeBlock) : Triple E (At sb p) (readDirent sb dp off e)
      (fun de s => (off+direntSize ≤ (p.view dp).size.toNat ∧ direntInum de = p.inumAt dp off) ∧ At sb p s) := by
  refine .bind_and (readi_spec h hl _ _ _ _) (fun r hr => ?_)
  cases r with
  | none =>
    apply Triple.throw
    exact fun _ _ => hE e he
  | some de =>
    apply Triple.ite
    · intro _
      apply Triple.throw
      exact fun _ _ => hE e he
    intro hlen
    apply Triple.pure
    intro s hs
    have hlen' : de.length = direntSize := not_not.mp hlen
    have hne : de ≠ [] := fun hz => by
      rw [hz] at hlen'
      exact absurd hlen' (by decide)
    obtain ⟨hle, hde⟩ := hr de rfl hne
    rw [hlen'] at hle hde
    refine ⟨⟨hle, ?_⟩, hs⟩
    rw [hde]
    rfl

theorem dirlookupLoop_spec (hdir : (p.view dp).type = tDir) (name : Dir.Name) (hoff : off%direntSize = 0) :
    Triple E (At sb p) (dirlookupLoop sb dp name fuel off) (fun r s => match r with
        | none => At sb p s
        | some (i, off) => (i < sb.ninodes ∧ off%direntSize = 0) ∧ At sb (p.get i) s) := by
  induction fuel generalizing off with
  | zero =>
    apply Triple.pure
    exact fun _ hs => hs
  | succ fuel ih =>
    refine .bind_and (readDirent_spec hE h hl off (by decide)) ?_
    rintro de ⟨hle, hde⟩
    apply Triple.ite
    · intro _
      have hlt : direntInum de < sb.ninodes := by
        rw [hde]
        exact (h.file hl).inums hdir off hoff hle
      refine .bind (iget_spec hE _) (fun _ => ?_)
      apply Triple.pure
      exact fun s hs => ⟨⟨hlt, hoff⟩, hs⟩
    · intro _
      apply ih
      rw [Nat.add_mod_right, hoff]

theorem dirlookup_spec (name : Dir.Name) : Triple E (At sb p) (dirlookup sb dp name) (fun r s => match r with
        | none => (p.view dp).type = tDir ∧ At sb p s
        | some (i, off) => (i < sb.ninodes ∧ off%direntSize = 0 ∧ (p.view dp).type = tDir) ∧
            At sb (p.get i) s) := by
  apply incore_bind
  rw [← hl.loaded.view]
  refine .ite_throw (hE _ (by decide)) (fun hdir => ?_)
  have hdir' : (p.view dp).type = tDir := not_not.mp hdir
  apply (dirlookupLoop_spec hE h hl hdir' name rfl).post
  intro r s hr
  rcases r with - | ⟨i, off⟩
  · exact ⟨hdir', hr⟩
  · exact ⟨⟨hr.1.1, hr.1.2, hdir'⟩, hr.2⟩

theorem emptySlot_spec (hoff : off%direntSize = 0) :
    Triple E (At sb p) (emptySlot sb dp fuel off) (fun r s => r%direntSize = 0 ∧ At sb p s) := by
  induction fuel generalizing off with
  | zero =>
    apply Triple.pure
    exact fun _ hs => ⟨hoff, hs⟩
  | succ fuel ih =>
    refine .bind_and (readDirent_spec hE h hl off (by decide)) (fun de _ => ?_)
    apply Triple.ite
    · intro _
      apply Triple.pure
      exact fun s hs => ⟨hoff, hs⟩
    · intro _
      apply ih
      rw [Nat.add_mod_right, hoff]

theorem isdiremptyLoop_spec (fuel off : ℕ) : Triple E (At sb p) (isdiremptyLoop sb dp fuel off) (fun _ => At sb p) := by
  induction fuel generalizing off with
  | zero =>
    apply Triple.pure
    exact fun _ hs => hs
  | succ fuel ih =>
    refine .bind_and (readDirent_spec hE h hl off (by decide)) (fun de _ => ?_)
    apply Triple.ite
    · intro _
      apply Triple.pure
      exact fun s hs => hs
    · exact fun _ => ih _

end

theorem removable_spec (hE : Calm E) (h : p.Sound sb) (hl : p.Locked sb i) :
    Triple E (At sb p) (removable sb i) (fun _ => At sb p) := by
  apply incore_bind
  refine .ite_throw (hE _ (by decide)) (fun _ => ?_)
  apply Triple.ite
  · intro _
    apply incore_bind
    exact isdiremptyLoop_spec hE h hl _ _
  · intro _
    apply Triple.pure
    exact fun _ hs => hs

end Xv6.Store
