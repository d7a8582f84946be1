import Mathlib.Computability.Language
import Mathlib.Tactic

/-! The pattern matcher of user/grep.c and the set of words a pattern stands for. A string is the
list of its bytes before the terminating zero. -/
namespace Xv6.Grep
open List
open scoped Computability

def caret : UInt8 := 94
def dollar : UInt8 := 36
def star : UInt8 := 42
def dot : UInt8 := 46

/-- The loop of matchstar; `here` is the call of matchhere on the pattern behind the star. -/
def matchstar (c : UInt8) (here : List UInt8 → Bool) : List UInt8 → Bool
  | [] => here []
  | t :: text => here (t :: text) || (decide (t = c ∨ c = dot) && matchstar c here text)

def matchchar (c : UInt8) (here : List UInt8 → Bool) : List UInt8 → Bool
  | [] => false
  | t :: text => decide (c = dot ∨ c = t) && here text

def matchhere : List UInt8 → List UInt8 → Bool
  | [], _ => true
  | [c], text => if c = dollar then text.isEmpty else matchchar c (matchhere []) text
  | c :: r :: re, text =>
    if r = star then matchstar c (matchhere re) text else matchchar c (matchhere (r :: re)) text

/-- The loop of match looks at every end of the text, at the empty one too. -/
def matchLoop (re : List UInt8) : List UInt8 → Bool
  | [] => matchhere re []
  | t :: text => matchhere re (t :: text) || matchLoop re text

def matchRe (re text : List UInt8) : Bool :=
  if re.head? = some caret then matchhere re.tail text else matchLoop re text

inductive Item where
  | one (c : UInt8)
  | many (c : UInt8)
  deriving DecidableEq

/-- The items of a pattern behind its leading anchor, and whether an end anchor follows them. -/
def items : List UInt8 → List Item × Bool
  | [] => ([], false)
  | [c] => if c = dollar then ([], true) else ([.one c], false)
  | c :: r :: re =>
    if r = star then (.many c :: (items re).1, (items re).2)
    else (.one c :: (items (r :: re)).1, (items (r :: re)).2)

def charLang (c : UInt8) : Language UInt8 := {w | ∃ t, w = [t] ∧ (c = dot ∨ c = t)}

def Item.lang : Item → Language UInt8
  | .one c => charLang c
  | .many c => (charLang c)∗

def itemsLang (is : List Item) : Language UInt8 := (is.map Item.lang).prod

theorem mem_charLang_star {c : UInt8} {w : List UInt8} : w ∈ (charLang c)∗ ↔ ∀ t ∈ w, c = dot ∨ c = t := by
  rw [Language.mem_kstar]
  constructor
  · rintro ⟨ws, rfl, hws⟩ t ht
    obtain ⟨u, hu, htu⟩ := mem_flatten.mp ht
    obtain ⟨t', rfl, hc⟩ := hws u hu
    obtain rfl : t = t' := mem_singleton.mp htu
    exact hc
  intro h
  refine ⟨w.map (fun t => [t]), (flatMap_singleton' w).symm, ?_⟩
  intro u hu
  obtain ⟨t, ht, rfl⟩ := mem_map.mp hu
  exact ⟨t, rfl, h t ht⟩

theorem itemsLang_cons (i : Item) (is : List Item) : itemsLang (i :: is) = i.lang * itemsLang is := by
  simp only [itemsLang, map_cons, prod_cons]

/-- A word at the start of the text, up to its end if `last` is set. -/
def MatchAt (L : Language UInt8) (last : Bool) (text : List UInt8) : Prop :=
  ∃ w rest, text = w ++ rest ∧ w ∈ L ∧ (last = true → rest = [])

theorem matchAt_one (text : List UInt8) : MatchAt 1 false text := ⟨[], text, rfl, Language.nil_mem_one, nofun⟩

theorem matchAt_one_last (text : List UInt8) : MatchAt 1 true text ↔ text = [] := by
  constructor
  · rintro ⟨w, rest, rfl, hw, hr⟩
    rw [(Language.mem_one w).mp hw, hr rfl, append_nil]
  · rintro rfl
    exact ⟨[], [], rfl, Language.nil_mem_one, fun _ => rfl⟩

theorem matchAt_mul {L M : Language UInt8} {last : Bool} {text : List UInt8} :
    MatchAt (L*M) last text ↔ ∃ w rest, text = w ++ rest ∧ w ∈ L ∧ MatchAt M last rest := by
  constructor
  · rintro ⟨w, rest, rfl, hw, hr⟩
    obtain ⟨a, ha, b, hb, rfl⟩ := Language.mem_mul.mp hw
    exact ⟨a, b ++ rest, append_assoc a b rest, ha, b, rest, rfl, hb, hr⟩
  · rintro ⟨a, _, rfl, ha, b, rest, rfl, hb, hr⟩
    exact ⟨a ++ b, rest, (append_assoc a b rest).symm, Language.append_mem_mul ha hb, hr⟩

section
variable {M : Language UInt8} {last : Bool} {here : List UInt8 → Bool}
  (hhere : ∀ text, here text = true ↔ MatchAt M last text)
include hhere

theorem matchchar_iff (c : UInt8) (text : List UInt8) :
    matchchar c here text = true ↔ MatchAt (charLang c*M) last text := by
  rw [matchAt_mul]
  constructor
  · intro h
    cases text with
    | nil => exact absurd h Bool.false_ne_true
    | cons t text =>
      simp only [matchchar, Bool.and_eq_true, decide_eq_true_eq] at h
      exact ⟨[t], text, rfl, ⟨t, rfl, h.1⟩, (hhere text).mp h.2⟩
  · rintro ⟨w, rest, rfl, ⟨t, rfl, hc⟩, hr⟩
    simp only [cons_append, nil_append, matchchar, Bool.and_eq_true, decide_eq_true_eq]
    exact ⟨hc, (hhere rest).mpr hr⟩

theorem matchstar_iff (c : UInt8) (text : List UInt8) :
    matchstar c here text = true ↔ MatchAt ((charLang c)∗*M) last text := by
  rw [matchAt_mul]
  induction text with
  | nil =>
    rw [matchstar, hhere]
    constructor
    · intro h
      exact ⟨[], [], rfl, Language.nil_mem_kstar _, h⟩
    · rintro ⟨w, rest, h, -, hr⟩
      obtain ⟨rfl, rfl⟩ := append_eq_nil_iff.mp h.symm
      exact hr
  | cons t text ih =>
    rw [matchstar, Bool.or_eq_true, Bool.and_eq_true, decide_eq_true_eq, hhere, ih]
    constructor
    · rintro (h | ⟨hc, w, rest, rfl, hw, hr⟩)
      · exact ⟨[], t :: text, rfl, Language.nil_mem_kstar _, h⟩
      refine ⟨t :: w, rest, rfl, mem_charLang_star.mpr ?_, hr⟩
      rintro u (_ | ⟨_, hu⟩)
      · exact hc.symm.imp id Eq.symm
      · exact mem_charLang_star.mp hw u hu
    rintro ⟨w, rest, h, hw, hr⟩
    rw [mem_charLang_star] at hw
    -- either the star takes nothing, or the first character and then the loop goes on
    cases w with
    | nil => exact Or.inl (by rwa [h])
    | cons u w =>
      obtain ⟨rfl, rfl⟩ := List.cons.inj h
      refine Or.inr ⟨(hw t mem_cons_self).symm.imp Eq.symm id, w, rest, rfl, ?_, hr⟩
      exact mem_charLang_star.mpr (fun v hv => hw v (mem_cons_of_mem t hv))

end

theorem matchhere_iff (re text : List UInt8) :
    matchhere re text = true ↔ MatchAt (itemsLang (items re).1) (items re).2 text := by
  induction re using items.induct generalizing text with
  | case1 => exact iff_of_true rfl (matchAt_one text)
  | case2 =>
    rw [matchhere, if_pos rfl, List.isEmpty_iff]
    exact (matchAt_one_last text).symm
  | case3 c hc =>
    rw [matchhere, items, if_neg hc, if_neg hc, itemsLang_cons]
    exact matchchar_iff (fun text => iff_of_true rfl (matchAt_one text)) c text
  | case4 c re ih =>
    rw [matchhere, items, if_pos rfl, if_pos rfl, itemsLang_cons]
    exact matchstar_iff ih c text
  | case5 c r re hr ih =>
    rw [matchhere, items, if_neg hr, if_neg hr, itemsLang_cons]
    exact matchchar_iff ih c text

theorem matchLoop_iff (re text : List UInt8) :
    matchLoop re text = true ↔ ∃ before rest, text = before ++ rest ∧ matchhere re rest = true := by
  induction text with
  | nil =>
    rw [matchLoop]
    constructor
    · intro h
      exact ⟨[], [], rfl, h⟩
    · rintro ⟨before, rest, h, hr⟩
      rwa [(append_eq_nil_iff.mp h.symm).2] at hr
  | cons t text ih =>
    rw [matchLoop, Bool.or_eq_true, ih]
    constructor
    · rintro (h | ⟨before, rest, rfl, h⟩)
      · exact ⟨[], t :: text, rfl, h⟩
      · exact ⟨t :: before, rest, rfl, h⟩
    rintro ⟨before, rest, h, hr⟩
    cases before with
    | nil => exact Or.inl (by rwa [h])
    | cons u before =>
      obtain ⟨-, rfl⟩ := List.cons.inj h
      exact Or.inr ⟨before, rest, rfl, hr⟩

def body (re : List UInt8) : List UInt8 := if re.head? = some caret then re.tail else re

/-- match answers whether a part of the text, as far as the anchors allow it, is a concatenation of
words of the items in order. -/
theorem match_iff_language (re text : List UInt8) :
    matchRe re text = true ↔ ∃ before w after, text = before ++ w ++ after ∧
      w ∈ itemsLang (items (body re)).1 ∧ (re.head? = some caret → before = []) ∧
      ((items (body re)).2 = true → after = []) := by
  by_cases hc : re.head? = some caret
  · rw [matchRe, if_pos hc, matchhere_iff, body, if_pos hc]
    constructor
    · rintro ⟨w, after, rfl, hw, ha⟩
      exact ⟨[], w, after, rfl, hw, fun _ => rfl, ha⟩
    · rintro ⟨before, w, after, rfl, hw, hb, ha⟩
      rw [hb hc]
      exact ⟨w, after, rfl, hw, ha⟩
  rw [matchRe, if_neg hc, matchLoop_iff, body, if_neg hc]
  constructor
  · rintro ⟨before, rest, rfl, h⟩
    obtain ⟨w, after, rfl, hw, ha⟩ := (matchhere_iff re rest).mp h
    exact ⟨before, w, after, (append_assoc _ _ _).symm, hw, fun h => absurd h hc, ha⟩
  · rintro ⟨before, w, after, rfl, hw, -, ha⟩
    exact ⟨before, w ++ after, append_assoc _ _ _, (matchhere_iff re _).mpr ⟨w, after, rfl, hw, ha⟩⟩

-- A star before an end anchor, and a leading anchor that the text does not meet.
example : matchRe [98, star, 99, dollar] [97, 98, 98, 99] = true := by decide
example : matchRe [caret, 98] [97, 98] = false := by decide

end Xv6.Grep
