import Mathlib.Computability.Language

/-!
# The regular expressions of `grep`

A string is the list of its bytes before the NUL.
-/

namespace Xv6

namespace Grep

def caret : UInt8 := 94
def dollar : UInt8 := 36
def dot : UInt8 := 46
def star : UInt8 := 42

/-- `matchstar(c, re, text)`, where `here` is `matchhere(re, ·)` -/
def matchstar (c : UInt8) (here : List UInt8 → Bool) : List UInt8 → Bool
  | [] => here []
  | t :: text => here (t :: text) || ((t == c || c == dot) && matchstar c here text)

/-- The last `if` of `matchhere`, with `here` for the rest of the expression -/
def matchchar (c : UInt8) (here : List UInt8 → Bool) : List UInt8 → Bool
  | [] => false
  | t :: text => (c == dot || c == t) && here text

def matchhere : List UInt8 → List UInt8 → Bool
  | [], _ => true
  -- `re[1]` is the NUL
  | [c], text => if c = dollar then text.isEmpty else matchchar c (matchhere []) text
  | c :: d :: re, text =>
    if d = star then matchstar c (matchhere re) text else matchchar c (matchhere (d :: re)) text

/-- The loop of `match` -/
def matchLoop (re : List UInt8) : List UInt8 → Bool
  | [] => matchhere re []
  | t :: text => matchhere re (t :: text) || matchLoop re text

/-- `match` -/
def matchText (re text : List UInt8) : Bool :=
  match re with
  | c :: re' => if c = caret then matchhere re' text else matchLoop re text
  | [] => matchLoop re text

/-- A character of the expression, and whether a `*` is behind it -/
structure Item where
  char : UInt8
  starred : Bool

/-- An expression in its parts -/
structure Pattern where
  /-- It starts with `^`. -/
  atStart : Bool
  items : List Item
  /-- It ends with a `$` that is not starred. -/
  atEnd : Bool

/-- The items from here on, and whether a `$` ends them -/
def readItems : List UInt8 → List Item × Bool
  | [] => ([], false)
  | [c] => if c = dollar then ([], true) else ([⟨c, false⟩], false)
  | c :: d :: re =>
    if d = star then (⟨c, true⟩ :: (readItems re).1, (readItems re).2)
    else (⟨c, false⟩ :: (readItems (d :: re)).1, (readItems (d :: re)).2)

def Pattern.read : List UInt8 → Pattern
  | [] => ⟨false, [], false⟩
  | c :: re =>
    if c = caret then ⟨true, (readItems re).1, (readItems re).2⟩
    else ⟨false, (readItems (c :: re)).1, (readItems (c :: re)).2⟩

/-- The texts of one character that `c` stands for -/
def single (c : UInt8) : Language UInt8 := {w | ∃ t, w = [t] ∧ (c = dot ∨ t = c)}

open scoped Computability in
def Item.language (x : Item) : Language UInt8 := if x.starred then (single x.char)∗ else single x.char

def language (items : List Item) : Language UInt8 := (items.map Item.language).prod

/-- A part of the text is in the language, at its start or end if the expression says so. -/
def Pattern.Occurs (p : Pattern) (text : List UInt8) : Prop :=
  ∃ before part behind, text = before ++ part ++ behind ∧ part ∈ language p.items ∧
    (p.atStart → before = []) ∧ (p.atEnd → behind = [])

variable {w : List UInt8}

theorem language_nil : w ∈ language [] ↔ w = [] := Language.mem_one w

theorem language_cons {x : Item} {items : List Item} :
    w ∈ language (x :: items) ↔ ∃ u ∈ x.language, ∃ v ∈ language items, u ++ v = w := by
  rw [language, List.map_cons, List.prod_cons]
  exact Language.mem_mul

open scoped Computability in
theorem cons_mem_star {c t : UInt8} :
    t :: w ∈ (single c)∗ ↔ (c = dot ∨ t = c) ∧ w ∈ (single c)∗ := by
  constructor
  · intro h
    rw [← Language.one_add_self_mul_kstar_eq_kstar, Language.mem_add, Language.mem_mul] at h
    rcases h with h | ⟨u, ⟨t', rfl, ht'⟩, v, hv, heq⟩
    · cases (Language.mem_one _).mp h
    · cases heq
      exact ⟨ht', hv⟩
  · intro h
    rw [← Language.one_add_self_mul_kstar_eq_kstar, Language.mem_add, Language.mem_mul]
    exact .inr ⟨[t], ⟨t, rfl, h.1⟩, w, h.2, rfl⟩

variable {text : List UInt8}

open scoped Computability in
theorem matchstar_iff {c : UInt8} {here : List UInt8 → Bool} :
    matchstar c here text = true ↔ ∃ u ∈ (single c)∗, ∃ v, text = u ++ v ∧ here v = true := by
  induction text with
  | nil =>
    rw [matchstar]
    constructor
    · intro h
      exact ⟨[], Language.nil_mem_kstar _, [], rfl, h⟩
    · rintro ⟨u, -, v, heq, h⟩
      obtain ⟨rfl, rfl⟩ := List.append_eq_nil_iff.mp heq.symm
      exact h
  | cons t text ih =>
    rw [matchstar, Bool.or_eq_true, Bool.and_eq_true, ih, Bool.or_eq_true, beq_iff_eq, beq_iff_eq]
    constructor
    · rintro (h | ⟨ht, u, hu, v, rfl, hv⟩)
      · exact ⟨[], Language.nil_mem_kstar _, t :: text, rfl, h⟩
      · exact ⟨t :: u, cons_mem_star.mpr ⟨ht.symm, hu⟩, v, rfl, hv⟩
    · rintro ⟨u, hu, v, heq, hv⟩
      cases u with
      | nil =>
        rw [heq]
        exact .inl hv
      | cons t' u =>
        cases heq
        obtain ⟨ht, hu⟩ := cons_mem_star.mp hu
        exact .inr ⟨ht.symm, u, hu, v, rfl, hv⟩

theorem matchchar_iff {c : UInt8} {here : List UInt8 → Bool} :
    matchchar c here text = true ↔ ∃ u ∈ single c, ∃ v, text = u ++ v ∧ here v = true := by
  cases text with
  | nil =>
    constructor
    · nofun
    · rintro ⟨u, ⟨t, rfl, -⟩, v, heq, -⟩
      cases heq
  | cons t text =>
    rw [matchchar, Bool.and_eq_true, Bool.or_eq_true, beq_iff_eq, beq_iff_eq]
    constructor
    · rintro ⟨ht, h⟩
      exact ⟨[t], ⟨t, rfl, ht.imp_right Eq.symm⟩, text, rfl, h⟩
    · rintro ⟨u, ⟨t', rfl, ht⟩, v, heq, h⟩
      cases heq
      exact ⟨ht.imp_right Eq.symm, h⟩

/-- A text that starts with one of the language, or is one -/
def Begins (items : List Item × Bool) (text : List UInt8) : Prop :=
  ∃ part ∈ language items.1, ∃ behind, text = part ++ behind ∧ (items.2 → behind = [])

theorem begins_cons {x : Item} {items : List Item} {atEnd : Bool} :
    Begins (x :: items, atEnd) text ↔
      ∃ u ∈ x.language, ∃ v, text = u ++ v ∧ Begins (items, atEnd) v := by
  constructor
  · rintro ⟨part, hpart, behind, rfl, hend⟩
    obtain ⟨u, hu, v, hv, rfl⟩ := language_cons.mp hpart
    exact ⟨u, hu, v ++ behind, List.append_assoc .., v, hv, behind, rfl, hend⟩
  · rintro ⟨u, hu, v, rfl, part, hpart, behind, rfl, hend⟩
    exact ⟨u ++ part, language_cons.mpr ⟨u, hu, part, hpart, rfl⟩, behind, (List.append_assoc ..).symm, hend⟩

theorem begins_nil {atEnd : Bool} :
    Begins ([], atEnd) text ↔ (atEnd → text = []) := by
  constructor
  · rintro ⟨part, hpart, behind, rfl, hend⟩
    rw [language_nil.mp hpart]
    exact hend
  · intro hend
    exact ⟨[], language_nil.mpr rfl, text, rfl, hend⟩

theorem matchhere_iff (re text : List UInt8) :
    matchhere re text = true ↔ Begins (readItems re) text := by
  induction re using readItems.induct generalizing text with
  | case1 =>
    rw [matchhere, readItems, begins_nil]
    exact ⟨nofun, fun _ => rfl⟩
  | case2 =>
    rw [matchhere, readItems, if_pos rfl, if_pos rfl, begins_nil, List.isEmpty_iff]
    exact ⟨fun h _ => h, fun h => h rfl⟩
  | case3 c hc =>
    rw [matchhere, readItems, if_neg hc, if_neg hc, matchchar_iff, begins_cons]
    simp only [matchhere, begins_nil]
    simp [Item.language]
  | case4 c re ih =>
    rw [matchhere, readItems, if_pos rfl, if_pos rfl, matchstar_iff, begins_cons]
    simp only [ih]
    rfl
  | case5 c d re hd ih =>
    rw [matchhere, readItems, if_neg hd, if_neg hd, matchchar_iff, begins_cons]
    simp only [ih]
    rfl

theorem matchLoop_iff (re text : List UInt8) :
    matchLoop re text = true ↔ ∃ before v, text = before ++ v ∧ matchhere re v = true := by
  induction text with
  | nil =>
    rw [matchLoop]
    constructor
    · intro h
      exact ⟨[], [], rfl, h⟩
    · rintro ⟨before, v, heq, h⟩
      obtain ⟨rfl, rfl⟩ := List.append_eq_nil_iff.mp heq.symm
      exact h
  | cons t text ih =>
    rw [matchLoop, Bool.or_eq_true, ih]
    constructor
    · rintro (h | ⟨before, v, rfl, h⟩)
      · exact ⟨[], t :: text, rfl, h⟩
      · exact ⟨t :: before, v, rfl, h⟩
    · rintro ⟨before, v, heq, h⟩
      cases before with
      | nil =>
        rw [heq]
        exact .inl h
      | cons t' before =>
        cases heq
        exact .inr ⟨before, v, rfl, h⟩

theorem begins_iff {items : List Item × Bool} :
    Begins items text ↔ Pattern.Occurs ⟨true, items.1, items.2⟩ text := by
  constructor
  · rintro ⟨part, hpart, behind, rfl, hend⟩
    exact ⟨[], part, behind, rfl, hpart, fun _ => rfl, hend⟩
  · rintro ⟨before, part, behind, rfl, hpart, hstart, hend⟩
    rw [hstart rfl]
    exact ⟨part, hpart, behind, rfl, hend⟩

theorem begins_behind_iff {items : List Item × Bool} :
    (∃ before v, text = before ++ v ∧ Begins items v) ↔ Pattern.Occurs ⟨false, items.1, items.2⟩ text := by
  constructor
  · rintro ⟨before, v, rfl, part, hpart, behind, rfl, hend⟩
    exact ⟨before, part, behind, (List.append_assoc ..).symm, hpart, nofun, hend⟩
  · rintro ⟨before, part, behind, rfl, hpart, -, hend⟩
    exact ⟨before, part ++ behind, List.append_assoc .., part, hpart, behind, rfl, hend⟩

/-- `match` finds the expression exactly if it occurs in the text. -/
theorem match_correct (re text : List UInt8) :
    matchText re text = true ↔ (Pattern.read re).Occurs text := by
  cases re with
  | nil =>
    rw [matchText, matchLoop_iff, Pattern.read]
    simp only [matchhere_iff]
    exact begins_behind_iff
  | cons c re =>
    rw [matchText, Pattern.read]
    split
    · exact (matchhere_iff re text).trans begins_iff
    · rw [matchLoop_iff]
      simp only [matchhere_iff]
      exact begins_behind_iff

-- `^a*$` in `aa`, and `^*` in `*b`: a `*` with nothing before it is a literal
example : matchText [caret, 97, star, dollar] [97, 97] = true ∧ matchText [caret, star] [star, 98] = true := by
  decide

end Grep

end Xv6
