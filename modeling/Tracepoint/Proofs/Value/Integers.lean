/-
Whole numbers as text.

A double without a fractional part is written as the integer that it is, as long as it is small
enough for that.  From the bound of its style on it is written like any other double, and then its
text has a point or an exponent, which no integer has.

Main definitions:

* `Decimal.Marked` — texts with a point or an exponent.

Main results:

* `Decimal.not_marked_toString` — no natural number has such a text;
* `Decimal.Style.render_of_small` — **small whole numbers are written as integers**;
* `Decimal.Style.marked_render` — **larger ones are not**.
-/

import Mathlib.Data.Nat.Notation
import Mathlib.Tactic.SplitIfs
import Tracepoint.Decimal.Style

set_option relaxedAutoImplicit false
set_option autoImplicit false

namespace Tracepoint.Decimal

/-! ### Points and exponents -/

/-- The text has a point or an exponent. -/
def Marked (text : String) : Prop :=
  '.' ∈ text.toList ∨ 'e' ∈ text.toList

theorem Marked.append_left {text : String} (h : Marked text) (before : String) :
    Marked (before ++ text) := by
  rw [Marked, String.toList_append]
  exact h.imp (List.mem_append_right _) (List.mem_append_right _)

theorem Marked.append_right {text : String} (h : Marked text) (behind : String) :
    Marked (text ++ behind) := by
  rw [Marked, String.toList_append]
  exact h.imp (List.mem_append_left _) (List.mem_append_left _)

/-- A natural number is written in digits alone. -/
theorem isDigit_of_mem_toString {n : ℕ} {c : Char} (h : c ∈ (toString n).toList) :
    c.isDigit = true := by
  rw [Nat.toString_eq_ofList_toDigits, String.toList_ofList] at h
  exact Nat.isDigit_of_mem_toDigits (by decide) (by decide) h

/-- No natural number has a point or an exponent. -/
theorem not_marked_toString (n : ℕ) : ¬Marked (toString n) := by
  rintro (hpoint | hexponent)
  · exact absurd (isDigit_of_mem_toString hpoint) (by decide)
  · exact absurd (isDigit_of_mem_toString hexponent) (by decide)

/-- Without exponent there is a point, if whole numbers end in one. -/
theorem Layout.marked_positional {layout : Layout} (hend : Marked layout.wholeEnd)
    (digits : List Char) (point : Int) : Marked (layout.positional digits point) := by
  have hpoint : Marked "." := Or.inl (by decide)
  have hzero : Marked "0." := Or.inl (by decide)
  rw [positional]
  split_ifs
  · exact hend.append_left _
  · exact (hpoint.append_left _).append_right _
  · exact (hzero.append_right _).append_right _

theorem Scientific.marked_text (s : Scientific) (digits : List Char) (point : Int) :
    Marked (s.text digits point) := by
  have hexponent : Marked "e" := Or.inr (by decide)
  exact ((hexponent.append_left _).append_right _).append_right _

theorem Layout.marked_render {layout : Layout} (hend : Marked layout.wholeEnd) (d : Digits) :
    Marked (layout.render d) := by
  cases hscientific : layout.scientific? with
  | none =>
      simp only [render, hscientific]
      exact marked_positional hend _ _
  | some s =>
      simp only [render, hscientific]
      split_ifs
      · exact marked_positional hend _ _
      · exact s.marked_text _ _

/-! ### Whole numbers -/

/-- What is whole is finite. -/
theorem Binary.exists_finite {b : Binary} {value : Int} (h : b.whole? = some value) :
    ∃ negative mantissa exponent, b = .finite negative mantissa exponent := by
  cases b with
  | notANumber => cases h
  | infinite negative => cases h
  | finite negative mantissa exponent => exact ⟨_, _, _, rfl⟩

/-- The value of a double that has no mantissa is zero. -/
theorem Binary.whole?_zero (negative : Bool) (exponent : Int) :
    (finite negative 0 exponent).whole? = some 0 := by
  have hmagnitude : (finite negative 0 exponent).wholeMagnitude? = some 0 := by
    rw [wholeMagnitude?, Nat.zero_mul, Nat.zero_mod, Nat.zero_div, if_pos rfl, ite_self]
  rw [whole?, hmagnitude]
  cases negative <;> rfl

namespace Style

variable {style : Style} {x : Float} {value : Int}

/-- **Small whole numbers are written as integers.** -/
theorem render_of_small (h : whole? x = some value) (hsmall : value.natAbs < style.integersBelow) :
    style.render x = toString value := by
  rw [Decimal.whole?] at h
  obtain ⟨negative, mantissa, exponent, hx⟩ := Binary.exists_finite h
  rw [hx] at h
  rw [render, hx]
  simp only [h]
  rw [if_pos hsmall]

/-- **Larger ones are not.** -/
theorem marked_render (h : whole? x = some value) (hlarge : style.integersBelow ≤ value.natAbs)
    (hvalue : value ≠ 0) (hend : Marked style.layout.wholeEnd) : Marked (style.render x) := by
  rw [Decimal.whole?] at h
  obtain ⟨negative, mantissa, exponent, hx⟩ := Binary.exists_finite h
  rw [hx] at h
  have hmantissa : mantissa ≠ 0 := by
    rintro rfl
    rw [Binary.whole?_zero] at h
    exact hvalue (Option.some.inj h).symm
  rw [render, hx]
  simp only [h]
  rw [if_neg (Nat.not_lt.2 hlarge), if_neg hmantissa]
  exact (Layout.marked_render hend _).append_left _

end Style

end Tracepoint.Decimal
