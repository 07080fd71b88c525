/-
Sets of code points.

A property of characters that the Unicode standard gives as data is a table: the closed ranges of
the code points that it holds of, in ascending order.  Looking a code point up then stops at the
first range that does not end before it.

* `CodePoints`, `CodePoints.contains` — a table, and looking a code point up in it;
* `CodePoints.ascendsFrom` — the ranges are not empty, do not touch each other out of order, and
  none starts below a bound;
* `contains_iff_exists_range` — in an ascending table the look-up finds exactly the code points
  that lie in one of the ranges.
-/

set_option relaxedAutoImplicit false
set_option autoImplicit false

namespace Tracepoint.Text

/-- A set of code points: the first and the last of each range, in ascending order. -/
abbrev CodePoints := List (Nat × Nat)

namespace CodePoints

/-- The code point `n` is in the table: the first range that does not end before `n` decides. -/
def contains : CodePoints → Nat → Bool
  | [], _ => false
  | (first, last) :: rest, n => if n ≤ last then decide (first ≤ n) else contains rest n

/-- Every range starts at `bound` or above it, has a code point, and ends before the next one. -/
def ascendsFrom : CodePoints → Nat → Bool
  | [], _ => true
  | (first, last) :: rest, bound =>
    decide (bound ≤ first) && decide (first ≤ last) && ascendsFrom rest (last + 1)

theorem bound_le_of_mem {table : CodePoints} {bound : Nat} (h : table.ascendsFrom bound = true)
    {range : Nat × Nat} (hr : range ∈ table) : bound ≤ range.1 := by
  induction table generalizing bound with
  | nil => cases hr
  | cons head rest ih =>
    obtain ⟨first, last⟩ := head
    simp only [ascendsFrom, Bool.and_eq_true, decide_eq_true_eq] at h
    obtain ⟨⟨hb, hl⟩, hrest⟩ := h
    rcases List.mem_cons.mp hr with rfl | hr
    · exact hb
    · have := ih hrest hr
      omega

/-- In an ascending table the look-up finds exactly the code points of the ranges. -/
theorem contains_iff_exists_range {table : CodePoints} {bound : Nat}
    (h : table.ascendsFrom bound = true) (n : Nat) :
    table.contains n = true ↔ ∃ range ∈ table, range.1 ≤ n ∧ n ≤ range.2 := by
  induction table generalizing bound with
  | nil => simp [contains]
  | cons head rest ih =>
    obtain ⟨first, last⟩ := head
    simp only [ascendsFrom, Bool.and_eq_true, decide_eq_true_eq] at h
    obtain ⟨_, hrest⟩ := h
    simp only [contains]
    by_cases hn : n ≤ last
    · rw [if_pos hn, decide_eq_true_eq]
      constructor
      · exact fun hlow => ⟨(first, last), List.mem_cons_self, hlow, hn⟩
      · rintro ⟨range, hr, hlow, _⟩
        rcases List.mem_cons.mp hr with rfl | hr
        · exact hlow
        · have := bound_le_of_mem hrest hr
          omega
    · rw [if_neg hn, ih hrest]
      constructor
      · rintro ⟨range, hr, hin⟩
        exact ⟨range, List.mem_cons_of_mem _ hr, hin⟩
      · rintro ⟨range, hr, hin⟩
        rcases List.mem_cons.mp hr with rfl | hr
        · exact absurd hin.2 hn
        · exact ⟨range, hr, hin⟩

end CodePoints

end Tracepoint.Text
