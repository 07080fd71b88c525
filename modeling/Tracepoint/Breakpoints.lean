/-
Breakpoints.

Breakpoints are a set of lines, kept in ascending order.

* `Breakpoints`, `Breakpoints.ofList` — the lines;
* `Breakpoints.toggle` — sets or clears a line;
* `Breakpoints.contains_toggle` — toggling a line changes whether it is there, and nothing else.
-/

set_option relaxedAutoImplicit false
set_option autoImplicit false

namespace Tracepoint

/-- Some lines in ascending order with one of them set, or cleared if it was there. -/
def toggleLine (line : Nat) : List Nat → List Nat
  | [] => [line]
  | first :: rest =>
    if line < first then line :: first :: rest
    else if line = first then rest
    else first :: toggleLine line rest

theorem mem_of_mem_toggleLine {line n : Nat} {lines : List Nat} (h : n ∈ toggleLine line lines) :
    n = line ∨ n ∈ lines := by
  induction lines with
  | nil => simpa [toggleLine] using h
  | cons first rest ih =>
    simp only [toggleLine] at h
    split at h
    · simpa using h
    · split at h
      · exact .inr (List.mem_cons_of_mem _ h)
      · rcases List.mem_cons.1 h with rfl | h
        · simp
        · rcases ih h with h | h <;> simp [h]

theorem pairwise_toggleLine {line : Nat} {lines : List Nat} (h : lines.Pairwise (· < ·)) :
    (toggleLine line lines).Pairwise (· < ·) := by
  induction lines with
  | nil => simp [toggleLine]
  | cons first rest ih =>
    have hrest := (List.pairwise_cons.1 h).2
    have hfirst := (List.pairwise_cons.1 h).1
    simp only [toggleLine]
    split
    · rename_i hlt
      refine List.pairwise_cons.2 ⟨fun n hn => ?_, h⟩
      rcases List.mem_cons.1 hn with rfl | hn
      · exact hlt
      · exact Nat.lt_trans hlt (hfirst n hn)
    · split
      · exact hrest
      · rename_i hle hne
        refine List.pairwise_cons.2 ⟨fun n hn => ?_, ih hrest⟩
        rcases mem_of_mem_toggleLine hn with rfl | hn
        · omega
        · exact hfirst n hn

/-- Lines in ascending order. -/
structure Breakpoints where
  lines : List Nat
  ascending : lines.Pairwise (· < ·)

namespace Breakpoints

/-- No lines. -/
def empty : Breakpoints :=
  ⟨[], .nil⟩

/-- The line is set. -/
def contains (b : Breakpoints) (line : Nat) : Bool :=
  b.lines.contains line

/-- Sets a line, or clears it if it is set. -/
def toggle (b : Breakpoints) (line : Nat) : Breakpoints :=
  ⟨toggleLine line b.lines, pairwise_toggleLine b.ascending⟩

/-- Sets a line, if it is not set. -/
def insert (b : Breakpoints) (line : Nat) : Breakpoints :=
  if b.contains line then b else b.toggle line

/-- The lines of a list. -/
def ofList (lines : List Nat) : Breakpoints :=
  lines.foldl insert empty

theorem contains_toggle (b : Breakpoints) (line n : Nat) :
    (b.toggle line).contains n = if n = line then !b.contains n else b.contains n := by
  obtain ⟨lines, h⟩ := b
  simp only [contains, toggle]
  induction lines with
  | nil => by_cases hn : n = line <;> simp [toggleLine, hn]
  | cons first rest ih =>
    have hfirst := (List.pairwise_cons.1 h).1
    have ih := ih (List.pairwise_cons.1 h).2
    simp only [toggleLine]
    split
    · rename_i hlt
      by_cases hn : n = line
      · have h₁ : line ≠ first := by omega
        have h₂ : line ∉ rest := fun hm => by have := hfirst line hm; omega
        simp [hn, h₁, h₂]
      · simp [hn]
    · split
      · rename_i heq
        subst heq
        have h₂ : line ∉ rest := fun hm => by have := hfirst line hm; omega
        by_cases hn : n = line <;> simp [hn, h₂]
      · rename_i hle hne
        simp only [List.contains_cons, ih]
        by_cases hn : n = line
        · have hbeq : (line == first) = false := by simpa using hne
          simp [hn, hbeq]
        · simp [hn]

end Breakpoints

end Tracepoint
