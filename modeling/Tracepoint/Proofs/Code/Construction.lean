/-
Code that is being built.

Code is built step by step: instructions are added with their lines, bytes and words without, jumps
back are added, jumps forward are patched, and functions and constants are put aside for the code to
refer to.  What a step does to the bytes is one of three things: it adds an instruction, it adds
bytes that belong to no line, or it patches.

Main definitions:

* `Builder.Step`, `Builder.built` — the steps, and what they build;
* `Builder.Places` — **some step placed an instruction at an offset**.

Main results:

* `Builder.perform_cases` — all that a step can do;
* `Builder.places_concat` — what is placed behind one step more;
* `Builder.getElem?_perform` — a byte stays unless a patch hits it;
* `Builder.marks_built` — **an offset is marked with a line if and only if a step placed an
  instruction there that belongs to the line**.
-/

import Mathlib.Data.List.Induction
import Tracepoint.Proofs.Code.Encoding
import Tracepoint.Proofs.Code.Patching

set_option relaxedAutoImplicit false
set_option autoImplicit false

namespace Tracepoint.Builder

/-! ### Steps -/

/-- What is done to code that is being built. -/
inductive Step
  /-- Adds an instruction that belongs to a line. -/
  | emit (i : Instr) (line : ℕ)
  | byte (byte : UInt8)
  | word (w : UInt32)
  | signed (distance : Int32)
  /-- Adds a jump back that belongs to a line. -/
  | loop (target line : ℕ)
  /-- Gives the jump at an offset the end as its target. -/
  | patch (start : ℕ)
  | function (p : Proto)
  | constant (c : Constant)

/-- Carries out a step. -/
def perform (b : Builder) : Step → Builder
  | .emit i line => b.emit i line
  | .byte byte => b.emitByte byte
  | .word w => b.emitWord w
  | .signed distance => b.emitWord distance.toUInt32
  | .loop target line => b.emitLoop target line
  | .patch start => b.patchJump start
  | .function p => (b.pushFunction p).2
  | .constant c => (b.pushConstant c).2

/-- What some steps build from nothing. -/
def built (steps : List Step) : Builder :=
  steps.foldl perform empty

/-- The instruction that a step adds behind `size` bytes, and its line. -/
def Step.placed (size : ℕ) : Step → Option (Instr × ℕ)
  | emit i line => some (i, line)
  | loop target line => some (.jump .always (distance (size + Instr.wideSize) target), line)
  | _ => none

/-- Some step placed the instruction at the offset, for the line. -/
def Places (steps : List Step) (offset : ℕ) (i : Instr) (line : ℕ) : Prop :=
  ∃ before step later, steps = before ++ step :: later ∧ (built before).size = offset ∧
    step.placed offset = some (i, line)

variable {b : Builder} {steps : List Step} {step : Step} {offset line k : ℕ} {i : Instr}

theorem built_concat (steps : List Step) (step : Step) :
    built (steps ++ [step]) = (built steps).perform step := by
  simp [built]

/-- Raw bytes belong to no line. -/
def AddsBytes (b b' : Builder) : Prop :=
  ∃ bytes : List UInt8, b'.code.toList = b.code.toList ++ bytes ∧
    b'.marks.toList = b.marks.toList ++ List.replicate bytes.length none

theorem addsBytes_emitBytes (b : Builder) (bytes : List UInt8) : b.AddsBytes (b.emitBytes bytes) :=
  ⟨bytes, b.emitBytes_code bytes, b.emitBytes_marks bytes⟩

/-- **All that a step can do**: it adds an instruction, or bytes without a line, or it patches. -/
theorem perform_cases (b : Builder) (step : Step) :
    (∃ i line, step.placed b.size = some (i, line) ∧ b.perform step = b.emit i line) ∨
    (step.placed b.size = none ∧ b.AddsBytes (b.perform step)) ∨
    ∃ start, step = .patch start ∧ step.placed b.size = none ∧
      b.perform step = b.patchJump start := by
  cases step with
  | emit i line => exact Or.inl ⟨i, line, rfl, rfl⟩
  | loop target line => exact Or.inl ⟨_, line, rfl, rfl⟩
  | byte byte => exact Or.inr (Or.inl ⟨rfl, b.addsBytes_emitBytes [byte]⟩)
  | word w => exact Or.inr (Or.inl ⟨rfl, b.addsBytes_emitBytes _⟩)
  | signed distance => exact Or.inr (Or.inl ⟨rfl, b.addsBytes_emitBytes _⟩)
  | function p => exact Or.inr (Or.inl ⟨rfl, b.addsBytes_emitBytes []⟩)
  | constant c => exact Or.inr (Or.inl ⟨rfl, b.addsBytes_emitBytes []⟩)
  | patch start => exact Or.inr (Or.inr ⟨start, rfl, rfl, rfl⟩)

/-! ### Bytes -/

theorem size_overwrite (code : Array UInt8) (offset : ℕ) (bytes : List UInt8) :
    (overwrite code offset bytes).size = code.size := by
  induction bytes generalizing code offset with
  | nil => rfl
  | cons byte rest ih => rw [overwrite, ih, Array.size_setIfInBounds]

/-- Bytes in front of those that are overwritten, and behind them, stay. -/
theorem getElem?_overwrite_of_outside {code : Array UInt8} {offset k : ℕ} {bytes : List UInt8}
    (h : k < offset ∨ offset + bytes.length ≤ k) :
    (overwrite code offset bytes)[k]? = code[k]? := by
  induction bytes generalizing code offset with
  | nil => rfl
  | cons byte rest ih =>
      rw [List.length_cons] at h
      rw [overwrite, ih (by omega), Array.getElem?_setIfInBounds_ne (by omega)]

/-- The bytes that are overwritten are the new ones. -/
theorem getElem?_overwrite_of_inside {code : Array UInt8} {offset k : ℕ} {bytes : List UInt8}
    (hk : k < bytes.length) (hsize : offset + bytes.length ≤ code.size) :
    (overwrite code offset bytes)[offset + k]? = bytes[k]? := by
  induction bytes generalizing code offset k with
  | nil => simp at hk
  | cons byte rest ih =>
      rw [List.length_cons] at hk hsize
      rw [overwrite]
      cases k with
      | zero =>
          change (overwrite (code.setIfInBounds offset byte) (offset + 1) rest)[offset]? = some byte
          rw [getElem?_overwrite_of_outside (by omega), Array.getElem?_setIfInBounds_self_of_lt]
          omega
      | succ k =>
          rw [show offset + (k + 1) = offset + 1 + k by omega, List.getElem?_cons_succ]
          exact ih (by omega) (by rw [Array.size_setIfInBounds]; omega)

theorem size_patchJump (b : Builder) (start : ℕ) : (b.patchJump start).size = b.size := by
  rw [size, code_patchJump, size_overwrite]
  rfl

/-- Patching changes the four bytes behind the first one of the jump only. -/
theorem getElem?_patchJump {start : ℕ} (h : k ≤ start ∨ start + 4 < k) :
    (b.patchJump start).code[k]? = b.code[k]? := by
  rw [code_patchJump, getElem?_overwrite_of_outside]
  simp only [Word.toBytes, List.length_cons, List.length_nil]
  omega

theorem size_emit (b : Builder) (i : Instr) (line : ℕ) :
    (b.emit i line).size = b.size + i.size := by
  have h := congrArg List.length (b.emit_code i line)
  rw [List.length_append, Array.length_toList, Array.length_toList, Instr.length_encode] at h
  exact h

theorem AddsBytes.size_le {b' : Builder} (h : b.AddsBytes b') : b.size ≤ b'.size := by
  obtain ⟨bytes, hcode, -⟩ := h
  have hlength := congrArg List.length hcode
  simp only [List.length_append, Array.length_toList] at hlength
  simp only [size]
  omega

theorem size_perform_le (b : Builder) (step : Step) : b.size ≤ (b.perform step).size := by
  rcases b.perform_cases step with ⟨i, line, -, hstep⟩ | ⟨-, hadds⟩ | ⟨start, -, -, hstep⟩
  · rw [hstep, size_emit]
    omega
  · exact hadds.size_le
  · exact Nat.le_of_eq (hstep ▸ (b.size_patchJump start).symm)

theorem size_built_append_le (steps later : List Step) :
    (built steps).size ≤ (built (steps ++ later)).size := by
  induction later using List.reverseRecOn with
  | nil => simp
  | append_singleton later step ih =>
      rw [← List.append_assoc, built_concat]
      exact Nat.le_trans ih (size_perform_le _ step)

/-- **A byte stays unless a patch hits it.** -/
theorem getElem?_perform (hk : k < b.size)
    (hpatch : ∀ start, step = .patch start → k ≤ start ∨ start + 4 < k) :
    (b.perform step).code[k]? = b.code[k]? := by
  have hk : k < b.code.toList.length := by simpa [size] using hk
  rcases b.perform_cases step with ⟨i, line, -, hstep⟩ | ⟨-, hadds⟩ | ⟨start, rfl, -, hstep⟩
  · rw [hstep, ← Array.getElem?_toList, emit_code, List.getElem?_append_left hk,
      Array.getElem?_toList]
  · obtain ⟨bytes, hcode, -⟩ := hadds
    rw [← Array.getElem?_toList, hcode, List.getElem?_append_left hk, Array.getElem?_toList]
  · rw [hstep]
    exact getElem?_patchJump (hpatch start rfl)

/-! ### Places -/

/-- What was placed stays placed, and the last step places its own instruction at the end. -/
theorem places_concat : Places (steps ++ [step]) offset i line ↔
    Places steps offset i line ∨
      (built steps).size = offset ∧ step.placed (built steps).size = some (i, line) := by
  constructor
  · rintro ⟨before, first, later, hsteps, hsize, hplaced⟩
    rcases List.eq_nil_or_concat later with rfl | ⟨later, last, rfl⟩
    · obtain ⟨rfl, hlast⟩ := List.append_inj' hsteps rfl
      obtain rfl : step = first := by simpa using hlast
      subst hsize
      exact Or.inr ⟨rfl, hplaced⟩
    · rw [List.concat_eq_append, ← List.cons_append, ← List.append_assoc] at hsteps
      obtain ⟨rfl, -⟩ := List.append_inj' hsteps rfl
      exact Or.inl ⟨before, first, later, rfl, hsize, hplaced⟩
  · rintro (⟨before, first, later, rfl, hsize, hplaced⟩ | ⟨hsize, hplaced⟩)
    · exact ⟨before, first, later ++ [step], by simp, hsize, hplaced⟩
    · exact ⟨steps, step, [], rfl, hsize, hsize ▸ hplaced⟩

theorem Places.append (h : Places steps offset i line) (later : List Step) :
    Places (steps ++ later) offset i line := by
  obtain ⟨before, step, rest, rfl, hsize, hplaced⟩ := h
  exact ⟨before, step, rest ++ later, by simp, hsize, hplaced⟩

/-- A step that places an instruction adds its bytes. -/
theorem perform_of_placed (h : step.placed b.size = some (i, line)) :
    b.perform step = b.emit i line := by
  rcases b.perform_cases step with ⟨i', line', hplaced, hstep⟩ | ⟨hnone, -⟩ | ⟨_, -, hnone, -⟩
  · rw [hplaced] at h
    cases h
    exact hstep
  · rw [hnone] at h
    cases h
  · rw [hnone] at h
    cases h

/-- An instruction ends where the code ends, or in front of that. -/
theorem Places.le_size (h : Places steps offset i line) : offset + i.size ≤ (built steps).size := by
  obtain ⟨before, step, later, rfl, rfl, hplaced⟩ := h
  have hle := size_built_append_le (before ++ [step]) later
  rw [built_concat, perform_of_placed hplaced, size_emit, List.append_assoc,
    List.singleton_append] at hle
  exact hle

/-- **Instructions are placed apart**: one starts behind the end of the other. -/
theorem Places.apart {offset' line' : ℕ} {i' : Instr} (h : Places steps offset i line)
    (h' : Places steps offset' i' line') (hlt : offset < offset') : offset + i.size ≤ offset' := by
  induction steps using List.reverseRecOn with
  | nil =>
      obtain ⟨before, step, later, hnil, -⟩ := h
      simp at hnil
  | append_singleton steps step ih =>
      rcases places_concat.1 h with h | ⟨hsize, -⟩ <;>
        rcases places_concat.1 h' with h' | ⟨hsize', -⟩
      · exact ih h h'
      · exact hsize' ▸ h.le_size
      · have hle := h'.le_size
        have hpos := i'.size_pos
        omega
      · omega

/-! ### Marks -/

theorem emit_marks (b : Builder) (i : Instr) (line : ℕ) :
    (b.emit i line).marks.toList =
      b.marks.toList ++ some line :: List.replicate i.operand.length none := by
  rw [emit, emitBytes_marks, Array.toList_push, List.append_assoc, List.singleton_append]

theorem length_marks_built (steps : List Step) :
    (built steps).marks.toList.length = (built steps).size := by
  induction steps using List.reverseRecOn with
  | nil => rfl
  | append_singleton steps step ih =>
      rw [built_concat]
      rcases (built steps).perform_cases step with
        ⟨i, line, -, hstep⟩ | ⟨-, bytes, hcode, hmarks⟩ | ⟨start, -, -, hstep⟩
      · have hsize : i.operand.length + 1 = i.size := by
          rw [← Instr.length_encode, Instr.encode, List.length_cons]
        rw [hstep, size_emit, emit_marks, List.length_append, ih, List.length_cons,
          List.length_replicate, hsize]
      · have hlength := congrArg List.length hcode
        rw [List.length_append, Array.length_toList, Array.length_toList] at hlength
        rw [hmarks, List.length_append, List.length_replicate, ih]
        exact hlength.symm
      · rw [hstep, marks_patchJump, size_patchJump, ih]

theorem getElem?_append_unmarked {marks : List (Option ℕ)} {n : ℕ} :
    (marks ++ List.replicate n none)[k]? = some (some line) ↔ marks[k]? = some (some line) := by
  rcases Nat.lt_or_ge k marks.length with hk | hk
  · rw [List.getElem?_append_left hk]
  · rw [List.getElem?_append_right hk, List.getElem?_eq_none hk, List.getElem?_replicate]
    split <;> simp

/-- **An offset is marked with a line if and only if a step placed an instruction there that belongs
to the line.** -/
theorem marks_built (steps : List Step) (offset line : ℕ) :
    (built steps).marks.toList[offset]? = some (some line) ↔
      ∃ i, Places steps offset i line := by
  induction steps using List.reverseRecOn with
  | nil =>
      constructor
      · intro h
        simp [built, empty] at h
      · rintro ⟨i, before, step, later, hnil, -⟩
        simp at hnil
  | append_singleton steps step ih =>
      have hlength := length_marks_built steps
      simp only [places_concat, exists_or, ← ih]
      rw [built_concat]
      rcases (built steps).perform_cases step with
        ⟨i, line', hplaced, hstep⟩ | ⟨hplaced, bytes, -, hmarks⟩ | ⟨start, -, hplaced, hstep⟩
      · rw [hstep, emit_marks, List.append_cons, getElem?_append_unmarked, List.getElem?_append]
        by_cases hoffset : offset < (built steps).size
        · have hne : (built steps).size ≠ offset := by omega
          simp [hlength, hoffset, hne]
        · have hold : (built steps).marks.toList[offset]? = none := by
            apply List.getElem?_eq_none
            omega
          rw [if_neg (by omega), hold, hlength, List.getElem?_singleton]
          by_cases hend : (built steps).size = offset
          · rw [hplaced, if_pos (by omega)]
            simp [hend]
          · have hne : offset - (built steps).size ≠ 0 := by omega
            simp [hend, hne]
      · rw [hmarks, getElem?_append_unmarked]
        simp [hplaced]
      · rw [hstep, marks_patchJump]
        simp [hplaced]

end Tracepoint.Builder
