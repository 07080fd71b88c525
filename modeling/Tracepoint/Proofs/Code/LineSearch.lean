/-
Lines in a table.

The lines of a chunk need not be marks at its bytes.  They may be kept as a table of offsets and
lines, one entry for each instruction in the order in which the instructions are added, with offsets
in words.  A line is then found by halving the table until one entry is left.  This finds what is in
the table, because the offsets ascend: every instruction has a byte at least, and bytes that belong
to no line only lead to gaps.

Main definitions:

* `LineTable`, `LineTable.narrow`, `LineTable.lookUp` — **a table and its search**;
* `Tabled` — code that is being built with a table of its lines.

Main results:

* `LineTable.lookUp_eq_some` — **in an ascending table exactly the entries are found**;
* `Tabled.mem_lines`, `Tabled.ascending_lines` — what is in the table, and that it ascends;
* `Tabled.map_lines` — **it is the line table of the chunk**;
* `lines_looked_up` — **the line at an offset is that of the instruction placed there**.
-/

import Mathlib.Data.List.Sort
import Tracepoint.Proofs.Code.Construction

set_option relaxedAutoImplicit false
set_option autoImplicit false

namespace Tracepoint

/-! ### Searching by halves -/

/-- Offsets of instructions, with their lines. -/
abbrev LineTable := Array (UInt32 × ℕ)

namespace LineTable

/-- Halves a part of the table, which has `size` entries from `base` on, until one entry is left
that may have the offset `key`. -/
def narrow (entries : LineTable) (key : UInt32) (base size : ℕ) : ℕ :=
  if 1 < size then
    let half := size / 2
    let middle := base + half
    let lies := entries[middle]?.any fun entry => key < entry.1
    narrow entries key (if lies then base else middle) (size - half)
  else base
termination_by size

/-- The line for an offset. -/
def lookUp (entries : LineTable) (key : UInt32) : Option ℕ :=
  match entries[narrow entries key 0 entries.size]? with
  | some (start, line) => if start = key then some line else none
  | none => none

/-- The offsets ascend. -/
def Ascending (entries : LineTable) : Prop :=
  entries.toList.Pairwise fun first second => first.1 < second.1

variable {entries : LineTable} {key : UInt32} {line : ℕ}

theorem Ascending.lt_of_lt (h : entries.Ascending) {j k : ℕ} {first second : UInt32 × ℕ}
    (hfirst : entries[j]? = some first) (hsecond : entries[k]? = some second) (hlt : j < k) :
    first.1 < second.1 := by
  rw [← Array.getElem?_toList] at hfirst hsecond
  obtain ⟨hj, rfl⟩ := List.getElem?_eq_some_iff.1 hfirst
  obtain ⟨hk, rfl⟩ := List.getElem?_eq_some_iff.1 hsecond
  exact List.pairwise_iff_getElem.1 h j k hj hk hlt

/-- **An entry that lies in the part is what is left of it.** -/
theorem narrow_eq (h : entries.Ascending) {k : ℕ} (hk : entries[k]? = some (key, line)) :
    ∀ size base : ℕ, base ≤ k → k < base + size → base + size ≤ entries.size →
      narrow entries key base size = k := by
  intro size
  induction size using Nat.strongRecOn with
  | ind size ih =>
      intro base hbase hstop hsize
      rw [narrow]
      split
      next hmore =>
        obtain ⟨middle, hmiddle⟩ : ∃ middle, entries[base + size / 2]? = some middle :=
          ⟨_, Array.getElem?_eq_getElem (by omega)⟩
        simp only [hmiddle, Option.any_some, decide_eq_true_eq]
        by_cases hlies : key < middle.1
        · -- The entry lies in front of the middle, since the offsets ascend.
          have hfront : k < base + size / 2 := by
            by_contra hbehind
            rcases Nat.lt_or_eq_of_le (Nat.le_of_not_lt hbehind) with hlt | rfl
            · exact UInt32.lt_asymm hlies (h.lt_of_lt hmiddle hk hlt)
            · rw [hk] at hmiddle
              cases hmiddle
              exact UInt32.lt_irrefl _ hlies
          rw [if_pos hlies]
          exact ih _ (by omega) base hbase (by omega) (by omega)
        · have hbehind : base + size / 2 ≤ k := by
            by_contra hfront
            exact hlies (h.lt_of_lt hk hmiddle (Nat.lt_of_not_le hfront))
          rw [if_neg hlies]
          exact ih _ (by omega) _ hbehind (by omega) (by omega)
      next hlast => omega

/-- **In an ascending table exactly the entries are found.** -/
theorem lookUp_eq_some (h : entries.Ascending) :
    lookUp entries key = some line ↔ (key, line) ∈ entries := by
  constructor
  · intro hfound
    unfold lookUp at hfound
    split at hfound
    next start line' hentry =>
      split at hfound
      next hstart =>
        cases hfound
        exact hstart ▸ Array.mem_of_getElem? hentry
      next => cases hfound
    next => cases hfound
  · intro hmem
    obtain ⟨k, hk, hentry⟩ := Array.mem_iff_getElem.1 hmem
    have hentry : entries[k]? = some (key, line) := by rw [Array.getElem?_eq_getElem hk, hentry]
    have hnarrow := narrow_eq h hentry entries.size 0 (Nat.zero_le k) (by omega) (by omega)
    rw [lookUp, hnarrow, hentry]
    simp

end LineTable

/-! ### Building with a table -/

open Builder (Step built Places)

/-- The offset of an instruction fits a word if there are words for all bytes. -/
theorem Builder.Places.toNat_offset {steps : List Step} {offset line : ℕ} {i : Instr}
    (hplaces : Places steps offset i line) (h : (built steps).size ≤ UInt32.size) :
    (UInt32.ofNat offset).toNat = offset := by
  have hend := hplaces.le_size
  have hpos := i.size_pos
  exact UInt32.toNat_ofNat_of_lt' (by omega)

/-- Code that is being built, with the lines of its instructions in a table. -/
structure Tabled where
  builder : Builder
  lines : LineTable

namespace Tabled

/-- Carries out a step. An instruction that is placed gets an entry. -/
def perform (t : Tabled) (step : Step) : Tabled :=
  { builder := t.builder.perform step
    lines := match step.placed t.builder.size with
      | some (_, line) => t.lines.push (UInt32.ofNat t.builder.size, line)
      | none => t.lines }

/-- What some steps build from nothing. -/
def built (steps : List Step) : Tabled :=
  steps.foldl perform ⟨.empty, #[]⟩

/-- The line of the instruction at an offset. -/
def lineAt (t : Tabled) (offset : ℕ) : Option ℕ :=
  t.lines.lookUp (UInt32.ofNat offset)

variable {steps : List Step}

theorem built_concat (steps : List Step) (step : Step) :
    built (steps ++ [step]) = (built steps).perform step := by
  simp [built]

/-- The table is kept beside the code. -/
theorem builder_built (steps : List Step) : (built steps).builder = Builder.built steps := by
  induction steps using List.reverseRecOn with
  | nil => rfl
  | append_singleton steps step ih => rw [built_concat, Builder.built_concat, perform, ih]

/-- The entries are the offsets and the lines of what was placed. -/
theorem mem_lines (steps : List Step) (key : UInt32) (line : ℕ) :
    (key, line) ∈ (built steps).lines ↔
      ∃ offset i, Places steps offset i line ∧ key = UInt32.ofNat offset := by
  induction steps using List.reverseRecOn with
  | nil =>
      constructor
      · intro h
        simp [built] at h
      · rintro ⟨offset, i, ⟨before, step, later, hnil, -⟩, -⟩
        simp at hnil
  | append_singleton steps step ih =>
      simp only [Builder.places_concat, or_and_right, exists_or, ← ih]
      rw [built_concat, perform, builder_built]
      cases hplaced : step.placed (Builder.built steps).size with
      | none => simp
      | some entry =>
          obtain ⟨i, line'⟩ := entry
          simp only [Array.mem_push, Prod.mk.injEq, Option.some.injEq]
          constructor
          · rintro (hold | ⟨rfl, rfl⟩)
            · exact Or.inl hold
            · exact Or.inr ⟨_, i, ⟨rfl, rfl, rfl⟩, rfl⟩
          · rintro (hold | ⟨_, _, ⟨rfl, rfl, rfl⟩, rfl⟩)
            · exact Or.inl hold
            · exact Or.inr ⟨rfl, rfl⟩

/-- **The table ascends**, if words are enough for its offsets. -/
theorem ascending_lines (h : (Builder.built steps).size ≤ UInt32.size) :
    (built steps).lines.Ascending := by
  induction steps using List.reverseRecOn with
  | nil => exact List.Pairwise.nil
  | append_singleton steps step ih =>
      have hgrows := Builder.size_perform_le (Builder.built steps) step
      rw [Builder.built_concat] at h
      have hbefore := ih (Nat.le_trans hgrows h)
      rw [built_concat, perform, builder_built]
      cases hplaced : step.placed (Builder.built steps).size with
      | none => exact hbefore
      | some entry =>
          obtain ⟨i, line⟩ := entry
          -- Every entry so far is for an instruction that ends where the new one starts, or before.
          have hbelow : ∀ old ∈ (built steps).lines,
              old.1 < UInt32.ofNat (Builder.built steps).size := by
            rintro ⟨key, line'⟩ hold
            obtain ⟨offset, i', hplaces, rfl⟩ := (mem_lines steps key line').1 hold
            have hend := hplaces.le_size
            have hpos := i'.size_pos
            rw [Builder.perform_of_placed hplaced, Builder.size_emit] at h
            have hpos' := i.size_pos
            rw [UInt32.lt_iff_toNat_lt, UInt32.toNat_ofNat_of_lt' (by omega),
              UInt32.toNat_ofNat_of_lt' (by omega)]
            omega
          simp only [LineTable.Ascending, Array.toList_push]
          refine List.pairwise_append.2 ⟨hbefore, List.pairwise_singleton _ _, ?_⟩
          intro old hold new hnew
          rw [List.mem_singleton] at hnew
          rw [hnew]
          exact hbelow old (Array.mem_toList_iff.1 hold)

/-- **The search finds the line of the instruction placed at an offset**, and nothing where none
is. -/
theorem lineAt_eq_some (h : (Builder.built steps).size ≤ UInt32.size) {offset line : ℕ}
    (hoffset : offset < UInt32.size) :
    (built steps).lineAt offset = some line ↔ ∃ i, Places steps offset i line := by
  rw [lineAt, LineTable.lookUp_eq_some (ascending_lines h), mem_lines]
  constructor
  · rintro ⟨start, i, hplaces, heq⟩
    have htoNat := congrArg UInt32.toNat heq
    rw [UInt32.toNat_ofNat_of_lt' hoffset, hplaces.toNat_offset h] at htoNat
    exact ⟨i, htoNat ▸ hplaces⟩
  · rintro ⟨i, hplaces⟩
    exact ⟨offset, i, hplaces, rfl⟩

end Tabled

/-- The marks say the same: a chunk has a line at an offset if and only if a step placed an
instruction there that belongs to the line. -/
theorem Builder.lineAt_chunk (steps : List Step) (name : String) (offset line : ℕ) :
    ((built steps).chunk name).lineAt offset = some line ↔ ∃ i, Places steps offset i line := by
  rw [← marks_built, Chunk.lineAt, chunk, Array.getElem?_toList, Option.join_eq_some_iff]

/-- **A table that is kept beside the code is the line table**, with offsets in words. -/
theorem Tabled.map_lines {steps : List Step} (h : (Builder.built steps).size ≤ UInt32.size)
    (name : String) : (built steps).lines.toList.map (fun entry => (entry.1.toNat, entry.2)) =
      ((Builder.built steps).chunk name).lineTable := by
  have : Std.Irrefl fun e e' : ℕ × ℕ => e.1 < e'.1 := ⟨fun e => Nat.lt_irrefl e.1⟩
  have : Std.Antisymm fun e e' : ℕ × ℕ => e.1 < e'.1 :=
    ⟨fun _ _ hlt hgt => absurd hgt (Nat.lt_asymm hlt)⟩
  have hascending : ((built steps).lines.toList.map fun entry => (entry.1.toNat, entry.2)).Pairwise
      fun e e' => e.1 < e'.1 := List.pairwise_map.2 (ascending_lines h)
  -- Both ascend, so it is enough that they have the same entries.
  refine hascending.eq_of_mem_iff (Chunk.ascending_lineTable _) fun e => ?_
  obtain ⟨offset, line⟩ := e
  rw [Chunk.mem_lineTable, Builder.lineAt_chunk, List.mem_map]
  constructor
  · rintro ⟨⟨key, line'⟩, hentry, heq⟩
    cases heq
    obtain ⟨start, i, hplaces, rfl⟩ := (mem_lines steps key line').1 (Array.mem_toList_iff.1 hentry)
    exact ⟨i, (hplaces.toNat_offset h).symm ▸ hplaces⟩
  · rintro ⟨i, hplaces⟩
    refine ⟨(UInt32.ofNat offset, line), ?_, Prod.ext (hplaces.toNat_offset h) rfl⟩
    exact Array.mem_toList_iff.2 ((mem_lines steps _ line).2 ⟨offset, i, hplaces, rfl⟩)

/-- **Line lookup is exact.** Whatever steps build a chunk, an offset has a line if and only if a
step placed an instruction there that belongs to the line; so it has no line if no step did.  A
table that is kept beside the code, with offsets in words, and searched by halves gives the same
answer at every offset that fits a word, as long as there are words for all bytes. -/
theorem lines_looked_up (steps : List Step) (name : String) :
    (∀ offset line, ((built steps).chunk name).lineAt offset = some line ↔
      ∃ i, Places steps offset i line) ∧
    (Tabled.built steps).builder = built steps ∧
    ((built steps).size ≤ UInt32.size → ∀ offset < UInt32.size,
      (Tabled.built steps).lineAt offset = ((built steps).chunk name).lineAt offset) := by
  refine ⟨Builder.lineAt_chunk steps name, Tabled.builder_built steps, ?_⟩
  intro hsize offset hoffset
  refine Option.ext fun line => ?_
  rw [Builder.lineAt_chunk, Tabled.lineAt_eq_some hsize hoffset]

/-- Two instructions with raw bytes between them, a patched jump and a jump back. -/
def steppingStones : List Step :=
  [.emit .enter 1, .byte 7, .emit (.jump .ifFalse 0) 3, .word 9, .loop 0 5, .patch 2]

/-- The table leads to the line of the jump, and to none at the raw byte in front of it. -/
theorem lines_looked_up_stones :
    (built steppingStones).size ≤ UInt32.size ∧
    ((built steppingStones).chunk "f").lineAt 2 = some 3 ∧
    (Tabled.built steppingStones).lineAt 2 = some 3 ∧
    (Tabled.built steppingStones).lineAt 1 = none := by
  have hsize : (built steppingStones).size ≤ UInt32.size := by decide
  obtain ⟨hlines, -, hsearch⟩ := lines_looked_up steppingStones "f"
  have hjump : ((built steppingStones).chunk "f").lineAt 2 = some 3 :=
    (hlines 2 3).2 ⟨_, [.emit .enter 1, .byte 7], _, _, rfl, rfl, rfl⟩
  refine ⟨hsize, hjump, ?_, ?_⟩
  · rw [hsearch hsize 2 (by decide)]
    exact hjump
  · rw [hsearch hsize 1 (by decide)]
    rfl

end Tracepoint
