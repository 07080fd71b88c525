/-
The instructions of a chunk, and its line table.

Both are read off the code that was emitted.  Decoding a chunk from its start visits the
instructions one behind the other and ends where the chunk does; and exactly the first byte of
every instruction is marked with the line that the instruction was emitted with.

Main definitions:

* `Chunk.Visits` — decoding visits these instructions and ends at the end of the chunk;
* `Code.entries` — where instructions start, with their lines;
* `Code.marks` — which bytes are marked.

Main results:

* `protoOf_visits`, `protoOf_instructions` — the instructions that decoding visits;
* `protoOf_lineTable` — the line table;
* `protoOf_place` — where an instruction starts, and the line that is marked there;
* `Chunk.mem_lineTable`, `Chunk.ascending_lineTable` — the entries, and that their offsets ascend.
-/

import Mathlib.Data.List.Basic
import Tracepoint.Proofs.Code.Layout

set_option relaxedAutoImplicit false
set_option autoImplicit false

namespace Tracepoint

/-! ### Decoding a chunk -/

namespace Chunk

variable {c : Chunk} {offset next : ℕ} {i : Instr}

/-- From `start` on, decoding visits these instructions one behind the other, and it comes to an end
at the end of the code. -/
def Visits (c : Chunk) : List (ℕ × Instr) → (start : ℕ) → Prop
  | [], start => start = c.code.size ∧ c.decodeAt start = .ok none
  | (offset, i) :: rest, start => offset = start ∧ ∃ next, c.At start i next ∧ c.Visits rest next

theorem decodeAt_size (c : Chunk) : c.decodeAt c.code.size = .ok none := by
  have hnone : c.code[c.code.size]? = none := Array.getElem?_size
  simp only [decodeAt, Instr.decodeAt, hnone]

theorem instructionsFrom_size (c : Chunk) : c.instructionsFrom c.code.size = [] := by
  rw [instructionsFrom]
  split
  next i next h =>
    rw [decodeAt_size] at h
    cases h
  next => rfl

theorem instructionsFrom_of_at (h : c.At offset i next) :
    c.instructionsFrom offset = (offset, i) :: c.instructionsFrom next := by
  rw [instructionsFrom]
  split
  next i' next' h' =>
    cases h.symm.trans h'
    rfl
  next hother => exact absurd h (hother i next)

theorem at_of_mem_instructionsFrom {start : ℕ} (h : (offset, i) ∈ c.instructionsFrom start) :
    ∃ next, c.At offset i next := by
  fun_induction instructionsFrom c start with
  | case1 start i' next' hat _ ih =>
      rcases List.mem_cons.1 h with heq | h
      · cases heq
        exact ⟨next', hat⟩
      · exact ih h
  | case2 => cases h

end Chunk

/-! ### Code and its offsets -/

namespace Code

/-- Where the instructions of some code start, with their lines. -/
def entries (start : ℕ) : Code → List (ℕ × Instr × ℕ)
  | [] => []
  | (i, line) :: rest => (start, i, line) :: entries (start + i.size) rest

theorem map_entries (start : ℕ) (code : Code) : (entries start code).map Prod.snd = code := by
  induction code generalizing start with
  | nil => rfl
  | cons entry rest ih => exact congrArg (entry :: ·) (ih _)

variable {c : Chunk} {start : ℕ} {code : Code}

theorem Lies.visits (h : code.Lies c start c.code.size) :
    c.Visits ((entries start code).map fun e => (e.1, e.2.1)) start := by
  induction code generalizing start with
  | nil => exact ⟨h.1, h.1 ▸ c.decodeAt_size⟩
  | cons entry rest ih => exact ⟨rfl, _, h.1, ih h.2⟩

theorem Lies.instructionsFrom (h : code.Lies c start c.code.size) :
    c.instructionsFrom start = (entries start code).map fun e => (e.1, e.2.1) := by
  induction code generalizing start with
  | nil =>
      obtain ⟨rfl, -⟩ := h
      exact c.instructionsFrom_size
  | cons entry rest ih =>
      rw [Chunk.instructionsFrom_of_at h.1, ih h.2]
      rfl

/-! ### Marks -/

/-- The marks of the bytes of some code: the first byte of an instruction is marked. -/
def marks : Code → List (Option ℕ)
  | [] => []
  | (i, line) :: rest => some line :: List.replicate i.operand.length none ++ marks rest

/-- The marked bytes are those that instructions start with. -/
theorem filterMap_marks (start : ℕ) (code : Code) :
    (code.marks.zipIdx start).filterMap (fun x => x.1.map (x.2, ·)) =
      (entries start code).map fun e => (e.1, e.2.2) := by
  induction code generalizing start with
  | nil => rfl
  | cons entry rest ih =>
      obtain ⟨i, line⟩ := entry
      have hsize : start + 1 + i.operand.length = start + i.size := by
        rw [← Instr.length_encode, Instr.encode, List.length_cons]
        omega
      have hoperand : ((List.replicate i.operand.length (none : Option ℕ)).zipIdx
          (start + 1)).filterMap (fun x => x.1.map (x.2, ·)) = [] := by
        refine List.filterMap_eq_nil_iff.2 fun x hx => ?_
        rw [List.eq_of_mem_replicate (List.fst_mem_of_mem_zipIdx hx)]
        rfl
      rw [marks, List.cons_append, List.zipIdx_cons, List.zipIdx_append, List.length_replicate,
        hsize]
      refine congrArg ((start, line) :: ·) ?_
      rw [List.filterMap_append, hoperand, List.nil_append, ih]

theorem length_marks (code : Code) : code.marks.length = code.size := by
  induction code with
  | nil => rfl
  | cons entry rest ih =>
      have hsize : entry.1.operand.length + 1 = entry.1.size := by
        rw [← Instr.length_encode, Instr.encode, List.length_cons]
      rw [marks, List.cons_append, List.length_cons, List.length_append, List.length_replicate, ih,
        size]
      omega

theorem marks_append (first second : Code) :
    marks (first ++ second) = first.marks ++ second.marks := by
  induction first with
  | nil => rfl
  | cons entry rest ih => simp only [List.cons_append, marks, ih, List.append_assoc]

end Code

/-- The line table lists the marks. -/
theorem Chunk.lineTable_eq (c : Chunk) :
    c.lineTable = (c.marks.toList.zipIdx).filterMap fun x => x.1.map (x.2, ·) := by
  have hrange : List.range c.marks.size = c.marks.toList.zipIdx.map Prod.snd := by
    rw [List.zipIdx_map_snd, Array.length_toList, List.range_eq_range']
  rw [lineTable, hrange, List.filterMap_map]
  refine List.filterMap_congr fun x hx => ?_
  have hx := List.mem_zipIdx_iff_getElem?.1 hx
  rw [Array.getElem?_toList] at hx
  simp only [Function.comp_apply, lineAt, hx, Option.join_some]

theorem Chunk.mem_lineTable {c : Chunk} {offset line : ℕ} :
    (offset, line) ∈ c.lineTable ↔ c.lineAt offset = some line := by
  constructor
  · intro h
    obtain ⟨other, -, hline⟩ := List.mem_filterMap.1 h
    obtain ⟨_, hline, heq⟩ := Option.map_eq_some_iff.1 hline
    cases heq
    exact hline
  · intro h
    refine List.mem_filterMap.2 ⟨offset, List.mem_range.2 ?_, congrArg (Option.map (offset, ·)) h⟩
    by_contra hle
    rw [lineAt, Array.getElem?_eq_none (Nat.le_of_not_lt hle)] at h
    cases h

/-- Offsets are looked at in order. -/
theorem Chunk.ascending_lineTable (c : Chunk) :
    c.lineTable.Pairwise fun e e' => e.1 < e'.1 := by
  refine List.Pairwise.filterMap _ (fun offset offset' hlt e he e' he' => ?_) List.pairwise_lt_range
  obtain ⟨line, -, rfl⟩ := Option.map_eq_some_iff.1 he
  obtain ⟨line', -, rfl⟩ := Option.map_eq_some_iff.1 he'
  exact hlt

namespace Builder

theorem emitBytes_marks (b : Builder) (bytes : List UInt8) :
    (b.emitBytes bytes).marks.toList = b.marks.toList ++ List.replicate bytes.length none := by
  induction bytes generalizing b with
  | nil => exact (List.append_nil _).symm
  | cons byte rest ih =>
      have hrest := ih (b.emitByte byte)
      rw [emitBytes] at hrest ⊢
      rw [List.foldl_cons, hrest, emitByte, Array.toList_push, List.append_assoc]
      rfl

theorem emitAll_marks (b : Builder) (code : Code) :
    (b.emitAll code).marks.toList = b.marks.toList ++ code.marks := by
  induction code generalizing b with
  | nil => exact (List.append_nil _).symm
  | cons entry rest ih =>
      obtain ⟨i, line⟩ := entry
      have hrest := ih (b.emit i line)
      rw [emitAll] at hrest ⊢
      rw [List.foldl_cons, hrest, emit, emitBytes_marks, Array.toList_push, Code.marks]
      simp only [List.append_assoc, List.cons_append, List.nil_append]

end Builder

/-! ### Whole functions -/

section

variable (chunkName : String) (name : Option String) (parameters : List String) (line : ℕ)
  (body : Emit Code)

theorem protoOf_visits :
    (protoOf chunkName name parameters line body).chunk.Visits
      (protoOf chunkName name parameters line body).chunk.instructions 0 := by
  have hlies := Code.lies_protoOf chunkName name parameters line body
  rw [Chunk.instructions, hlies.instructionsFrom]
  exact hlies.visits

theorem protoOf_instructions :
    (protoOf chunkName name parameters line body).chunk.instructions =
      (Code.entries 0 (body ⟨.empty, #[], line⟩).1).map fun e => (e.1, e.2.1) :=
  (Code.lies_protoOf chunkName name parameters line body).instructionsFrom

/-- **The line table lists the offset and the line of every instruction.** -/
theorem protoOf_lineTable :
    (protoOf chunkName name parameters line body).chunk.lineTable =
      (Code.entries 0 (body ⟨.empty, #[], line⟩).1).map fun e => (e.1, e.2.2) := by
  have hmarks : (protoOf chunkName name parameters line body).chunk.marks.toList =
      Code.marks (body ⟨.empty, #[], line⟩).1 := Builder.emitAll_marks _ _
  rw [Chunk.lineTable_eq, hmarks, Code.filterMap_marks]

/-- An instruction starts behind the ones in front of it, and this place is marked with its line. -/
theorem protoOf_place {before after : Code} {i : Instr} {mark : ℕ}
    (h : (body ⟨.empty, #[], line⟩).1 = before ++ (i, mark) :: after) :
    (protoOf chunkName name parameters line body).chunk.At before.size i (before.size + i.size) ∧
      (protoOf chunkName name parameters line body).chunk.lineAt before.size = some mark := by
  have hlies := Code.lies_protoOf chunkName name parameters line body
  have hmarks : (protoOf chunkName name parameters line body).chunk.marks.toList =
      Code.marks (body ⟨.empty, #[], line⟩).1 := Builder.emitAll_marks _ _
  rw [h] at hlies hmarks
  obtain ⟨start, hbefore, hafter⟩ := Code.lies_append.1 hlies
  obtain ⟨rfl, -⟩ := hbefore.bounds
  rw [Nat.zero_add] at hafter
  refine ⟨hafter.1, ?_⟩
  rw [Chunk.lineAt, ← Array.getElem?_toList, hmarks, Code.marks_append, ← Code.length_marks,
    List.getElem?_append_right (Nat.le_refl _), Nat.sub_self]
  rfl

end

end Tracepoint
