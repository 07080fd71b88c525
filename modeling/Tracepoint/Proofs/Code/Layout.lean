/-
Where code lies.

Bytes that were emitted are decoded as the instructions they came from.  So a piece of code lies
between two offsets of a chunk, its parts lie one behind the other, and the waiting jumps of a
loop body lead to the two offsets that the loop closed them with.

Main definitions:

* `Chunk.At` — an instruction lies between two offsets;
* `Chunk.Jumps` — so does a jump that leads to a third one;
* `Code.Lies`, `OpenCode.Lies` — instructions in order lie between two offsets.

Main results:

* `decodeAt_of_encode` — decoding gives back what was encoded;
* `Code.lies_protoOf` — the code of a function lies in its chunk, from start to end;
* `OpenCode.lies_of_close` — what lies there when the waiting jumps are closed.
-/

import Mathlib.Data.Nat.Notation
import Tracepoint.Compile

set_option relaxedAutoImplicit false
set_option autoImplicit false

namespace Tracepoint

/-! ### Decoding -/

namespace Word

theorem ofBytes_toBytes (w : UInt32) :
    ofBytes (UInt8.ofNat (w.toNat % 256)) (UInt8.ofNat (w.toNat / 256 % 256))
      (UInt8.ofNat (w.toNat / 65536 % 256)) (UInt8.ofNat (w.toNat / 16777216 % 256)) = w := by
  apply UInt32.toNat.inj
  have hw := w.toNat_lt
  simp only [ofBytes, UInt32.toNat_ofNat', UInt8.toNat_ofNat']
  omega

theorem at?_of_toBytes {code : Array UInt8} {offset : ℕ} {w : UInt32}
    (h : ∀ k < 4, code[offset + k]? = (toBytes w)[k]?) : at? code offset = some w := by
  have h₀ := h 0 (by omega)
  have h₁ := h 1 (by omega)
  have h₂ := h 2 (by omega)
  have h₃ := h 3 (by omega)
  simp only [toBytes, Nat.add_zero, List.getElem?_cons_zero, List.getElem?_cons_succ]
    at h₀ h₁ h₂ h₃
  simp only [at?, h₀, h₁, h₂, h₃, ofBytes_toBytes]

end Word

namespace Instr

/-- Bytes of an instruction without operand. -/
theorem decodeAt_of_narrow {code : Array UInt8} {offset : ℕ} {first : UInt8} {i : Instr}
    (hfirst : code[offset]? = some first) (hi : narrow? first = some i) :
    decodeAt code offset = .ok (some (i, offset + 1)) := by
  simp only [decodeAt, hfirst, hi]

/-- Bytes of an instruction with a word. -/
theorem decodeAt_of_wide {code : Array UInt8} {offset : ℕ} {first : UInt8}
    {make : UInt32 → Instr} {w : UInt32} (hfirst : code[offset]? = some first)
    (hn : narrow? first = none) (hw : wide? first = some make)
    (hword : Word.at? code (offset + 1) = some w) :
    decodeAt code offset = .ok (some (make w, offset + wideSize)) := by
  simp only [decodeAt, hfirst, hn, hw, hword]

/-- Bytes of a declaration. -/
theorem decodeAt_of_declare {code : Array UInt8} {offset : ℕ} {name : UInt32} {kind : BindingKind}
    (hfirst : code[offset]? = some 0x05) (hword : Word.at? code (offset + 1) = some name)
    (hkind : code[offset + wideSize]? = some kind.toByte) :
    decodeAt code offset = .ok (some (declare name kind, offset + wideSize + 1)) := by
  have hn : narrow? 0x05 = none := rfl
  have hw : wide? 0x05 = none := rfl
  simp only [decodeAt, hfirst, hn, hw, hword, hkind, Option.bind_some,
    BindingKind.ofByte?_toByte, if_true]

/-- **Decoding undoes encoding.** -/
theorem decodeAt_of_encode {code : Array UInt8} {offset : ℕ} (i : Instr)
    (h : ∀ k < i.size, code[offset + k]? = i.encode[k]?) :
    decodeAt code offset = .ok (some (i, offset + i.size)) := by
  have hfirst : code[offset]? = some i.opcode := by
    simpa [encode] using h 0 i.size_pos
  -- The operand starts behind the first byte, so its bytes are found one further.
  have hword : ∀ w tail, i.operand = Word.toBytes w ++ tail →
      Word.at? code (offset + 1) = some w := by
    intro w tail hoperand
    have hsize : 4 < i.size := by
      rw [← length_encode, encode, hoperand]
      simp [Word.toBytes]
    apply Word.at?_of_toBytes
    intro k hk
    have hk' := h (k + 1) (by omega)
    rw [encode, List.getElem?_cons_succ, hoperand,
      List.getElem?_append_left (by simpa [Word.toBytes] using hk)] at hk'
    rw [Nat.add_assoc, Nat.add_comm 1 k, hk']
  cases i with
  -- The only instruction with a byte behind its word.
  | declare name kind =>
      refine decodeAt_of_declare hfirst (hword name [kind.toByte] rfl) ?_
      have hk := h 5 (Nat.lt_succ_self 5)
      simpa [encode, operand, Word.toBytes, wideSize] using hk
  | jump kind distance =>
      have hw := hword distance.toUInt32 [] rfl
      cases kind with
      | always => exact decodeAt_of_wide hfirst rfl rfl hw
      | ifFalse => exact decodeAt_of_wide hfirst rfl rfl hw
      | ifFalseOrPop => exact decodeAt_of_wide hfirst rfl rfl hw
      | ifTrueOrPop => exact decodeAt_of_wide hfirst rfl rfl hw
  | operate op => cases op <;> exact decodeAt_of_narrow hfirst rfl
  | constant w => exact decodeAt_of_wide hfirst rfl rfl (hword w [] rfl)
  | get w => exact decodeAt_of_wide hfirst rfl rfl (hword w [] rfl)
  | set w => exact decodeAt_of_wide hfirst rfl rfl (hword w [] rfl)
  | getProperty w => exact decodeAt_of_wide hfirst rfl rfl (hword w [] rfl)
  | setProperty w => exact decodeAt_of_wide hfirst rfl rfl (hword w [] rfl)
  | makeArray w => exact decodeAt_of_wide hfirst rfl rfl (hword w [] rfl)
  | makeObject w => exact decodeAt_of_wide hfirst rfl rfl (hword w [] rfl)
  | closure w => exact decodeAt_of_wide hfirst rfl rfl (hword w [] rfl)
  | call w => exact decodeAt_of_wide hfirst rfl rfl (hword w [] rfl)
  | _ => exact decodeAt_of_narrow hfirst rfl

end Instr

/-! ### Code that lies in a chunk -/

namespace Chunk

/-- An instruction lies between two offsets. -/
def At (c : Chunk) (start : ℕ) (i : Instr) (stop : ℕ) : Prop :=
  c.decodeAt start = .ok (some (i, stop))

/-- A jump lies between two offsets and leads to `target`. -/
def Jumps (c : Chunk) (start : ℕ) (kind : JumpKind) (target stop : ℕ) : Prop :=
  ∃ distance, c.At start (.jump kind distance) stop ∧ (stop : Int) + distance.toInt = target

/-- In a chunk below this size jumps lead from everywhere to everywhere. -/
def sizeLimit : ℕ := 2147483648

theorem Jumps.of_distance {c : Chunk} {start stop target : ℕ} {kind : JumpKind} {distance : Int}
    (h : c.At start (.jump kind (Int32.ofInt distance)) stop)
    (hlead : (stop : Int) + distance = target) (hsize : c.code.size < sizeLimit)
    (hstop : stop ≤ c.code.size) (htarget : target ≤ c.code.size) :
    c.Jumps start kind target stop := by
  refine ⟨_, h, ?_⟩
  rw [Int32.toInt_ofInt_of_le (by simp only [sizeLimit] at *; omega)
    (by simp only [sizeLimit] at *; omega)]
  exact hlead

end Chunk

/-- Instructions lie one behind the other between two offsets. -/
def Chunk.Sequence (c : Chunk) : List Instr → (start stop : ℕ) → Prop
  | [], start, stop => start = stop
  | i :: rest, start, stop => ∃ middle, c.At start i middle ∧ c.Sequence rest middle stop

namespace Code

/-- The bytes of some code. -/
def bytes : Code → List UInt8
  | [] => []
  | (i, _) :: rest => i.encode ++ bytes rest

/-- Instructions lie one behind the other between two offsets. -/
def Lies (c : Chunk) : Code → (start stop : ℕ) → Prop
  | [], start, stop => start = stop ∧ stop ≤ c.code.size
  | (i, _) :: rest, start, stop =>
    c.At start i (start + i.size) ∧ Lies c rest (start + i.size) stop

theorem length_bytes (code : Code) : code.bytes.length = code.size := by
  induction code with
  | nil => rfl
  | cons entry rest ih =>
      rw [bytes, List.length_append, Instr.length_encode, ih, size]

theorem bytes_append (first second : Code) :
    bytes (first ++ second) = first.bytes ++ second.bytes := by
  induction first with
  | nil => rfl
  | cons entry rest ih => rw [List.cons_append, bytes, ih, bytes, List.append_assoc]

theorem size_append (first second : Code) : size (first ++ second) = first.size + second.size := by
  rw [← length_bytes, bytes_append, List.length_append, length_bytes, length_bytes]

/-- Code lies where its bytes are found. -/
theorem lies_of_bytes {c : Chunk} (before : List UInt8) (code : Code) (after : List UInt8)
    (h : c.code.toList = before ++ code.bytes ++ after) :
    code.Lies c before.length (before.length + code.size) := by
  induction code generalizing before with
  | nil =>
      refine ⟨rfl, ?_⟩
      rw [← Array.length_toList, h]
      simp [size]
  | cons entry rest ih =>
      obtain ⟨i, line⟩ := entry
      -- The first instruction goes over to the bytes in front.
      have hsplit : c.code.toList = (before ++ i.encode) ++ bytes rest ++ after := by
        rw [h, bytes]
        simp only [List.append_assoc]
      have hrest := ih (before ++ i.encode) hsplit
      rw [List.length_append, Instr.length_encode, Nat.add_assoc] at hrest
      refine ⟨Instr.decodeAt_of_encode i ?_, hrest⟩
      intro k hk
      rw [← Instr.length_encode] at hk
      rw [← Array.getElem?_toList, hsplit, List.append_assoc, List.append_assoc,
        List.getElem?_append_right (by omega), Nat.add_sub_cancel_left,
        List.getElem?_append_left hk]

theorem Lies.bounds {c : Chunk} {code : Code} {start stop : ℕ} (h : code.Lies c start stop) :
    stop = start + code.size ∧ stop ≤ c.code.size := by
  induction code generalizing start with
  | nil => exact ⟨h.1.symm, h.2⟩
  | cons entry rest ih =>
      obtain ⟨hstop, hle⟩ := ih h.2
      exact ⟨by rw [hstop, size, Nat.add_assoc], hle⟩

theorem lies_append {c : Chunk} {first second : Code} {start stop : ℕ} :
    Lies c (first ++ second) start stop ↔
      ∃ middle, first.Lies c start middle ∧ second.Lies c middle stop := by
  induction first generalizing start with
  | nil =>
      constructor
      · intro h
        have hbounds := h.bounds
        exact ⟨start, ⟨rfl, by omega⟩, h⟩
      · rintro ⟨middle, ⟨rfl, -⟩, h⟩
        exact h
  | cons entry rest ih =>
      simp only [List.cons_append, Lies, ih]
      constructor
      · rintro ⟨hi, middle, hfirst, hsecond⟩
        exact ⟨middle, ⟨hi, hfirst⟩, hsecond⟩
      · rintro ⟨middle, ⟨hi, hfirst⟩, hsecond⟩
        exact ⟨hi, middle, hfirst, hsecond⟩

theorem sequence_of_lies {c : Chunk} {is : List Instr} {line start stop : ℕ}
    (h : Lies c (is.map (·, line)) start stop) : c.Sequence is start stop := by
  induction is generalizing start with
  | nil => exact h.1
  | cons i rest ih => exact ⟨_, h.1, ih h.2⟩

theorem at_of_lies {c : Chunk} {i : Instr} {line start stop : ℕ}
    (h : Lies c [(i, line)] start stop) : c.At start i stop := by
  obtain ⟨hi, rfl, -⟩ := h
  exact hi

end Code

/-! ### Code that was emitted -/

namespace Builder

theorem emitBytes_code (b : Builder) (bytes : List UInt8) :
    (b.emitBytes bytes).code.toList = b.code.toList ++ bytes := by
  induction bytes generalizing b with
  | nil => exact (List.append_nil _).symm
  | cons byte rest ih =>
      have hrest := ih (b.emitByte byte)
      rw [emitBytes] at hrest ⊢
      rw [List.foldl_cons, hrest, emitByte, Array.toList_push, List.append_assoc]
      rfl

theorem emitBytes_keeps (b : Builder) (bytes : List UInt8) :
    (b.emitBytes bytes).pool = b.pool ∧ (b.emitBytes bytes).functions = b.functions := by
  induction bytes generalizing b with
  | nil => exact ⟨rfl, rfl⟩
  | cons byte rest ih => exact ih (b.emitByte byte)

theorem emitAll_code (b : Builder) (code : Code) :
    (b.emitAll code).code.toList = b.code.toList ++ code.bytes := by
  induction code generalizing b with
  | nil => exact (List.append_nil _).symm
  | cons entry rest ih =>
      obtain ⟨i, line⟩ := entry
      -- Emitting from the left, so the builder is another one in each round.
      have hrest := ih (b.emit i line)
      rw [emitAll] at hrest ⊢
      rw [List.foldl_cons, hrest, emit, emitBytes_code, Array.toList_push, Code.bytes, Instr.encode]
      simp only [List.append_assoc, List.cons_append, List.nil_append]

theorem emitAll_keeps (b : Builder) (code : Code) :
    (b.emitAll code).pool = b.pool ∧ (b.emitAll code).functions = b.functions := by
  induction code generalizing b with
  | nil => exact ⟨rfl, rfl⟩
  | cons entry rest ih =>
      obtain ⟨i, line⟩ := entry
      obtain ⟨hpool, hfunctions⟩ := ih (b.emit i line)
      have hkeeps := emitBytes_keeps
        { b with code := b.code.push i.opcode, marks := b.marks.push (some line) } i.operand
      exact ⟨hpool.trans hkeeps.1, hfunctions.trans hkeeps.2⟩

end Builder

section

variable (chunkName : String) (name : Option String) (parameters : List String) (line : ℕ)
  (body : Emit Code)

theorem protoOf_code :
    (protoOf chunkName name parameters line body).chunk.code.toList =
      Code.bytes (body ⟨.empty, #[], line⟩).1 := by
  exact Builder.emitAll_code _ _

theorem protoOf_pool :
    (protoOf chunkName name parameters line body).chunk.pool =
      (body ⟨.empty, #[], line⟩).2.pool := by
  exact (Builder.emitAll_keeps _ _).1

theorem protoOf_functions :
    (protoOf chunkName name parameters line body).functions =
      (body ⟨.empty, #[], line⟩).2.functions.toList := by
  exact congrArg Array.toList (Builder.emitAll_keeps _ _).2

/-- The code of a function lies in its chunk, from start to end. -/
theorem Code.lies_protoOf :
    Code.Lies (protoOf chunkName name parameters line body).chunk (body ⟨.empty, #[], line⟩).1 0
      (protoOf chunkName name parameters line body).chunk.code.size := by
  have hcode := protoOf_code chunkName name parameters line body
  have hsize := congrArg List.length hcode
  rw [Array.length_toList, Code.length_bytes] at hsize
  have hlies := Code.lies_of_bytes (c := (protoOf chunkName name parameters line body).chunk)
    [] (body ⟨.empty, #[], line⟩).1 []
    (by rw [hcode, List.nil_append, List.append_nil])
  rw [List.length_nil, Nat.zero_add] at hlies
  rw [hsize]
  exact hlies

end

/-! ### Code with waiting jumps -/

/-- The offsets that waiting jumps lead to. -/
structure Targets where
  breakTo : ℕ
  continueTo : ℕ

namespace OpenCode

/-- Instructions lie one behind the other between two offsets, and what waits are jumps to the
targets. -/
def Lies (c : Chunk) (targets : Targets) : OpenCode → (start stop : ℕ) → Prop
  | [], start, stop => start = stop ∧ stop ≤ c.code.size
  | (.instr i, _) :: rest, start, stop =>
    c.At start i (start + i.size) ∧ Lies c targets rest (start + i.size) stop
  | (.breakLoop, _) :: rest, start, stop =>
    c.Jumps start .always targets.breakTo (start + Instr.wideSize) ∧
      Lies c targets rest (start + Instr.wideSize) stop
  | (.continueLoop, _) :: rest, start, stop =>
    c.Jumps start .always targets.continueTo (start + Instr.wideSize) ∧
      Lies c targets rest (start + Instr.wideSize) stop

variable {c : Chunk} {targets : Targets} {start stop : ℕ}

theorem Lies.bounds {code : OpenCode} (h : code.Lies c targets start stop) :
    stop = start + code.size ∧ stop ≤ c.code.size := by
  induction code generalizing start with
  | nil => exact ⟨h.1.symm, h.2⟩
  | cons entry rest ih =>
      obtain ⟨op, line⟩ := entry
      cases op <;>
      · obtain ⟨hstop, hle⟩ := ih h.2
        exact ⟨by rw [hstop, size, Nat.add_assoc]; rfl, hle⟩

theorem lies_append {first second : OpenCode} :
    Lies c targets (first ++ second) start stop ↔
      ∃ middle, first.Lies c targets start middle ∧ second.Lies c targets middle stop := by
  induction first generalizing start with
  | nil =>
      constructor
      · intro h
        have hbounds := h.bounds
        exact ⟨start, ⟨rfl, by omega⟩, h⟩
      · rintro ⟨middle, ⟨rfl, -⟩, h⟩
        exact h
  | cons entry rest ih =>
      obtain ⟨op, line⟩ := entry
      cases op <;>
      · simp only [List.cons_append, Lies, ih]
        constructor
        · rintro ⟨hi, middle, hfirst, hsecond⟩
          exact ⟨middle, ⟨hi, hfirst⟩, hsecond⟩
        · rintro ⟨middle, ⟨hi, hfirst⟩, hsecond⟩
          exact ⟨hi, middle, hfirst, hsecond⟩

theorem lies_ofCode {code : Code} :
    (ofCode code).Lies c targets start stop ↔ code.Lies c start stop := by
  induction code generalizing start with
  | nil => exact Iff.rfl
  | cons entry rest ih => exact and_congr Iff.rfl ih

/-- Nothing waits in the code. -/
def Closed (code : OpenCode) : Prop :=
  ∀ entry ∈ code, entry.1.instr?.isSome

theorem closed_ofCode (code : Code) : (ofCode code).Closed := by
  intro entry hentry
  obtain ⟨entry, -, rfl⟩ := List.mem_map.1 hentry
  rfl

theorem Closed.append {first second : OpenCode} (hfirst : first.Closed)
    (hsecond : second.Closed) : Closed (first ++ second) := by
  intro entry hentry
  rcases List.mem_append.1 hentry with h | h
  · exact hfirst entry h
  · exact hsecond entry h

theorem ofCode_toCode {code : OpenCode} (hclosed : code.Closed) : ofCode code.toCode = code := by
  induction code with
  | nil => rfl
  | cons entry rest ih =>
      obtain ⟨op, line⟩ := entry
      have hrest := ih fun entry hentry => hclosed entry (List.mem_cons_of_mem _ hentry)
      have hop := hclosed (op, line) (List.mem_cons_self ..)
      cases op with
      | instr i => exact congrArg ((Op.instr i, line) :: ·) hrest
      | breakLoop => cases hop
      | continueLoop => cases hop

theorem lies_of_toCode {code : OpenCode} (hclosed : code.Closed)
    (h : code.toCode.Lies c start stop) : code.Lies c targets start stop := by
  rw [← ofCode_toCode hclosed, lies_ofCode]
  exact h

theorem size_ofCode (code : Code) : (ofCode code).size = code.size := by
  induction code with
  | nil => rfl
  | cons entry rest ih => exact congrArg (entry.1.size + ·) ih

theorem size_toCode {code : OpenCode} (hclosed : code.Closed) : code.toCode.size = code.size := by
  rw [← size_ofCode, ofCode_toCode hclosed]

theorem size_append (first second : OpenCode) :
    size (first ++ second) = first.size + second.size := by
  induction first with
  | nil => exact (Nat.zero_add _).symm
  | cons entry rest ih =>
      obtain ⟨op, line⟩ := entry
      rw [List.cons_append, size, ih, size, Nat.add_assoc]

theorem size_close (breakTo continueTo : Int) (position : ℕ) (code : OpenCode) :
    (close breakTo continueTo position code).size = code.size := by
  induction code generalizing position with
  | nil => rfl
  | cons entry rest ih =>
      obtain ⟨op, line⟩ := entry
      cases op <;> exact congrArg (_ + ·) (ih _)

/-- Where the code of a closed loop body lies, its waiting jumps lead to the targets. -/
theorem lies_of_close {base : ℕ} (position : ℕ) {breakTo continueTo : Int} {code : OpenCode}
    (h : (close breakTo continueTo position code).Lies c (base + position) stop)
    (hbreak : base + breakTo = targets.breakTo) (hcontinue : base + continueTo = targets.continueTo)
    (hsize : c.code.size < Chunk.sizeLimit) (hbreakLe : targets.breakTo ≤ c.code.size)
    (hcontinueLe : targets.continueTo ≤ c.code.size) :
    code.Lies c targets (base + position) stop := by
  induction code generalizing position with
  | nil => exact h
  | cons entry rest ih =>
      obtain ⟨op, line⟩ := entry
      -- The jump of this entry ends where the rest starts, which is inside the chunk.
      have hstop : base + position + op.size ≤ c.code.size := by
        obtain ⟨hend, hle⟩ := Code.Lies.bounds h
        rw [size_close, size] at hend
        omega
      cases op with
      | instr i =>
          refine ⟨h.1, ?_⟩
          exact Nat.add_assoc base position _ ▸ ih _ (Nat.add_assoc base position _ ▸ h.2)
      | breakLoop =>
          refine ⟨Chunk.Jumps.of_distance h.1 ?_ hsize hstop hbreakLe, ?_⟩
          · simp only [Op.size] at *
            push_cast
            omega
          · exact Nat.add_assoc base position _ ▸ ih _ (Nat.add_assoc base position _ ▸ h.2)
      | continueLoop =>
          refine ⟨Chunk.Jumps.of_distance h.1 ?_ hsize hstop hcontinueLe, ?_⟩
          · simp only [Op.size] at *
            push_cast
            omega
          · exact Nat.add_assoc base position _ ▸ ih _ (Nat.add_assoc base position _ ▸ h.2)

end OpenCode

end Tracepoint
