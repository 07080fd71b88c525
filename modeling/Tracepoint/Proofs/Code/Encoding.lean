/-
Encoding and decoding.

Every instruction is decoded from the bytes it is encoded in, wherever these stand, and nothing
else is decoded as that instruction: the bytes between an offset and the one behind it are those
that the instruction decoded there is encoded in.  So code that was emitted is read back whole.

Main definitions:

* `Instr.StandsAt` — the bytes of an instruction are found at an offset;
* `Builder.emissions` — where some code is put that is emitted, instruction by instruction.

Main results:

* `Instr.decodeAt_eq_iff` — exactly what stands at an offset is decoded there;
* `encoding_inverse` — **encoding and decoding are inverse over the whole format**.
-/

import Tracepoint.Proofs.Code.Flow
import Tracepoint.Proofs.Code.Table

set_option relaxedAutoImplicit false
set_option autoImplicit false

namespace Tracepoint

/-! ### Operands -/

theorem BindingKind.toByte_of_ofByte? {b : UInt8} {kind : BindingKind}
    (h : ofByte? b = some kind) : kind.toByte = b := by
  unfold ofByte? at h
  split_ifs at h with h₀ h₁ h₂ h₃ h₄
  · cases h
    exact h₀.symm
  · cases h
    exact h₁.symm
  · cases h
    exact h₂.symm
  · cases h
    exact h₃.symm
  · cases h
    exact h₄.symm

namespace Word

/-- The bytes of a word that is made of four bytes are these. -/
theorem toBytes_ofBytes (a b c d : UInt8) : toBytes (ofBytes a b c d) = [a, b, c, d] := by
  have ha := a.toNat_lt
  have hb := b.toNat_lt
  have hc := c.toNat_lt
  have hd := d.toNat_lt
  have hsum : (ofBytes a b c d).toNat =
      a.toNat + 256 * b.toNat + 65536 * c.toNat + 16777216 * d.toNat := by
    rw [ofBytes, UInt32.toNat_ofNat']
    omega
  have hbyte : ∀ (n : ℕ) (x : UInt8), n = x.toNat → UInt8.ofNat n = x := by
    rintro _ x rfl
    exact UInt8.ofNat_toNat
  simp only [toBytes, hsum, List.cons.injEq, and_true]
  refine ⟨hbyte _ a ?_, hbyte _ b ?_, hbyte _ c ?_, hbyte _ d ?_⟩
  all_goals omega

/-- The bytes of the word at an offset are found there. -/
theorem getElem?_of_at? {code : Array UInt8} {offset : ℕ} {w : UInt32}
    (h : at? code offset = some w) : ∀ k < 4, code[offset + k]? = (toBytes w)[k]? := by
  unfold at? at h
  split at h
  next a b c d ha hb hc hd =>
    obtain rfl : ofBytes a b c d = w := Option.some.inj h
    intro k hk
    rw [toBytes_ofBytes]
    obtain rfl | rfl | rfl | rfl : k = 0 ∨ k = 1 ∨ k = 2 ∨ k = 3 := by omega
    · exact ha
    · exact hb
    · exact hc
    · exact hd
  next => cases h

end Word

/-! ### Single instructions -/

namespace Instr

/-- The bytes of an instruction are found at an offset. -/
def StandsAt (code : Array UInt8) (offset : ℕ) (i : Instr) : Prop :=
  ∀ k < i.size, code[offset + k]? = i.encode[k]?

variable {code : Array UInt8} {offset next : ℕ} {i : Instr}

theorem encode_of_narrow? {first : UInt8} (h : narrow? first = some i) : i.encode = [first] := by
  unfold narrow? at h
  split at h
  all_goals first
    | (cases h; rfl)
    | cases h

theorem encode_of_wide? {first : UInt8} {make : UInt32 → Instr} (h : wide? first = some make)
    (w : UInt32) : (make w).encode = first :: Word.toBytes w := by
  unfold wide? at h
  split at h
  all_goals first
    | (cases h; rfl)
    | cases h

/-- An instruction stands where its byte does, followed by the bytes of its operand. -/
theorem StandsAt.of_operand (hfirst : code[offset]? = some i.opcode)
    (hoperand : ∀ k < i.operand.length, code[offset + 1 + k]? = i.operand[k]?) :
    i.StandsAt code offset := by
  intro k hk
  rw [← length_encode, encode, List.length_cons] at hk
  cases k with
  | zero => exact hfirst
  | succ k =>
      rw [encode, List.getElem?_cons_succ, Nat.add_comm k 1, ← Nat.add_assoc]
      exact hoperand k (Nat.lt_of_succ_lt_succ hk)

/-- What is decoded at an offset stands there. -/
theorem standsAt_of_decodeAt (h : decodeAt code offset = .ok (some (i, next))) :
    i.StandsAt code offset := by
  unfold decodeAt at h
  split at h
  · cases h
  next first hfirst =>
    split at h
    next i' _ hnarrow =>
      cases h
      obtain ⟨hopcode, hoperand⟩ := List.cons.inj (encode_of_narrow? hnarrow)
      refine .of_operand (hopcode ▸ hfirst) fun k hk => ?_
      rw [hoperand] at hk
      cases hk
    next make _ hwide =>
      split at h
      next w hw =>
        cases h
        obtain ⟨hopcode, hoperand⟩ := List.cons.inj (encode_of_wide? hwide w)
        refine .of_operand (hopcode ▸ hfirst) fun k hk => ?_
        rw [hoperand] at hk ⊢
        exact Word.getElem?_of_at? hw k hk
      next => cases h
    next =>
      split at h
      next hdeclare =>
        split at h
        next name kind hname hkind =>
          cases h
          obtain ⟨b, hb, hkind⟩ := Option.bind_eq_some_iff.1 hkind
          refine .of_operand (hfirst.trans (congrArg some hdeclare)) fun k hk => ?_
          -- The four bytes of the name come first, and the byte of the kind is the last one.
          rcases Nat.lt_or_ge k 4 with hk' | hk'
          · rw [Word.getElem?_of_at? hname k hk']
            exact (List.getElem?_append_left hk').symm
          · obtain rfl : k = 4 := Nat.le_antisymm (Nat.le_of_lt_succ hk) hk'
            rw [← BindingKind.toByte_of_ofByte? hkind] at hb
            exact hb
        next => cases h
      next => cases h

/-- **Exactly what stands at an offset is decoded there.** -/
theorem decodeAt_eq_iff :
    decodeAt code offset = .ok (some (i, next)) ↔
      i.StandsAt code offset ∧ next = offset + i.size := by
  constructor
  · intro h
    exact ⟨standsAt_of_decodeAt h, next_of_decodeAt h⟩
  · rintro ⟨h, rfl⟩
    exact decodeAt_of_encode i h

/-- An instruction stands where its bytes are put, whatever stands in front of them and behind. -/
theorem standsAt_append (i : Instr) (before after : List UInt8) :
    i.StandsAt (before ++ i.encode ++ after).toArray before.length := by
  intro k hk
  rw [← length_encode] at hk
  rw [List.getElem?_toArray, List.append_assoc, List.getElem?_append_right (Nat.le_add_right ..),
    Nat.add_sub_cancel_left, List.getElem?_append_left hk]

theorem StandsAt.le_size (h : i.StandsAt code offset) : offset + i.size ≤ code.size := by
  have hpos := i.size_pos
  -- The last byte of the instruction is one of the code.
  have hlast := h (i.size - 1) (Nat.sub_lt hpos Nat.one_pos)
  have hin : i.size - 1 < i.encode.length := by
    rw [length_encode]
    exact Nat.sub_lt hpos Nat.one_pos
  rw [List.getElem?_eq_getElem hin] at hlast
  have hlt := (Array.getElem?_eq_some_iff.1 hlast).1
  omega

/-- The bytes from where an instruction stands up to its end are those it is encoded in. -/
theorem StandsAt.extract_eq (h : i.StandsAt code offset) :
    (code.extract offset (offset + i.size)).toList = i.encode := by
  refine List.ext_getElem? fun k => ?_
  have hle := h.le_size
  rw [Array.getElem?_toList, Array.getElem?_extract]
  rcases Nat.lt_or_ge k i.size with hk | hk
  · rw [if_pos (by omega)]
    exact h k hk
  · rw [if_neg (by omega), List.getElem?_eq_none (length_encode i ▸ hk)]

end Instr

/-! ### Code that was emitted -/

namespace Builder

/-- Where some code is put that is emitted, instruction by instruction. -/
def emissions (b : Builder) : Code → List (ℕ × Instr)
  | [] => []
  | (i, line) :: rest => (b.size, i) :: (b.emit i line).emissions rest

/-- Emitting an instruction adds the bytes that it is encoded in. -/
theorem emit_code (b : Builder) (i : Instr) (line : ℕ) :
    (b.emit i line).code.toList = b.code.toList ++ i.encode := by
  have h := b.emitAll_code [(i, line)]
  rw [Code.bytes, Code.bytes, List.append_nil] at h
  exact h

theorem emissions_eq_entries (b : Builder) (code : Code) :
    b.emissions code = (code.entries b.size).map fun e => (e.1, e.2.1) := by
  induction code generalizing b with
  | nil => rfl
  | cons entry rest ih =>
      obtain ⟨i, line⟩ := entry
      have hsize : (b.emit i line).size = b.size + i.size := by
        have h := congrArg List.length (b.emit_code i line)
        rw [List.length_append, Array.length_toList, Array.length_toList, Instr.length_encode] at h
        exact h
      rw [emissions, ih, hsize, Code.entries, List.map_cons]

/-- The instructions of a chunk are those that were emitted, where they were. -/
theorem instructions_emitAll (name : String) (code : Code) :
    ((empty.emitAll code).chunk name).instructions = empty.emissions code := by
  have hcode : ((empty.emitAll code).chunk name).code.toList = [] ++ code.bytes ++ [] := by
    rw [List.append_nil]
    exact empty.emitAll_code code
  have hlies := Code.lies_of_bytes [] code [] hcode
  have hsize : ((empty.emitAll code).chunk name).code.size = 0 + code.size := by
    rw [← Array.length_toList, hcode, List.append_nil, List.nil_append, Code.length_bytes,
      Nat.zero_add]
  rw [List.length_nil, ← hsize] at hlies
  rw [emissions_eq_entries]
  exact hlies.instructionsFrom

end Builder

/-- **Encoding and decoding are inverse over the whole format.** Emitting adds the bytes of the
encoding. These are decoded as the instruction, wherever they stand; and what is decoded anywhere
is encoded in the bytes that it was decoded from. So a chunk has the instructions that were
emitted, in their order and at their offsets. -/
theorem encoding_inverse :
    (∀ (b : Builder) (i : Instr) (line : ℕ),
      (b.emit i line).code.toList = b.code.toList ++ i.encode) ∧
    (∀ (i : Instr) (before after : List UInt8),
      Instr.decodeAt (before ++ i.encode ++ after).toArray before.length =
        .ok (some (i, before.length + i.encode.length))) ∧
    (∀ (code : Array UInt8) (offset next : ℕ) (i : Instr),
      Instr.decodeAt code offset = .ok (some (i, next)) →
        offset < next ∧ next ≤ code.size ∧ (code.extract offset next).toList = i.encode) ∧
    ∀ (name : String) (code : Code),
      ((Builder.empty.emitAll code).chunk name).instructions = Builder.empty.emissions code := by
  refine ⟨Builder.emit_code, fun i before after => ?_, fun code offset next i h => ?_,
    Builder.instructions_emitAll⟩
  · rw [Instr.length_encode]
    exact Instr.decodeAt_eq_iff.2 ⟨i.standsAt_append before after, rfl⟩
  · have hlt := Instr.lt_of_decodeAt h
    obtain ⟨hstands, rfl⟩ := Instr.decodeAt_eq_iff.1 h
    exact ⟨hlt, hstands.le_size, hstands.extract_eq⟩

end Tracepoint
