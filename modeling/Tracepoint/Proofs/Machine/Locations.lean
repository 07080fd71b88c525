/-
Reads and writes of a running program.

An instruction that writes into a container takes a value, a container and what names a place in
it.  Behind it every read of that place gives the value, and every read of any other place, of this
container or of another one, gives what it gave before.

Which indices are taken for a position of an array is not the same for reads and for writes.  A read
takes a number for one and also a text that spells one; a write into an array takes numbers only.

Main definitions:

* `Heap.Reads` — what the reading instructions give at a location;
* `Machine.Storing` — the operands of a writing instruction.

Main results:

* `Heap.reads_valueAt` — instructions read what is kept at a location;
* `reads_see_writes` — **reads see writes and only them**;
* `indices_of_writes` — **the indices under which an item can be written** are some of those under
  which it can be read.
-/

import Tracepoint.Proofs.Machine.Atomicity
import Tracepoint.Proofs.Store.Locations

set_option relaxedAutoImplicit false
set_option autoImplicit false

namespace Tracepoint

/-! ### Reading -/

/-- What instructions read at a location of a heap, whatever container and index name it, and
whatever else the machine holds: this value. They change nothing. -/
structure Heap.Reads (heap : Heap Value) (l : Location) (v : Value) : Prop where
  index : ∀ (proto : Proto) (m : Machine) (k c : Value) (rest : List Value),
    m.heap = heap → m.stack = k :: c :: rest → c.location? (k.key heap) = some l →
      execute proto .getIndex m = .ok [] { m with stack := v :: rest }
  property : ∀ (proto : Proto) (m : Machine) (w : UInt32) (name : String) (c : Value)
    (rest : List Value), m.heap = heap → m.stack = c :: rest →
      proto.chunk.pool.text? w.toNat = some name → c.location? (.name name) = some l →
        execute proto (.getProperty w) m = .ok [] { m with stack := v :: rest }

/-- An action and what is done behind it. -/
theorem run_act {α β : Type} (act : Act α) (f : α → Exec β) (s : Store) (frames : List Frame)
    (stack : List Value) (halted : Bool) :
    ((liftM act : Exec α) >>= f) ⟨s, frames, stack, halted⟩ =
      match act s with
      | .ok a s' => f a ⟨s', frames, stack, halted⟩
      | .error e s' => .error e ⟨s', frames, stack, halted⟩ := by
  simp only [Bind.bind, EStateM.bind, liftM, monadLift, MonadLift.monadLift]
  cases act s <;> rfl

/-- An instruction behind the look-up of its name. -/
theorem run_named {α : Type} {proto : Proto} {w : UInt32} {name : String}
    (hname : proto.chunk.pool.text? w.toNat = some name) (f : String → Exec α) (m : Machine) :
    (Exec.nameAt proto w >>= f) m = f name m := by
  simp only [Exec.nameAt, hname]
  rfl

/-- Instructions read what is kept at a location. -/
theorem Heap.reads_valueAt (heap : Heap Value) (l : Location) : heap.Reads l (heap.valueAt l) where
  index := by
    rintro proto ⟨s, frames, stack, halted⟩ k c rest rfl rfl hl
    have hread := run_act (Act.getIndex c k) (fun v => do Exec.push v; return ([] : List String))
      s frames rest halted
    rw [Act.getIndex_of_location? hl] at hread
    exact hread
  property := by
    rintro proto ⟨s, frames, stack, halted⟩ w name c rest rfl rfl hname hl
    have hread := run_act (Act.getProperty c name)
      (fun v => do Exec.push v; return ([] : List String)) s frames rest halted
    rw [Act.getProperty_of_location? hl] at hread
    exact (run_named hname _ _).trans hread

/-! ### Writing -/

/-- The operands of an instruction that writes: a container, what names a place in it (a key whose
text may depend on the heap), the value, and the operands below. -/
inductive Machine.Storing (m : Machine) :
    Instr → Value → (Heap Value → Key) → Value → List Value → Prop
  | index {v k c : Value} {rest : List Value} (hstack : m.stack = v :: k :: c :: rest) :
    m.Storing .setIndex c (fun heap => k.key heap) v rest
  | property {w : UInt32} {frame : Frame} {callers : List Frame} {name : String} {v c : Value}
    {rest : List Value} (hframes : m.frames = frame :: callers)
    (hname : frame.proto.chunk.pool.text? w.toNat = some name)
    (hstack : m.stack = v :: c :: rest) :
    m.Storing (.setProperty w) c (fun _ => .name name) v rest

section

variable {proto : Proto} {m m' : Machine} {printed : List String}

/-- A write at an index is the action, with the value left behind it. -/
theorem execute_setIndex (proto : Proto) (v k c : Value) (s : Store) (frames : List Frame)
    (rest : List Value) (halted : Bool) :
    execute proto .setIndex ⟨s, frames, v :: k :: c :: rest, halted⟩ =
      match Act.setIndex c k v s with
      | .ok _ s' => .ok [] ⟨s', frames, v :: rest, halted⟩
      | .error e s' => .error e ⟨s', frames, rest, halted⟩ := by
  have hrun := run_act (Act.setIndex c k v) (fun _ => do Exec.push v; return ([] : List String)) s
    frames rest halted
  cases hact : Act.setIndex c k v s <;> rw [hact] at hrun <;> exact hrun

/-- A write of a property is the action, with the value left behind it. -/
theorem execute_setProperty {w : UInt32} {name : String}
    (hname : proto.chunk.pool.text? w.toNat = some name) (v c : Value) (s : Store)
    (frames : List Frame) (rest : List Value) (halted : Bool) :
    execute proto (.setProperty w) ⟨s, frames, v :: c :: rest, halted⟩ =
      match Act.setProperty c name v s with
      | .ok _ s' => .ok [] ⟨s', frames, v :: rest, halted⟩
      | .error e s' => .error e ⟨s', frames, rest, halted⟩ := by
  have hrun := run_act (Act.setProperty c name v)
    (fun _ => do Exec.push v; return ([] : List String)) s frames rest halted
  refine (run_named hname _ _).trans ?_
  cases hact : Act.setProperty c name v s <;> rw [hact] at hrun <;> exact hrun

/-- Where a write at an index succeeds, there are three operands, and the action succeeds. -/
theorem execute_setIndex_ok (h : execute proto .setIndex m = .ok printed m') :
    ∃ v k c rest s', m.stack = v :: k :: c :: rest ∧
      Act.setIndex c k v m.toStore = .ok () s' ∧ m' = ⟨s', m.frames, v :: rest, m.halted⟩ := by
  obtain ⟨s, frames, stack, halted⟩ := m
  rcases stack with _ | ⟨v, _ | ⟨k, _ | ⟨c, rest⟩⟩⟩
  · cases h
  · cases h
  · cases h
  · rw [execute_setIndex] at h
    split at h
    next u s' hact =>
      cases h
      exact ⟨v, k, c, rest, s', rfl, hact, rfl⟩
    next => cases h

/-- Where a write of a property succeeds, there are a name and two operands, and the action
succeeds. -/
theorem execute_setProperty_ok {w : UInt32}
    (h : execute proto (.setProperty w) m = .ok printed m') :
    ∃ name v c rest s', proto.chunk.pool.text? w.toNat = some name ∧ m.stack = v :: c :: rest ∧
      Act.setProperty c name v m.toStore = .ok () s' ∧
        m' = ⟨s', m.frames, v :: rest, m.halted⟩ := by
  obtain ⟨s, frames, stack, halted⟩ := m
  cases hname : proto.chunk.pool.text? w.toNat with
  | none =>
      have hfails : execute proto (.setProperty w) ⟨s, frames, stack, halted⟩ =
          .error (.internal (.badName w.toNat)) ⟨s, frames, stack, halted⟩ := by
        simp only [execute, Exec.nameAt, hname]
        rfl
      rw [hfails] at h
      cases h
  | some name =>
      rcases stack with _ | ⟨v, _ | ⟨c, rest⟩⟩
      · cases (run_named hname _ _).symm.trans h
      · cases (run_named hname _ _).symm.trans h
      · rw [execute_setProperty hname] at h
        split at h
        next u s' hact =>
          cases h
          exact ⟨name, v, c, rest, s', rfl, rfl, hact, rfl⟩
        next => cases h

/-! #### Steps -/

/-- A step with an instruction to carry out. -/
theorem Machine.step_of_nextInstr? {i : Instr} (h : m.nextInstr? = some i) :
    ∃ frame callers next, m.halted = false ∧ m.frames = frame :: callers ∧
      m.step =
        match execute frame.proto i
          { m with frames := { frame with offset := next } :: callers } with
        | .ok printed m' => (m', printed, if m'.halted then .done else .more)
        | .error e m' => (m', [], .fault ⟨e, frame.line⟩) := by
  rw [nextInstr?] at h
  split_ifs at h with hhalted
  split at h
  next => cases h
  next frame callers hframes =>
    split at h
    next i' next hdecode =>
      obtain rfl : i' = i := Option.some.inj h
      refine ⟨frame, callers, next, Bool.eq_false_iff.2 hhalted, hframes, ?_⟩
      cases hrun : execute frame.proto i'
          { m with frames := { frame with offset := next } :: callers } with
      | ok printed m' => simp only [step, if_neg hhalted, hframes, hdecode, hrun]
      | error e m' => simp only [step, if_neg hhalted, hframes, hdecode, hrun]
    next => cases h

/-- A step that does not fail comes from an instruction that succeeds. -/
theorem Machine.execute_of_calm {i : Instr} (h : m.nextInstr? = some i)
    (hcalm : ∀ e, m.step.2.2 ≠ .fault e) :
    ∃ frame callers next, m.frames = frame :: callers ∧
      execute frame.proto i { m with frames := { frame with offset := next } :: callers } =
        .ok m.step.2.1 m.step.1 := by
  obtain ⟨frame, callers, next, -, hframes, hstep⟩ := m.step_of_nextInstr? h
  refine ⟨frame, callers, next, hframes, ?_⟩
  split at hstep
  next printed m' hrun => rw [hrun, hstep]
  next e m' hrun => exact absurd (by rw [hstep]) (hcalm ⟨e, frame.line⟩)

/-- **What a write does that succeeds.** -/
theorem Machine.Intact.writes {G : Proto → Prop} (hm : m.Intact G) {i : Instr}
    (hnext : m.nextInstr? = some i) (hi : i = .setIndex ∨ ∃ w, i = .setProperty w)
    (hcalm : ∀ e, m.step.2.2 ≠ .fault e) :
    ∃ c key v rest l, m.Storing i c key v rest ∧ c.location? (key m.heap) = some l ∧
      c.location? (key m.step.1.heap) = some l ∧ m.step.1.stack = v :: rest ∧
        m.heap.Written l v m.step.1.heap := by
  obtain ⟨frame, callers, next, hframes, hrun⟩ := Machine.execute_of_calm hnext hcalm
  rcases hi with rfl | ⟨w, rfl⟩
  · obtain ⟨v, k, c, rest, s', hstack, hact, hafter⟩ := execute_setIndex_ok hrun
    have hc : m.Backs G c := hm.stack c (by
      have hmem : c ∈ v :: k :: c :: rest := by simp
      exact hstack ▸ hmem)
    obtain ⟨l, hl, hl', heap, hs', hwritten⟩ := Act.writes_setIndex hc hact
    rw [hafter]
    subst hs'
    exact ⟨c, _, v, rest, l, .index hstack, hl, hl', rfl, hwritten⟩
  · obtain ⟨name, v, c, rest, s', hname, hstack, hact, hafter⟩ := execute_setProperty_ok hrun
    have hc : m.Backs G c := hm.stack c (by
      have hmem : c ∈ v :: c :: rest := by simp
      exact hstack ▸ hmem)
    obtain ⟨l, hl, heap, hs', hwritten⟩ := Act.writes_setProperty hc hact
    rw [hafter]
    subst hs'
    exact ⟨c, _, v, rest, l, .property hframes hname hstack, hl, hl, rfl, hwritten⟩

/-- A step that writes at an index of a container. -/
theorem Machine.step_setIndex (hnext : m.nextInstr? = some .setIndex) {v k c : Value}
    {rest : List Value} (hstack : m.stack = v :: k :: c :: rest) :
    ∃ line, m.step.2.2 =
        (match Act.setIndex c k v m.toStore with
          | .ok _ _ => .more
          | .error e _ => .fault ⟨e, line⟩) ∧
      m.step.1.toStore =
        match Act.setIndex c k v m.toStore with
        | .ok _ s' => s'
        | .error _ s' => s' := by
  obtain ⟨frame, callers, next, hhalted, -, hstep⟩ := m.step_of_nextInstr? hnext
  refine ⟨frame.line, ?_⟩
  rw [hstep, hstack, execute_setIndex, hhalted]
  cases Act.setIndex c k v m.toStore with
  | ok u s' => exact ⟨rfl, rfl⟩
  | error e s' => exact ⟨rfl, rfl⟩

/-- A step that writes at an index of an array fails for the index exactly if that is no position,
or one too far behind the end. -/
theorem Machine.invalidIndex_iff (hnext : m.nextInstr? = some .setIndex) {v k : Value} {r : Ref}
    {rest : List Value} (hstack : m.stack = v :: k :: .array r :: rest) {items : Array Value}
    (hitems : m.heap.items? r = some items) :
    (∃ text line, m.step.2.2 = .fault ⟨.invalidIndex text, line⟩) ↔
      (∀ p, ¬k.Denotes p) ∨
        ∃ p, k.Denotes p ∧ items.size + growthLimit ≤ min p (positionBound - 1) := by
  rw [← Act.setIndex_array_error_iff (v := v) hitems]
  obtain ⟨line, hstatus, -⟩ := m.step_setIndex hnext hstack
  rw [hstatus]
  constructor
  · rintro ⟨text, line', hfault⟩
    cases hact : Act.setIndex (.array r) k v m.toStore with
    | ok u s' =>
        rw [hact] at hfault
        cases hfault
    | error e s' =>
        rw [hact] at hfault
        cases hfault
        exact ⟨text, by rw [Act.atomic_setIndex _ _ _ _ _ _ hact]⟩
  · rintro ⟨text, hact⟩
    exact ⟨text, line, by rw [hact]⟩

end

/-- **Reads see writes and only them.** Take a machine, however far it has gone on the run of a
program, that writes into a container next. If that succeeds, the value is left as an operand, and
reading at the place that the operands name gives the value; reading anywhere else gives what it
gave before; other containers are the same cells, and the container has the shape that the write
needs. If it fails, the heap is as before. A write at an index of an array fails for the index
exactly if that is no position, or one too far behind the end. -/
theorem reads_see_writes (program : Program) (n : ℕ) {i : Instr}
    (hnext : (machineAfter program n).nextInstr? = some i)
    (hi : i = .setIndex ∨ ∃ w, i = .setProperty w) :
    let m := machineAfter program n
    let m' := machineAfter program (n + 1)
    ((∀ e, m.step.2.2 ≠ .fault e) →
      ∃ c key v rest l, m.Storing i c key v rest ∧ c.location? (key m.heap) = some l ∧
        c.location? (key m'.heap) = some l ∧ m'.stack = v :: rest ∧ m'.heap.Reads l v ∧
          (∀ other, other ≠ l → ∃ w, m.heap.Reads other w ∧ m'.heap.Reads other w) ∧
          (∀ r, r ≠ l.container → m'.heap.get? r = m.heap.get? r) ∧
          m.heap.Reshaped m'.heap l) ∧
    ((∃ e, m.step.2.2 = .fault e) → m'.heap = m.heap) ∧
    (i = .setIndex → ∀ v k r rest, m.stack = v :: k :: .array r :: rest →
      ∃ items, m.heap.items? r = some items ∧
        ((∃ text line, m.step.2.2 = .fault ⟨.invalidIndex text, line⟩) ↔
          (∀ p, ¬k.Denotes p) ∨
            ∃ p, k.Denotes p ∧ items.size + growthLimit ≤ min p (positionBound - 1))) := by
  intro m m'
  have hm : m.Intact fun _ => True := intact_machineAfter program n
  have hafter : m' = m.step.1 := machineAfter_succ program n
  refine ⟨fun hcalm => ?_, fun ⟨e, he⟩ => ?_, fun hset v k r rest hstack => ?_⟩
  · obtain ⟨c, key, v, rest, l, hstoring, hl, hl', hleft, hwritten⟩ := hm.writes hnext hi hcalm
    rw [hafter]
    refine ⟨c, key, v, rest, l, hstoring, hl, hl', hleft, ?_, fun other hother => ?_,
      hwritten.cells, hwritten.reshaped⟩
    · have hreads := m.step.1.heap.reads_valueAt l
      rwa [hwritten.value] at hreads
    · have hreads := m.step.1.heap.reads_valueAt other
      rw [hwritten.others other hother] at hreads
      exact ⟨_, m.heap.reads_valueAt other, hreads⟩
  · rw [hafter, (Machine.recoiled_of_fault he).store]
  · have hr : m.Backs (fun _ => True) (.array r) := hm.stack _ (by
      have hmem : Value.array r ∈ v :: k :: .array r :: rest := by simp
      exact hstack ▸ hmem)
    obtain ⟨items, hitems⟩ := Option.isSome_iff_exists.1 hr
    exact ⟨items, hitems, Machine.invalidIndex_iff (hset ▸ hnext) hstack hitems⟩

/-- A property is written under a key that an index names. -/
theorem reads_see_writes_of_property :
    ∃ program, parse "let o = \x7b\x7d; o[\"a\"] = true;" = .ok program ∧
      (machineAfter program 6).nextInstr? = some .setIndex ∧
        ∃ c key rest l, (machineAfter program 6).Storing .setIndex c key (.bool true) rest ∧
          (machineAfter program (6 + 1)).heap.Reads l (.bool true) := by
  obtain ⟨program, hprogram⟩ : ∃ program : Program, program =
      [.declare .let_ "o" (some (.object [])) 1, .expression (.assignIndex
        (.atom (.name "o") ⟨12, 1⟩ 1) (.atom (.string "a") ⟨14, 3⟩ 1)
        (.atom (.bool true) ⟨21, 4⟩ 1)) 1] := ⟨_, rfl⟩
  have hparse : parse "let o = \x7b\x7d; o[\"a\"] = true;" = .ok program := by
    rw [hprogram]
    cbv
  have hnext : (machineAfter program 6).nextInstr? = some .setIndex := by
    rw [hprogram]
    decide +kernel
  have hstack : (machineAfter program 6).stack = [.bool true, .string "a", .object ⟨1⟩] := by
    rw [hprogram]
    cbv
  have hmore : (machineAfter program 6).step.2.2 = .more := by
    rw [hprogram]
    decide +kernel
  have hcalm : ∀ e, (machineAfter program 6).step.2.2 ≠ .fault e := by
    intro e he
    rw [hmore] at he
    cases he
  obtain ⟨c, key, v, rest, l, hstoring, -, -, -, hreads, -⟩ :=
    (reads_see_writes program 6 hnext (.inl rfl)).1 hcalm
  have hv : v = .bool true := by
    cases hstoring with
    | index h => exact (List.cons.inj (hstack.symm.trans h)).1.symm
  subst hv
  exact ⟨program, hparse, hnext, c, key, rest, l, hstoring, hreads⟩

/-! ### Indices of arrays -/

/-- A text denotes no position, whatever it spells. -/
theorem Value.not_denotes_string (s : String) (n : ℕ) : ¬(string s).Denotes n := by
  rintro ⟨x, hx, -⟩
  cases hx

/-- A text that spells a position names the item there. -/
theorem Value.location?_of_text {text : String} {p : ℕ} (hp : positionNamed? text = some p)
    (hlength : text ≠ "length") (hpush : text ≠ "push") (heap : Heap Value) (r : Ref) :
    (array r).location? ((string text).key heap) = some (.item r p) := by
  rw [key_of_not_denotes (not_denotes_string text), text_string, location?, Location.ofName?,
    if_neg (not_or.2 ⟨hlength, hpush⟩), hp]

/-- Instructions read the items of an array. -/
theorem Heap.reads_item {heap : Heap Value} {r : Ref} {items : Array Value}
    (hitems : heap.items? r = some items) (p : ℕ) :
    heap.Reads (.item r p) ((items[p]?).getD .undefined) := by
  have hreads := heap.reads_valueAt (.item r p)
  rwa [valueAt, hitems, Option.bind_some] at hreads

section

variable {m : Machine} {v k : Value} {r : Ref} {rest : List Value} {items : Array Value}
  (hnext : m.nextInstr? = some .setIndex) (hstack : m.stack = v :: k :: .array r :: rest)
  (hitems : m.heap.items? r = some items)

include hnext hstack hitems

/-- A write under what is no position fails, and the heap is as before. -/
theorem Machine.step_setIndex_of_not_denotes (hk : ∀ n, ¬k.Denotes n) :
    (∃ line, m.step.2.2 = .fault ⟨.invalidIndex (k.text m.heap), line⟩) ∧
      m.step.1.heap = m.heap := by
  have hact := Act.setIndex_array (s := m.toStore) (v := v) hitems (k := k)
  rw [Value.key_of_not_denotes hk] at hact
  obtain ⟨line, hstatus, hstore⟩ := m.step_setIndex hnext hstack
  rw [hact] at hstatus hstore
  exact ⟨⟨line, hstatus⟩, by rw [hstore]⟩

/-- A write at a position that is not too far behind the end writes the item. -/
theorem Machine.step_setIndex_of_position {p : ℕ} (hkey : k.key m.heap = .position p)
    (hp : p < items.size + growthLimit) :
    m.step.2.2 = .more ∧ m.heap.Written (.item r p) v m.step.1.heap := by
  have hact := Act.setIndex_array (s := m.toStore) (v := v) hitems (k := k)
  rw [hkey] at hact
  obtain ⟨line, hstatus, hstore⟩ := m.step_setIndex hnext hstack
  rw [hact.trans (if_neg (Nat.not_le.2 hp))] at hstatus hstore
  refine ⟨hstatus, ?_⟩
  rw [hstore]
  exact Heap.written_setItem hitems p v

/-- **The indices under which an item can be written.** An index under which an item of an array is
read, or could be read if the array went so far, is a number or the text of one. Under the number
the item is written, and nothing else; under the text nothing is, and the step fails for the
index. -/
theorem indices_of_writes {p : ℕ} (hp : p < items.size + growthLimit)
    (hl : (Value.array r).location? (k.key m.heap) = some (.item r p)) :
    (∀ proto, execute proto .getIndex { m with stack := k :: .array r :: rest } =
        .ok [] { m with stack := (items[p]?).getD .undefined :: rest }) ∧
      ((∃ n, k.Denotes n) → m.step.2.2 = .more ∧ m.heap.Written (.item r p) v m.step.1.heap) ∧
      ((∀ n, ¬k.Denotes n) →
        (∃ line, m.step.2.2 = .fault ⟨.invalidIndex (k.text m.heap), line⟩) ∧
          m.step.1.heap = m.heap) := by
  refine ⟨fun proto => ?_, fun ⟨n, hn⟩ => ?_, m.step_setIndex_of_not_denotes hnext hstack hitems⟩
  · exact (Heap.reads_item hitems p).index proto { m with stack := k :: .array r :: rest } k _ rest
      rfl rfl hl
  · refine m.step_setIndex_of_position hnext hstack hitems ?_ hp
    rw [hn.key] at hl ⊢
    rw [(Location.item.inj (Option.some.inj hl)).2]

end

/-- A run that comes to write an item under a text. -/
theorem run_to_textIndex :
    ∃ program, parse "let a = [true]; a[\"0\"] = null;" = .ok program ∧
      (machineAfter program 7).nextInstr? = some .setIndex ∧
        (machineAfter program 7).stack = [.null, .string "0", .array ⟨1⟩] ∧
          (machineAfter program 7).heap.items? ⟨1⟩ = some #[.bool true] ∧
            (Value.array ⟨1⟩).location? ((Value.string "0").key (machineAfter program 7).heap) =
              some (.item ⟨1⟩ 0) := by
  obtain ⟨program, hprogram⟩ : ∃ program : Program, program =
      [.declare .let_ "a" (some (.array [.atom (.bool true) ⟨9, 4⟩ 1])) 1,
        .expression (.assignIndex (.atom (.name "a") ⟨16, 1⟩ 1) (.atom (.string "0") ⟨18, 3⟩ 1)
          (.atom .null ⟨25, 4⟩ 1)) 1] := ⟨_, rfl⟩
  have hl := fun heap => Value.location?_of_text (by decide +kernel : positionNamed? "0" = some 0)
    (by decide) (by decide) heap ⟨1⟩
  refine ⟨program, ?_, ?_, ?_, ?_, hl _⟩ <;> rw [hprogram] <;> cbv

/-- The item that a text names is read under it, and a write under it fails. -/
theorem indices_of_writes_text :
    ∃ program, parse "let a = [true]; a[\"0\"] = null;" = .ok program ∧
      (machineAfter program 7).stack = [.null, .string "0", .array ⟨1⟩] ∧
      (∀ proto, execute proto .getIndex
        { machineAfter program 7 with stack := [.string "0", .array ⟨1⟩] } =
          .ok [] { machineAfter program 7 with stack := [.bool true] }) ∧
      ∃ line, (machineAfter program 7).step.2.2 = .fault ⟨.invalidIndex "0", line⟩ := by
  obtain ⟨program, hparse, hnext, hstack, hitems, hl⟩ := run_to_textIndex
  obtain ⟨hread, -, hfails⟩ := indices_of_writes hnext hstack hitems (by decide) hl
  obtain ⟨hfault, -⟩ := hfails (Value.not_denotes_string "0")
  rw [Value.text_string] at hfault
  exact ⟨program, hparse, hstack, hread, hfault⟩

/-- Reads and writes of an array do not agree on what an index is: under a text that is read as a
position, the item there is read, and a write leaves it as it is. -/
theorem text_index_not_written :
    ∃ program, parse "let a = [true]; a[\"0\"] = null;" = .ok program ∧
      (machineAfter program 7).nextInstr? = some .setIndex ∧
      (machineAfter program 7).stack = [.null, .string "0", .array ⟨1⟩] ∧
      (Value.array ⟨1⟩).location? ((Value.string "0").key (machineAfter program 7).heap) =
        some (.item ⟨1⟩ 0) ∧
      (machineAfter program 7).heap.Reads (.item ⟨1⟩ 0) (.bool true) ∧
      (machineAfter program 7).step.1.heap.Reads (.item ⟨1⟩ 0) (.bool true) ∧
      ¬∃ items, (machineAfter program 7).step.1.heap.items? ⟨1⟩ = some items ∧
        items[0]? = some .null := by
  obtain ⟨program, hparse, hnext, hstack, hitems, hl⟩ := run_to_textIndex
  obtain ⟨-, hafter⟩ := Machine.step_setIndex_of_not_denotes hnext hstack hitems
    (Value.not_denotes_string "0")
  have hreads : (machineAfter program 7).heap.Reads (.item ⟨1⟩ 0) (.bool true) :=
    Heap.reads_item hitems 0
  refine ⟨program, hparse, hnext, hstack, hl, hreads, ?_, ?_⟩
  · rw [hafter]
    exact hreads
  · rw [hafter, hitems]
    rintro ⟨items, hsome, hnull⟩
    cases hsome
    cases hnull

end Tracepoint
