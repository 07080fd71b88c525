/-
Steps of the parser.

What a parser yields is shown by following its steps.  Something is known of the parser before
every step, and is not lost by it; of what a step yields something becomes known.  The steps of
all readers are put together in few ways, and each way is followed in the same manner whatever it
is that is known.

Main definitions:

* `Parser.Keeps` — a step keeps what is known of the parser, and yields only what something holds
  of;
* `Parser.Travels` — what is known of a parser is not lost by going from token to token;
* `Parser.entryKey`, `Parser.entryValue` — the two parts of the reader of entries.

Main results:

* `Parser.Keeps.bind`, `Parser.Keeps.ite` and the like — the ways to put steps together;
* `Parser.Travels.next`, `Parser.Travels.expect` and the like — the steps for single tokens;
* `Parser.entry_succ` — an entry is a key with the value behind it.
-/

import Mathlib.Data.Nat.Notation
import Tracepoint.Grammar.Parser

set_option relaxedAutoImplicit false
set_option autoImplicit false

namespace Tracepoint.Parser

/-! ### Entries of objects -/

/-- The key that a token is. -/
def entryKey (t : Token) : Parse String :=
  match t.kind with
  | .identifier | .number => pure t.text
  | .string => pure (Literal.stringValue t.text)
  | kind => failAt (.notAPropertyName kind) t

/-- What is read behind the token of a key. -/
def entryValue (fuel : ℕ) (t : Token) (key : String) : Parse (String × Expr) := do
  if ← accept .colon then
    let value ← expression fuel 0
    return (key, value)
  else if t.kind = .identifier then
    return (key, .atom (.name key) t.span t.line)
  else
    let after ← next
    throw (.error (.unexpected after .colon))

theorem entry_succ (fuel : ℕ) :
    entry (fuel + 1) = next >>= fun t => entryKey t >>= entryValue fuel t := by
  rw [entry]
  refine bind_congr fun t => ?_
  unfold entryKey entryValue
  generalize t.kind = kind
  cases kind <;> rfl

/-! ### What is known -/

/-- Nothing is known of what is yielded. -/
def anything {α : Type} (_ : α) : Prop :=
  True

/-- Where `I` holds of the parser, a step leads only to where it holds again, and yields only what
`P` holds of. -/
def Keeps {α : Type} (I : Parser → Prop) (x : Parse α) (P : α → Prop) : Prop :=
  ∀ p a q, I p → x p = .ok a q → I q ∧ P a

/-! ### Steps that are put together -/

namespace Keeps

variable {α β : Type} {I J : Parser → Prop} {x : Parse α} {P : α → Prop} {Q : β → Prop}

theorem bind {f : α → Parse β} (hx : Keeps I x P) (hf : ∀ a, P a → Keeps I (f a) Q) :
    Keeps I (x >>= f) Q := by
  intro p b q hp heq
  simp only [Bind.bind, EStateM.bind] at heq
  split at heq
  next a p' hrun =>
    obtain ⟨hp', ha⟩ := hx p a p' hp hrun
    exact hf a ha p' b q hp' heq
  next => cases heq

theorem pure {a : α} (h : P a) : Keeps I (pure a : Parse α) P := by
  intro p b q hp heq
  cases heq
  exact ⟨hp, h⟩

theorem throw (e : Failure) : Keeps I (throw e : Parse α) P := by
  intro p b q _ heq
  cases heq

theorem failAt (fault : SyntaxFault) (t : Token) : Keeps I (failAt fault t : Parse α) P :=
  .throw _

theorem weaken {R : α → Prop} (h : Keeps I x P) (hPR : ∀ a, P a → R a) : Keeps I x R := by
  intro p a q hp heq
  obtain ⟨hq, ha⟩ := h p a q hp heq
  exact ⟨hq, hPR a ha⟩

theorem map {f : α → β} (h : Keeps I x P) (hf : ∀ a, P a → Q (f a)) : Keeps I (f <$> x) Q :=
  h.bind fun a ha => .pure (hf a ha)

theorem get : Keeps I (get : Parse Parser) I := by
  intro p a q hp heq
  cases heq
  exact ⟨hp, hp⟩

theorem ite {c : Prop} [Decidable c] {y : Parse α} (hx : c → Keeps I x P)
    (hy : ¬c → Keeps I y P) : Keeps I (if c then x else y) P := by
  split
  next h => exact hx h
  next h => exact hy h

/-- Both branches of a condition go on in the same way. -/
theorem branch {c : Prop} [Decidable c] {y z : Parse α} {f : α → Parse β}
    (hy : c → Keeps I y P) (hz : ¬c → Keeps I z P) (hf : ∀ a, P a → Keeps I (f a) Q) :
    Keeps I (if c then y >>= f else z >>= f) Q :=
  .ite (fun h => (hy h).bind hf) fun h => (hz h).bind hf

/-- A step that is left out, if a condition does not hold. -/
theorem whenever {c : Prop} [Decidable c] {y : Parse Unit} {f : Unit → Parse β}
    (hy : Keeps I y anything) (hf : Keeps I (f ()) Q) :
    Keeps I (if c then y >>= f else f ()) Q :=
  .ite (fun _ => hy.bind fun _ _ => hf) fun _ => hf

/-- Behind a check that it holds, a condition may be used. -/
theorem refuse {c : Prop} [Decidable c] {fault : SyntaxFault} {t : Token}
    {f : Unit → Parse β} (hf : ¬c → Keeps I (f ()) Q) :
    Keeps I (if c then Parser.failAt fault t >>= f else f ()) Q :=
  .ite (fun _ => bind (P := fun _ => False) (.failAt _ _) fun _ => False.elim) hf

/-- A step between entering and leaving. -/
theorem nested {enter : Parser → Parser} {leave : Parser → Parser → Parser} (hx : Keeps J x P)
    (henter : ∀ p, I p → J (enter p)) (hleave : ∀ p q, I p → J q → I (leave p q)) :
    Keeps I (nested enter leave x) P := by
  intro p a q hp heq
  simp only [Parser.nested] at heq
  split at heq
  next b p' hrun =>
    cases heq
    obtain ⟨hp', ha⟩ := hx (enter p) a p' (henter p hp) hrun
    exact ⟨hleave p p' hp hp', ha⟩
  next => cases heq

theorem entryKey (t : Token) : Keeps I (entryKey t) anything := by
  rw [Parser.entryKey]
  split
  · exact .pure trivial
  · exact .pure trivial
  · exact .pure trivial
  · exact .failAt _ _

end Keeps

/-! ### Single tokens -/

/-- `I` is not lost by going from token to token, and `T` holds of all tokens on the way. -/
structure Travels (I : Parser → Prop) (T : Token → Prop) : Prop where
  token : ∀ p t, I p → p.current = .ok t → T t
  forward : ∀ p line, I p → I { p.forward with previousLine := line }

namespace Travels

variable {I : Parser → Prop} {T : Token → Prop}

theorem peek (h : Travels I T) : Keeps I peek T := by
  intro p t q hp heq
  simp only [Parser.peek] at heq
  split at heq
  next t' hcurrent =>
    cases heq
    exact ⟨hp, h.token p t hp hcurrent⟩
  next => cases heq

theorem next (h : Travels I T) : Keeps I next T := by
  intro p t q hp heq
  simp only [Parser.next] at heq
  split at heq
  next t' hcurrent =>
    cases heq
    exact ⟨h.forward p t.line hp, h.token p t hp hcurrent⟩
  next => cases heq

theorem expect (h : Travels I T) (kind : Kind) : Keeps I (expect kind) T :=
  h.next.bind fun _ ht => .ite (fun _ => .pure ht) fun _ => .throw _

theorem accept (h : Travels I T) (kind : Kind) : Keeps I (accept kind) anything :=
  h.peek.bind fun _ _ =>
    .ite (fun _ => h.next.bind fun _ _ => .pure trivial) fun _ => .pure trivial

theorem identifier (h : Travels I T) : Keeps I identifier anything :=
  (h.expect _).bind fun _ _ => .pure trivial

theorem endStatement (h : Travels I T) : Keeps I endStatement anything := by
  refine h.peek.bind fun t _ => .ite (fun _ => ?_) fun _ => .ite (fun _ => ?_) fun _ => ?_
  · exact h.next.bind fun _ _ => .pure trivial
  · exact .pure trivial
  · exact Keeps.get.bind fun _ _ => .ite (fun _ => .pure trivial) fun _ => .throw _

theorem parameters (h : Travels I T) (fuel : ℕ) : Keeps I (parameters fuel) anything := by
  induction fuel with
  | zero => exact .throw _
  | succ fuel ih =>
      rw [Parser.parameters]
      refine (h.accept _).bind fun closed _ => .ite (fun _ => .pure trivial) fun _ => ?_
      refine h.identifier.bind fun name _ => (h.accept _).bind fun more _ => ?_
      refine .ite (fun _ => ?_) fun _ => ?_
      · exact ih.bind fun _ _ => .pure trivial
      · exact (h.expect _).bind fun _ _ => .pure trivial

end Travels

end Tracepoint.Parser
