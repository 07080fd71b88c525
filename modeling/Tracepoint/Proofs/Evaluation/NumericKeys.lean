/-
Numbers as keys of object literals.

The key of an entry may be written as a number.  The parser takes the text of the number for the key,
as it is written, and does not ask what number it is.  An index that is a number is turned into the
text of this number.  So an entry is found under the number that its key denotes only if the key is
written the way in which this number is turned into text: without zeros in front, without a point in
whole numbers, and with no more digits than the number has.

Main definitions:

* `Decimal.keyName` — the name of the property that a number is;
* `Expr.lookup` — an object literal of one entry, with a number as index.

Main results:

* `Parser.reads_lookup` — the text of a number is taken for a key;
* `Eval.evalExpr_lookup`, `runs_lookup` — what is found under a number;
* `Decimal.keyName_numberValue`, `Decimal.keyName_ne_of_point` — small natural numbers in digits are
  the names of their own properties, whole numbers with a point are not;
* `numeric_keys` — **an entry is found under the number of its key exactly if the key is the name of
  the number**.
-/

import Mathlib
import Tracepoint.Proofs.Evaluation.Correctness
import Tracepoint.Proofs.Grammar.Recognition
import Tracepoint.Proofs.Machine.NumberKeys
import Tracepoint.Proofs.Token.Numerals
import Tracepoint.Proofs.Value.Doubles

set_option relaxedAutoImplicit false
set_option autoImplicit false

namespace Tracepoint

/-! ### Names of numbers -/

namespace Decimal

/-- The name of the property that a number is. -/
def keyName (x : Float) : String :=
  (Value.number x).nameIn .empty

/-- The number of digits alone. -/
theorem numeral?_of_allDigits {t : String} (h : AllDigits t.toList) :
    numeral? t = some ⟨digitsValue 0 t.toList, 0⟩ := by
  have hsplit : splitNumeral t.toList = (t.toList, [], []) := by
    rw [splitNumeral, h.takeWhile_eq, h.dropWhile_eq]
  have hempty := List.isEmpty_eq_false_iff.2 h.1
  rw [numeral?, hsplit]
  simp only [hempty, Bool.false_eq_true, if_false]
  rfl

end Decimal

/-- It does not depend on a heap. -/
theorem Value.nameIn_number (heap : Heap Value) (x : Float) :
    (Value.number x).nameIn heap = Decimal.keyName x := by
  have htext : (Value.number x).text heap = (Value.number x).text .empty := by
    rw [text, text, textWithin, textWithin]
  simp only [Decimal.keyName, nameIn, key, htext]

namespace Decimal

variable {t : String}

/-- **A small number is the property that is named by its digits.** -/
theorem keyName_numberValue (h : AllDigits t.toList) (hsmall : digitsValue 0 t.toList < 2 ^ 53) :
    keyName (Literal.numberValue t) = toString (digitsValue 0 t.toList) := by
  have hvalue : Literal.numberValue t = Numeral.toFloat ⟨digitsValue 0 t.toList, 0⟩ := by
    rw [Literal.numberValue, numeral?_of_allDigits h]
  have hdenotes : (Value.number (Literal.numberValue t)).Denotes (digitsValue 0 t.toList) :=
    ⟨_, rfl, hvalue ▸ whole?_toFloat hsmall⟩
  have hbound : 2 ^ 53 ≤ positionBound - 1 := by decide
  rw [← Value.nameIn_number .empty, hdenotes.nameIn, Nat.min_eq_left (by omega)]

/-- The digits that a natural number is written in are read as this number. -/
theorem digitsValue_toString (n : ℕ) : digitsValue 0 (toString n).toList = n := by
  rw [Nat.toString_eq_ofList_toDigits, String.toList_ofList]
  exact Nat.ofDigitChars_toDigits (by decide) (by decide)

theorem allDigits_toString (n : ℕ) : AllDigits (toString n).toList := by
  refine ⟨fun hnil => ?_, fun c hc => ?_⟩
  · rw [Nat.toString_eq_ofList_toDigits, String.toList_ofList] at hnil
    exact Nat.toDigits_ne_nil hnil
  · obtain ⟨hlow, hhigh⟩ := Char.isDigit_iff_toNat.1 (isDigit_of_mem_toString hc)
    exact Bool.and_eq_true_iff.2 ⟨decide_eq_true hlow, decide_eq_true hhigh⟩

/-- The name of a whole number has no point. -/
theorem keyName_ne_of_point {x : Float} {n : ℕ} (hx : whole? x = some (n : Int))
    (hpoint : '.' ∈ t.toList) : keyName x ≠ t := by
  have hdenotes : (Value.number x).Denotes n := ⟨x, rfl, hx⟩
  rintro rfl
  rw [← Value.nameIn_number .empty, hdenotes.nameIn] at hpoint
  exact not_marked_toString _ (Or.inl hpoint)

end Decimal

/-! ### Look-ups -/

/-- An object literal of one entry, with a number as index. -/
def Expr.lookup (key : String) (value : Expr) (x : Float) (span : Span) (line : ℕ) : Expr :=
  .index (.object [(key, value)]) (.atom (.number x) span line)

/-- What is kept in an object of one entry. -/
theorem Heap.valueAt_newObject (heap : Heap Value) (key name : String) (v : Value) :
    (heap.newObject [(key, v)]).2.valueAt (.property (heap.newObject [(key, v)]).1 name) =
      if name = key then v else .undefined := by
  have hentries : (heap.newObject [(key, v)]).2.entries? (heap.newObject [(key, v)]).1 =
      some [(key, v)] := by
    rw [entries?, newObject, get?_allocate]
  rw [valueAt, property?, hentries, Option.bind_some, valueOf?_cons]
  by_cases hname : name = key
  · rw [if_pos hname.symm, if_pos hname]
    rfl
  · rw [if_neg (Ne.symm hname), if_neg hname]
    rfl

namespace Eval

variable {w w' : World}

/-- An action that succeeds. -/
theorem run_act {α : Type} {act : Act α} {a : α} {s : Store} (h : act w.toStore = .ok a s) :
    (liftM act : Eval α) w = .ok a { w with toStore := s } := by
  simp only [liftM, monadLift, MonadLift.monadLift, h]

/-- What a number finds in an object of one entry. -/
theorem evalExpr_lookup (call : Closure → List Value → Eval Value) (scope : ScopeId) (key : String)
    {e : Expr} (x : Float) (span : Span) (line : ℕ) {v : Value}
    (he : evalExpr call scope e w = .ok v w') :
    evalExpr call scope (.lookup key e x span line) w =
      .ok (if Decimal.keyName x = key then v else .undefined)
        { w' with heap := (w'.heap.newObject [(key, v)]).2 } := by
  obtain ⟨s, hs⟩ : ∃ s : Store,
      s = { w'.toStore with heap := (w'.heap.newObject [(key, v)]).2 } := ⟨_, rfl⟩
  have hentries : Act.collectEntries w'.heap [] [.string key, v] = [(key, v)] := by
    rw [Act.collectEntries, Value.text_string]
    rfl
  have hnew : Act.newObject [.string key, v] w'.toStore =
      .ok (.object (w'.heap.newObject [(key, v)]).1) s := by
    rw [hs, ← hentries]
    rfl
  have hread : Act.getIndex (.object (w'.heap.newObject [(key, v)]).1) (.number x) s =
      .ok (if Decimal.keyName x = key then v else .undefined) s := by
    have hname : Decimal.keyName x = ((Value.number x).key s.heap).text :=
      (Value.nameIn_number s.heap x).symm
    rw [Act.getIndex_of_location? rfl, hname, hs, ← Heap.valueAt_newObject]
  have hlast : (liftM (Act.getIndex (.object (w'.heap.newObject [(key, v)]).1) (.number x)) :
      Eval Value) { w' with toStore := s } =
        .ok (if Decimal.keyName x = key then v else .undefined) { w' with toStore := s } :=
    run_act hread
  simp only [Expr.lookup, evalExpr, evalEntries, evalAtom, Bind.bind, EStateM.bind, he, pure,
    EStateM.pure, run_act hnew, hlast]
  rw [hs]

end Eval

/-- The machine finds the same where the code of the look-up lies. -/
theorem runs_lookup {fuel : ℕ} {site : Site} {key : String} {e : Expr} {x : Float} {span : Span}
    {line start stop : ℕ} {w w' : World} {v : Value} (stack : List Value)
    (hlies : (Expr.lookup key e x span line).Lies site.proto start stop) (hw : w.Valid)
    (he : Eval.evalExpr (Eval.callFunction fuel (site.callers.length + 1)) site.scope e w =
      .ok v w') :
    ∃ n out s, (site.machine w.toStore start stack).Runs n out
      (site.machine s stop ((if Decimal.keyName x = key then v else .undefined) :: stack)) := by
  have hsimulated := simulated_expr (calls_simulated fuel (site.callers.length + 1))
    (.lookup key e x span line) site stack start stop w rfl hlies hw
  have hlookup := Eval.evalExpr_lookup _ site.scope key x span line he
  simp only [Simulates, hlookup] at hsimulated
  obtain ⟨⟨n, out, hruns, -⟩, -⟩ := hsimulated
  exact ⟨n, out, _, hruns⟩

/-! ### Reading -/

/-- The tokens around the value of an entry: its key is written as a number, and behind the object
the same number stands as an index. -/
structure LookupTokens (t : String) where
  opening : Token
  key : Token
  colon : Token
  closing : Token
  left : Token
  index : Token
  right : Token
  opening_kind : opening.kind = .leftBrace
  key_kind : key.kind = .number
  key_text : key.text = t
  colon_kind : colon.kind = .colon
  closing_kind : closing.kind = .rightBrace
  left_kind : left.kind = .leftBracket
  index_kind : index.kind = .number
  index_text : index.text = t
  right_kind : right.kind = .rightBracket

/-- The tokens of the whole look-up. -/
def LookupTokens.around {t : String} (T : LookupTokens t) (us : List Token) : List Token :=
  T.opening :: (T.key :: T.colon :: us ++ [T.closing]) ++ T.left :: ([T.index] ++ [T.right])

/-- An expression that is a look-up but for its places. -/
theorem Expr.exists_lookup_of_bare {e' e : Expr} {key : String} {x : Float} {span : Span}
    {line : ℕ} (h : e'.bare = (Expr.lookup key e x span line).bare) :
    ∃ value span line, e' = .lookup key value x span line ∧ value.bare = e.bare := by
  cases e' with
  | index base place =>
      simp only [lookup, bare, index.injEq] at h
      obtain ⟨hobject, hindex⟩ := h
      cases base with
      | object entries =>
          simp only [bare, object.injEq] at hobject
          obtain _ | ⟨⟨key', value⟩, _ | ⟨_, _⟩⟩ := entries
          · cases hobject
          · simp only [entriesBare, List.cons.injEq, Prod.mk.injEq, and_true] at hobject
            cases place with
            | atom b span line =>
                simp only [bare, atom.injEq, and_true] at hindex
                obtain ⟨rfl, hvalue⟩ := hobject
                exact ⟨value, span, line, by rw [hindex, lookup], hvalue⟩
            | _ => simp [bare] at hindex
          · simp [entriesBare] at hobject
      | _ => simp [bare] at hobject
  | _ => simp [lookup, bare] at h

/-- **The text of a number is taken for a key.** -/
theorem Parser.reads_lookup {t : String} (T : LookupTokens t) {us : List Token} {e : Expr}
    (he : e.Spelled us) (hb : e.Bracketed) {fin : Token} (hfin : fin.kind = .finish) {p : Parser}
    (hp : p.Ahead fin (T.around us)) :
    ∃ value span line q,
      p.nextExpression = (.ok (.lookup t value (Literal.numberValue t) span line), q) ∧
        value.bare = e.bare := by
  have hkey : T.key.SpellsKey t := Or.inl ⟨Or.inr T.key_kind, T.key_text⟩
  have hindex : (Expr.atom (.number (Literal.numberValue t)) ⟨0, 0⟩ 0).Spelled [T.index] :=
    .atom ⟨T.index_kind, by rw [T.index_text]⟩
  have hspelled : (Expr.lookup t e (Literal.numberValue t) ⟨0, 0⟩ 0).Spelled (T.around us) :=
    .index (.object T.opening_kind (.last (.mk hkey T.colon_kind he)) T.closing_kind) T.left_kind
      hindex T.right_kind
  have hbracketed : (Expr.lookup t e (Literal.numberValue t) ⟨0, 0⟩ 0).Bracketed :=
    ⟨show 9 ≤ 10 by decide, ⟨hb, trivial⟩, trivial⟩
  obtain ⟨e', q, hrun, hbare, -⟩ := nextExpression_of_spelled hspelled hbracketed hfin hp
  obtain ⟨value, span, line, rfl, hvalue⟩ := Expr.exists_lookup_of_bare hbare
  exact ⟨value, span, line, q, hrun, hvalue⟩

/-! ### Numbers as keys -/

/-- **An entry is found under the number of its key exactly if the key is the name of the number.**
The parser takes the text of the number for the key. Where the value of the entry is some value, the
machine leaves this value behind the look-up if the key is the name of the number, and else the
undefined value. A key of digits alone that is less than `2 ^ 53` is this name exactly if a natural
number is written so; a key with a point is not if its number is whole. -/
theorem numeric_keys (t : String) :
    (∀ (T : LookupTokens t) us (e : Expr) fin (p : Parser), e.Spelled us → e.Bracketed → fin.kind = .finish →
      p.Ahead fin (T.around us) → ∃ value span line q,
        p.nextExpression = (.ok (.lookup t value (Literal.numberValue t) span line), q) ∧
          value.bare = e.bare) ∧
    (∀ fuel (site : Site) stack start stop e span line (w : World) v w',
      (Expr.lookup t e (Literal.numberValue t) span line).Lies site.proto start stop → w.Valid →
      Eval.evalExpr (Eval.callFunction fuel (site.callers.length + 1)) site.scope e w = .ok v w' →
      ∃ n out s, (site.machine w.toStore start stack).Runs n out (site.machine s stop
        ((if Decimal.keyName (Literal.numberValue t) = t then v else .undefined) :: stack))) ∧
    (Decimal.AllDigits t.toList → Decimal.digitsValue 0 t.toList < 2 ^ 53 →
      (Decimal.keyName (Literal.numberValue t) = t ↔ ∃ n : ℕ, t = toString n)) ∧
    ('.' ∈ t.toList → (∃ n : ℕ, Decimal.whole? (Literal.numberValue t) = some (n : Int)) →
      Decimal.keyName (Literal.numberValue t) ≠ t) := by
  refine ⟨fun T us e fin p he hb hfin hp => Parser.reads_lookup T he hb hfin hp,
    fun fuel site stack start stop e span line w v w' hlies hw he => runs_lookup stack hlies hw he,
    fun hdigits hsmall => ?_, fun hpoint ⟨n, hn⟩ => Decimal.keyName_ne_of_point hn hpoint⟩
  rw [Decimal.keyName_numberValue hdigits hsmall]
  constructor
  · exact fun hname => ⟨_, hname.symm⟩
  · rintro ⟨n, rfl⟩
    rw [Decimal.digitsValue_toString]

/-- A source in which the key `7` is looked up. -/
theorem numeric_keys_seven :
    (∃ value span line q, (Parser.ofString "\x7b7: true\x7d[7]").nextExpression =
      (.ok (.lookup "7" value (Literal.numberValue "7") span line), q)) ∧
    Decimal.keyName (Literal.numberValue "7") = "7" := by
  obtain ⟨hreads, -, hdigits, -⟩ := numeric_keys "7"
  have hall : Decimal.AllDigits "7".toList := Decimal.allDigits_toString 7
  have hvalue : (Expr.atom (.bool true) ⟨4, 4⟩ 1).Spelled [⟨.trueWord, "true", ⟨4, 4⟩, 1⟩] :=
    .atom (show Kind.trueWord = .trueWord from rfl)
  refine ⟨?_, (hdigits hall (by decide +kernel)).2 ⟨7, by decide⟩⟩
  let T : LookupTokens "7" :=
    { opening := ⟨.leftBrace, "\x7b", ⟨0, 1⟩, 1⟩
      key := ⟨.number, "7", ⟨1, 1⟩, 1⟩
      colon := ⟨.colon, ":", ⟨2, 1⟩, 1⟩
      closing := ⟨.rightBrace, "\x7d", ⟨8, 1⟩, 1⟩
      left := ⟨.leftBracket, "[", ⟨9, 1⟩, 1⟩
      index := ⟨.number, "7", ⟨10, 1⟩, 1⟩
      right := ⟨.rightBracket, "]", ⟨11, 1⟩, 1⟩
      opening_kind := rfl, key_kind := rfl, key_text := rfl, colon_kind := rfl
      closing_kind := rfl, left_kind := rfl, index_kind := rfl, index_text := rfl
      right_kind := rfl }
  have hahead : (Parser.ofString "\x7b7: true\x7d[7]").Ahead ⟨.finish, "", ⟨12, 0⟩, 1⟩
      (T.around [⟨.trueWord, "true", ⟨4, 4⟩, 1⟩]) := by
    rw [Parser.Ahead]
    cbv
  obtain ⟨value, span, line, q, hrun, -⟩ := hreads T _ _ _ _ hvalue trivial rfl hahead
  exact ⟨value, span, line, q, hrun⟩

/-- The same number written with a point is not the name of its property, and the entry is not
found: the program `let v = {1.0: true}[1.0];` comes to declare the undefined value. -/
theorem key_with_point_not_found :
    Decimal.keyName (Literal.numberValue "1.0") = "1" ∧
      ((parse "let v = \x7b1.0: true\x7d[1.0];").toOption.map fun program =>
        ((machineAfter program 6).stack.map Value.typeName,
          (machineAfter program 6).nextInstr?.isSome)) = some (["undefined"], true) := by
  refine ⟨?_, ?_⟩ <;> decide +kernel

end Tracepoint
