/-
Printed keys, read as keys.

An object is printed with its keys in front of its values, names bare and all other keys quoted.
What is printed for a key is one token, and in most cases the parser takes this token back for the
key.  It does not so for the keywords: they are names, hence printed bare, but no key of an object
can be written as a keyword, although a name behind a point can.

Main definitions:

* `Value.keyKind` — what the token of a printed key is;
* `entrySource` — an object of one entry, its key as it is printed;
* `Parser.Fails` — where some tokens are ahead a step fails.

Main results:

* `Lexer.spells_inspectKey` — **a printed key is one token**;
* `laid_entrySource` — the tokens of the source;
* `Parser.Fails.entry` — **no token but a name, a number or a string is taken for a key**;
* `printed_key_read` — a printed key **is read back if and only if it is no keyword**.
-/

import Mathlib
import Tracepoint.Proofs.Grammar.Recognition
import Tracepoint.Proofs.Token.Quoting

set_option relaxedAutoImplicit false
set_option autoImplicit false

namespace Tracepoint

open Text Lexer

/-! ### Tokens of printed keys -/

/-- What the token of a printed key is. -/
def Value.keyKind (key : String) : Kind :=
  if isName key then (keyword? key).getD .identifier else .string

theorem Value.exists_of_isName {text : String} (h : isName text = true) :
    ∃ c cs, text.toList = c :: cs ∧ startsName c = true ∧ ∀ d ∈ cs, continuesName d = true := by
  rw [isName] at h
  split at h
  next => cases h
  next c cs heq =>
    obtain ⟨hc, hcs⟩ := Bool.and_eq_true_iff.1 h
    exact ⟨c, cs, heq, hc, List.all_eq_true.1 hcs⟩

theorem mem_keywords_of_keyword? {text : String} {kind : Kind} (h : keyword? text = some kind) :
    kind ∈ keywords ∧ kind.spelling? = some text := by
  have hfound : (kind.spelling? == some text) = true :=
    List.find?_some (p := fun k : Kind => k.spelling? == some text) h
  exact ⟨List.mem_of_find?_eq_some h, eq_of_beq hfound⟩

/-- Keywords are names. -/
theorem Value.isName_of_keyword? {text : String} {kind : Kind} (h : keyword? text = some kind) :
    isName text = true := by
  have hkeywords : ∀ kind ∈ keywords, kind.spelling?.all isName = true := by decide
  obtain ⟨hmem, hspelling⟩ := mem_keywords_of_keyword? h
  have hall := hkeywords kind hmem
  rw [hspelling] at hall
  exact hall

/-- **A printed key is one token**, in front of what does not go on with a name. -/
theorem Lexer.spells_inspectKey (key : String) {rest : List Char}
    (hrest : EndsBefore continuesName rest) :
    Spells (Value.keyKind key) (Value.inspectKey key).toList rest := by
  cases hname : Value.isName key with
  | false =>
      simp only [Value.keyKind, Value.inspectKey, hname]
      exact spells_quote key rest
  | true =>
      simp only [Value.keyKind, Value.inspectKey, hname, if_true]
      obtain ⟨c, cs, hkey, hc, hcs⟩ := Value.exists_of_isName hname
      have hofList : String.ofList (c :: cs) = key := by
        rw [← hkey, String.ofList_toList]
      have hspells := Spells.name hc hcs hrest
      rw [hofList] at hspells
      rw [hkey]
      exact hspells

/-! ### The source -/

/-- An object of one entry, its key as it is printed. -/
def entrySource (key : String) : String :=
  "\x7b " ++ Value.inspectKey key ++ ": 1 \x7d"

theorem toList_entrySource (key : String) : (entrySource key).toList =
    '\x7b' :: ' ' :: ((Value.inspectKey key).toList ++ [':', ' ', '1', ' ', '\x7d']) := by
  simp [entrySource, String.toList_append]

/-- The token of the key. -/
def keyToken (key : String) : Token :=
  tokenAt (Value.keyKind key) ['\x7b', ' '] (Value.inspectKey key).toList

/-- **The tokens of the source.** -/
theorem exists_laid_entrySource (key : String) : ∃ opening colon one closing : Token,
    opening.kind = .leftBrace ∧ colon.kind = .colon ∧ (one.kind = .number ∧ one.text = "1") ∧
      closing.kind = .rightBrace ∧
        Laid [] (entrySource key).toList [opening, keyToken key, colon, one, closing] := by
  have hopening : ∀ rest, Spells .leftBrace ['\x7b'] rest := fun rest => .symbol rfl
  have hcolon : ∀ rest, Spells .colon [':'] rest := fun rest => .symbol rfl
  have hclosing : ∀ rest, Spells .rightBrace ['\x7d'] rest := fun rest => .symbol rfl
  have hkey : Spells (Value.keyKind key) (Value.inspectKey key).toList
      [':', ' ', '1', ' ', '\x7d'] :=
    spells_inspectKey key (by simp [EndsBefore, continuesName])
  have hone : Spells .number ['1'] [' ', '\x7d'] := by
    refine .digits ⟨List.cons_ne_nil _ _, List.forall_mem_singleton.2 rfl⟩ ?_ ?_
    · rintro _ ⟨⟩
      decide
    · rintro d more heq
      cases heq
  rw [toList_entrySource]
  refine ⟨_, _, _, _, by rfl, by rfl, ⟨by rfl, by rfl⟩, by rfl,
    .adjacent (hopening _) ?opening (.behind_space hkey ?key (.adjacent (hcolon _) ?colon
      (.behind_space hone ?one (.behind_space (hclosing []) ?closing (.finish .nil)))))⟩
  case opening => exact (hopening _).stops fun heq => absurd heq (by decide)
  case key => exact hkey.stops fun _ => ⟨by decide, by decide⟩
  case colon => exact (hcolon _).stops fun heq => absurd heq (by decide)
  case one => exact hone.stops fun heq => absurd heq (by decide)
  case closing => exact (hclosing []).stops fun heq => absurd heq (by decide)

/-! ### Steps that fail -/

namespace Parser

/-- Where `ts` is ahead a step fails. -/
def Fails {α : Type} (fin : Token) (x : Parse α) (ts : List Token) (f : Failure) : Prop :=
  ∀ p, p.Ahead fin ts → ∃ q, x p = .error f q

variable {α β : Type} {fin t : Token} {ts us : List Token} {x : Parse α} {f : Failure}

theorem Fails.bind (h : Fails fin x ts f) (g : α → Parse β) : Fails fin (x >>= g) ts f := by
  intro p hp
  obtain ⟨q, hrun⟩ := h p hp
  exact ⟨q, by simp only [Bind.bind, EStateM.bind, hrun]⟩

theorem Reads.bind_fails {a : α} {g : α → Parse β} (hx : Reads fin x ts (a = ·) us)
    (hg : Fails fin (g a) us f) : Fails fin (x >>= g) ts f := by
  intro p hp
  obtain ⟨_, q, hrun, rfl, hq⟩ := hx p hp
  obtain ⟨r, hrun'⟩ := hg q hq
  exact ⟨r, by simp only [Bind.bind, EStateM.bind, hrun, hrun']⟩

theorem Fails.failAt (fault : SyntaxFault) (t : Token) :
    Fails fin (failAt fault t : Parse α) ts (.error (.atToken fault t)) :=
  fun p _ => ⟨p, rfl⟩

/-- **No token but a name, a number or a string is taken for a key.** -/
theorem Fails.entry (fuel : ℕ) (hname : t.kind ≠ .identifier) (hnumber : t.kind ≠ .number)
    (hstring : t.kind ≠ .string) :
    Fails fin (entry (fuel + 1)) (t :: ts) (.error (.atToken (.notAPropertyName t.kind) t)) := by
  rw [Parser.entry]
  refine Reads.next.bind_fails ?_
  dsimp only
  split
  next hkind => exact absurd hkind hname
  next hkind => exact absurd hkind hnumber
  next hkind => exact absurd hkind hstring
  next => exact (Fails.failAt _ t).bind _

/-- An object whose first key is no key. -/
theorem Fails.object {opening : Token} (fuel s : ℕ) (hopening : opening.kind = .leftBrace)
    (hname : t.kind ≠ .identifier) (hnumber : t.kind ≠ .number) (hstring : t.kind ≠ .string)
    (hclosing : t.kind ≠ .rightBrace) :
    Fails fin (expression (fuel + 4) s) (opening :: t :: ts)
      (.error (.atToken (.notAPropertyName t.kind) t)) := by
  have hentries : Fails fin (entries (fuel + 2)) (t :: ts)
      (.error (.atToken (.notAPropertyName t.kind) t)) := by
    rw [entries]
    refine (Reads.decline hclosing).bind_fails ?_
    exact (Fails.entry fuel hname hnumber hstring).bind _
  have hoperand : Fails fin (operand (fuel + 3)) (opening :: t :: ts)
      (.error (.atToken (.notAPropertyName t.kind) t)) := by
    rw [operand]
    refine Reads.next.bind_fails ?_
    simp only [atomOf?, hopening, UnaryOp.ofKind?]
    exact hentries.bind _
  rw [expression]
  exact hoperand.bind _

end Parser

/-! ### Keys that are read back -/

theorem text_keyToken (key : String) : (keyToken key).text = Value.inspectKey key := by
  rw [keyToken, tokenAt, String.ofList_toList]

/-- A printed key that is no keyword spells the key. -/
theorem spellsKey_keyToken {key : String} (h : keyword? key = none) :
    (keyToken key).SpellsKey key := by
  cases hname : Value.isName key with
  | false =>
      refine Or.inr ⟨?_, ?_⟩
      · simp only [keyToken, tokenAt, Value.keyKind, hname]
        rfl
      · simp only [text_keyToken, Value.inspectKey, hname]
        exact Literal.stringValue_quote key
  | true =>
      refine Or.inl ⟨Or.inl ?_, ?_⟩
      · simp only [keyToken, tokenAt, Value.keyKind, hname, h, if_true, Option.getD_none]
      · simp only [text_keyToken, Value.inspectKey, hname, if_true]

/-- A printed keyword is the token of this keyword. -/
theorem keyToken_of_keyword? {key : String} {kind : Kind} (h : keyword? key = some kind) :
    keyToken key = ⟨kind, key, ⟨2, key.utf8ByteSize⟩, 1⟩ := by
  have hname := Value.isName_of_keyword? h
  simp only [keyToken, tokenAt, Value.keyKind, Value.inspectKey, hname, h, if_true,
    Option.getD_some, String.ofList_toList, bytes_toList]
  rfl

/-- An expression that is an object of one entry but for its places. -/
theorem Expr.eq_object_of_bare {e : Expr} {key : String} {a : Atom} {span : Span} {line : ℕ}
    (h : e.bare = (Expr.object [(key, .atom a span line)]).bare) :
    ∃ span line, e = .object [(key, .atom a span line)] := by
  cases e with
  | object entries =>
      simp only [Expr.bare, entriesBare, Expr.object.injEq] at h
      obtain _ | ⟨⟨key', value⟩, _ | ⟨_, _⟩⟩ := entries
      · cases h
      · simp only [entriesBare, List.cons.injEq, Prod.mk.injEq, and_true] at h
        obtain ⟨rfl, hvalue⟩ := h
        cases value with
        | atom b span line =>
            simp only [Expr.bare, Expr.atom.injEq, and_true] at hvalue
            rw [hvalue]
            exact ⟨span, line, rfl⟩
        | _ => simp [Expr.bare] at hvalue
      · simp [entriesBare] at h
  | _ => simp [Expr.bare] at h

/-- The tokens of the source are ahead of a parser at its start. -/
theorem exists_ahead_entrySource (key : String) : ∃ (opening colon one closing fin : Token),
    opening.kind = .leftBrace ∧ colon.kind = .colon ∧ (one.kind = .number ∧ one.text = "1") ∧
      closing.kind = .rightBrace ∧ fin.kind = .finish ∧
        (Parser.ofString (entrySource key)).Ahead fin
          [opening, keyToken key, colon, one, closing] := by
  obtain ⟨opening, colon, one, closing, hopening, hcolon, hone, hclosing, hlaid⟩ :=
    exists_laid_entrySource key
  let source := (entrySource key).toList
  let fin : Token := ⟨.finish, "", ⟨bytes source, 0⟩, lineBehind source⟩
  refine ⟨opening, colon, one, closing, fin, hopening, hcolon, hone, hclosing, rfl, ?_⟩
  rw [Parser.ofString, hlaid.lexemes]
  rfl

/-- A printed key that is no keyword is read back. -/
theorem nextExpression_of_key {key : String} (h : keyword? key = none) : ∃ span line q,
    (Parser.ofString (entrySource key)).nextExpression =
      (.ok (.object [(key, .atom (.number (Literal.numberValue "1")) span line)]), q) ∧
        ∃ fin, fin.kind = .finish ∧ q.current = .ok fin ∧ q.behind = [] := by
  obtain ⟨opening, colon, one, closing, fin, hopening, hcolon, hone, hclosing, hfin, hahead⟩ :=
    exists_ahead_entrySource key
  let tree : Expr := .object [(key, .atom (.number (Literal.numberValue "1")) ⟨0, 0⟩ 0)]
  have hvalue : Expr.Spelled (.atom (.number (Literal.numberValue "1")) ⟨0, 0⟩ 0) [one] :=
    .atom ⟨hone.1, by rw [hone.2]⟩
  have hspelled : tree.Spelled [opening, keyToken key, colon, one, closing] :=
    .object hopening (.last (.mk (spellsKey_keyToken h) hcolon hvalue)) hclosing
  have hbracketed : tree.Bracketed := ⟨trivial, trivial⟩
  obtain ⟨e, q, hrun, hbare, hq⟩ :=
    Parser.nextExpression_of_spelled hspelled hbracketed hfin hahead
  obtain ⟨span, line, rfl⟩ := Expr.eq_object_of_bare hbare
  obtain ⟨hcurrent, hbehind⟩ := List.cons.inj hq
  exact ⟨span, line, q, hrun, fin, hfin, hcurrent, hbehind⟩

/-- A printed keyword is refused. -/
theorem nextExpression_of_keyword {key : String} {kind : Kind} (h : keyword? key = some kind) :
    ∃ q, (Parser.ofString (entrySource key)).nextExpression =
      (.error ⟨.notAPropertyName kind, ⟨2, key.utf8ByteSize⟩, 1⟩, q) := by
  have hkeywords : ∀ kind ∈ keywords, kind ≠ .identifier ∧ kind ≠ .number ∧ kind ≠ .string ∧
      kind ≠ .rightBrace := by decide
  obtain ⟨opening, colon, one, closing, fin, hopening, -, -, -, -, hahead⟩ :=
    exists_ahead_entrySource key
  rw [keyToken_of_keyword? h] at hahead
  obtain ⟨hname, hnumber, hstring, hbrace⟩ := hkeywords kind (mem_keywords_of_keyword? h).1
  obtain ⟨q, hrun⟩ := Parser.Fails.object 52 0 hopening hname hnumber hstring hbrace _ hahead
  refine ⟨q, ?_⟩
  have hfuel : (Parser.ofString (entrySource key)).fuelFor = 56 := by
    have hlength := congrArg List.length hahead
    simp only [List.length_cons, List.length_map, List.length_append, List.length_nil] at hlength
    rw [Parser.fuelFor]
    omega
  simp only [Parser.nextExpression, Parser.run, hfuel, hrun]
  rfl

/-- **A printed key is read back if it is no keyword, and refused at its place if it is one.** -/
theorem printed_key_read (key : String) :
    (keyword? key = none → ∃ span line q, (Parser.ofString (entrySource key)).nextExpression =
      (.ok (.object [(key, .atom (.number (Literal.numberValue "1")) span line)]), q) ∧
        ∃ fin, fin.kind = .finish ∧ q.current = .ok fin ∧ q.behind = []) ∧
    ∀ kind, keyword? key = some kind → ∃ q,
      (Parser.ofString (entrySource key)).nextExpression =
        (.error ⟨.notAPropertyName kind, ⟨2, key.utf8ByteSize⟩, 1⟩, q) :=
  ⟨nextExpression_of_key, fun _ => nextExpression_of_keyword⟩

/-- A key with a space in it is printed in quotes and read back; the keyword `if` is refused. -/
theorem printed_key_read_quoted :
    entrySource "a b" = "\x7b 'a b': 1 \x7d" ∧ keyword? "a b" = none ∧
    keyword? "if" = some .ifWord ∧
    (∃ span line q, (Parser.ofString (entrySource "a b")).nextExpression =
      (.ok (.object [("a b", .atom (.number (Literal.numberValue "1")) span line)]), q) ∧
        ∃ fin, fin.kind = .finish ∧ q.current = .ok fin ∧ q.behind = []) ∧
    ∃ q, (Parser.ofString (entrySource "if")).nextExpression =
      (.error ⟨.notAPropertyName .ifWord, ⟨2, 2⟩, 1⟩, q) := by
  have hname : keyword? "a b" = none := by decide
  have hkeyword : keyword? "if" = some .ifWord := by decide
  exact ⟨by decide, hname, hkeyword, (printed_key_read "a b").1 hname,
    (printed_key_read "if").2 _ hkeyword⟩

/-- The keyword `if` is printed as it is and not read back. -/
theorem printed_if_refused : entrySource "if" = "\x7b if: 1 \x7d" ∧
    ¬∃ value q, (Parser.ofString (entrySource "if")).nextExpression =
      (.ok (.object [("if", value)]), q) := by
  refine ⟨by decide, ?_⟩
  rintro ⟨value, q, hread⟩
  have hkeyword : keyword? "if" = some .ifWord := by decide
  obtain ⟨q', hrefused⟩ := nextExpression_of_keyword hkeyword
  cases hread.symm.trans hrefused

end Tracepoint
