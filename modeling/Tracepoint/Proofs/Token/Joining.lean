/-
Texts of tokens, laid one after the other.

A gap is skipped as a whole, whatever it holds, and the token behind it is then read by its
spelling alone.  So a source is read as the tokens it was laid out of, if every text spells its
token in front of what follows it.  A blank never goes on with a token, hence texts that are tokens
for themselves can be joined in any way with blanks between them, and with comments behind the
blanks.

Main definitions:

* `Lexer.Stops` — neither a blank nor a comment is ahead;
* `Lexer.tokenAt` — the token of a text behind another one;
* `Lexer.Laid` — gaps and texts that spell tokens, up to the end of a source;
* `Lexer.IsToken` — a text that is one token for itself.

Main results:

* `Cursor.At.skipGap_of_gap` — **all of a gap is skipped**;
* `Lexer.Laid.lexemesFrom` — **what is laid out of tokens is read as these tokens**;
* `Lexer.lexemes_joined` — **reading undoes joining**.
-/

import Tracepoint.Proofs.Token.Longest
import Tracepoint.Proofs.Token.Spans

set_option relaxedAutoImplicit false
set_option autoImplicit false

namespace Tracepoint

open Text

/-! ### Gaps -/

namespace Lexer

/-- Neither a blank nor a comment is ahead. -/
def Stops : List Char → Prop
  | [] => True
  | c :: cs => isBlank c = false ∧ (c = '/' → cs.head? ≠ some '/' ∧ cs.head? ≠ some '*')

/-- A token is ahead, and no comment in its place. -/
theorem Spells.stops {kind : Kind} {text rest : List Char} (h : Spells kind text rest)
    (hslash : text = ['/'] → rest.head? ≠ some '/' ∧ rest.head? ≠ some '*') :
    Stops (text ++ rest) := by
  obtain ⟨c, cs, rfl, hglyph, hcs⟩ := h.head
  refine ⟨hglyph.not_blank, fun hc => ?_⟩
  obtain rfl := hcs hc
  exact hslash (by rw [hc])

end Lexer

namespace Cursor.At

open Lexer

variable {k : Cursor} {before body rest after : List Char}

/-- Where neither a blank nor a comment is ahead, nothing is skipped. -/
theorem skipGap_of_stops (h : k.At before after) (hstops : Stops after) :
    ∃ k', Lexer.skipGap k = (none, k') ∧ k'.At before after := by
  rw [Lexer.skipGap]
  split
  next => exact ⟨k, rfl, h⟩
  next c k' hadvance =>
    obtain ⟨cs, rfl, hoffset, hline, hat⟩ := h.of_advance hadvance
    obtain ⟨hblank, hslash⟩ := hstops
    rw [if_neg (by simp [hblank])]
    split
    next hc =>
      obtain ⟨hline', hblock⟩ := hslash hc
      split
      next ahead hpeek => exact absurd (hat.peek hpeek).1.symm hline'
      next ahead hpeek => exact absurd (hat.peek hpeek).1.symm hblock
      next next? ahead _ _ hpeek =>
        exact ⟨_, rfl, (hat.peek hpeek).2.putBack hoffset hline _⟩
    next => exact ⟨_, rfl, hat.putBack hoffset hline _⟩

theorem skipGap_of_blank {c : Char} (h : k.At before (c :: rest)) (hc : isBlank c = true) :
    ∃ k', Lexer.skipGap k = Lexer.skipGap k' ∧ k'.At (before ++ [c]) rest := by
  obtain ⟨d, k', hadvance, hd, -, -, hat⟩ := h.exists_advance
  refine ⟨k', ?_, hat⟩
  rw [Lexer.skipGap]
  split
  next hnone => cases hnone.symm.trans hadvance
  next d' k'' hadvance' =>
    cases hadvance'.symm.trans hadvance
    rw [if_pos (by rw [hd, hc])]

theorem skipLine_of_body (h : k.At before (body ++ '\n' :: rest)) (hbody : '\n' ∉ body) :
    (Lexer.skipLine k).At (before ++ body ++ ['\n']) rest := by
  induction body generalizing k before with
  | nil =>
      obtain ⟨d, k', hadvance, hd, -, -, hat⟩ := h.exists_advance
      rw [skipLine_of_advance hadvance, if_pos hd]
      simpa using hat
  | cons c body ih =>
      rw [List.mem_cons, not_or] at hbody
      obtain ⟨d, k', hadvance, rfl, -, -, hat⟩ := h.exists_advance
      rw [skipLine_of_advance hadvance, if_neg (Ne.symm hbody.1)]
      simpa using ih hat hbody.2

/-- The first closing mark ends a block comment. -/
theorem skipBlock_of_body (h : k.At before (body ++ '*' :: '/' :: rest))
    (hbody : ¬['*', '/'] <:+: body ++ ['*']) :
    (Lexer.skipBlock k).1 = true ∧
      (Lexer.skipBlock k).2.At (before ++ body ++ ['*', '/']) rest := by
  fun_induction Lexer.skipBlock k generalizing before body with
  | case1 k hadvance =>
      have hnil := h.nil_of_advance hadvance
      exact absurd hnil (by simp)
  | case2 k c k' hadvance _ hc d k'' htake =>
      obtain ⟨cs, hsplit, -, -, hat⟩ := h.of_advance hadvance
      rcases hat.takeIf htake with ⟨hnone, -, -⟩ | ⟨d', cs, -, rfl, hat'⟩
      · cases hnone
      cases body with
      | nil =>
          obtain ⟨hstar, hslash⟩ := List.cons.inj hsplit
          obtain ⟨-, rfl⟩ := List.cons.inj hslash
          rw [← hstar] at hat'
          exact ⟨rfl, by simpa using hat'⟩
      | cons b body =>
          obtain ⟨rfl, hslash⟩ := List.cons.inj hsplit
          refine absurd ?_ hbody
          cases body with
          | nil => cases hslash
          | cons b body =>
              obtain ⟨rfl, -⟩ := List.cons.inj hslash
              rw [hc]
              exact (List.prefix_append ['*', '/'] (body ++ ['*'])).isInfix
  | case3 k c k' hadvance _ hc k'' htake _ ih =>
      obtain ⟨cs, hsplit, -, -, hat⟩ := h.of_advance hadvance
      rcases hat.takeIf htake with ⟨-, hhead, hat'⟩ | ⟨d, cs, hsome, -, -⟩
      · cases body with
        | nil =>
            obtain ⟨-, rfl⟩ := List.cons.inj hsplit
            exact absurd rfl hhead
        | cons b body =>
            obtain ⟨rfl, rfl⟩ := List.cons.inj hsplit
            obtain ⟨htrue, hlast⟩ := ih hat' fun hinfix => hbody (List.infix_cons hinfix)
            exact ⟨htrue, by simpa using hlast⟩
      · cases hsome
  | case4 k c k' hadvance _ hc ih =>
      obtain ⟨cs, hsplit, -, -, hat⟩ := h.of_advance hadvance
      cases body with
      | nil => exact absurd (List.cons.inj hsplit).1.symm hc
      | cons b body =>
          obtain ⟨rfl, rfl⟩ := List.cons.inj hsplit
          obtain ⟨htrue, hlast⟩ := ih hat fun hinfix => hbody (List.infix_cons hinfix)
          exact ⟨htrue, by simpa using hlast⟩

theorem skipGap_of_line (h : k.At before ('/' :: '/' :: (body ++ '\n' :: rest)))
    (hbody : '\n' ∉ body) : ∃ k', Lexer.skipGap k = Lexer.skipGap k' ∧
      k'.At (before ++ '/' :: '/' :: (body ++ ['\n'])) rest := by
  obtain ⟨d, k', hadvance, hd, -, -, hat⟩ := h.exists_advance
  have hslash : '\n' ∉ '/' :: body := by
    rw [List.mem_cons, not_or]
    exact ⟨by decide, hbody⟩
  have hnotBlank : ¬isBlank '/' = true := by decide
  rw [Lexer.skipGap]
  split
  next hnone => cases hnone.symm.trans hadvance
  next d' k'' hadvance' =>
    cases hadvance'.symm.trans hadvance
    rw [if_neg (by rwa [hd]), if_pos hd]
    split
    next ahead hpeek =>
      have hahead : ahead.At (before ++ ['/']) ('/' :: body ++ '\n' :: rest) := (hat.peek hpeek).2
      have hskip := hahead.skipLine_of_body hslash
      exact ⟨_, rfl, by simpa using hskip⟩
    next ahead hpeek => cases (hat.peek hpeek).1
    next next? ahead hne _ hpeek =>
      obtain rfl := (hat.peek hpeek).1
      exact absurd rfl hne

theorem skipGap_of_block (h : k.At before ('/' :: '*' :: (body ++ '*' :: '/' :: rest)))
    (hbody : ¬['*', '/'] <:+: body ++ ['*']) : ∃ k', Lexer.skipGap k = Lexer.skipGap k' ∧
      k'.At (before ++ '/' :: '*' :: (body ++ ['*', '/'])) rest := by
  obtain ⟨d, k', hadvance, hd, -, -, hat⟩ := h.exists_advance
  have hnotBlank : ¬isBlank '/' = true := by decide
  rw [Lexer.skipGap]
  split
  next hnone => cases hnone.symm.trans hadvance
  next d' k'' hadvance' =>
    cases hadvance'.symm.trans hadvance
    rw [if_neg (by rwa [hd]), if_pos hd]
    split
    next ahead hpeek => cases (hat.peek hpeek).1
    next ahead hpeek =>
      have hahead := (hat.peek hpeek).2
      obtain ⟨e, inside, hinside, -, -, -, hinner⟩ := hahead.exists_advance
      obtain ⟨htrue, hlast⟩ := hinner.skipBlock_of_body hbody
      split
      next hnone => cases hnone.symm.trans hinside
      next e' inside' hinside' =>
        cases hinside'.symm.trans hinside
        split
        next after hskip =>
          rw [hskip] at hlast
          exact ⟨after, rfl, by simpa using hlast⟩
        next after hskip =>
          rw [hskip] at htrue
          cases htrue
    next next? ahead _ hne hpeek =>
      obtain rfl := (hat.peek hpeek).1
      exact absurd rfl hne

/-- **All of a gap is skipped.** -/
theorem skipGap_of_gap {gap : List Char} (h : k.At before (gap ++ after)) (hgap : Gap gap)
    (hstops : Stops after) :
    ∃ k', Lexer.skipGap k = (none, k') ∧ k'.At (before ++ gap) after := by
  induction hgap generalizing k before with
  | nil =>
      obtain ⟨k', hskip, hat⟩ := h.skipGap_of_stops hstops
      exact ⟨k', hskip, by simpa using hat⟩
  | blank hc _ ih =>
      obtain ⟨k', hskip, hat⟩ := h.skipGap_of_blank hc
      obtain ⟨k'', hrest, hlast⟩ := ih hat
      exact ⟨k'', hskip.trans hrest, by simpa using hlast⟩
  | @line body gap hbody _ ih =>
      have hahead : k.At before ('/' :: '/' :: (body ++ '\n' :: (gap ++ after))) := by simpa using h
      obtain ⟨k', hskip, hat⟩ := hahead.skipGap_of_line hbody
      obtain ⟨k'', hrest, hlast⟩ := ih hat
      exact ⟨k'', hskip.trans hrest, by simpa using hlast⟩
  | @block body gap hbody _ ih =>
      have hahead : k.At before ('/' :: '*' :: (body ++ '*' :: '/' :: (gap ++ after))) := by
        simpa using h
      obtain ⟨k', hskip, hat⟩ := hahead.skipGap_of_block hbody
      obtain ⟨k'', hrest, hlast⟩ := ih hat
      exact ⟨k'', hskip.trans hrest, by simpa using hlast⟩

end Cursor.At

/-! ### Tokens -/

namespace Lexer

variable {k k' : Cursor} {kind : Kind} {t : Token} {before gap text rest after : List Char}

/-- The token of a kind whose text comes behind `before`. -/
def tokenAt (kind : Kind) (before text : List Char) : Token :=
  ⟨kind, String.ofList text, ⟨bytes before, bytes text⟩, lineBehind before⟩

theorem Starts.makeToken_eq {c : Located} (h : Starts c before) :
    makeToken kind c text = tokenAt kind before text := by
  rw [makeToken, tokenAt, h.offset, h.line]
  rfl

/-- **A token behind a gap is read by its spelling.** -/
theorem nextLexeme_of_spells (h : k.At before (gap ++ (text ++ rest))) (hgap : Gap gap)
    (hspells : Spells kind text rest) (hstops : Stops (text ++ rest)) :
    ∃ k', nextLexeme k = (.ok (tokenAt kind (before ++ gap) text), k') ∧
      k'.At (before ++ gap ++ text) rest := by
  obtain ⟨k₁, hskip, hat₁⟩ := h.skipGap_of_gap hgap hstops
  obtain ⟨d, cs, rfl⟩ := List.exists_cons_of_ne_nil hspells.ne_nil
  obtain ⟨c, k₂, hadvance, rfl, hoffset, hline, hat₂⟩ := hat₁.exists_advance
  obtain ⟨k₃, hread, hat₃⟩ := hspells.reads hat₂
  have hstarts : Starts c (before ++ gap) := ⟨hoffset, hline⟩
  refine ⟨k₃, ?_, hat₃⟩
  simp only [nextLexeme, hskip, readToken, hadvance, hread, hstarts.makeToken_eq]

theorem nextLexeme_of_gap (h : k.At before gap) (hgap : Gap gap) :
    (nextLexeme k).1 = endOf (before ++ gap) := by
  have hahead : k.At before (gap ++ []) := by simpa using h
  obtain ⟨k', hskip, hat⟩ := hahead.skipGap_of_gap hgap trivial
  simp only [nextLexeme, hskip]
  exact (readToken_of_nil hat).1

/-- **Every token but the end of a source is spelled behind a gap.** -/
theorem exists_spells_of_nextLexeme (h : k.At before after) (hread : nextLexeme k = (.ok t, k'))
    (hmore : isFinish (.ok t) = false) :
    ∃ gap text rest, after = gap ++ (text ++ rest) ∧ Spells t.kind text rest ∧
      t = tokenAt t.kind (before ++ gap) text := by
  have hskips := h.skipGap
  rw [nextLexeme] at hread
  cases hskip : skipGap k with
  | mk e? k₁ =>
  rw [hskip] at hskips hread
  cases hskips with
  | all _ behind =>
      have hend := (readToken_of_nil behind).1
      rw [show readToken k₁ = (.ok t, k') from hread] at hend
      rw [show Except.ok t = endOf (before ++ after) from hend] at hmore
      cases hmore
  | unclosed => cases hread
  | @gap gap rest _ _ split behind =>
      have htoken : readToken k₁ = (.ok t, k') := hread
      rw [readToken] at htoken
      cases hadvance : k₁.advance with
      | none =>
          rw [hadvance] at htoken
          cases htoken
          cases hmore
      | some ahead =>
          obtain ⟨c, k₂⟩ := ahead
          rw [hadvance] at htoken
          obtain ⟨rest, rfl, hoffset, hline, hat⟩ := behind.of_advance hadvance
          have hfrom : readFrom c k₂ = (.ok t, k') := htoken
          obtain ⟨cs, rest, rfl, hspells⟩ := spelled_readFrom hat t (congrArg Prod.fst hfrom)
          obtain ⟨k₃, hagain, -⟩ := hspells.reads hat
          have hmade : t = makeToken t.kind c (c.char :: cs) :=
            Except.ok.inj (congrArg Prod.fst (hfrom.symm.trans hagain))
          have hstarts : Starts c (before ++ gap) := ⟨hoffset, hline⟩
          exact ⟨gap, c.char :: cs, rest, split, hspells, hmade.trans hstarts.makeToken_eq⟩

/-! ### Sources -/

/-- `after` is made of gaps and of texts that spell the tokens where they lie, if it comes behind
`before`. -/
inductive Laid : (before after : List Char) → List Token → Prop
  | finish {before last : List Char} (hlast : Gap last) : Laid before last []
  | token {before gap text rest : List Char} {kind : Kind} {ts : List Token} (hgap : Gap gap)
      (hspells : Spells kind text rest) (hstops : Stops (text ++ rest))
      (h : Laid (before ++ gap ++ text) rest ts) :
    Laid before (gap ++ (text ++ rest)) (tokenAt kind (before ++ gap) text :: ts)

theorem lexemesFrom_of_finish {x : Lexeme} (hread : nextLexeme k = (x, k'))
    (hend : isFinish x = true) : lexemesFrom k = [x] := by
  rw [lexemesFrom]
  split
  next y k'' hread' =>
    cases hread'.symm.trans hread
    rw [dif_pos hend]

theorem lexemesFrom_of_more {x : Lexeme} (hread : nextLexeme k = (x, k'))
    (hmore : isFinish x = false) : lexemesFrom k = x :: lexemesFrom k' := by
  rw [lexemesFrom]
  split
  next y k'' hread' =>
    cases hread'.symm.trans hread
    rw [dif_neg (by simp [hmore])]

/-- A token where the one before it ends. -/
theorem Laid.adjacent {ts : List Token} (hspells : Spells kind text rest)
    (hstops : Stops (text ++ rest)) (h : Laid (before ++ text) rest ts) :
    Laid before (text ++ rest) (tokenAt kind before text :: ts) := by
  have hlaid := Laid.token .nil hspells hstops (by rwa [List.append_nil])
  rwa [List.append_nil] at hlaid

/-- A token behind a space. -/
theorem Laid.behind_space {ts : List Token} (hspells : Spells kind text rest)
    (hstops : Stops (text ++ rest)) (h : Laid (before ++ [' '] ++ text) rest ts) :
    Laid before (' ' :: (text ++ rest)) (tokenAt kind (before ++ [' ']) text :: ts) :=
  .token (.blank rfl .nil) hspells hstops h

/-- **What is laid out of tokens is read as these tokens.** -/
theorem Laid.lexemesFrom {ts : List Token} (h : Laid before after ts) (hat : k.At before after) :
    lexemesFrom k = ts.map .ok ++ [endOf (before ++ after)] := by
  induction h generalizing k with
  | finish hlast =>
      have hend := nextLexeme_of_gap hat hlast
      rw [lexemesFrom_of_finish (Prod.ext hend rfl) rfl]
      rfl
  | @token before gap text rest kind ts hgap hspells hstops _ ih =>
      obtain ⟨k', hread, hat'⟩ := nextLexeme_of_spells hat hgap hspells hstops
      have hmore : isFinish (.ok (tokenAt kind (before ++ gap) text)) = false :=
        beq_false_of_ne hspells.ne_finish
      rw [lexemesFrom_of_more hread hmore, ih hat']
      simp

theorem Laid.lexemes {source : String} {ts : List Token} (h : Laid [] source.toList ts) :
    lexemes source = ts.map .ok ++ [endOf source.toList] :=
  h.lexemesFrom (.ofString source)

/-! ### Texts that are tokens -/

/-- The text is one token for itself, which covers all of it. -/
def IsToken (text : List Char) (t : Token) : Prop :=
  (∃ e, Lexer.lexemes (String.ofList text) = [.ok t, .ok e]) ∧ t.span = ⟨0, bytes text⟩

theorem eq_nil_of_bytes {cs : List Char} (h : bytes cs = 0) : cs = [] := by
  by_contra hne
  exact absurd h (Nat.pos_iff_ne_zero.1 (bytes_pos hne))

/-- A text that is a token is spelled by the rules. -/
theorem IsToken.spells (h : IsToken text t) :
    Spells t.kind text [] ∧ t = tokenAt t.kind [] text := by
  obtain ⟨⟨e, hlexemes⟩, hspan⟩ := h
  have hat : (Cursor.ofString (String.ofList text) : Cursor).At [] text := by
    simpa using Cursor.At.ofString (String.ofList text)
  rw [Lexer.lexemes, Lexer.lexemesFrom] at hlexemes
  split at hlexemes
  next x k' hread =>
    split at hlexemes
    next => cases hlexemes
    next hmore =>
      obtain ⟨rfl, -⟩ := List.cons.inj hlexemes
      obtain ⟨gap, word, rest, hsplit, hspells, ht⟩ :=
        exists_spells_of_nextLexeme hat hread (Bool.eq_false_iff.2 hmore)
      have hplace : (⟨bytes gap, bytes word⟩ : Span) = ⟨0, bytes text⟩ := by
        rw [← hspan, ht]
        rfl
      obtain ⟨hgap, hword⟩ := Span.mk.inj hplace
      obtain rfl := eq_nil_of_bytes hgap
      rw [hsplit, List.nil_append, bytes_append] at hword
      obtain rfl : rest = [] := eq_nil_of_bytes (by omega)
      obtain rfl : text = word := by simpa using hsplit
      exact ⟨hspells, ht⟩

/-- What spells a token up to the end of a source also does so in front of a blank, and neither way
a comment starts in its place. -/
theorem Spells.apart (h : Spells kind text [])
    (hrest : rest = [] ∨ ∃ c cs, rest = c :: cs ∧ isBlank c = true) :
    Spells kind text rest ∧ Stops (text ++ rest) := by
  rcases hrest with rfl | ⟨c, cs, rfl, hc⟩
  · exact ⟨h, h.stops fun _ => ⟨by decide, by decide⟩⟩
  · have hblank := h.before_blank hc cs
    refine ⟨hblank, hblank.stops fun _ => ⟨?_, ?_⟩⟩
    · exact head?_ne_of_blank hc ⟨by decide, by decide⟩ cs
    · exact head?_ne_of_blank hc ⟨by decide, by decide⟩ cs

/-- What spells a token up to the end of a source is a token for itself. -/
theorem Spells.laid (h : Spells kind text []) : Laid [] text [tokenAt kind [] text] := by
  have hlaid : Laid [] (text ++ []) [tokenAt kind [] text] :=
    .adjacent h (h.apart (Or.inl rfl)).2 (.finish .nil)
  rwa [List.append_nil] at hlaid

theorem Spells.lexemes {source : String} (h : Spells kind source.toList []) :
    lexemes source = [.ok ⟨kind, source, ⟨0, source.utf8ByteSize⟩, 1⟩, endOf source.toList] := by
  rw [h.laid.lexemes, tokenAt, bytes_toList, String.ofList_toList]
  rfl

theorem Spells.isToken (h : Spells kind text []) : IsToken text (tokenAt kind [] text) := by
  rw [← String.toList_ofList (l := text)] at h
  exact ⟨⟨_, h.lexemes⟩, rfl⟩

theorem IsToken.unique {u : Token} (ht : IsToken text t) (hu : IsToken text u) : t = u := by
  obtain ⟨⟨e, ht⟩, -⟩ := ht
  obtain ⟨⟨e', hu⟩, -⟩ := hu
  exact Except.ok.inj (List.cons.inj (ht.symm.trans hu)).1

/-- Blanks and comments behind a blank. -/
structure Separates (gap : List Char) : Prop where
  isGap : Gap gap
  blankFirst : ∃ c cs, gap = c :: cs ∧ isBlank c = true

/-- The end of the source, or a blank. -/
theorem nil_or_blank_of_separates {pieces : List Piece} (h : ∀ p ∈ pieces, Separates p.gap) :
    pieces.flatMap Piece.chars = [] ∨
      ∃ c cs, pieces.flatMap Piece.chars = c :: cs ∧ isBlank c = true := by
  cases pieces with
  | nil => exact Or.inl rfl
  | cons p pieces =>
      obtain ⟨c, cs, hgap, hc⟩ := (h p List.mem_cons_self).blankFirst
      refine Or.inr ⟨c, cs ++ p.text ++ pieces.flatMap Piece.chars, ?_, hc⟩
      rw [List.flatMap_cons, Piece.chars, hgap]
      rfl

/-- Texts that are tokens, with gaps in front of them that keep them apart, lay out a source. -/
theorem exists_laid {pieces : List Piece} (before : List Char)
    (halone : ∀ p ∈ pieces, ∃ t, IsToken p.text t) (hgap : ∀ p ∈ pieces.head?, Gap p.gap)
    (hgaps : ∀ p ∈ pieces.tail, Separates p.gap) :
    ∃ ts, Laid before (pieces.flatMap Piece.chars) ts ∧ ts.length = pieces.length ∧
      ∀ i p t, pieces[i]? = some p → IsToken p.text t →
        ts[i]? = some (tokenAt t.kind (before ++ front pieces i ++ p.gap) p.text) := by
  induction pieces generalizing before with
  | nil => exact ⟨[], .finish .nil, rfl, fun i p t hp => nomatch hp⟩
  | cons p pieces ih =>
      obtain ⟨t, ht⟩ := halone p List.mem_cons_self
      have hlater : ∀ q ∈ pieces, Separates q.gap := hgaps
      obtain ⟨ts, hlaid, hlength, hts⟩ := ih (before ++ p.gap ++ p.text)
        (fun q hq => halone q (List.mem_cons_of_mem p hq))
        (fun q hq => (hlater q (List.mem_of_mem_head? hq)).isGap)
        (fun q hq => hlater q (List.mem_of_mem_tail hq))
      have hspells := ht.spells.1.apart (nil_or_blank_of_separates hlater)
      refine ⟨tokenAt t.kind (before ++ p.gap) p.text :: ts, ?_, ?_, fun i q u hq hu => ?_⟩
      · rw [List.flatMap_cons, Piece.chars, List.append_assoc]
        exact .token (hgap p rfl) hspells.1 hspells.2 hlaid
      · rw [List.length_cons, List.length_cons, hlength]
      · cases i with
        | zero =>
            obtain rfl := Option.some.inj hq
            obtain rfl := ht.unique hu
            simp [front]
        | succ i =>
            rw [front_cons_succ, Piece.chars]
            simpa using hts i q u hq hu

/-- **Reading undoes joining.** Texts that are each one token for itself, with blanks and comments
behind a blank between them, are read as these tokens, each where its text lies. -/
theorem lexemes_joined {pieces : List Piece} (halone : ∀ p ∈ pieces, ∃ t, IsToken p.text t)
    (hfirst : ∀ p ∈ pieces.head?, p.gap = []) (hgaps : ∀ p ∈ pieces.tail, Separates p.gap) :
    ∃ ts : List Token,
      lexemes (String.ofList (pieces.flatMap Piece.chars)) =
        ts.map .ok ++ [endOf (pieces.flatMap Piece.chars)] ∧
      ts.length = pieces.length ∧
      ∀ (i : ℕ) (p : Piece) (t : Token), pieces[i]? = some p → IsToken p.text t →
        ts[i]? = some { t with
          span := ⟨bytes (front pieces i ++ p.gap), bytes p.text⟩
          line := lineBehind (front pieces i ++ p.gap) } := by
  have hgap : ∀ p ∈ pieces.head?, Gap p.gap := by
    intro p hp
    rw [hfirst p hp]
    exact .nil
  obtain ⟨ts, hlaid, hlength, hts⟩ := exists_laid [] halone hgap hgaps
  refine ⟨ts, ?_, hlength, fun i p t hp ht => ?_⟩
  · have hsource : Laid [] (String.ofList (pieces.flatMap Piece.chars)).toList ts := by
      rwa [String.toList_ofList]
    simpa using hsource.lexemes
  · rw [hts i p t hp ht]
    obtain ⟨-, htext⟩ := ht.spells
    have hsame : t.text = String.ofList p.text := congrArg Token.text htext
    rw [tokenAt, List.nil_append, ← hsame]

/-- A name, an operator behind a block comment and a number behind a line comment. -/
theorem lexemes_joined_three :
    let pieces : List Piece := [⟨[], ['a']⟩, ⟨[' ', '/', '*', '/', '*', '/'], ['<']⟩,
      ⟨['\t', '/', '/', '=', '\n'], ['1']⟩]
    (∀ p ∈ pieces, ∃ t, IsToken p.text t) ∧ (∀ p ∈ pieces.head?, p.gap = []) ∧
      (∀ p ∈ pieces.tail, Separates p.gap) ∧
      ∃ ts : List Token,
        lexemes (String.ofList (pieces.flatMap Piece.chars)) =
          ts.map .ok ++ [endOf (pieces.flatMap Piece.chars)] ∧
        ts.length = pieces.length ∧
        ∀ (i : ℕ) (p : Piece) (t : Token), pieces[i]? = some p → IsToken p.text t →
          ts[i]? = some { t with
            span := ⟨bytes (front pieces i ++ p.gap), bytes p.text⟩
            line := lineBehind (front pieces i ++ p.gap) } := by
  intro pieces
  have hname : Spells _ ['a'] [] :=
    .name (by decide) (fun d hd => nomatch hd) (fun d hd => nomatch hd)
  have hmem : ('<', Kind.less, Kind.lessEqual) ∈ comparisons := by decide
  have hless : Spells .less ['<'] [] := .strict hmem (by decide)
  have hnumber : Spells .number ['1'] [] :=
    .digits ⟨List.cons_ne_nil _ _, List.forall_mem_singleton.2 rfl⟩ (fun d hd => nomatch hd)
      (fun d more heq => nomatch heq)
  have halone : ∀ p ∈ pieces, ∃ t, IsToken p.text t := by
    simp only [pieces, List.forall_mem_cons]
    exact ⟨⟨_, hname.isToken⟩, ⟨_, hless.isToken⟩, ⟨_, hnumber.isToken⟩,
      fun p hp => nomatch hp⟩
  have hfirst : ∀ p ∈ pieces.head?, p.gap = [] := by
    rintro p ⟨⟩
    rfl
  have hblock : Gap ('/' :: '*' :: (['/'] ++ '*' :: '/' :: [])) := .block (by decide) .nil
  have hline : Gap ('/' :: '/' :: (['='] ++ '\n' :: [])) := .line (by decide) .nil
  have hgaps : ∀ p ∈ pieces.tail, Separates p.gap := by
    simp only [pieces, List.tail_cons, List.forall_mem_cons]
    exact ⟨⟨.blank rfl hblock, _, _, rfl, rfl⟩, ⟨.blank rfl hline, _, _, rfl, rfl⟩,
      fun p hp => nomatch hp⟩
  exact ⟨halone, hfirst, hgaps, lexemes_joined halone hfirst hgaps⟩

end Lexer

end Tracepoint
