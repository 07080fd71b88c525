/-
A parser with guards.

The readers yield trees and cannot go wrong.  A parser that keeps every expression as a row of
nodes, and takes the texts of tokens from the source by their spans, has places where it could go
wrong: a span that selects no text, a number that has no value, a row that gets too long, a
reference that leads out of the row.  This file spells that parser out, with a guard at every such
place: where one of these things happens, the parser does not go on and reports it.

An expression has a row of its own.  When it is read, its tree is taken from the row, along all
references from its root; no row outlives this.

Main definitions:

* `Guarded` — steps of a parser with guards;
* `Guarded.lexeme`, `Guarded.literal`, `Guarded.push`, `Guarded.finished` — **the guards**;
* `Guarded.expression`, `Guarded.statement` and their companions — the readers with guards;
* `Guarded.read?` — a call of the parser, if no guard is hit and it has steps enough.
-/

import Tracepoint.Proofs.Grammar.Nodes
import Tracepoint.Proofs.Grammar.Places

set_option relaxedAutoImplicit false
set_option autoImplicit false

open Tracepoint.Parser (peek next expect accept endStatement failAt)

namespace Tracepoint

/-- Why a step with guards stops. -/
inductive Halt
  | failure (f : Failure)
  /-- A guard was hit. -/
  | guarded

/-- A place in a source, and the row of the expression that is being read. -/
structure RowParser where
  parser : Parser
  row : Row

/-- Steps of a parser with guards. -/
abbrev Guarded := EStateM Halt RowParser

namespace Guarded

/-! ### Steps -/

/-- A step in which there is nothing to guard. -/
def lift {α : Type} (x : Parse α) : Guarded α := fun s =>
  match x s.parser with
  | .ok a p => .ok a { s with parser := p }
  | .error f p => .error (.failure f) { s with parser := p }

/-- Goes on only if there is a value. -/
def guarded {α : Type} : Option α → Guarded α
  | some a => pure a
  | none => throw .guarded

/-- Parses between entering and leaving, and leaves whatever the outcome. -/
def nested {α : Type} (enter : Parser → Parser) (leave : Parser → Parser → Parser)
    (step : Guarded α) : Guarded α := fun s =>
  match step { s with parser := enter s.parser } with
  | .ok a q => .ok a { q with parser := leave s.parser q.parser }
  | .error h q => .error h { q with parser := leave s.parser q.parser }

/-- Parses the body of a loop. -/
def inLoop {α : Type} (step : Guarded α) : Guarded α :=
  nested Parser.enterLoop (fun _ => Parser.leaveLoop) step

/-- Parses the body of a function. -/
def inFunction {α : Type} (step : Guarded α) : Guarded α :=
  nested Parser.enterFunction (fun p => Parser.leaveFunction p.loopDepth) step

/-! ### Texts -/

section

variable (source : String)

/-- The text that the span of a token selects. -/
def lexeme (t : Token) : Guarded String :=
  guarded (t.span.slice? source)

/-- Takes an identifier. -/
def identifier : Guarded String := do
  let t ← lift (expect .identifier)
  lexeme source t

/-- What a single token with this text stands for, if it is an expression. -/
def atom? (kind : Kind) (text : String) : Option Atom :=
  match kind with
  | .number => some (.number (Literal.numberValue text))
  | .identifier => some (.name text)
  | .string => some (.string (Literal.stringValue text))
  | .nullWord => some .null
  | .undefinedWord => some .undefined
  | .trueWord => some (.bool true)
  | .falseWord => some (.bool false)
  | _ => none

/-- The same of a token. A number has to have a value. -/
def literal (t : Token) : Guarded (Option Atom) := do
  let text ← lexeme source t
  if t.kind = .number then
    let _ ← guarded (Decimal.numeral? text)
  return atom? t.kind text

/-! ### Rows -/

/-- Adds a node to the row. -/
def push (node : Node) : Guarded NodeRef := fun s =>
  match s.row.push? node with
  | some (ref, row) => .ok ref { s with row }
  | none => .error .guarded s

/-- What is assigned to, if the node at a place can be assigned to. -/
def target? (ref : NodeRef) : Guarded (Option Target) := do
  let s ← get
  return s.row[ref]?.bind Node.target?

/-- Reads an expression in a row of its own, and takes its tree from there. -/
def finished (step : Guarded NodeRef) : Guarded Expr := fun s =>
  match step { s with row := [] } with
  | .error h q => .error h { q with row := s.row }
  | .ok root q =>
    match q.row.tree? root with
    | some e => .ok e { q with row := s.row }
    | none => .error .guarded { q with row := s.row }

/-! ### Readers -/

/-- Parses names separated by commas up to the closing parenthesis. -/
def parameters : ℕ → Guarded (List String)
  | 0 => lift (throw .exhausted)
  | fuel + 1 => do
    if ← lift (accept .rightParen) then return []
    let name ← identifier source
    if ← lift (accept .comma) then
      let rest ← parameters fuel
      return name :: rest
    else
      let _ ← lift (expect .rightParen)
      return [name]

mutual

/-- Parses an operand and the continuations that bind it at least as strongly as `strength`. -/
def expression : ℕ → ℕ → Guarded NodeRef
  | 0, _ => lift (throw .exhausted)
  | fuel + 1, strength => do
    let left ← operand fuel
    continuations fuel strength left

/-- Parses the continuations of an operand. -/
def continuations : ℕ → ℕ → NodeRef → Guarded NodeRef
  | 0, _, _ => lift (throw .exhausted)
  | fuel + 1, strength, left => do
    let t ← lift peek
    match Continuation.ofKind? t.kind with
    | none => return left
    | some c =>
      if c.strength < strength then return left
      let _ ← lift next
      match c with
      | .suffix s =>
        let whole ← suffix fuel s left
        continuations fuel strength whole
      | .binary op =>
        let right ← expression fuel op.strength.right
        let whole ← push (.binary op left right)
        continuations fuel strength whole
      | .logical op =>
        let right ← expression fuel op.strength.right
        let whole ← push (.logical op left right)
        continuations fuel strength whole
      | .assignment =>
        match ← target? left with
        | none => lift (failAt .notAssignable t)
        | some target =>
          let value ← expression fuel assignmentStrength.right
          let whole ← push (.assignment target value)
          continuations fuel strength whole

/-- Parses what can stand at the start of an expression. -/
def operand : ℕ → Guarded NodeRef
  | 0 => lift (throw .exhausted)
  | fuel + 1 => do
    let t ← lift next
    let atom? ← literal source t
    match atom?, UnaryOp.ofKind? t.kind, t.kind with
    | some a, _, _ => push (.atom a t.span t.line)
    | none, some op, _ =>
      let inner ← expression fuel UnaryOp.strength
      push (.unary op inner)
    | none, none, .leftParen =>
      let inner ← expression fuel 0
      let _ ← lift (expect .rightParen)
      push (.group inner)
    | none, none, .leftBracket =>
      let elements ← arguments fuel .rightBracket
      push (.array elements)
    | none, none, .leftBrace =>
      let entries ← entries fuel
      push (.object entries)
    | none, none, .functionWord =>
      let ahead ← lift peek
      let name ← if ahead.kind = .identifier then some <$> identifier source else pure none
      let decl ← functionRest fuel name t.line
      push (.function decl)
    | none, none, .finish => lift (failAt .endOfInput t)
    | none, none, kind => lift (failAt (.notAnExpression kind) t)

/-- Parses a call, a member access or an index behind `base`, its opening token being taken. -/
def suffix : ℕ → Suffix → NodeRef → Guarded NodeRef
  | 0, _, _ => lift (throw .exhausted)
  | fuel + 1, .call, base => do
    let arguments ← arguments fuel .rightParen
    push (.call base arguments)
  | _ + 1, .property, base => do
    let t ← lift next
    let name ← lexeme source t
    if Parser.namesProperty t then push (.property base name)
    else lift (failAt (.notAPropertyName t.kind) t)
  | fuel + 1, .index, base => do
    let index ← expression fuel 0
    let _ ← lift (expect .rightBracket)
    push (.index base index)

/-- Parses expressions separated by commas up to the closing token. -/
def arguments : ℕ → Kind → Guarded (List NodeRef)
  | 0, _ => lift (throw .exhausted)
  | fuel + 1, closing => do
    if ← lift (accept closing) then return []
    let first ← expression fuel 0
    if ← lift (accept .comma) then
      let rest ← arguments fuel closing
      return first :: rest
    else
      let _ ← lift (expect closing)
      return [first]

/-- Parses the entries of an object up to the closing brace. -/
def entries : ℕ → Guarded (List (String × NodeRef))
  | 0 => lift (throw .exhausted)
  | fuel + 1 => do
    if ← lift (accept .rightBrace) then return []
    let first ← entry fuel
    if ← lift (accept .comma) then
      let rest ← entries fuel
      return first :: rest
    else
      let _ ← lift (expect .rightBrace)
      return [first]

/-- Parses a key with its value. An identifier on its own is the key of the variable it names. -/
def entry : ℕ → Guarded (String × NodeRef)
  | 0 => lift (throw .exhausted)
  | fuel + 1 => do
    let t ← lift next
    let key ← match t.kind with
      | .identifier | .number => lexeme source t
      | .string => Literal.stringValue <$> lexeme source t
      | kind => lift (failAt (.notAPropertyName kind) t)
    if ← lift (accept .colon) then
      let value ← expression fuel 0
      return (key, value)
    else if t.kind = .identifier then
      let value ← push (.atom (.name key) t.span t.line)
      return (key, value)
    else
      let after ← lift next
      lift (throw (.error (.unexpected after .colon)))

/-- Parses the parameters and the body of a function. -/
def functionRest : ℕ → Option String → ℕ → Guarded FunctionDecl
  | 0, _, _ => lift (throw .exhausted)
  | fuel + 1, name, line => do
    let _ ← lift (expect .leftParen)
    let parameters ← parameters source fuel
    let body ← inFunction (block fuel)
    return .mk name parameters body line

/-- Parses statements between braces. -/
def block : ℕ → Guarded (List Stmt)
  | 0 => lift (throw .exhausted)
  | fuel + 1 => do
    let _ ← lift (expect .leftBrace)
    blockRest fuel

/-- Parses statements up to the closing brace. -/
def blockRest : ℕ → Guarded (List Stmt)
  | 0 => lift (throw .exhausted)
  | fuel + 1 => do
    let t ← lift peek
    if t.kind = .rightBrace then
      let _ ← lift next
      return []
    else if t.kind = .finish then lift (throw (.error (.unexpected t .rightBrace)))
    else
      let first ← statement fuel
      let rest ← blockRest fuel
      return first :: rest

/-- Parses the declaration of a variable, with the end of its statement if `terminated`. -/
def declaration : ℕ → VariableKind → Bool → Guarded Stmt
  | 0, _, _ => lift (throw .exhausted)
  | fuel + 1, kind, terminated => do
    let keyword ← lift next
    let name ← identifier source
    let initial ← if ← lift (accept .equal) then some <$> finished (expression fuel 0)
      else pure none
    if kind = .const_ ∧ initial.isNone then lift (failAt .missingInitializer keyword)
    if terminated then lift endStatement
    return .declare kind name initial keyword.line

/-- Parses a condition in parentheses. -/
def condition : ℕ → Guarded Expr
  | 0 => lift (throw .exhausted)
  | fuel + 1 => do
    let _ ← lift (expect .leftParen)
    let e ← finished (expression fuel 0)
    let _ ← lift (expect .rightParen)
    return e

/-- Parses what a counting loop does first, up to the semicolon behind it. -/
def loopStart : ℕ → Guarded (Option Stmt)
  | 0 => lift (throw .exhausted)
  | fuel + 1 => do
    let t ← lift peek
    match t.kind with
    | .semicolon => return none
    | .letWord => some <$> declaration fuel .let_ false
    | .constWord => some <$> declaration fuel .const_ false
    | .varWord => some <$> declaration fuel .var_ false
    | _ =>
      let e ← finished (expression fuel 0)
      return some (.expression e t.line)

/-- Parses an expression, if the token ahead is not `closing`. -/
def optional : ℕ → Kind → Guarded (Option Expr)
  | 0, _ => lift (throw .exhausted)
  | fuel + 1, closing => do
    let t ← lift peek
    if t.kind = closing then return none else some <$> finished (expression fuel 0)

/-- Parses a statement. -/
def statement : ℕ → Guarded Stmt
  | 0 => lift (throw .exhausted)
  | fuel + 1 => do
    let t ← lift peek
    match t.kind with
    | .letWord => declaration fuel .let_ true
    | .constWord => declaration fuel .const_ true
    | .varWord => declaration fuel .var_ true
    | .functionWord =>
      let _ ← lift next
      let name ← identifier source
      let decl ← functionRest fuel (some name) t.line
      return .function decl
    | .leftBrace =>
      let body ← block fuel
      return .block body t.line
    | .ifWord =>
      let _ ← lift next
      let condition ← condition fuel
      let success ← statement fuel
      let failure ← if ← lift (accept .elseWord) then some <$> statement fuel else pure none
      return .conditional condition success failure t.line
    | .whileWord =>
      let _ ← lift next
      let condition ← condition fuel
      let body ← inLoop (statement fuel)
      return .whileLoop condition body t.line
    | .forWord =>
      let _ ← lift next
      let _ ← lift (expect .leftParen)
      let start ← loopStart fuel
      let _ ← lift (expect .semicolon)
      let condition ← optional fuel .semicolon
      let _ ← lift (expect .semicolon)
      let increment ← optional fuel .rightParen
      let _ ← lift (expect .rightParen)
      let body ← inLoop (statement fuel)
      return .forLoop start condition increment body t.line
    | .returnWord =>
      let _ ← lift next
      if (← lift get).functionDepth = 0 then lift (failAt .illegalReturn t)
      let ahead ← lift peek
      let value ←
        if ahead.kind = .semicolon ∨ ahead.kind = .rightBrace ∨ ahead.kind = .finish ∨
            ahead.line ≠ t.line then pure none
        else some <$> finished (expression fuel 0)
      lift endStatement
      return .returnValue value t.line
    | .breakWord =>
      let _ ← lift next
      if (← lift get).loopDepth = 0 then lift (failAt .illegalBreak t)
      lift endStatement
      return .breakLoop t.line
    | .continueWord =>
      let _ ← lift next
      if (← lift get).loopDepth = 0 then lift (failAt .illegalContinue t)
      lift endStatement
      return .continueLoop t.line
    | .semicolon =>
      let _ ← lift next
      return .empty t.line
    | _ =>
      let e ← finished (expression fuel 0)
      lift endStatement
      return .expression e t.line

end

/-- Parses statements up to the end of the source. -/
def statements : ℕ → Guarded Program
  | 0 => lift (throw .exhausted)
  | fuel + 1 => do
    let t ← lift peek
    if t.kind = .finish then return []
    else
      let first ← statement source fuel
      let rest ← statements fuel
      return first :: rest

/-! ### Calls -/

/-- The steps of a call. -/
def step : Parser.Call → ℕ → Guarded Tree
  | .expression, fuel => .expression <$> finished (expression source fuel 0)
  | .program, fuel => .program <$> statements source fuel

/-- What a call yields, if no guard is hit and it has steps enough. -/
def read? (p : Parser) (call : Parser.Call) : Option (Except SyntaxError Tree × Parser) :=
  match step source call p.fuelFor ⟨p, []⟩ with
  | .ok tree q => some (.ok tree, q.parser)
  | .error (.failure (.error e)) q => some (.error e, q.parser)
  | .error (.failure .exhausted) _ => none
  | .error .guarded _ => none

end

end Guarded

end Tracepoint
