/-
From tokens to trees.

A parser stands at a token and moves forward only.  An expression is an operand followed by
continuations that bind at least as strongly as asked for; statements follow the keyword they
start with.  A statement ends at a semicolon, or without one before a closing brace, the end of
the source or a line break.

A place that cannot be read is met like a token: looking at it fails and leaves it there, taking
it fails and steps over it.  So reading may go on behind an error.

* `Parser` — what is ahead, and how deeply loops and functions are nested;
* `Parse` — steps of a parser, which keep the parser they reached when they fail;
* `expression`, `statement` and what they are made of — by recursion on a number of steps;
* `Parser.nextExpression`, `Parser.program` — with steps enough for all that is ahead;
* `parse` — the program of a source.
-/

import Tracepoint.Grammar.Error
import Tracepoint.Grammar.Operator
import Tracepoint.Token.Lexer
import Tracepoint.Token.Literal

set_option relaxedAutoImplicit false
set_option autoImplicit false

namespace Tracepoint

/-- A place in a source that is being parsed. -/
structure Parser where
  /-- The token at which the parser stands. -/
  current : Lexeme
  /-- The tokens behind it. The last one is the end of the source and is never passed. -/
  behind : List Lexeme
  /-- The line of the token taken last. -/
  previousLine : Nat
  /-- The number of loops around this place, up to the next function. -/
  loopDepth : Nat
  /-- The number of functions around this place. -/
  functionDepth : Nat

/-- Why a step failed. -/
inductive Failure
  | error (e : SyntaxError)
  /-- More steps were needed than were given. -/
  | exhausted

/-- Steps of a parser. -/
abbrev Parse := EStateM Failure Parser

namespace Parser

/-- At the first of some tokens, or at the end of an empty source. -/
def ofLexemes : List Lexeme → Parser
  | [] => ⟨.ok ⟨.finish, "", ⟨0, 0⟩, 1⟩, [], 1, 0, 0⟩
  | first :: behind => ⟨first, behind, 1, 0, 0⟩

/-- At the start of a source. -/
def ofString (source : String) : Parser :=
  ofLexemes (Lexer.lexemes source)

/-- One token further, except at the end. -/
def forward (p : Parser) : Parser :=
  match p.behind with
  | [] => p
  | next :: behind => { p with current := next, behind }

/-! ### Single tokens -/

/-- Fails with a fault at a token. -/
def failAt {α : Type} (fault : SyntaxFault) (t : Token) : Parse α :=
  throw (.error (.atToken fault t))

/-- The token ahead. -/
def peek : Parse Token := fun p =>
  match p.current with
  | .ok t => .ok t p
  | .error e => .error (.error (.ofLexical e)) p

/-- Takes the token ahead. -/
def next : Parse Token := fun p =>
  match p.current with
  | .ok t => .ok t { p.forward with previousLine := t.line }
  | .error e => .error (.error (.ofLexical e)) p.forward

/-- Takes a token, which has to be of the given kind. -/
def expect (kind : Kind) : Parse Token := do
  let t ← next
  if t.kind = kind then return t else throw (.error (.unexpected t kind))

/-- Takes the token ahead if it is of the given kind, and tells whether it was. -/
def accept (kind : Kind) : Parse Bool := do
  let t ← peek
  if t.kind = kind then
    let _ ← next
    return true
  else return false

/-- Takes an identifier. -/
def identifier : Parse String := do
  let t ← expect .identifier
  return t.text

/-- Ends a statement. -/
def endStatement : Parse Unit := do
  let t ← peek
  if t.kind = .semicolon then
    let _ ← next
    return ()
  else if t.kind = .rightBrace ∨ t.kind = .finish then return ()
  else
    let p ← get
    if p.previousLine < t.line then return ()
    else throw (.error (.unexpected t .semicolon))

/-- Inside of one more loop. -/
def enterLoop (p : Parser) : Parser :=
  { p with loopDepth := p.loopDepth + 1 }

/-- Outside of a loop again. -/
def leaveLoop (q : Parser) : Parser :=
  { q with loopDepth := q.loopDepth - 1 }

/-- Inside of one more function, where no loop around the function counts. -/
def enterFunction (p : Parser) : Parser :=
  { p with loopDepth := 0, functionDepth := p.functionDepth + 1 }

/-- Outside of a function again, where the loops around it count. -/
def leaveFunction (loops : Nat) (q : Parser) : Parser :=
  { q with loopDepth := loops, functionDepth := q.functionDepth - 1 }

/-- Parses between entering and leaving, and leaves whatever the outcome. -/
def nested {α : Type} (enter : Parser → Parser) (leave : Parser → Parser → Parser)
    (step : Parse α) : Parse α := fun p =>
  match step (enter p) with
  | .ok a q => .ok a (leave p q)
  | .error e q => .error e (leave p q)

/-- Parses the body of a loop. -/
def inLoop {α : Type} (step : Parse α) : Parse α :=
  nested enterLoop (fun _ => leaveLoop) step

/-- Parses the body of a function. -/
def inFunction {α : Type} (step : Parse α) : Parse α :=
  nested enterFunction (fun p => leaveFunction p.loopDepth) step

/-! ### Expressions and statements -/

/-- The expression of a single token. -/
def atomOf? (t : Token) : Option Expr :=
  let atom (a : Atom) : Option Expr := some (.atom a t.span t.line)
  match t.kind with
  | .number => atom (.number (Literal.numberValue t.text))
  | .identifier => atom (.name t.text)
  | .string => atom (.string (Literal.stringValue t.text))
  | .nullWord => atom .null
  | .undefinedWord => atom .undefined
  | .trueWord => atom (.bool true)
  | .falseWord => atom (.bool false)
  | _ => none

/-- The token can name a property behind a point. Keywords can. -/
def namesProperty (t : Token) : Bool :=
  t.kind == .identifier || keywords.contains t.kind

/-- The assignment to the place that an expression denotes, if it denotes one. -/
def assignment? (target : Expr) : Option (Expr → Expr) :=
  match target with
  | .atom (.name name) _ _ => some (.assignName name)
  | .property object name => some (.assignProperty object name)
  | .index object index => some (.assignIndex object index)
  | _ => none

/-- Parses names separated by commas up to the closing parenthesis. -/
def parameters : Nat → Parse (List String)
  | 0 => throw .exhausted
  | fuel + 1 => do
    if ← accept .rightParen then return []
    let name ← identifier
    if ← accept .comma then
      let rest ← parameters fuel
      return name :: rest
    else
      let _ ← expect .rightParen
      return [name]

mutual

/-- Parses an operand and the continuations that bind it at least as strongly as `strength`. -/
def expression : Nat → Nat → Parse Expr
  | 0, _ => throw .exhausted
  | fuel + 1, strength => do
    let left ← operand fuel
    continuations fuel strength left

/-- Parses the continuations of an operand. -/
def continuations : Nat → Nat → Expr → Parse Expr
  | 0, _, _ => throw .exhausted
  | fuel + 1, strength, left => do
    let t ← peek
    match Continuation.ofKind? t.kind with
    | none => return left
    | some c =>
      if c.strength < strength then return left
      let _ ← next
      match c with
      | .suffix s =>
        let whole ← suffix fuel s left
        continuations fuel strength whole
      | .binary op =>
        let right ← expression fuel op.strength.right
        continuations fuel strength (.binary op left right)
      | .logical op =>
        let right ← expression fuel op.strength.right
        continuations fuel strength (.logical op left right)
      | .assignment =>
        match assignment? left with
        | none => failAt .notAssignable t
        | some assign =>
          let value ← expression fuel assignmentStrength.right
          continuations fuel strength (assign value)

/-- Parses what can stand at the start of an expression. -/
def operand : Nat → Parse Expr
  | 0 => throw .exhausted
  | fuel + 1 => do
    let t ← next
    match atomOf? t, UnaryOp.ofKind? t.kind, t.kind with
    | some atom, _, _ => return atom
    | none, some op, _ =>
      let inner ← expression fuel UnaryOp.strength
      return .unary op inner
    | none, none, .leftParen =>
      let inner ← expression fuel 0
      let _ ← expect .rightParen
      return .group inner
    | none, none, .leftBracket =>
      let elements ← arguments fuel .rightBracket
      return .array elements
    | none, none, .leftBrace =>
      let entries ← entries fuel
      return .object entries
    | none, none, .functionWord =>
      let ahead ← peek
      let name ← if ahead.kind = .identifier then some <$> identifier else pure none
      let decl ← functionRest fuel name t.line
      return .function decl
    | none, none, .finish => failAt .endOfInput t
    | none, none, kind => failAt (.notAnExpression kind) t

/-- Parses a call, a member access or an index behind `object`, its opening token being taken. -/
def suffix : Nat → Suffix → Expr → Parse Expr
  | 0, _, _ => throw .exhausted
  | fuel + 1, .call, object => do
    let arguments ← arguments fuel .rightParen
    return .call object arguments
  | _ + 1, .property, object => do
    let t ← next
    if namesProperty t then return .property object t.text
    else failAt (.notAPropertyName t.kind) t
  | fuel + 1, .index, object => do
    let index ← expression fuel 0
    let _ ← expect .rightBracket
    return .index object index

/-- Parses expressions separated by commas up to the closing token. -/
def arguments : Nat → Kind → Parse (List Expr)
  | 0, _ => throw .exhausted
  | fuel + 1, closing => do
    if ← accept closing then return []
    let first ← expression fuel 0
    if ← accept .comma then
      let rest ← arguments fuel closing
      return first :: rest
    else
      let _ ← expect closing
      return [first]

/-- Parses the entries of an object up to the closing brace. -/
def entries : Nat → Parse (List (String × Expr))
  | 0 => throw .exhausted
  | fuel + 1 => do
    if ← accept .rightBrace then return []
    let first ← entry fuel
    if ← accept .comma then
      let rest ← entries fuel
      return first :: rest
    else
      let _ ← expect .rightBrace
      return [first]

/-- Parses a key with its value. An identifier on its own is the key of the variable it names. -/
def entry : Nat → Parse (String × Expr)
  | 0 => throw .exhausted
  | fuel + 1 => do
    let t ← next
    let key ← match t.kind with
      | .identifier | .number => pure t.text
      | .string => pure (Literal.stringValue t.text)
      | kind => failAt (.notAPropertyName kind) t
    if ← accept .colon then
      let value ← expression fuel 0
      return (key, value)
    else if t.kind = .identifier then
      return (key, .atom (.name key) t.span t.line)
    else
      let after ← next
      throw (.error (.unexpected after .colon))

/-- Parses the parameters and the body of a function. -/
def functionRest : Nat → Option String → Nat → Parse FunctionDecl
  | 0, _, _ => throw .exhausted
  | fuel + 1, name, line => do
    let _ ← expect .leftParen
    let parameters ← parameters fuel
    let body ← inFunction (block fuel)
    return .mk name parameters body line

/-- Parses statements between braces. -/
def block : Nat → Parse (List Stmt)
  | 0 => throw .exhausted
  | fuel + 1 => do
    let _ ← expect .leftBrace
    blockRest fuel

/-- Parses statements up to the closing brace. -/
def blockRest : Nat → Parse (List Stmt)
  | 0 => throw .exhausted
  | fuel + 1 => do
    let t ← peek
    if t.kind = .rightBrace then
      let _ ← next
      return []
    else if t.kind = .finish then throw (.error (.unexpected t .rightBrace))
    else
      let first ← statement fuel
      let rest ← blockRest fuel
      return first :: rest

/-- Parses the declaration of a variable, with the end of its statement if `terminated`. -/
def declaration : Nat → VariableKind → Bool → Parse Stmt
  | 0, _, _ => throw .exhausted
  | fuel + 1, kind, terminated => do
    let keyword ← next
    let name ← identifier
    let initial ← if ← accept .equal then some <$> expression fuel 0 else pure none
    if kind = .const_ ∧ initial.isNone then failAt .missingInitializer keyword
    if terminated then endStatement
    return .declare kind name initial keyword.line

/-- Parses a condition in parentheses. -/
def condition : Nat → Parse Expr
  | 0 => throw .exhausted
  | fuel + 1 => do
    let _ ← expect .leftParen
    let e ← expression fuel 0
    let _ ← expect .rightParen
    return e

/-- Parses what a counting loop does first, up to the semicolon behind it. -/
def loopStart : Nat → Parse (Option Stmt)
  | 0 => throw .exhausted
  | fuel + 1 => do
    let t ← peek
    match t.kind with
    | .semicolon => return none
    | .letWord => some <$> declaration fuel .let_ false
    | .constWord => some <$> declaration fuel .const_ false
    | .varWord => some <$> declaration fuel .var_ false
    | _ =>
      let e ← expression fuel 0
      return some (.expression e t.line)

/-- Parses an expression, if the token ahead is not `closing`. -/
def optional : Nat → Kind → Parse (Option Expr)
  | 0, _ => throw .exhausted
  | fuel + 1, closing => do
    let t ← peek
    if t.kind = closing then return none else some <$> expression fuel 0

/-- Parses a statement. -/
def statement : Nat → Parse Stmt
  | 0 => throw .exhausted
  | fuel + 1 => do
    let t ← peek
    match t.kind with
    | .letWord => declaration fuel .let_ true
    | .constWord => declaration fuel .const_ true
    | .varWord => declaration fuel .var_ true
    | .functionWord =>
      let _ ← next
      let name ← identifier
      let decl ← functionRest fuel (some name) t.line
      return .function decl
    | .leftBrace =>
      let body ← block fuel
      return .block body t.line
    | .ifWord =>
      let _ ← next
      let condition ← condition fuel
      let success ← statement fuel
      let failure ← if ← accept .elseWord then some <$> statement fuel else pure none
      return .conditional condition success failure t.line
    | .whileWord =>
      let _ ← next
      let condition ← condition fuel
      let body ← inLoop (statement fuel)
      return .whileLoop condition body t.line
    | .forWord =>
      let _ ← next
      let _ ← expect .leftParen
      let start ← loopStart fuel
      let _ ← expect .semicolon
      let condition ← optional fuel .semicolon
      let _ ← expect .semicolon
      let increment ← optional fuel .rightParen
      let _ ← expect .rightParen
      let body ← inLoop (statement fuel)
      return .forLoop start condition increment body t.line
    | .returnWord =>
      let _ ← next
      if (← get).functionDepth = 0 then failAt .illegalReturn t
      let ahead ← peek
      let value ←
        if ahead.kind = .semicolon ∨ ahead.kind = .rightBrace ∨ ahead.kind = .finish ∨
            ahead.line ≠ t.line then pure none
        else some <$> expression fuel 0
      endStatement
      return .returnValue value t.line
    | .breakWord =>
      let _ ← next
      if (← get).loopDepth = 0 then failAt .illegalBreak t
      endStatement
      return .breakLoop t.line
    | .continueWord =>
      let _ ← next
      if (← get).loopDepth = 0 then failAt .illegalContinue t
      endStatement
      return .continueLoop t.line
    | .semicolon =>
      let _ ← next
      return .empty t.line
    | _ =>
      let e ← expression fuel 0
      endStatement
      return .expression e t.line

end

/-- Parses statements up to the end of the source. -/
def statements : Nat → Parse Program
  | 0 => throw .exhausted
  | fuel + 1 => do
    let t ← peek
    if t.kind = .finish then return []
    else
      let first ← statement fuel
      let rest ← statements fuel
      return first :: rest

/-! ### Entry points -/

/-- Steps enough for everything ahead: between two tokens there are at most a few steps. -/
def fuelFor (p : Parser) : Nat :=
  8 * (p.behind.length + 2)

/-- Runs steps, with the number they need. -/
def run {α : Type} (step : Nat → Parse α) (p : Parser) : Except SyntaxError α × Parser :=
  match step p.fuelFor p with
  | .ok a q => (.ok a, q)
  | .error (.error e) q => (.error e, q)
  | .error .exhausted q => (.error ⟨.endOfInput, ⟨0, 0⟩, p.previousLine⟩, q)

/-- Parses one expression. -/
def nextExpression (p : Parser) : Except SyntaxError Expr × Parser :=
  p.run fun fuel => expression fuel 0

/-- Parses statements up to the end of the source. -/
def program (p : Parser) : Except SyntaxError Program × Parser :=
  p.run statements

end Parser

/-- The program of a source. -/
def parse (source : String) : Except SyntaxError Program :=
  (Parser.ofString source).program.1

end Tracepoint
