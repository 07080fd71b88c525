/-
The tokens that statements and functions begin with.

A statement begins with the token at which the parser stands when it comes to the statement, and a
function that is the value of an expression with its keyword.  Whatever is in the tree of a source
has been read somewhere in this source: so every statement and every function of the tree begins
with a token of the source, and belongs to the line of this token.

The clause that a counting loop starts with is a statement of its own.

Main definitions:

* `Heading` — a statement, or a function that is the value of an expression;
* `Expr.headings`, `Stmt.inside`, `stmtsHeadings` and their companions — all of them in a tree;
* `Parser.Begins` — the parser, at a token of a source, reads a statement or a function.

Main results:

* `Parser.Begins.line` — a statement or a function belongs to the line of the token it begins with;
* `Parser.begun_expression`, `Parser.begun_statement` and their companions — **whatever is read
  begins with a token**;
* `begun_of_parse` — so does all that is in the tree of a source.
-/

import Tracepoint.Proofs.Grammar.Openings
import Tracepoint.Proofs.Grammar.Places

set_option relaxedAutoImplicit false
set_option autoImplicit false

namespace Tracepoint

/-- A statement, or a function that is the value of an expression. -/
inductive Heading
  | statement (s : Stmt)
  | function (decl : FunctionDecl)

/-- The line of a statement or a function. -/
def Heading.line : Heading → ℕ
  | statement s => s.line
  | function decl => decl.line

/-! ### Headings in trees -/

mutual

/-- The statements and functions inside an expression. -/
def Expr.headings : Expr → List Heading
  | .atom _ _ _ => []
  | .group inner => inner.headings
  | .unary _ operand => operand.headings
  | .binary _ left right => left.headings ++ right.headings
  | .logical _ left right => left.headings ++ right.headings
  | .assignName _ value => value.headings
  | .assignProperty object _ value => object.headings ++ value.headings
  | .assignIndex object index value => object.headings ++ index.headings ++ value.headings
  | .call callee arguments => callee.headings ++ exprsHeadings arguments
  | .property object _ => object.headings
  | .index object index => object.headings ++ index.headings
  | .array elements => exprsHeadings elements
  | .object entries => entriesHeadings entries
  | .function decl => .function decl :: decl.headings

/-- The statements and functions inside some expressions. -/
def exprsHeadings : List Expr → List Heading
  | [] => []
  | e :: rest => e.headings ++ exprsHeadings rest

/-- The statements and functions inside the values of entries. -/
def entriesHeadings : List (String × Expr) → List Heading
  | [] => []
  | (_, e) :: rest => e.headings ++ entriesHeadings rest

/-- The statements and functions inside the expression, if there is one. -/
def valueHeadings : Option Expr → List Heading
  | none => []
  | some e => e.headings

/-- The statements of a function, and what is inside of them. -/
def FunctionDecl.headings : FunctionDecl → List Heading
  | .mk _ _ body _ => stmtsHeadings body

/-- Some statements, and what is inside of them. -/
def stmtsHeadings : List Stmt → List Heading
  | [] => []
  | s :: rest => .statement s :: s.inside ++ stmtsHeadings rest

/-- The statement, if there is one, and what is inside of it. -/
def optionalHeadings : Option Stmt → List Heading
  | none => []
  | some s => .statement s :: s.inside

/-- The statements and functions inside a statement. -/
def Stmt.inside : Stmt → List Heading
  | .declare _ _ initial _ => valueHeadings initial
  | .function decl => decl.headings
  | .expression e _ => e.headings
  | .block body _ => stmtsHeadings body
  | .conditional condition success failure _ =>
    condition.headings ++ .statement success :: success.inside ++ optionalHeadings failure
  | .whileLoop condition body _ => condition.headings ++ .statement body :: body.inside
  | .forLoop start condition increment body _ =>
    optionalHeadings start ++ valueHeadings condition ++ valueHeadings increment ++
      .statement body :: body.inside
  | .returnValue value _ => valueHeadings value
  | .breakLoop _ => []
  | .continueLoop _ => []
  | .empty _ => []

end

/-- The statements and functions inside an expression, without a function that it is itself. -/
def Expr.inside : Expr → List Heading
  | .function decl => decl.headings
  | e => e.headings

/-! ### What a token begins -/

namespace Parser

/-- The parser, at the token `t` of a source, reads a statement or a function. -/
def Begins (source : String) (t : Token) : Heading → Prop
  | .statement s => ∃ (fuel : ℕ) (p q : Parser), p.ahead <:+ Lexer.lexemes source ∧
      p.current = .ok t ∧ (statement fuel p = .ok s q ∨ loopStart fuel p = .ok (some s) q)
  | .function decl => t.kind = .functionWord ∧ ∃ (fuel : ℕ) (p q : Parser),
      p.ahead <:+ Lexer.lexemes source ∧ p.current = .ok t ∧
      operand fuel p = .ok (.function decl) q

/-- All statements and functions begin with tokens of a source. -/
def Begun (source : String) (hs : List Heading) : Prop :=
  ∀ h ∈ hs, ∃ t, Begins source t h

/-- The tokens of a source are ahead, from some place on. -/
def Reading (source : String) (p : Parser) : Prop :=
  p.ahead <:+ Lexer.lexemes source

section

variable {source : String} {t : Token} {h : Heading} {hs rest : List Heading}

theorem begun_nil : Begun source [] :=
  List.forall_mem_nil _

theorem Begun.append (hhs : Begun source hs) (hrest : Begun source rest) :
    Begun source (hs ++ rest) :=
  List.forall_mem_append.2 ⟨hhs, hrest⟩

theorem Begun.cons (hrest : Begun source rest) (hh : Begins source t h) :
    Begun source (h :: rest) :=
  List.forall_mem_cons.2 ⟨⟨t, hh⟩, hrest⟩

theorem travels_reading : Travels (Reading source) anything where
  token := fun _ _ _ _ => trivial
  forward := fun p _ hp => (Reaches.forward p).ahead.trans hp

theorem Keeps.inLoop_reading {α : Type} {x : Parse α} {P : α → Prop}
    (hx : Keeps (Reading source) x P) : Keeps (Reading source) (Parser.inLoop x) P :=
  .nested hx (fun _ hp => hp) fun _ _ _ hq => hq

theorem Keeps.inFunction_reading {α : Type} {x : Parse α} {P : α → Prop}
    (hx : Keeps (Reading source) x P) : Keeps (Reading source) (Parser.inFunction x) P :=
  .nested hx (fun _ hp => hp) fun _ _ _ hq => hq

/-! #### Lines -/

theorem Begins.mem (hh : Begins source t h) : .ok t ∈ Lexer.lexemes source := by
  have hahead : ∀ p : Parser, p.ahead <:+ Lexer.lexemes source → p.current = .ok t →
      .ok t ∈ Lexer.lexemes source := by
    intro p hp hcurrent
    exact hp.subset (hcurrent ▸ List.mem_cons_self)
  cases h with
  | statement s =>
      obtain ⟨fuel, p, q, hp, hcurrent, -⟩ := hh
      exact hahead p hp hcurrent
  | function decl =>
      obtain ⟨-, fuel, p, q, hp, hcurrent, -⟩ := hh
      exact hahead p hp hcurrent

/-- The clause that a counting loop starts with belongs to the line of its first token. -/
theorem line_loopStart (fuel : ℕ) :
    AtToken t (loopStart fuel) fun s? => ∀ s, s? = some s → s.line = t.line := by
  cases fuel with
  | zero => exact .of_keeps (.throw _)
  | succ fuel =>
      have hdeclaration : ∀ kind, AtToken t (some <$> declaration fuel kind false)
          fun s? => ∀ s, s? = some s → s.line = t.line := fun kind =>
        (line_declaration fuel kind false).bind fun s hs => .pure fun s' h' =>
          Option.some.inj h' ▸ hs
      rw [loopStart]
      refine .peek ?_
      split
      · exact .of_keeps (.pure fun s hs => by cases hs)
      · exact hdeclaration _
      · exact hdeclaration _
      · exact hdeclaration _
      · refine .of_keeps ((Keeps.any _).bind fun e _ => .pure fun s hs => ?_)
        cases hs
        rfl

/-- A function that is an operand starts with its keyword and belongs to the line of it. -/
theorem line_operand (fuel : ℕ) : AtToken t (operand fuel) fun e =>
    ∀ decl, e = .function decl → t.kind = .functionWord ∧ decl.line = t.line := by
  have hother : ∀ {e : Expr}, (∀ decl, e ≠ .function decl) →
      ∀ decl, e = .function decl → t.kind = .functionWord ∧ decl.line = t.line :=
    fun hne decl heq => absurd heq (hne decl)
  cases fuel with
  | zero => exact .of_keeps (.throw _)
  | succ fuel =>
      rw [operand]
      refine AtToken.next.bind fun t' ht => ?_
      subst ht
      split
      next atom hatom =>
        refine .pure (hother fun decl heq => ?_)
        subst heq
        simp only [atomOf?] at hatom
        split at hatom <;> cases hatom
      next => exact (Keeps.any _).bind fun _ _ => .pure (hother fun _ => Expr.noConfusion)
      next =>
        refine (Keeps.any _).bind fun _ _ => (Keeps.any _).bind fun _ _ => ?_
        exact .pure (hother fun _ => Expr.noConfusion)
      next => exact (Keeps.any _).bind fun _ _ => .pure (hother fun _ => Expr.noConfusion)
      next => exact (Keeps.any _).bind fun _ _ => .pure (hother fun _ => Expr.noConfusion)
      next hkind =>
        refine (Keeps.any _).bind fun ahead _ => ?_
        refine .branch (fun _ => Keeps.any _) (fun _ => Keeps.any _) fun name _ => ?_
        refine (line_functionRest fuel name _).bind fun decl hdecl => .pure fun decl' heq => ?_
        cases heq
        exact ⟨hkind, hdecl⟩
      next => exact .failAt _ _
      next => exact .failAt _ _

/-- **A statement or a function belongs to the line of the token it begins with.** -/
theorem Begins.line (hh : Begins source t h) : h.line = t.line := by
  cases h with
  | statement s =>
      obtain ⟨fuel, p, q, -, hcurrent, hrun | hrun⟩ := hh
      · exact line_statement fuel p s q hcurrent hrun
      · exact line_loopStart fuel p (some s) q hcurrent hrun s rfl
  | function decl =>
      obtain ⟨-, fuel, p, q, -, hcurrent, hrun⟩ := hh
      exact (line_operand fuel p (.function decl) q hcurrent hrun decl rfl).2

/-! #### Single tokens -/

/-- A step that looks at the token ahead stands at a token. -/
theorem exists_current_of_peek {α : Type} {f : Token → Parse α} {p q : Parser} {a : α}
    (hrun : (peek >>= f) p = .ok a q) : ∃ t, p.current = .ok t := by
  cases hcurrent : p.current with
  | ok t => exact ⟨t, rfl⟩
  | error e =>
      simp only [Bind.bind, EStateM.bind, peek, hcurrent] at hrun
      cases hrun

/-- So does a step that takes the token ahead. -/
theorem exists_current_of_next {α : Type} {f : Token → Parse α} {p q : Parser} {a : α}
    (hrun : (next >>= f) p = .ok a q) : ∃ t, p.current = .ok t := by
  cases hcurrent : p.current with
  | ok t => exact ⟨t, rfl⟩
  | error e =>
      simp only [Bind.bind, EStateM.bind, next, hcurrent] at hrun
      cases hrun

theorem exists_current_of_operand {fuel : ℕ} {e : Expr} {p q : Parser}
    (hrun : operand fuel p = .ok e q) : ∃ t, p.current = .ok t := by
  cases fuel with
  | zero => cases hrun
  | succ fuel =>
      rw [operand] at hrun
      exact exists_current_of_next hrun

theorem exists_current_of_statement {fuel : ℕ} {s : Stmt} {p q : Parser}
    (hrun : statement fuel p = .ok s q) : ∃ t, p.current = .ok t := by
  cases fuel with
  | zero => cases hrun
  | succ fuel =>
      rw [statement] at hrun
      exact exists_current_of_peek hrun

theorem exists_current_of_loopStart {fuel : ℕ} {s? : Option Stmt} {p q : Parser}
    (hrun : loopStart fuel p = .ok s? q) : ∃ t, p.current = .ok t := by
  cases fuel with
  | zero => cases hrun
  | succ fuel =>
      rw [loopStart] at hrun
      exact exists_current_of_peek hrun

/-! #### What is read begins where the parser stands -/

/-- If all that is inside of an operand begins somewhere, then so does the operand, if it is a
function. -/
theorem Keeps.operand_begun {fuel : ℕ}
    (hx : Keeps (Reading source) (operand fuel) fun e => Begun source e.inside) :
    Keeps (Reading source) (operand fuel) fun e => Begun source e.headings := by
  intro p e q hp hrun
  obtain ⟨hq, he⟩ := hx p e q hp hrun
  refine ⟨hq, ?_⟩
  cases e with
  | function decl =>
      obtain ⟨t, hcurrent⟩ := exists_current_of_operand hrun
      have hkind := (line_operand fuel p _ q hcurrent hrun decl rfl).1
      exact he.cons ⟨hkind, fuel, p, q, hp, hcurrent, hrun⟩
  | _ => exact he

theorem Keeps.statement_begun {fuel : ℕ}
    (hx : Keeps (Reading source) (statement fuel) fun s => Begun source s.inside) :
    Keeps (Reading source) (statement fuel) fun s => Begun source (.statement s :: s.inside) := by
  intro p s q hp hrun
  obtain ⟨hq, hs⟩ := hx p s q hp hrun
  obtain ⟨t, hcurrent⟩ := exists_current_of_statement hrun
  exact ⟨hq, hs.cons ⟨fuel, p, q, hp, hcurrent, .inl hrun⟩⟩

theorem Keeps.loopStart_begun {fuel : ℕ}
    (hx : Keeps (Reading source) (loopStart fuel) fun s? => ∀ s ∈ s?, Begun source s.inside) :
    Keeps (Reading source) (loopStart fuel) fun s? => Begun source (optionalHeadings s?) := by
  intro p s? q hp hrun
  obtain ⟨hq, hs⟩ := hx p s? q hp hrun
  refine ⟨hq, ?_⟩
  cases s? with
  | none => exact begun_nil
  | some s =>
      obtain ⟨t, hcurrent⟩ := exists_current_of_loopStart hrun
      exact (hs s rfl).cons ⟨fuel, p, q, hp, hcurrent, .inr hrun⟩

theorem begun_of_atomOf? {e : Expr} (h : atomOf? t = some e) : Begun source e.inside := by
  simp only [atomOf?] at h
  split at h
  all_goals cases h
  all_goals exact begun_nil

theorem begun_of_assignment? {target value : Expr} {assign : Expr → Expr}
    (h : assignment? target = some assign) (htarget : Begun source target.headings)
    (hvalue : Begun source value.headings) : Begun source (assign value).headings := by
  simp only [assignment?] at h
  split at h
  · cases h
    exact hvalue
  · cases h
    exact htarget.append hvalue
  · cases h
    exact htarget.append hvalue
  · cases h

end

/-! ### Readers

The proofs follow the recursion on the number of steps. -/

section

variable {source : String}

mutual

theorem begun_expression : ∀ fuel strength : ℕ,
    Keeps (Reading source) (expression fuel strength) fun e => Begun source e.headings
  | 0, _ => .throw _
  | fuel + 1, strength => by
      rw [expression]
      exact (inside_operand fuel).operand_begun.bind fun left hleft =>
        begun_continuations fuel strength left hleft

theorem begun_continuations : ∀ (fuel strength : ℕ) (left : Expr), Begun source left.headings →
    Keeps (Reading source) (continuations fuel strength left) fun e => Begun source e.headings
  | 0, _, _, _ => .throw _
  | fuel + 1, strength, left, hleft => by
      rw [continuations]
      refine travels_reading.peek.bind fun t _ => ?_
      split
      next => exact .pure hleft
      next c _ =>
        refine .ite (fun _ => .pure hleft) fun _ => travels_reading.next.bind fun _ _ => ?_
        cases c with
        | suffix s =>
            exact (begun_suffix fuel s left hleft).bind fun whole hwhole =>
              begun_continuations fuel strength whole hwhole
        | binary op =>
            exact (begun_expression fuel _).bind fun right hright =>
              begun_continuations fuel strength (.binary op left right) (hleft.append hright)
        | logical op =>
            exact (begun_expression fuel _).bind fun right hright =>
              begun_continuations fuel strength (.logical op left right) (hleft.append hright)
        | assignment =>
            dsimp only
            split
            next => exact .failAt _ _
            next assign hassign =>
              exact (begun_expression fuel _).bind fun value hvalue =>
                begun_continuations fuel strength _ (begun_of_assignment? hassign hleft hvalue)

theorem inside_operand : ∀ fuel : ℕ,
    Keeps (Reading source) (operand fuel) fun e => Begun source e.inside
  | 0 => .throw _
  | fuel + 1 => by
      rw [operand]
      refine travels_reading.next.bind fun t _ => ?_
      split
      next atom hatom => exact .pure (begun_of_atomOf? hatom)
      next => exact (begun_expression fuel _).bind fun inner hinner => .pure hinner
      next =>
        refine (begun_expression fuel _).bind fun inner hinner => ?_
        exact (travels_reading.expect _).bind fun _ _ => .pure hinner
      next => exact (begun_arguments fuel _).bind fun elements helements => .pure helements
      next => exact (begun_entries fuel).bind fun entries hentries => .pure hentries
      next =>
        refine travels_reading.peek.bind fun ahead _ => Keeps.branch (P := anything) ?_ ?_ ?_
        · exact fun _ => travels_reading.identifier.map fun _ _ => trivial
        · exact fun _ => .pure trivial
        · exact fun name _ => (begun_functionRest fuel name _).bind fun decl hdecl => .pure hdecl
      next => exact .failAt _ _
      next => exact .failAt _ _

theorem begun_suffix : ∀ (fuel : ℕ) (s : Suffix) (object : Expr), Begun source object.headings →
    Keeps (Reading source) (suffix fuel s object) fun e => Begun source e.headings
  | 0, _, _, _ => .throw _
  | fuel + 1, .call, object, hobject => by
      rw [suffix]
      exact (begun_arguments fuel _).bind fun arguments harguments =>
        .pure (hobject.append harguments)
  | fuel + 1, .property, object, hobject => by
      rw [suffix]
      exact travels_reading.next.bind fun t _ => .ite (fun _ => .pure hobject) fun _ => .failAt _ _
  | fuel + 1, .index, object, hobject => by
      rw [suffix]
      refine (begun_expression fuel _).bind fun index hindex => ?_
      exact (travels_reading.expect _).bind fun _ _ => .pure (hobject.append hindex)

theorem begun_arguments : ∀ (fuel : ℕ) (closing : Kind),
    Keeps (Reading source) (arguments fuel closing) fun es => Begun source (exprsHeadings es)
  | 0, _ => .throw _
  | fuel + 1, closing => by
      rw [arguments]
      refine (travels_reading.accept _).bind fun closed _ => ?_
      refine .ite (fun _ => .pure begun_nil) fun _ => ?_
      refine (begun_expression fuel _).bind fun first hfirst => ?_
      refine (travels_reading.accept _).bind fun more _ => .ite (fun _ => ?_) fun _ => ?_
      · exact (begun_arguments fuel closing).bind fun rest hrest => .pure (hfirst.append hrest)
      · exact (travels_reading.expect _).bind fun _ _ => .pure (hfirst.append begun_nil)

theorem begun_entries : ∀ fuel : ℕ,
    Keeps (Reading source) (entries fuel) fun es => Begun source (entriesHeadings es)
  | 0 => .throw _
  | fuel + 1 => by
      rw [entries]
      refine (travels_reading.accept _).bind fun closed _ => ?_
      refine .ite (fun _ => .pure begun_nil) fun _ => ?_
      refine (begun_entry fuel).bind fun first hfirst => ?_
      refine (travels_reading.accept _).bind fun more _ => .ite (fun _ => ?_) fun _ => ?_
      · exact (begun_entries fuel).bind fun rest hrest => .pure (hfirst.append hrest)
      · exact (travels_reading.expect _).bind fun _ _ => .pure (hfirst.append begun_nil)

theorem begun_entry : ∀ fuel : ℕ,
    Keeps (Reading source) (entry fuel) fun e => Begun source e.2.headings
  | 0 => .throw _
  | fuel + 1 => by
      rw [entry_succ]
      refine travels_reading.next.bind fun t _ => (Keeps.entryKey t).bind fun key _ => ?_
      refine (travels_reading.accept _).bind fun _ _ => ?_
      refine .ite (fun _ => ?_) fun _ => .ite (fun _ => ?_) ?_
      · exact (begun_expression fuel _).bind fun value hvalue => .pure hvalue
      · exact .pure begun_nil
      · exact fun _ => travels_reading.next.bind fun _ _ => .throw _

theorem begun_functionRest : ∀ (fuel : ℕ) (name : Option String) (line : ℕ),
    Keeps (Reading source) (functionRest fuel name line) fun decl => Begun source decl.headings
  | 0, _, _ => .throw _
  | fuel + 1, name, line => by
      rw [functionRest]
      refine (travels_reading.expect _).bind fun _ _ => ?_
      refine (travels_reading.parameters fuel).bind fun parameters _ => ?_
      exact (begun_block fuel).inFunction_reading.bind fun body hbody => .pure hbody

theorem begun_block : ∀ fuel : ℕ,
    Keeps (Reading source) (block fuel) fun body => Begun source (stmtsHeadings body)
  | 0 => .throw _
  | fuel + 1 => by
      rw [block]
      exact (travels_reading.expect _).bind fun _ _ => begun_blockRest fuel

theorem begun_blockRest : ∀ fuel : ℕ,
    Keeps (Reading source) (blockRest fuel) fun body => Begun source (stmtsHeadings body)
  | 0 => .throw _
  | fuel + 1 => by
      rw [blockRest]
      refine travels_reading.peek.bind fun t _ => ?_
      refine .ite (fun _ => ?_) fun _ => .ite (fun _ => ?_) fun _ => ?_
      · exact travels_reading.next.bind fun _ _ => .pure begun_nil
      · exact .throw _
      · refine (inside_statement fuel).statement_begun.bind fun first hfirst => ?_
        exact (begun_blockRest fuel).bind fun rest hrest => .pure (hfirst.append hrest)

theorem inside_declaration : ∀ (fuel : ℕ) (kind : VariableKind) (terminated : Bool),
    Keeps (Reading source) (declaration fuel kind terminated) fun s => Begun source s.inside
  | 0, _, _ => .throw _
  | fuel + 1, kind, terminated => by
      rw [declaration]
      refine travels_reading.next.bind fun keyword _ => ?_
      refine travels_reading.identifier.bind fun name _ => ?_
      refine (travels_reading.accept _).bind fun given _ =>
        Keeps.branch (P := fun e? => Begun source (valueHeadings e?)) ?_ ?_ ?_
      · exact fun _ => (begun_expression fuel _).map fun _ he => he
      · exact fun _ => .pure begun_nil
      intro initial hinitial
      refine Keeps.refuse fun _ => Keeps.whenever ?_ (.pure hinitial)
      exact travels_reading.endStatement

theorem begun_condition : ∀ fuel : ℕ,
    Keeps (Reading source) (condition fuel) fun e => Begun source e.headings
  | 0 => .throw _
  | fuel + 1 => by
      rw [condition]
      refine (travels_reading.expect _).bind fun _ _ => ?_
      refine (begun_expression fuel _).bind fun e he => ?_
      exact (travels_reading.expect _).bind fun _ _ => .pure he

theorem inside_loopStart : ∀ fuel : ℕ,
    Keeps (Reading source) (loopStart fuel) fun s? => ∀ s ∈ s?, Begun source s.inside
  | 0 => .throw _
  | fuel + 1 => by
      have hdeclaration : ∀ kind, Keeps (Reading source) (some <$> declaration fuel kind false)
          fun s? => ∀ s ∈ s?, Begun source s.inside := fun kind =>
        (inside_declaration fuel kind false).map fun s hs _ hmem => Option.some.inj hmem ▸ hs
      rw [loopStart]
      refine travels_reading.peek.bind fun t _ => ?_
      split
      · exact .pure fun _ hmem => absurd hmem (Option.not_mem_none _)
      · exact hdeclaration _
      · exact hdeclaration _
      · exact hdeclaration _
      · refine (begun_expression fuel _).bind fun e he => .pure fun _ hmem => ?_
        cases hmem
        exact he

theorem begun_optional : ∀ (fuel : ℕ) (closing : Kind),
    Keeps (Reading source) (optional fuel closing) fun e? => Begun source (valueHeadings e?)
  | 0, _ => .throw _
  | fuel + 1, closing => by
      rw [optional]
      refine travels_reading.peek.bind fun t _ => .ite (fun _ => .pure begun_nil) fun _ => ?_
      exact (begun_expression fuel _).map fun _ he => he

theorem inside_statement : ∀ fuel : ℕ,
    Keeps (Reading source) (statement fuel) fun s => Begun source s.inside
  | 0 => .throw _
  | fuel + 1 => by
      rw [statement]
      refine travels_reading.peek.bind fun t _ => ?_
      split
      · exact inside_declaration fuel _ _
      · exact inside_declaration fuel _ _
      · exact inside_declaration fuel _ _
      · refine travels_reading.next.bind fun _ _ => travels_reading.identifier.bind fun name _ => ?_
        exact (begun_functionRest fuel _ _).bind fun decl hdecl => .pure hdecl
      · exact (begun_block fuel).bind fun body hbody => .pure hbody
      · refine travels_reading.next.bind fun _ _ => ?_
        refine (begun_condition fuel).bind fun condition hcondition => ?_
        refine (inside_statement fuel).statement_begun.bind fun success hsuccess => ?_
        refine (travels_reading.accept _).bind fun _ _ =>
          Keeps.branch (P := fun s? => Begun source (optionalHeadings s?)) ?_ ?_ ?_
        · exact fun _ => (inside_statement fuel).statement_begun.map fun _ hs => hs
        · exact fun _ => .pure begun_nil
        · exact fun failure hfailure =>
            .pure ((hcondition.append hsuccess).append hfailure)
      · refine travels_reading.next.bind fun _ _ => ?_
        refine (begun_condition fuel).bind fun condition hcondition => ?_
        exact (inside_statement fuel).statement_begun.inLoop_reading.bind fun body hbody =>
          .pure (hcondition.append hbody)
      · refine travels_reading.next.bind fun _ _ => (travels_reading.expect _).bind fun _ _ => ?_
        refine (inside_loopStart fuel).loopStart_begun.bind fun start hstart => ?_
        refine (travels_reading.expect _).bind fun _ _ => ?_
        refine (begun_optional fuel _).bind fun condition hcondition => ?_
        refine (travels_reading.expect _).bind fun _ _ => ?_
        refine (begun_optional fuel _).bind fun increment hincrement => ?_
        refine (travels_reading.expect _).bind fun _ _ => ?_
        exact (inside_statement fuel).statement_begun.inLoop_reading.bind fun body hbody =>
          .pure (((hstart.append hcondition).append hincrement).append hbody)
      · refine travels_reading.next.bind fun _ _ => Keeps.get.bind fun p _ =>
          Keeps.refuse fun _ => ?_
        refine travels_reading.peek.bind fun ahead _ =>
          Keeps.branch (P := fun e? => Begun source (valueHeadings e?)) ?_ ?_ ?_
        · exact fun _ => .pure begun_nil
        · exact fun _ => (begun_expression fuel _).map fun _ he => he
        · exact fun value hvalue => travels_reading.endStatement.bind fun _ _ => .pure hvalue
      · refine travels_reading.next.bind fun _ _ => Keeps.get.bind fun p _ =>
          Keeps.refuse fun _ => ?_
        exact travels_reading.endStatement.bind fun _ _ => .pure begun_nil
      · refine travels_reading.next.bind fun _ _ => Keeps.get.bind fun p _ =>
          Keeps.refuse fun _ => ?_
        exact travels_reading.endStatement.bind fun _ _ => .pure begun_nil
      · exact travels_reading.next.bind fun _ _ => .pure begun_nil
      · refine (begun_expression fuel _).bind fun e he => ?_
        exact travels_reading.endStatement.bind fun _ _ => .pure he

end

theorem begun_statement (fuel : ℕ) : Keeps (Reading source) (statement fuel) fun s =>
    Begun source (.statement s :: s.inside) :=
  (inside_statement fuel).statement_begun

theorem begun_statements (fuel : ℕ) :
    Keeps (Reading source) (statements fuel) fun body => Begun source (stmtsHeadings body) := by
  induction fuel with
  | zero => exact .throw _
  | succ fuel ih =>
      rw [statements]
      refine travels_reading.peek.bind fun t _ => .ite (fun _ => .pure begun_nil) fun _ => ?_
      refine (begun_statement fuel).bind fun first hfirst => ?_
      exact ih.bind fun rest hrest => .pure (hfirst.append hrest)

end

end Parser

/-! ### Whole sources -/

section

variable {source : String} {program : Program}

/-- **All statements and functions of a program begin with tokens of its source.** -/
theorem begun_of_parse (h : parse source = .ok program) :
    Parser.Begun source (stmtsHeadings program) := by
  have hstart : Parser.Reading source (Parser.ofString source) := by
    rw [Parser.Reading, Parser.ahead_ofString]
  simp only [parse, Parser.program, Parser.run] at h
  split at h
  next program' q hrun =>
    cases h
    exact (Parser.begun_statements _ _ _ q hstart hrun).2
  next => cases h
  next => cases h

end

end Tracepoint
