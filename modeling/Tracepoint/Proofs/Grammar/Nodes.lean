/-
Expressions in rows of nodes.

An expression may be kept as a row of nodes that refer to each other by their places.  A node is
added at the end, when everything it refers to is in the row already; so its references lead to
places in front of it, and following them comes to an end.  A place is kept in a word, which bounds
the length of a row.

What follows here is the row alone: how it grows, and which expression is found at a place of it.
A node that was read as the place of an assignment stays in the row, and nothing refers to it.

Main definitions:

* `Node`, `Row` — the nodes, and a row of them;
* `Row.push?` — one node more, if its place fits a word;
* `Row.tree?` — the expression at a place, if every reference on the way leads into the row;
* `Row.Denotes` — an expression is found at a place.

Main results:

* `Row.Denotes.mono` — **a row that grows keeps its expressions**;
* `Row.denotes_push` — **a node that is added denotes what it is made of**;
* `Row.Denotes.target` — the place that is assigned to is found in the node of its expression.
-/

import Mathlib.Data.List.Forall2
import Mathlib.Data.Nat.Notation
import Tracepoint.Grammar.Parser

set_option relaxedAutoImplicit false
set_option autoImplicit false

namespace Tracepoint

/-! ### Nodes -/

/-- The place of a node in its row. -/
abbrev NodeRef := ℕ

/-- What is assigned to. -/
inductive Target
  | name (name : String)
  | property (base : NodeRef) (name : String)
  | index (base place : NodeRef)

/-- Expressions that refer to their parts. -/
inductive Node
  | atom (a : Atom) (span : Span) (line : ℕ)
  | group (inner : NodeRef)
  | unary (op : UnaryOp) (operand : NodeRef)
  | binary (op : BinaryOp) (left right : NodeRef)
  | logical (op : LogicalOp) (left right : NodeRef)
  | assignment (target : Target) (value : NodeRef)
  | call (callee : NodeRef) (arguments : List NodeRef)
  | property (base : NodeRef) (name : String)
  | index (base place : NodeRef)
  | array (elements : List NodeRef)
  | object (entries : List (String × NodeRef))
  | function (decl : FunctionDecl)

namespace Node

/-- The place that the node stands for, if it can be assigned to. -/
def target? : Node → Option Target
  | atom (.name name) _ _ => some (.name name)
  | property base name => some (.property base name)
  | index base place => some (.index base place)
  | _ => none

/-- The expression of the node, if its references can be followed. -/
def tree? (follow : NodeRef → Option Expr) : Node → Option Expr
  | atom a span line => some (.atom a span line)
  | group inner => return .group (← follow inner)
  | unary op operand => return .unary op (← follow operand)
  | binary op left right => return .binary op (← follow left) (← follow right)
  | logical op left right => return .logical op (← follow left) (← follow right)
  | assignment (.name name) value => return .assignName name (← follow value)
  | assignment (.property base name) value =>
    return .assignProperty (← follow base) name (← follow value)
  | assignment (.index base place) value =>
    return .assignIndex (← follow base) (← follow place) (← follow value)
  | call callee arguments => return .call (← follow callee) (← arguments.mapM follow)
  | property base name => return .property (← follow base) name
  | index base place => return .index (← follow base) (← follow place)
  | array elements => return .array (← elements.mapM follow)
  | object entries => return .object (← entries.mapM fun e => return (e.1, ← follow e.2))
  | function decl => some (.function decl)

end Node

/-! ### Rows -/

/-- Nodes, each at its place. -/
abbrev Row := List Node

namespace Row

/-- A row is shorter than this. -/
def limit : ℕ :=
  UInt32.size

/-- One node more, with its place, if the row does not get too long. -/
def push? (row : Row) (node : Node) : Option (NodeRef × Row) :=
  if row.length + 1 < limit then some (row.length, row ++ [node]) else none

/-- The expression at a place. There is none if a reference does not lead to a place in front of
the node that it stands in. -/
def tree? (row : Row) (ref : NodeRef) : Option Expr :=
  match row[ref]? with
  | none => none
  | some node => node.tree? fun child => if child < ref then row.tree? child else none
termination_by ref

/-- The expression is found at the place. -/
def Denotes (row : Row) (ref : NodeRef) (e : Expr) : Prop :=
  row.tree? ref = some e

variable {row row' : Row} {node : Node} {ref : NodeRef} {e : Expr}

/-- Follows the references of a node at a place. -/
def followFrom (row : Row) (place : NodeRef) (child : NodeRef) : Option Expr :=
  if child < place then row.tree? child else none

theorem tree?_of_getElem? (h : row[ref]? = some node) :
    row.tree? ref = node.tree? (row.followFrom ref) := by
  rw [Row.tree?, h]
  rfl

/-- What is found at a place is found in a node. -/
theorem Denotes.exists_node (h : row.Denotes ref e) :
    ∃ node, row[ref]? = some node ∧ node.tree? (row.followFrom ref) = some e := by
  cases hnode : row[ref]? with
  | none =>
      rw [Denotes, Row.tree?, hnode] at h
      cases h
  | some node => exact ⟨node, rfl, tree?_of_getElem? hnode ▸ h⟩

theorem Denotes.lt_length (h : row.Denotes ref e) : ref < row.length := by
  obtain ⟨node, hnode, -⟩ := h.exists_node
  exact (List.getElem?_eq_some_iff.1 hnode).1

theorem followFrom_eq_some {child : NodeRef} :
    row.followFrom ref child = some e ↔ child < ref ∧ row.Denotes child e := by
  rw [followFrom]
  split
  next h => simp [h, Denotes]
  next h => simp [h]

/-! ### Rows that grow -/

theorem getElem?_grown (h : row <+: row') (hlt : ref < row.length) : row'[ref]? = row[ref]? := by
  rw [List.getElem?_eq_getElem hlt]
  exact List.prefix_iff_getElem?.1 h ref hlt

theorem getElem?_mono (h : row <+: row') (hnode : row[ref]? = some node) :
    row'[ref]? = some node := by
  rw [getElem?_grown h (List.getElem?_eq_some_iff.1 hnode).1, hnode]

theorem tree?_of_prefix (h : row <+: row') (hlt : ref < row.length) :
    row'.tree? ref = row.tree? ref := by
  induction ref using Nat.strongRecOn with
  | ind ref ih =>
      have hnode := getElem?_grown h hlt
      have hfollow : row'.followFrom ref = row.followFrom ref := by
        funext child
        rw [followFrom, followFrom]
        split
        next hchild => exact ih child hchild (Nat.lt_trans hchild hlt)
        next => rfl
      rw [tree?_of_getElem? (List.getElem?_eq_getElem hlt),
        tree?_of_getElem? (hnode.trans (List.getElem?_eq_getElem hlt)), hfollow]

/-- **A row that grows keeps its expressions.** -/
theorem Denotes.mono (h : row.Denotes ref e) (hgrows : row <+: row') : row'.Denotes ref e := by
  rw [Denotes, tree?_of_prefix hgrows h.lt_length]
  exact h

theorem followFrom_push (child : NodeRef) :
    (row ++ [node]).followFrom row.length child = row.tree? child := by
  rw [followFrom]
  split
  next h => exact tree?_of_prefix (List.prefix_append _ _) h
  next h => rw [Row.tree?, List.getElem?_eq_none (Nat.le_of_not_lt h)]

/-- The node is read as the expression, in this row and in every longer one. -/
def Reads (row : Row) (node : Node) (e : Expr) : Prop :=
  ∀ longer : Row, row <+: longer → node.tree? longer.tree? = some e

/-- **A node that is added denotes what it is read as.** -/
theorem denotes_push (h : row.Reads node e) : (row ++ [node]).Denotes row.length e := by
  rw [Denotes, tree?_of_getElem? List.getElem?_concat_length, funext followFrom_push]
  exact h row List.prefix_rfl

/-! ### Nodes and what they are read as -/

section

variable {left right : NodeRef} {first second : Expr}

theorem reads_atom (a : Atom) (span : Span) (line : ℕ) :
    row.Reads (.atom a span line) (.atom a span line) :=
  fun _ _ => rfl

theorem reads_function (decl : FunctionDecl) : row.Reads (.function decl) (.function decl) :=
  fun _ _ => rfl

/-- One part is read, then the rest of the node. -/
theorem Denotes.read (h : row.Denotes ref e) {longer : Row} (hgrows : row <+: longer)
    {f : Expr → Option Expr} : (longer.tree? ref >>= f) = f e := by
  rw [show longer.tree? ref = some e from h.mono hgrows]
  rfl

theorem reads_group (h : row.Denotes left first) : row.Reads (.group left) (.group first) :=
  fun _ hgrows => h.read hgrows

theorem reads_unary (op : UnaryOp) (h : row.Denotes left first) :
    row.Reads (.unary op left) (.unary op first) :=
  fun _ hgrows => h.read hgrows

theorem reads_binary (op : BinaryOp) (h : row.Denotes left first)
    (h' : row.Denotes right second) :
    row.Reads (.binary op left right) (.binary op first second) :=
  fun _ hgrows => (h.read hgrows).trans (h'.read hgrows)

theorem reads_logical (op : LogicalOp) (h : row.Denotes left first)
    (h' : row.Denotes right second) :
    row.Reads (.logical op left right) (.logical op first second) :=
  fun _ hgrows => (h.read hgrows).trans (h'.read hgrows)

theorem reads_property (name : String) (h : row.Denotes left first) :
    row.Reads (.property left name) (.property first name) :=
  fun _ hgrows => h.read hgrows

theorem reads_index (h : row.Denotes left first) (h' : row.Denotes right second) :
    row.Reads (.index left right) (.index first second) :=
  fun _ hgrows => (h.read hgrows).trans (h'.read hgrows)

end

theorem mapM_tree? {refs : List NodeRef} {es : List Expr} (h : List.Forall₂ row.Denotes refs es) :
    refs.mapM row.tree? = some es := by
  induction h with
  | nil => rfl
  | @cons ref e refs es href _ ih =>
      rw [List.mapM_cons, ih, show row.tree? ref = some e from href]
      rfl

/-- The entry has the key and denotes the value. -/
def DenotesEntry (row : Row) (entry : String × NodeRef) (e : String × Expr) : Prop :=
  entry.1 = e.1 ∧ row.Denotes entry.2 e.2

theorem mapM_entries {entries : List (String × NodeRef)} {es : List (String × Expr)}
    (h : List.Forall₂ row.DenotesEntry entries es) :
    (entries.mapM fun entry => return (entry.1, ← row.tree? entry.2)) = some es := by
  induction h with
  | nil => rfl
  | @cons entry e entries es hentry _ ih =>
      obtain ⟨hkey, hvalue⟩ := hentry
      rw [List.mapM_cons, ih, show row.tree? entry.2 = some e.2 from hvalue, hkey]
      rfl

theorem DenotesEntry.mono {entry : String × NodeRef} {e : String × Expr}
    (h : row.DenotesEntry entry e) (hgrows : row <+: row') : row'.DenotesEntry entry e :=
  ⟨h.1, h.2.mono hgrows⟩

theorem reads_call {callee : NodeRef} {refs : List NodeRef} {es : List Expr}
    (h : row.Denotes callee e) (h' : List.Forall₂ row.Denotes refs es) :
    row.Reads (.call callee refs) (.call e es) := by
  intro longer hgrows
  refine (h.read hgrows).trans ?_
  rw [mapM_tree? (h'.imp fun _ _ hpart => hpart.mono hgrows)]
  rfl

theorem reads_array {refs : List NodeRef} {es : List Expr}
    (h : List.Forall₂ row.Denotes refs es) : row.Reads (.array refs) (.array es) := by
  intro longer hgrows
  rw [Node.tree?, mapM_tree? (h.imp fun _ _ hpart => hpart.mono hgrows)]
  rfl

theorem reads_object {entries : List (String × NodeRef)} {es : List (String × Expr)}
    (h : List.Forall₂ row.DenotesEntry entries es) :
    row.Reads (.object entries) (.object es) := by
  intro longer hgrows
  rw [Node.tree?, mapM_entries (h.imp fun _ _ hpart => hpart.mono hgrows)]
  rfl

/-! ### What is assigned to -/

/-- **The place that is assigned to is found in the node of its expression.** When the value is
there, the row may be longer. -/
theorem Denotes.target (h : row.Denotes ref e) :
    Parser.assignment? e = none ∧ row[ref]?.bind Node.target? = none ∨
    ∃ assign target, Parser.assignment? e = some assign ∧
      row[ref]?.bind Node.target? = some target ∧
      ∀ (longer : Row) (value : NodeRef) (v : Expr), row <+: longer → longer.Denotes value v →
        longer.Reads (.assignment target value) (assign v) := by
  obtain ⟨node, hnode, htree⟩ := h.exists_node
  rw [hnode, Option.bind_some]
  cases node with
  | atom a span line =>
      cases htree
      cases a with
      | name name =>
          exact Or.inr ⟨_, _, rfl, rfl, fun _ _ _ _ hvalue _ hlonger => hvalue.read hlonger⟩
      | number _ | bool _ | null | undefined | string _ => exact Or.inl ⟨rfl, rfl⟩
  | property base name =>
      simp only [Node.tree?, Option.bind_eq_bind, Option.bind_eq_some_iff,
        followFrom_eq_some, Option.pure_def, Option.some.injEq] at htree
      obtain ⟨base', ⟨-, hbase⟩, rfl⟩ := htree
      refine Or.inr ⟨_, _, rfl, rfl, fun _ _ _ hgrows hvalue _ hlonger => ?_⟩
      exact (hbase.read (hgrows.trans hlonger)).trans (hvalue.read hlonger)
  | index base place =>
      simp only [Node.tree?, Option.bind_eq_bind, Option.bind_eq_some_iff,
        followFrom_eq_some, Option.pure_def, Option.some.injEq] at htree
      obtain ⟨base', ⟨-, hbase⟩, place', ⟨-, hplace⟩, rfl⟩ := htree
      refine Or.inr ⟨_, _, rfl, rfl, fun _ _ _ hgrows hvalue _ hlonger => ?_⟩
      refine (hbase.read (hgrows.trans hlonger)).trans ?_
      exact (hplace.read (hgrows.trans hlonger)).trans (hvalue.read hlonger)
  | function decl =>
      cases htree
      exact Or.inl ⟨rfl, rfl⟩
  | group _ | unary _ _ | array _ | object _ =>
      simp only [Node.tree?, Option.bind_eq_bind, Option.bind_eq_some_iff, Option.pure_def,
        Option.some.injEq] at htree
      obtain ⟨_, -, rfl⟩ := htree
      exact Or.inl ⟨rfl, rfl⟩
  | binary _ _ _ | logical _ _ _ | call _ _ =>
      simp only [Node.tree?, Option.bind_eq_bind, Option.bind_eq_some_iff, Option.pure_def,
        Option.some.injEq] at htree
      obtain ⟨_, -, _, -, rfl⟩ := htree
      exact Or.inl ⟨rfl, rfl⟩
  | assignment target value =>
      cases target <;>
        simp only [Node.tree?, Option.bind_eq_bind, Option.bind_eq_some_iff, Option.pure_def,
          Option.some.injEq] at htree
      case name =>
        obtain ⟨_, -, rfl⟩ := htree
        exact Or.inl ⟨rfl, rfl⟩
      case property =>
        obtain ⟨_, -, _, -, rfl⟩ := htree
        exact Or.inl ⟨rfl, rfl⟩
      case index =>
        obtain ⟨_, -, _, -, _, -, rfl⟩ := htree
        exact Or.inl ⟨rfl, rfl⟩

end Row

end Tracepoint
