/-
Expressions are compiled from their rows.

A compiler that is given a row of nodes goes from node to node: it starts at the root, and at each
node it goes to the parts of the node before it emits what the node adds.  Nothing in the row itself
bounds how long this takes, or how often a node is come to; both depend on the row being that of a
tree.  Then the compiler comes to every node that a path leads to, once, and emits what is emitted
for the tree.

A reference is the place of a node cut to a word of 32 bits.  A source of less than `2 ^ 32` bytes
makes no row with more places than there are such words, so no reference of it is ever cut.

Main definitions:

* `Assemble.Tour` — steps of the compiler, with the places that it comes to;
* `Assemble.node`, `Assemble.tour` — **compiles a node, and the node at a place**;
* `Assemble.Tour.Follows` — a step does what a step of the compiler for trees does, and comes to
  some places.

Main results:

* `Assemble.follows_node` — a node is compiled as its tree is, if its parts are;
* `Assemble.follows_tour` — **from a place the compiler emits what is emitted for the tree there**;
* `expressions_are_trees` — **every expression that is read is a tree**, and is compiled so.
-/

import Mathlib
import Tracepoint.Proofs.Code.FrontEnd
import Tracepoint.Proofs.Grammar.Growth

set_option relaxedAutoImplicit false
set_option autoImplicit false

namespace Tracepoint.Assemble

/-! ### The compiler -/

/-- Steps of the compiler. The places that it comes to are kept in order. -/
abbrev Tour := StateT (List NodeRef) Assemble

/-- Compiles a node, where `visit` compiles its parts. -/
def node (visit : NodeRef → Tour Unit) : Node → Tour Unit
  | .atom a _ _ => atom a
  | .group inner => visit inner
  | .unary op operand => do
    visit operand
    let _ ← emit op.instr
  | .binary op left right => do
    visit left
    visit right
    emitAll op.instrs
  | .logical op left right => do
    visit left
    let skip ← emit (.jump op.jumpKind 0)
    visit right
    patch skip
  | .assignment (.name name) value => do
    visit value
    let name ← namePosition name
    let _ ← emit (.set name)
  | .assignment (.property base name) value => do
    visit base
    visit value
    let name ← namePosition name
    let _ ← emit (.setProperty name)
  | .assignment (.index base place) value => do
    visit base
    visit place
    visit value
    let _ ← emit .setIndex
  | .call callee arguments => do
    visit callee
    arguments.forM visit
    let _ ← emit (.call (UInt32.ofNat arguments.length))
  | .property base name => do
    visit base
    let name ← namePosition name
    let _ ← emit (.getProperty name)
  | .index base place => do
    visit base
    visit place
    let _ ← emit .getIndex
  | .array elements => do
    elements.forM visit
    let _ ← emit (.makeArray (UInt32.ofNat elements.length))
  | .object entries => do
    entries.forM fun entry => do
      emitConstant (.string entry.1)
      visit entry.2
    let _ ← emit (.makeObject (UInt32.ofNat entries.length))
  | .function decl => do
    let position ← functionPosition (function decl)
    let _ ← emit (.closure position)

/-- Compiles the node at a place, if there is one, with calls nested at most `fuel` deep. -/
def tour (row : Row) : ℕ → NodeRef → Tour Unit
  | 0, _ => failure
  | fuel + 1, ref => do
    modify (· ++ [ref])
    match row[ref]? with
    | none => failure
    | some found => node (tour row fuel) found

/-! ### Steps side by side -/

/-- The step does what `x` does, and comes to the given places. -/
def Tour.Follows {α : Type} (refs : List NodeRef) (y : Tour α) (x : Assemble α) : Prop :=
  ∀ before s, y before s = (x s).map fun r => ((r.1, before ++ refs), r.2)

namespace Tour.Follows

variable {α β : Type} {refs refs' : List NodeRef} {y : Tour α} {x : Assemble α}

theorem bind {g : α → Tour β} {f : α → Assemble β} (hx : Follows refs y x)
    (hf : ∀ a, Follows refs' (g a) (f a)) : Follows (refs ++ refs') (y >>= g) (x >>= f) := by
  intro before s
  change (y before s).bind (fun r => g r.1.1 r.1.2 r.2) =
    ((x s).bind fun r => f r.1 r.2).map fun r => ((r.1, before ++ (refs ++ refs')), r.2)
  rw [hx before s]
  cases x s with
  | none => rfl
  | some r => exact (hf r.1 (before ++ refs) r.2).trans (by rw [List.append_assoc]; rfl)

theorem lift (x : Assemble α) : Follows [] (liftM x : Tour α) x := by
  intro before s
  rw [List.append_nil]
  change (x s).bind (fun r => some ((r.1, before), r.2)) = _
  cases x s <;> rfl

theorem of_eq (h : Follows refs y x) (heq : refs = refs') : Follows refs' y x :=
  heq ▸ h

theorem pure (a : α) : Follows [] (pure a) (pure a) := by
  intro before s
  rw [List.append_nil]
  rfl

/-- What comes last comes to no place. -/
theorem last {g : α → Tour β} {f : α → Assemble β} (hx : Follows refs y x)
    (hf : ∀ a, Follows [] (g a) (f a)) : Follows refs (y >>= g) (x >>= f) :=
  (hx.bind hf).of_eq (List.append_nil refs)

end Tour.Follows

/-! ### Nodes -/

section

variable {visit : NodeRef → Tour Unit} {follow : NodeRef → Option Expr}
  {visits : NodeRef → List NodeRef}

/-- The parts at some places are compiled as the trees that are found there. -/
def Visits (visit : NodeRef → Tour Unit) (follow : NodeRef → Option Expr)
    (visits : NodeRef → List NodeRef) (refs : List NodeRef) : Prop :=
  ∀ ref ∈ refs, ∀ e, follow ref = some e → Tour.Follows (visits ref) (visit ref) (expr e)

theorem Visits.exprs {refs : List NodeRef} {es : List Expr} (h : Visits visit follow visits refs)
    (hes : refs.mapM follow = some es) :
    es.length = refs.length ∧ Tour.Follows (refs.flatMap visits) (refs.forM visit) (exprs es) := by
  induction refs generalizing es with
  | nil =>
      cases hes
      exact ⟨rfl, .pure ()⟩
  | cons ref refs ih =>
      simp only [List.mapM_cons, Option.bind_eq_bind, Option.bind_eq_some_iff, Option.pure_def,
        Option.some.injEq] at hes
      obtain ⟨e, he, rest, hrest, rfl⟩ := hes
      obtain ⟨hlength, hfollows⟩ :=
        ih (fun part hpart => h part (List.mem_cons_of_mem _ hpart)) hrest
      refine ⟨congrArg (· + 1) hlength, ?_⟩
      rw [Assemble.exprs]
      exact (h ref List.mem_cons_self e he).bind fun _ => hfollows

theorem Visits.entries {pairs : List (String × NodeRef)} {es : List (String × Expr)}
    (h : Visits visit follow visits (pairs.map Prod.snd))
    (hes : (pairs.mapM fun pair => return (pair.1, ← follow pair.2)) = some es) :
    es.length = pairs.length ∧ Tour.Follows ((pairs.map Prod.snd).flatMap visits)
      (pairs.forM fun pair => do
        emitConstant (.string pair.1)
        visit pair.2) (entries es) := by
  induction pairs generalizing es with
  | nil =>
      cases hes
      exact ⟨rfl, .pure ()⟩
  | cons pair pairs ih =>
      simp only [List.mapM_cons, Option.bind_eq_bind, Option.bind_eq_some_iff, Option.pure_def,
        Option.some.injEq] at hes
      obtain ⟨_, ⟨e, he, rfl⟩, rest, hrest, rfl⟩ := hes
      obtain ⟨hlength, hfollows⟩ :=
        ih (fun part hpart => h part (List.mem_cons_of_mem _ hpart)) hrest
      refine ⟨congrArg (· + 1) hlength, ?_⟩
      rw [Assemble.entries, List.forM, bind_assoc]
      refine (Tour.Follows.lift (emitConstant _)).bind fun _ => ?_
      exact (h pair.2 List.mem_cons_self e he).bind fun _ => hfollows

/-- **A node is compiled as its tree is**, if its parts are. -/
theorem follows_node {n : Node} {e : Expr} (h : n.tree? follow = some e)
    (hparts : Visits visit follow visits n.children) :
    Tour.Follows (n.children.flatMap visits) (node visit n) (expr e) := by
  have hemit : ∀ i : Instr, Tour.Follows [] (do let _ ← emit i) (do let _ ← emit i) :=
    fun i => (Tour.Follows.lift (emit i)).last fun _ => .pure ()
  -- What the steps come to one after the other is by computation what the children come to; only
  -- behind a list of unknown length, or a single part, the empty list has to be taken away.
  cases n with
  | atom a span line =>
      cases h
      rw [expr]
      exact .lift _
  | function decl =>
      cases h
      rw [expr]
      exact (Tour.Follows.lift _).bind fun _ => hemit _
  | group inner =>
      obtain ⟨e, he, h⟩ := Option.bind_eq_some_iff.1 h
      cases h
      rw [expr]
      exact (hparts inner (List.mem_singleton_self _) e he).of_eq (List.append_nil _).symm
  | unary op operand =>
      obtain ⟨e, he, h⟩ := Option.bind_eq_some_iff.1 h
      cases h
      rw [expr]
      exact (hparts operand (List.mem_singleton_self _) e he).bind fun _ => hemit _
  | property base name =>
      obtain ⟨e, he, h⟩ := Option.bind_eq_some_iff.1 h
      cases h
      rw [expr]
      refine (hparts base (List.mem_singleton_self _) e he).bind fun _ => ?_
      exact (Tour.Follows.lift _).bind fun _ => hemit _
  | binary op left right =>
      obtain ⟨e, he, h⟩ := Option.bind_eq_some_iff.1 h
      obtain ⟨e', he', h⟩ := Option.bind_eq_some_iff.1 h
      cases h
      rw [expr]
      refine (hparts left List.mem_cons_self e he).bind fun _ => ?_
      refine (hparts right (List.mem_cons_of_mem _ List.mem_cons_self) e' he').bind fun _ => ?_
      exact .lift _
  | logical op left right =>
      obtain ⟨e, he, h⟩ := Option.bind_eq_some_iff.1 h
      obtain ⟨e', he', h⟩ := Option.bind_eq_some_iff.1 h
      cases h
      rw [expr]
      refine (hparts left List.mem_cons_self e he).bind fun _ => ?_
      refine (Tour.Follows.lift (emit _)).bind fun skip => ?_
      refine (hparts right (List.mem_cons_of_mem _ List.mem_cons_self) e' he').bind fun _ => ?_
      exact .lift _
  | index base place =>
      obtain ⟨e, he, h⟩ := Option.bind_eq_some_iff.1 h
      obtain ⟨e', he', h⟩ := Option.bind_eq_some_iff.1 h
      cases h
      rw [expr]
      refine (hparts base List.mem_cons_self e he).bind fun _ => ?_
      refine (hparts place (List.mem_cons_of_mem _ List.mem_cons_self) e' he').bind fun _ => ?_
      exact hemit _
  | call callee arguments =>
      obtain ⟨e, he, h⟩ := Option.bind_eq_some_iff.1 h
      obtain ⟨es, hes, h⟩ := Option.bind_eq_some_iff.1 h
      cases h
      obtain ⟨hlength, hfollows⟩ :=
        Visits.exprs (fun ref href => hparts ref (List.mem_cons_of_mem _ href)) hes
      rw [expr, hlength]
      refine (hparts callee List.mem_cons_self e he).bind fun _ => ?_
      exact hfollows.last fun _ => hemit _
  | array elements =>
      obtain ⟨es, hes, h⟩ := Option.bind_eq_some_iff.1 h
      cases h
      obtain ⟨hlength, hfollows⟩ := Visits.exprs hparts hes
      rw [expr, hlength]
      exact hfollows.last fun _ => hemit _
  | object entries =>
      obtain ⟨es, hes, h⟩ := Option.bind_eq_some_iff.1 h
      cases h
      obtain ⟨hlength, hfollows⟩ := Visits.entries hparts hes
      rw [expr, hlength]
      exact hfollows.last fun _ => hemit _
  | assignment target value =>
      have hvalue : ∀ v, follow value = some v →
          Tour.Follows (visits value) (visit value) (expr v) := fun v =>
        hparts value (List.mem_append_right _ (List.mem_singleton_self _)) v
      cases target with
      | name name =>
          obtain ⟨v, hv, h⟩ := Option.bind_eq_some_iff.1 h
          cases h
          rw [expr]
          refine (hvalue v hv).bind fun _ => ?_
          exact (Tour.Follows.lift _).bind fun _ => hemit _
      | property base name =>
          obtain ⟨e, he, h⟩ := Option.bind_eq_some_iff.1 h
          obtain ⟨v, hv, h⟩ := Option.bind_eq_some_iff.1 h
          cases h
          rw [expr]
          refine (hparts base List.mem_cons_self e he).bind fun _ => ?_
          refine (hvalue v hv).bind fun _ => ?_
          exact (Tour.Follows.lift _).bind fun _ => hemit _
      | index base place =>
          obtain ⟨e, he, h⟩ := Option.bind_eq_some_iff.1 h
          obtain ⟨e', he', h⟩ := Option.bind_eq_some_iff.1 h
          obtain ⟨v, hv, h⟩ := Option.bind_eq_some_iff.1 h
          cases h
          rw [expr]
          refine (hparts base List.mem_cons_self e he).bind fun _ => ?_
          refine (hparts place (List.mem_cons_of_mem _ List.mem_cons_self) e' he').bind fun _ => ?_
          exact (hvalue v hv).bind fun _ => hemit _

end

/-! ### Rows -/

/-- **From a place the compiler emits what is emitted for the tree there**, and comes to the places
that are visited from there, in order. Calls are nested no deeper than the place. -/
theorem follows_tour {row : Row} (hrow : row.Ordered) {fuel : ℕ} {ref : NodeRef} {e : Expr}
    (h : row.Denotes ref e) (hfuel : ref < fuel) :
    Tour.Follows (row.visited ref) (tour row fuel ref) (expr e) := by
  induction fuel generalizing ref e with
  | zero => exact absurd hfuel (Nat.not_lt_zero _)
  | succ fuel ih =>
      obtain ⟨n, hnode, htree⟩ := h.exists_node
      rw [Row.visited_of_children hnode (hrow ref n hnode)]
      have hparts : Visits (tour row fuel) (row.followFrom ref) row.visited n.children := by
        intro child _ part hpart
        obtain ⟨hback, hdenotes⟩ := Row.followFrom_eq_some.1 hpart
        exact ih hdenotes (Nat.lt_of_lt_of_le hback (Nat.le_of_lt_succ hfuel))
      intro before s
      have hfollows := follows_node htree hparts (before ++ [ref]) s
      simp only [tour, hnode]
      refine hfollows.trans ?_
      rw [List.append_assoc]
      rfl

/-! ### Expressions that are read -/

/-- What the reader without guards yields, the reader with guards finds in a row. -/
theorem exists_row {source : String} {p q : Parser} {fuel strength : ℕ} {e : Expr}
    (hsize : source.utf8ByteSize < UInt32.size) (hahead : p.ahead <:+ Lexer.lexemes source)
    (h : Parser.expression fuel strength p = .ok e q) :
    ∃ root row, Guarded.expression source fuel strength ⟨p, []⟩ = .ok root ⟨q, row⟩ ∧
      Row.Denotes row root e := by
  have hstands : Guarded.Stands source 0 ⟨p, []⟩ := by
    refine ⟨hahead, ?_⟩
    rw [List.length_nil, Nat.zero_add, Nat.add_zero]
    exact Nat.lt_of_le_of_lt (Parser.length_behind_le hahead) hsize
  have hagrees := Guarded.follows_expression fuel strength 0 [] ⟨p, []⟩ hstands List.prefix_rfl
  simp only [h] at hagrees
  cases hrun : Guarded.expression source fuel strength ⟨p, []⟩ with
  | ok root s =>
      rw [hrun] at hagrees
      obtain ⟨rfl, -, -, hdenotes⟩ := hagrees
      exact ⟨root, s.row, rfl, hdenotes⟩
  | error halt s =>
      rw [hrun] at hagrees
      cases halt <;> exact hagrees.elim

end Tracepoint.Assemble

namespace Tracepoint

open Assemble (Tour tour)

/-- **Every expression that is read is a tree.** Wherever the reader starts, whatever the source is,
references in the row lead to places in front of the node that they stand in, the root is in the
row, and no two paths from there lead to one place; to a member or an index that an assignment took
over no path leads.  So the compiler comes to every place that a path leads to, once, with calls
that are nested no deeper than the place of the root, and it emits what is emitted for the tree.
And what the reader without guards yields at any place of a source of less than `2 ^ 32` bytes,
whose nodes have places that fit a word of 32 bits, is read so, and the compiler does not stop: it
emits what the compiler of trees makes of it. -/
theorem expressions_are_trees (source : String) :
    (∀ (p : Parser) (fuel strength : ℕ) (root : NodeRef) (s : RowParser),
      Guarded.expression source fuel strength ⟨p, []⟩ = .ok root s →
        s.row.IsTree root ∧ (s.row.visited root).Nodup ∧
        (∀ ref, ref ∈ s.row.visited root ↔ ∃ path, s.row.follow? root path = some ref) ∧
        ∃ e, s.row.Denotes root e ∧ ∀ depth > root,
          Tour.Follows (s.row.visited root) (tour s.row depth root) (Assemble.expr e)) ∧
    (source.utf8ByteSize < UInt32.size → ∀ (p q : Parser) (fuel strength : ℕ) (e : Expr),
      p.ahead <:+ Lexer.lexemes source → Parser.expression fuel strength p = .ok e q →
        ∃ (root : NodeRef) (row : Row),
          Guarded.expression source fuel strength ⟨p, []⟩ = .ok root ⟨q, row⟩ ∧
          row.Denotes root e ∧ ∀ depth > root, ∀ before s,
            tour row depth root before s = some (((), before ++ row.visited root),
              s.take (compileExpr e s.draft).1 (compileExpr e s.draft).2)) := by
  refine ⟨fun p fuel strength root s hread => ?_, fun hsize p q fuel strength e hahead hread => ?_⟩
  · have hgrown := Guarded.grown_expression hread
    have htree := hgrown.isTree
    obtain ⟨e, he⟩ := htree.ordered.denotes htree.root_lt
    refine ⟨htree, hgrown.nodup_visited, ?_, e, he, ?_⟩
    · exact fun ref => htree.ordered.mem_visited_iff htree.root_lt
    · exact fun depth hdepth => Assemble.follows_tour htree.ordered he hdepth
  · obtain ⟨root, row, hrow, hdenotes⟩ := Assemble.exists_row hsize hahead hread
    refine ⟨root, row, hrow, hdenotes, fun depth hdepth before s => ?_⟩
    have hplaced : e.Placed :=
      (Parser.yields_expression fuel strength _ _ p e q ⟨rfl, rfl⟩ hread).2
    rw [Assemble.follows_tour (Guarded.grown_expression hrow).isTree.ordered hdenotes hdepth,
      Assemble.emits_expr e hplaced s]
    rfl

/-- The row of an assignment to a member, whose value is a call. -/
def memberAssigned : Row :=
  [.atom (.name "o") ⟨0, 1⟩ 1, .property 0 "p", .atom (.name "f") ⟨6, 1⟩ 1,
    .atom (.name "x") ⟨8, 1⟩ 1, .call 2 [3], .assignment (.property 0 "p") 4]

/-- The tree of the same assignment. -/
def memberAssignment : Expr :=
  .assignProperty (.atom (.name "o") ⟨0, 1⟩ 1) "p"
    (.call (.atom (.name "f") ⟨6, 1⟩ 1) [.atom (.name "x") ⟨8, 1⟩ 1])

/-- The member itself, at the second place, is left behind. -/
theorem expressions_are_trees_memberAssigned :
    "o.p = f(x)".utf8ByteSize < UInt32.size ∧
    Parser.ahead (Parser.ofString "o.p = f(x)") <:+ Lexer.lexemes "o.p = f(x)" ∧
    (∃ q, Parser.expression 30 0 (Parser.ofString "o.p = f(x)") = .ok memberAssignment q ∧
      Guarded.expression "o.p = f(x)" 30 0 ⟨Parser.ofString "o.p = f(x)", []⟩ =
        .ok 5 ⟨q, memberAssigned⟩) ∧
    memberAssigned.IsTree 5 ∧ memberAssigned.visited 5 = [5, 0, 4, 2, 3] ∧
    (∀ path, memberAssigned.follow? 5 path ≠ some 1) ∧
    ∀ s, tour memberAssigned 6 5 [] s = some (((), [5, 0, 4, 2, 3]), s.take
      (compileExpr memberAssignment s.draft).1 (compileExpr memberAssignment s.draft).2) := by
  have hsize : "o.p = f(x)".utf8ByteSize < UInt32.size := by decide
  have hahead : Parser.ahead (Parser.ofString "o.p = f(x)") <:+ Lexer.lexemes "o.p = f(x)" :=
    Parser.ahead_after "o.p = f(x)" []
  obtain ⟨q, hread⟩ : ∃ q, Parser.expression 30 0 (Parser.ofString "o.p = f(x)") =
      .ok memberAssignment q := ⟨_, by cbv⟩
  obtain ⟨q', hrow⟩ : ∃ q', Guarded.expression "o.p = f(x)" 30 0
      ⟨Parser.ofString "o.p = f(x)", []⟩ = .ok 5 ⟨q', memberAssigned⟩ := ⟨_, by cbv⟩
  have hvisited : memberAssigned.visited 5 = [5, 0, 4, 2, 3] := by cbv
  obtain ⟨htrees, hcompiled⟩ := expressions_are_trees "o.p = f(x)"
  obtain ⟨htree, -, -, -⟩ := htrees _ 30 0 5 _ hrow
  obtain ⟨root, row, hrow', -, htour⟩ := hcompiled hsize _ q 30 0 _ hahead hread
  cases hrow.symm.trans hrow'
  refine ⟨hsize, hahead, ⟨q, hread, hrow⟩, htree, hvisited, ?_, fun s => ?_⟩
  · exact htree.spent (.property 0 "p") _ 1 5 4 rfl rfl (List.cons_ne_nil _ _) rfl
  · have hs := htour 6 (Nat.lt_succ_self 5) [] s
    rwa [hvisited] at hs

end Tracepoint
