/-
The functions in trees.

A function stands directly in a tree if no other function is around it there.  It is declared by a
statement, or it is the value of an expression.  The functions that a list of statements declares
are bound when the list is entered, and all others are made when they are reached; so functions are
made in another order than they are written in.  Where all that is declared can be bound, none of
them gets lost by that and none comes twice.

Main definitions:

* `Inner` — a function that stands in a tree;
* `Expr.inner`, `Stmt.inner` and their companions — the functions directly in a tree, as written;
* `bound`, `Stmt.made` — the functions that are bound when a list of statements is entered, and
  those that are made by what follows, in order;
* `declarations`, `Stmt.lists` — the functions that a list of statements declares, and the lists
  of statements directly in a tree.

Main results:

* `perm_stmtsInner` — **entering and running statements makes every function of them once**;
* `within_stmtsInner` — the statements of these functions are statements of the tree;
* `bound_eq_declarations`, `listed_stmtsLists` — in all lists of a tree, what is declared is bound.
-/

import Tracepoint.Proofs.Grammar.Naming

set_option relaxedAutoImplicit false
set_option autoImplicit false

namespace Tracepoint

/-- A function in a tree. -/
structure Inner where
  /-- It is declared by a statement. Otherwise it is the value of an expression. -/
  declared : Bool
  decl : FunctionDecl

/-! ### Functions as written -/

mutual

/-- The functions directly in an expression. -/
def Expr.inner : Expr → List Inner
  | .atom _ _ _ => []
  | .group inner => inner.inner
  | .unary _ operand => operand.inner
  | .binary _ left right => left.inner ++ right.inner
  | .logical _ left right => left.inner ++ right.inner
  | .assignName _ value => value.inner
  | .assignProperty object _ value => object.inner ++ value.inner
  | .assignIndex object index value => object.inner ++ index.inner ++ value.inner
  | .call callee arguments => callee.inner ++ exprsInner arguments
  | .property object _ => object.inner
  | .index object index => object.inner ++ index.inner
  | .array elements => exprsInner elements
  | .object entries => entriesInner entries
  | .function decl => [⟨false, decl⟩]

/-- The functions directly in some expressions. -/
def exprsInner : List Expr → List Inner
  | [] => []
  | e :: rest => e.inner ++ exprsInner rest

/-- The functions directly in the values. -/
def entriesInner : List (String × Expr) → List Inner
  | [] => []
  | (_, e) :: rest => e.inner ++ entriesInner rest

end

/-- The functions directly in the expression, if there is one. -/
def valueInner : Option Expr → List Inner
  | none => []
  | some e => e.inner

mutual

/-- The functions directly in a statement. -/
def Stmt.inner : Stmt → List Inner
  | .declare _ _ initial _ => valueInner initial
  | .function decl => [⟨true, decl⟩]
  | .expression e _ => e.inner
  | .block body _ => stmtsInner body
  | .conditional condition success failure _ =>
    condition.inner ++ success.inner ++ optionalInner failure
  | .whileLoop condition body _ => condition.inner ++ body.inner
  | .forLoop start condition increment body _ =>
    optionalInner start ++ valueInner condition ++ valueInner increment ++ body.inner
  | .returnValue value _ => valueInner value
  | .breakLoop _ | .continueLoop _ | .empty _ => []

/-- The functions directly in some statements. -/
def stmtsInner : List Stmt → List Inner
  | [] => []
  | s :: rest => s.inner ++ stmtsInner rest

/-- The functions directly in the statement, if there is one. -/
def optionalInner : Option Stmt → List Inner
  | none => []
  | some s => s.inner

end

/-- The function that a statement declares, if it declares one. -/
def Stmt.declarations : Stmt → List Inner
  | .function decl => [⟨true, decl⟩]
  | _ => []

/-- The functions that a list of statements declares, those in its blocks left out. -/
def declarations (body : List Stmt) : List Inner :=
  body.flatMap Stmt.declarations

mutual

/-- The lists of statements in the blocks of a statement. -/
def Stmt.lists : Stmt → List (List Stmt)
  | .block body _ => body :: stmtsLists body
  | .conditional _ success failure _ => success.lists ++ optionalLists failure
  | .whileLoop _ body _ => body.lists
  | .forLoop start _ _ body _ => optionalLists start ++ body.lists
  | .declare _ _ _ _ | .function _ | .expression _ _ | .returnValue _ _ | .breakLoop _
  | .continueLoop _ | .empty _ => []

/-- The lists of statements in the blocks of some statements. -/
def stmtsLists : List Stmt → List (List Stmt)
  | [] => []
  | s :: rest => s.lists ++ stmtsLists rest

/-- The lists of statements in the blocks of the statement, if there is one. -/
def optionalLists : Option Stmt → List (List Stmt)
  | none => []
  | some s => s.lists

end

/-! ### Functions as made -/

/-- The function, if it has a name that it can be bound to. -/
def FunctionDecl.bound (decl : FunctionDecl) : List Inner :=
  match decl.name with
  | none => []
  | some _ => [⟨true, decl⟩]

/-- The function that a statement binds when the statements around it are entered. -/
def Stmt.bound : Stmt → List Inner
  | .function decl => decl.bound
  | _ => []

/-- The functions that are bound when a list of statements is entered. -/
def bound (body : List Stmt) : List Inner :=
  body.flatMap Stmt.bound

mutual

/-- The functions that are made when a statement runs. A function that is declared is made then,
unless it is `hoisted` to the entry of the statements around it. -/
def Stmt.made (hoisted : Bool) : Stmt → List Inner
  | .declare _ _ initial _ => valueInner initial
  | .function decl => if hoisted then [] else decl.bound
  | .expression e _ => e.inner
  | .block body _ => bound body ++ stmtsMade body
  | .conditional condition success failure _ =>
    condition.inner ++ success.made false ++ optionalMade false failure
  | .whileLoop condition body _ => condition.inner ++ body.made false
  | .forLoop start condition increment body _ =>
    optionalMade true start ++ valueInner condition ++ body.made false ++ valueInner increment
  | .returnValue value _ => valueInner value
  | .breakLoop _ | .continueLoop _ | .empty _ => []

/-- The functions that are made when statements run that have been entered. -/
def stmtsMade : List Stmt → List Inner
  | [] => []
  | s :: rest => s.made true ++ stmtsMade rest

/-- The functions that are made when the statement runs, if there is one. -/
def optionalMade (hoisted : Bool) : Option Stmt → List Inner
  | none => []
  | some s => s.made hoisted

end

theorem Stmt.bound_append_made (s : Stmt) : s.bound ++ s.made true = s.made false := by
  cases s <;> simp [Stmt.bound, Stmt.made]

theorem bound_eq_declarations {body : List Stmt} (h : ∀ s ∈ body, s.Bindable) :
    bound body = declarations body := by
  refine List.flatMap_congr fun s hs => ?_
  cases s with
  | function decl =>
      obtain ⟨name, hname⟩ := Option.isSome_iff_exists.1 (h _ hs)
      simp only [Stmt.bound, FunctionDecl.bound, hname, Stmt.declarations]
  | _ => rfl

/-- No function starts a counting loop, so none is left out there. -/
theorem optionalMade_start {start : Option Stmt} (h : ∀ decl, start ≠ some (.function decl)) :
    optionalMade true start = optionalMade false start := by
  cases start with
  | none => rfl
  | some s =>
      have hbound : s.bound = [] := by
        cases s with
        | function decl => exact absurd rfl (h decl)
        | _ => rfl
      rw [optionalMade, optionalMade, ← s.bound_append_made, hbound, List.nil_append]

mutual

/-- A statement that is not hoisted makes all of its functions. -/
theorem perm_inner : ∀ (s : Stmt) (place : Place), AllBindable (s.statements place) →
    (s.made false).Perm s.inner
  | .function decl, place, h => by
      simp only [Stmt.statements, AllBindable, everywhere_cons] at h
      obtain ⟨name, hname⟩ := Option.isSome_iff_exists.1 h.1
      simp [Stmt.made, FunctionDecl.bound, hname, Stmt.inner]
  | .block body _, place, h => by
      simp only [Stmt.statements, AllBindable, everywhere_cons] at h
      exact perm_stmtsInner body place h.2
  | .conditional condition success failure _, place, h => by
      simp only [Stmt.statements, AllBindable, everywhere_cons, everywhere_append] at h
      obtain ⟨-, ⟨-, hsuccess⟩, hfailure⟩ := h
      rw [Stmt.made, Stmt.inner]
      exact ((perm_inner success place hsuccess).append_left _).append
        (perm_optionalInner failure place hfailure)
  | .whileLoop condition body _, place, h => by
      simp only [Stmt.statements, AllBindable, everywhere_cons, everywhere_append] at h
      rw [Stmt.made, Stmt.inner]
      exact (perm_inner body _ h.2.2).append_left _
  | .forLoop start condition increment body _, place, h => by
      simp only [Stmt.statements, AllBindable, everywhere_cons, everywhere_append] at h
      obtain ⟨hnone, ⟨⟨hstart, -⟩, -⟩, hbody⟩ := h
      -- What follows a round is written in front of the body.
      rw [Stmt.made, Stmt.inner, optionalMade_start hnone, List.append_assoc,
        List.append_assoc _ (valueInner increment)]
      exact ((perm_optionalInner start place hstart).append_right _).append
        (((perm_inner body _ hbody).append_right _).trans List.perm_append_comm)
  | .declare _ _ _ _, _, _ | .expression _ _, _, _ | .returnValue _ _, _, _
  | .breakLoop _, _, _ | .continueLoop _, _, _ | .empty _, _, _ => by
      rw [Stmt.made, Stmt.inner]

/-- **Entering statements and running them makes all of their functions.** -/
theorem perm_stmtsInner : ∀ (body : List Stmt) (place : Place),
    AllBindable (stmtsStatements place body) → (bound body ++ stmtsMade body).Perm (stmtsInner body)
  | [], _, _ => .refl _
  | s :: rest, place, h => by
      simp only [stmtsStatements, AllBindable, everywhere_append] at h
      have hs : (s.bound ++ s.made true).Perm s.inner :=
        s.bound_append_made ▸ perm_inner s place h.1
      have hrest := perm_stmtsInner rest place h.2
      calc bound (s :: rest) ++ stmtsMade (s :: rest)
        _ = s.bound ++ (bound rest ++ (s.made true ++ stmtsMade rest)) := by
          simp only [bound, List.flatMap_cons, stmtsMade, List.append_assoc]
        List.Perm _ (s.bound ++ (s.made true ++ (bound rest ++ stmtsMade rest))) :=
          (List.perm_append_comm_assoc ..).append_left _
        _ = s.bound ++ s.made true ++ (bound rest ++ stmtsMade rest) :=
          (List.append_assoc ..).symm
        List.Perm _ (stmtsInner (s :: rest)) := hs.append hrest

theorem perm_optionalInner : ∀ (s? : Option Stmt) (place : Place),
    AllBindable (optionalStatements place s?) → (optionalMade false s?).Perm (optionalInner s?)
  | none, _, _ => .refl _
  | some s, place, h => perm_inner s place h

end

/-! ### Statements of functions -/

theorem FunctionDecl.statements_eq (decl : FunctionDecl) :
    decl.statements = stmtsStatements .ofFunction decl.body := by
  cases decl with
  | mk name parameters body line => rfl

/-- The statements of some functions are among some statements. -/
def Within (inner : List Inner) (ss : List (Place × Stmt)) : Prop :=
  ∀ f ∈ inner, f.decl.statements ⊆ ss

section

variable {inner others : List Inner} {ss rest : List (Place × Stmt)}

theorem within_nil (ss : List (Place × Stmt)) : Within [] ss :=
  List.forall_mem_nil _

theorem Within.append (h : Within inner ss) (hothers : Within others rest) :
    Within (inner ++ others) (ss ++ rest) := by
  intro f hf
  rcases List.mem_append.1 hf with hf | hf
  · exact List.subset_append_of_subset_left _ (h f hf)
  · exact List.subset_append_of_subset_right _ (hothers f hf)

theorem Within.cons (h : Within inner ss) (s : Place × Stmt) : Within inner (s :: ss) :=
  fun f hf => List.subset_cons_of_subset s (h f hf)

theorem within_function (declared : Bool) (decl : FunctionDecl) :
    Within [⟨declared, decl⟩] decl.statements :=
  List.forall_mem_singleton.2 (List.Subset.refl _)

end

mutual

theorem Expr.within_inner : ∀ e : Expr, Within e.inner e.statements
  | .atom _ _ _ => within_nil _
  | .group inner => inner.within_inner
  | .unary _ operand => operand.within_inner
  | .binary _ left right => left.within_inner.append right.within_inner
  | .logical _ left right => left.within_inner.append right.within_inner
  | .assignName _ value => value.within_inner
  | .assignProperty object _ value => object.within_inner.append value.within_inner
  | .assignIndex object index value =>
      (object.within_inner.append index.within_inner).append value.within_inner
  | .call callee arguments => callee.within_inner.append (within_exprsInner arguments)
  | .property object _ => object.within_inner
  | .index object index => object.within_inner.append index.within_inner
  | .array elements => within_exprsInner elements
  | .object entries => within_entriesInner entries
  | .function decl => within_function false decl

theorem within_exprsInner : ∀ es : List Expr, Within (exprsInner es) (exprsStatements es)
  | [] => within_nil _
  | e :: rest => e.within_inner.append (within_exprsInner rest)

theorem within_entriesInner : ∀ entries : List (String × Expr),
    Within (entriesInner entries) (entriesStatements entries)
  | [] => within_nil _
  | (_, e) :: rest => e.within_inner.append (within_entriesInner rest)

end

theorem within_valueInner (value : Option Expr) :
    Within (valueInner value) (valueStatements value) := by
  cases value with
  | none => exact within_nil _
  | some e => exact e.within_inner

mutual

theorem Stmt.within_inner : ∀ (s : Stmt) (place : Place), Within s.inner (s.statements place)
  | .declare _ _ initial _, _ => (within_valueInner initial).cons _
  | .function decl, _ => (within_function true decl).cons _
  | .expression e _, _ => e.within_inner.cons _
  | .block body _, place => (within_stmtsInner body place).cons _
  | .conditional condition success failure _, place =>
      ((condition.within_inner.append (success.within_inner place)).append
        (within_optionalInner failure place)).cons _
  | .whileLoop condition body _, place =>
      (condition.within_inner.append (body.within_inner place.ofLoop)).cons _
  | .forLoop start condition increment body _, place =>
      ((((within_optionalInner start place).append (within_valueInner condition)).append
        (within_valueInner increment)).append (body.within_inner place.ofLoop)).cons _
  | .returnValue value _, _ => (within_valueInner value).cons _
  | .breakLoop _, _ | .continueLoop _, _ | .empty _, _ => within_nil _

/-- The statements of the functions in statements are inside of these. -/
theorem within_stmtsInner : ∀ (body : List Stmt) (place : Place),
    Within (stmtsInner body) (stmtsStatements place body)
  | [], _ => within_nil _
  | s :: rest, place => (s.within_inner place).append (within_stmtsInner rest place)

theorem within_optionalInner : ∀ (s? : Option Stmt) (place : Place),
    Within (optionalInner s?) (optionalStatements place s?)
  | none, _ => within_nil _
  | some s, place => s.within_inner place

end

/-! ### Statements of lists -/

/-- The statements of some lists are among some statements. -/
def Listed (lists : List (List Stmt)) (ss : List (Place × Stmt)) : Prop :=
  ∀ body ∈ lists, ∀ s ∈ body, ∃ place, (place, s) ∈ ss

section

variable {lists others : List (List Stmt)} {ss rest : List (Place × Stmt)} {body : List Stmt}

theorem listed_nil (ss : List (Place × Stmt)) : Listed [] ss :=
  List.forall_mem_nil _

theorem Listed.mono (h : Listed lists ss) (hss : ss ⊆ rest) : Listed lists rest := by
  intro body hbody s hs
  obtain ⟨place, hplace⟩ := h body hbody s hs
  exact ⟨place, hss hplace⟩

theorem Listed.append (h : Listed lists ss) (hothers : Listed others rest) :
    Listed (lists ++ others) (ss ++ rest) := by
  intro body hbody
  rcases List.mem_append.1 hbody with hbody | hbody
  · exact h.mono (List.subset_append_left _ _) body hbody
  · exact hothers.mono (List.subset_append_right _ _) body hbody

/-- What is bound can be bound in every list. -/
theorem AllBindable.of_listed (h : AllBindable ss) (hlists : Listed lists ss)
    (hbody : body ∈ lists) : ∀ s ∈ body, s.Bindable := by
  intro s hs
  obtain ⟨place, hplace⟩ := hlists body hbody s hs
  exact h _ hplace

end

theorem mem_stmtsStatements {body : List Stmt} {s : Stmt} (hs : s ∈ body) (place : Place) :
    (place, s) ∈ stmtsStatements place body := by
  induction body with
  | nil => cases hs
  | cons first rest ih =>
      rw [stmtsStatements]
      rcases List.mem_cons.1 hs with rfl | hs
      · refine List.mem_append_left _ ?_
        rw [Stmt.statements.eq_def]
        exact List.mem_cons_self
      · exact List.mem_append_right _ (ih hs)

mutual

theorem Stmt.listed_lists : ∀ (s : Stmt) (place : Place), Listed s.lists (s.statements place)
  | .block body line, place => by
      have hinside := (listed_stmtsLists body place).mono (List.subset_cons_self (place,
        Stmt.block body line) _)
      rw [Stmt.lists, Stmt.statements]
      refine List.forall_mem_cons.2 ⟨fun s hs => ⟨place, ?_⟩, hinside⟩
      exact List.mem_cons_of_mem _ (mem_stmtsStatements hs place)
  | .conditional condition success failure _, place => by
      rw [Stmt.lists, Stmt.statements]
      refine Listed.mono ?_ (List.subset_cons_self _ _)
      refine Listed.append ?_ (listed_optionalLists failure place)
      exact (success.listed_lists place).mono (List.subset_append_right _ _)
  | .whileLoop condition body _, place => by
      rw [Stmt.lists, Stmt.statements]
      refine (body.listed_lists place.ofLoop).mono ?_
      exact List.subset_cons_of_subset _ (List.subset_append_right _ _)
  | .forLoop start condition increment body _, place => by
      rw [Stmt.lists, Stmt.statements]
      refine Listed.mono ?_ (List.subset_cons_self _ _)
      refine Listed.append ?_ (body.listed_lists place.ofLoop)
      rw [List.append_assoc]
      exact (listed_optionalLists start place).mono (List.subset_append_left _ _)
  | .declare _ _ _ _, _ | .function _, _ | .expression _ _, _ | .returnValue _ _, _
  | .breakLoop _, _ | .continueLoop _, _ | .empty _, _ => listed_nil _

/-- The statements of the lists in statements are inside of these. -/
theorem listed_stmtsLists : ∀ (body : List Stmt) (place : Place),
    Listed (stmtsLists body) (stmtsStatements place body)
  | [], _ => listed_nil _
  | s :: rest, place => (s.listed_lists place).append (listed_stmtsLists rest place)

theorem listed_optionalLists : ∀ (s? : Option Stmt) (place : Place),
    Listed (optionalLists s?) (optionalStatements place s?)
  | none, _ => listed_nil _
  | some s, place => s.listed_lists place

end

end Tracepoint
