/-
Paths in rows of nodes.

From the place of an expression, references lead to the places of its parts.  A path says which
reference to follow at each node.  Two paths could lead to one place, if two nodes referred to it;
an expression whose places are all led to by one path at most is a tree.

When a row grows, what is added is kept track of: which places of it can be visited, each once, and
which ones were left behind, since an assignment took over what is referred to from there.

Main definitions:

* `Node.children`, `Row.Ordered` — the references of a node; **they all lead back**;
* `Row.visited` — the places that are led to, each node in front of its parts;
* `Row.follow?` — where a path leads;
* `Row.Spent` — a place that was left behind;
* `Row.Grown` — **what has been added to a row, as seen from some places of it**;
* `Row.IsTree` — **what is found from a place on is a tree**.

Main results:

* `Row.Ordered.mem_visited_iff` — a place is visited if and only if a path leads to it;
* `Row.Ordered.path_unique` — **if no place is visited twice, no two paths lead to one place**;
* `Row.Grown.append`, `Row.Grown.concat`, `Row.Grown.assign` — **the ways in which a row grows**;
* `Row.Grown.isTree` — what has been added to an empty row is a tree;
* `Row.Ordered.denotes` — an expression is found at every place of a row in order.
-/

import Mathlib.Data.List.Induction
import Mathlib.Data.List.Nodup
import Tracepoint.Proofs.Grammar.Nodes

set_option relaxedAutoImplicit false
set_option autoImplicit false

namespace Tracepoint

/-! ### References -/

/-- The references of a place that is assigned to. -/
def Target.refs : Target → List NodeRef
  | name _ => []
  | property base _ => [base]
  | index base place => [base, place]

namespace Node

/-- The references of a node, in the order in which the parts are evaluated. -/
def children : Node → List NodeRef
  | atom _ _ _ => []
  | group inner => [inner]
  | unary _ operand => [operand]
  | binary _ left right => [left, right]
  | logical _ left right => [left, right]
  | assignment target value => target.refs ++ [value]
  | call callee arguments => callee :: arguments
  | property base _ => [base]
  | index base place => [base, place]
  | array elements => elements
  | object entries => entries.map Prod.snd
  | function _ => []

/-- **An assignment takes over the references of what it assigns to.** -/
theorem refs_of_target? {node : Node} {target : Target} (h : node.target? = some target) :
    target.refs = node.children := by
  cases node with
  | atom a span line =>
      cases a with
      | name name => cases h; rfl
      | _ => cases h
  | property base name => cases h; rfl
  | index base place => cases h; rfl
  | _ => cases h

end Node

namespace Row

variable {first row row' : Row} {node : Node} {ref child : NodeRef} {refs refs' : List NodeRef}

/-- Every reference leads to a place in front of the node that it stands in. -/
def Ordered (row : Row) : Prop :=
  ∀ (ref : NodeRef) (node : Node), row[ref]? = some node → ∀ child ∈ node.children, child < ref

/-! ### Visits -/

/-- The places that references lead to from a place, each node in front of its parts, as long as the
references lead back. -/
def visited (row : Row) (ref : NodeRef) : List NodeRef :=
  match row[ref]? with
  | none => []
  | some (node : Node) => ref :: node.children.flatMap fun child =>
      if child < ref then row.visited child else []
termination_by ref

theorem visited_of_getElem? (h : row[ref]? = some node) :
    row.visited ref = ref :: node.children.flatMap fun child =>
      if child < ref then row.visited child else [] := by
  rw [visited, h]

theorem visited_of_children (h : row[ref]? = some node)
    (hchildren : ∀ child ∈ node.children, child < ref) :
    row.visited ref = ref :: node.children.flatMap row.visited := by
  rw [visited_of_getElem? h, List.flatMap_congr fun child hchild => if_pos (hchildren child hchild)]

theorem mem_visited_self (h : ref < row.length) : ref ∈ row.visited ref := by
  rw [visited, List.getElem?_eq_getElem h]
  exact List.mem_cons_self

/-- Visits lead back, and stay in the row. -/
theorem le_of_mem_visited (h : child ∈ row.visited ref) : child ≤ ref ∧ child < row.length := by
  induction ref using Nat.strongRecOn with
  | ind ref ih =>
      rw [visited] at h
      split at h
      next => cases h
      next node hnode =>
        rcases List.mem_cons.1 h with rfl | h
        · exact ⟨Nat.le_refl _, (List.getElem?_eq_some_iff.1 hnode).1⟩
        · obtain ⟨part, -, hpart⟩ := List.mem_flatMap.1 h
          split at hpart
          next hlt =>
            obtain ⟨hle, hin⟩ := ih part hlt hpart
            exact ⟨Nat.le_trans hle (Nat.le_of_lt hlt), hin⟩
          next => cases hpart

/-- **What is visited does not change when the row grows.** -/
theorem visited_grown (h : row <+: row') (hlt : ref < row.length) :
    row'.visited ref = row.visited ref := by
  induction ref using Nat.strongRecOn with
  | ind ref ih =>
      rw [visited_of_getElem? (List.getElem?_eq_getElem hlt),
        visited_of_getElem? (List.prefix_iff_getElem?.1 h ref hlt)]
      refine congrArg (ref :: ·) (List.flatMap_congr fun child _ => ?_)
      split
      next hchild => exact ih child hchild (Nat.lt_trans hchild hlt)
      next => rfl

theorem flatMap_visited_grown (h : row <+: row') (hlt : ∀ ref ∈ refs, ref < row.length) :
    refs.flatMap row'.visited = refs.flatMap row.visited :=
  List.flatMap_congr fun ref href => visited_grown h (hlt ref href)

/-! ### Paths -/

/-- Where a path leads: at each node it says which reference to follow. -/
def follow? (row : Row) : NodeRef → List ℕ → Option NodeRef
  | ref, [] => some ref
  | ref, slot :: path => do
    let node ← row[ref]?
    let child ← node.children[slot]?
    row.follow? child path

theorem follow?_cons_eq_some {slot : ℕ} {path : List ℕ} {last : NodeRef} :
    row.follow? ref (slot :: path) = some last ↔ ∃ node child, row[ref]? = some node ∧
      node.children[slot]? = some child ∧ row.follow? child path = some last := by
  simp only [follow?, Option.bind_eq_bind, Option.bind_eq_some_iff]
  tauto

/-- Parts that have a place in common are the same part. -/
theorem slot_unique {f : NodeRef → List NodeRef} {slot slot' : ℕ} {child' last : NodeRef}
    (h : refs.Pairwise (Function.onFun List.Disjoint f)) (hchild : refs[slot]? = some child)
    (hchild' : refs[slot']? = some child') (hlast : last ∈ f child) (hlast' : last ∈ f child') :
    slot = slot' := by
  obtain ⟨hslot, rfl⟩ := List.getElem?_eq_some_iff.1 hchild
  obtain ⟨hslot', rfl⟩ := List.getElem?_eq_some_iff.1 hchild'
  rw [List.pairwise_iff_getElem] at h
  rcases Nat.lt_trichotomy slot slot' with hlt | heq | hlt
  · exact (h slot slot' hslot hslot' hlt hlast hlast').elim
  · exact heq
  · exact (h slot' slot hslot' hslot hlt hlast' hlast).elim

namespace Ordered

variable {path path' : List ℕ} {last : NodeRef}

/-- A path leads to a place that is visited. -/
theorem mem_visited (h : row.Ordered) (hlt : ref < row.length)
    (hpath : row.follow? ref path = some last) : last ∈ row.visited ref := by
  induction path generalizing ref with
  | nil =>
      cases hpath
      exact mem_visited_self hlt
  | cons slot path ih =>
      obtain ⟨node, child, hnode, hchild, hrest⟩ := follow?_cons_eq_some.1 hpath
      have hmem := List.mem_of_getElem? hchild
      have hback := h ref node hnode child hmem
      rw [visited_of_children hnode (h ref node hnode)]
      exact List.mem_cons_of_mem _
        (List.mem_flatMap.2 ⟨child, hmem, ih (Nat.lt_trans hback hlt) hrest⟩)

/-- A path leads to each place that is visited. -/
theorem exists_path (h : row.Ordered) (hlast : last ∈ row.visited ref) :
    ∃ path, row.follow? ref path = some last := by
  induction ref using Nat.strongRecOn with
  | ind ref ih =>
      cases hnode : row[ref]? with
      | none =>
          rw [visited, hnode] at hlast
          cases hlast
      | some node =>
          rw [visited_of_children hnode (h ref node hnode)] at hlast
          rcases List.mem_cons.1 hlast with rfl | hlast
          · exact ⟨[], rfl⟩
          · obtain ⟨child, hmem, hlast⟩ := List.mem_flatMap.1 hlast
            obtain ⟨slot, hslot⟩ := List.mem_iff_getElem?.1 hmem
            obtain ⟨path, hpath⟩ := ih child (h ref node hnode child hmem) hlast
            exact ⟨slot :: path, follow?_cons_eq_some.2 ⟨node, child, hnode, hslot, hpath⟩⟩

/-- **A place is visited if and only if a path leads to it.** -/
theorem mem_visited_iff (h : row.Ordered) (hlt : ref < row.length) :
    last ∈ row.visited ref ↔ ∃ path, row.follow? ref path = some last :=
  ⟨h.exists_path, fun ⟨_, hpath⟩ => h.mem_visited hlt hpath⟩

/-- A path that follows a reference does not come back. -/
theorem follow?_cons_ne (h : row.Ordered) (hlt : ref < row.length) {slot : ℕ} :
    row.follow? ref (slot :: path) ≠ some ref := by
  intro hpath
  obtain ⟨node, child, hnode, hchild, hrest⟩ := follow?_cons_eq_some.1 hpath
  have hback := h ref node hnode child (List.mem_of_getElem? hchild)
  have hle := (le_of_mem_visited (h.mem_visited (Nat.lt_trans hback hlt) hrest)).1
  exact absurd hback (Nat.not_lt.2 hle)

/-- **If no place is visited twice, no two paths lead to one place.** -/
theorem path_unique (h : row.Ordered) (hlt : ref < row.length) (hnodup : (row.visited ref).Nodup)
    (hpath : row.follow? ref path = some last) (hpath' : row.follow? ref path' = some last) :
    path = path' := by
  induction path generalizing ref path' with
  | nil =>
      cases hpath
      cases path' with
      | nil => rfl
      | cons => exact absurd hpath' (h.follow?_cons_ne hlt)
  | cons slot path ih =>
      cases path' with
      | nil =>
          cases hpath'
          exact absurd hpath (h.follow?_cons_ne hlt)
      | cons slot' path' =>
          obtain ⟨node, child, hnode, hchild, hrest⟩ := follow?_cons_eq_some.1 hpath
          obtain ⟨_, child', hnode', hchild', hrest'⟩ := follow?_cons_eq_some.1 hpath'
          cases hnode.symm.trans hnode'
          have hback := h ref node hnode
          have hin : ∀ part ∈ node.children, part < row.length := fun part hpart =>
            Nat.lt_trans (hback part hpart) hlt
          rw [visited_of_children hnode hback, List.nodup_cons, List.nodup_flatMap] at hnodup
          obtain ⟨-, hparts, hapart⟩ := hnodup
          have hmem := List.mem_of_getElem? hchild
          have hmem' := List.mem_of_getElem? hchild'
          obtain rfl := slot_unique hapart hchild hchild' (h.mem_visited (hin child hmem) hrest)
            (h.mem_visited (hin child' hmem') hrest')
          cases hchild.symm.trans hchild'
          rw [ih (hin child hmem) (hparts child hmem) hrest hrest']

end Ordered

/-! ### What is added to a row -/

/-- The place was left behind: further on an assignment took over the references from there. -/
def Spent (row : Row) (ref : NodeRef) : Prop :=
  ∃ (node : Node) (target : Target) (assigned value : NodeRef), row[ref]? = some node ∧
    node.target? = some target ∧ row[assigned]? = some (.assignment target value) ∧ ref < assigned

theorem Spent.mono (h : row.Spent ref) (hgrows : row <+: row') : row'.Spent ref := by
  obtain ⟨node, target, assigned, value, hnode, htarget, hassigned, hlt⟩ := h
  exact ⟨node, target, assigned, value, getElem?_mono hgrows hnode, htarget,
    getElem?_mono hgrows hassigned, hlt⟩

/-- **What has been added to a row**: from the given places every place that was added is visited at
most once, no other place is, and what is not visited was left behind. -/
structure Grown (first row : Row) (refs : List NodeRef) : Prop where
  grows : first <+: row
  ordered : ∀ (ref : NodeRef) (node : Node), first.length ≤ ref → row[ref]? = some node →
    ∀ child ∈ node.children, child < ref
  inside : ∀ ref ∈ refs, ref < row.length
  once : (refs.flatMap row.visited).Nodup
  added : ∀ ref ∈ refs.flatMap row.visited, first.length ≤ ref
  left : ∀ ref : NodeRef, first.length ≤ ref → ref < row.length →
    ref ∈ refs.flatMap row.visited ∨ row.Spent ref

namespace Grown

theorem nil (row : Row) : row.Grown row [] where
  grows := List.prefix_rfl
  ordered _ _ hle hnode := absurd (List.getElem?_eq_some_iff.1 hnode).1 (Nat.not_lt.2 hle)
  inside _ href := absurd href List.not_mem_nil
  once := List.nodup_nil
  added _ href := absurd href List.not_mem_nil
  left _ hle hlt := absurd hlt (Nat.not_lt.2 hle)

/-- Visits stay in the row. -/
theorem lt_of_mem (h : ref ∈ refs.flatMap row.visited) : ref < row.length := by
  obtain ⟨_, -, hmem⟩ := List.mem_flatMap.1 h
  exact (le_of_mem_visited hmem).2

/-- **What is added first, and what is added then.** -/
theorem append {last : Row} (h : first.Grown row refs) (h' : row.Grown last refs') :
    first.Grown last (refs ++ refs') := by
  have hvisited : (refs ++ refs').flatMap last.visited =
      refs.flatMap row.visited ++ refs'.flatMap last.visited := by
    rw [List.flatMap_append, flatMap_visited_grown h'.grows h.inside]
  constructor
  case grows => exact h.grows.trans h'.grows
  case ordered =>
    intro ref node hle hnode
    by_cases hlt : ref < row.length
    · exact h.ordered ref node hle (getElem?_grown h'.grows hlt ▸ hnode)
    · exact h'.ordered ref node (Nat.le_of_not_lt hlt) hnode
  case inside =>
    intro ref href
    rcases List.mem_append.1 href with href | href
    · exact Nat.lt_of_lt_of_le (h.inside ref href) h'.grows.length_le
    · exact h'.inside ref href
  case once =>
    rw [hvisited]
    refine List.nodup_append.2 ⟨h.once, h'.once, fun ref href ref' href' heq => ?_⟩
    exact absurd (lt_of_mem href) (Nat.not_lt.2 (heq ▸ h'.added ref' href'))
  case added =>
    intro ref href
    rw [hvisited] at href
    rcases List.mem_append.1 href with href | href
    · exact h.added ref href
    · exact Nat.le_trans h.grows.length_le (h'.added ref href)
  case left =>
    intro ref hle hlt
    rw [hvisited, List.mem_append]
    by_cases hrow : ref < row.length
    · exact (h.left ref hle hrow).imp Or.inl fun hspent => hspent.mono h'.grows
    · exact (h'.left ref (Nat.le_of_not_lt hrow) hlt).imp_left Or.inr

/-- A node is added. It refers to places that have been visited; the others are left behind. -/
theorem push (h : first.Grown row refs) (hinside : ∀ child ∈ node.children, child < row.length)
    (hvisited : (node.children.flatMap row.visited).Sublist (refs.flatMap row.visited))
    (hspent : ∀ ref ∈ refs.flatMap row.visited, ref ∈ node.children.flatMap row.visited ∨
      Spent (row ++ [node]) ref) :
    first.Grown (row ++ [node]) [row.length] := by
  have hgrows : row <+: row ++ [node] := List.prefix_append _ _
  have hvisits : List.flatMap (visited (row ++ [node])) [row.length] =
      row.length :: node.children.flatMap row.visited := by
    rw [List.flatMap_singleton, visited_of_children List.getElem?_concat_length hinside,
      flatMap_visited_grown hgrows hinside]
  constructor
  case grows => exact h.grows.trans hgrows
  case ordered =>
    intro ref node' hle hnode
    by_cases hlt : ref < row.length
    · exact h.ordered ref node' hle (getElem?_grown hgrows hlt ▸ hnode)
    · rw [List.getElem?_append_right (Nat.le_of_not_lt hlt), List.getElem?_singleton] at hnode
      split at hnode
      next hzero =>
        cases hnode
        exact fun child hchild => Nat.lt_of_lt_of_le (hinside child hchild) (Nat.le_of_not_lt hlt)
      next => cases hnode
  case inside => simp
  case once =>
    rw [hvisits]
    refine List.nodup_cons.2 ⟨fun hmem => ?_, h.once.sublist hvisited⟩
    exact absurd (lt_of_mem hmem) (Nat.lt_irrefl _)
  case added =>
    intro ref href
    rw [hvisits] at href
    rcases List.mem_cons.1 href with rfl | href
    · exact h.grows.length_le
    · exact h.added ref (hvisited.subset href)
  case left =>
    intro ref hle hlt
    rw [hvisits, List.mem_cons]
    rw [List.length_append, List.length_singleton] at hlt
    rcases Nat.lt_or_eq_of_le (Nat.le_of_lt_succ hlt) with hrow | rfl
    · rcases h.left ref hle hrow with hmem | hleft
      · exact (hspent ref hmem).imp_left Or.inr
      · exact Or.inr (hleft.mono hgrows)
    · exact Or.inl (Or.inl rfl)

/-- **A node is added that refers to what was added.** -/
theorem concat (h : first.Grown row node.children) : first.Grown (row ++ [node]) [row.length] :=
  h.push h.inside (List.Sublist.refl _) fun _ href => Or.inl href

/-- **An assignment is added.** It refers to its value, and to what the place that it assigns to
refers to; that place is left behind. -/
theorem assign {place value : NodeRef} {target : Target} {last : Row}
    (h : first.Grown row [place]) (hplace : row[place]? = some node)
    (htarget : node.target? = some target) (hvalue : row.Grown last [value]) :
    first.Grown (last ++ [.assignment target value]) [last.length] := by
  have hboth := h.append hvalue
  have hfirst : first.length ≤ place :=
    h.added place (List.mem_flatMap.2 ⟨place, List.mem_singleton_self _,
      mem_visited_self (List.getElem?_eq_some_iff.1 hplace).1⟩)
  have hplace' : last[place]? = some node := getElem?_mono hvalue.grows hplace
  have hback : ∀ child ∈ node.children, child < place := h.ordered place node hfirst hplace
  have hlt : place < last.length := (List.getElem?_eq_some_iff.1 hplace').1
  have hchildren : (Node.assignment target value).children = node.children ++ [value] :=
    congrArg (· ++ [value]) (Node.refs_of_target? htarget)
  have hvisited : List.flatMap last.visited ([place] ++ [value]) =
      place :: List.flatMap last.visited (node.children ++ [value]) := by
    rw [List.flatMap_append, List.flatMap_singleton, visited_of_children hplace' hback,
      List.flatMap_append]
    rfl
  refine hboth.push ?_ ?_ ?_
  · rw [hchildren]
    intro child hchild
    rcases List.mem_append.1 hchild with hchild | hchild
    · exact Nat.lt_trans (hback child hchild) hlt
    · exact hvalue.inside child hchild
  · rw [hchildren, hvisited]
    exact List.sublist_cons_self _ _
  · intro ref href
    rw [hvisited] at href
    rw [hchildren]
    rcases List.mem_cons.1 href with rfl | href
    · have hold := getElem?_mono (List.prefix_append _ [.assignment target value]) hplace'
      exact Or.inr ⟨node, target, _, value, hold, htarget, List.getElem?_concat_length, hlt⟩
    · exact Or.inl href

end Grown

/-! ### Trees -/

/-- **The expression at `root` is a tree.** References lead back, so that following them comes to an
end; the root is in the row, and no two paths from there lead to one place.  A place to which no
path leads was left behind, and to a member or an index that was left behind no path leads. -/
structure IsTree (row : Row) (root : NodeRef) : Prop where
  ordered : row.Ordered
  root_lt : root < row.length
  unique : ∀ (path path' : List ℕ) (ref : NodeRef), row.follow? root path = some ref →
    row.follow? root path' = some ref → path = path'
  reached : ∀ ref < row.length, (∃ path, row.follow? root path = some ref) ∨ row.Spent ref
  spent : ∀ (node : Node) (target : Target) (ref assigned value : NodeRef),
    row[ref]? = some node → node.target? = some target → target.refs ≠ [] →
      row[assigned]? = some (.assignment target value) → ∀ path, row.follow? root path ≠ some ref

/-- A path to a node goes on to its parts. -/
theorem follow?_concat {path : List ℕ} {slot : ℕ} {middle : NodeRef}
    (h : row.follow? ref path = some middle) (hnode : row[middle]? = some node)
    (hchild : node.children[slot]? = some child) :
    row.follow? ref (path ++ [slot]) = some child := by
  induction path generalizing ref with
  | nil =>
      cases h
      exact follow?_cons_eq_some.2 ⟨node, child, hnode, hchild, rfl⟩
  | cons next path ih =>
      obtain ⟨node', child', hnode', hchild', hrest⟩ := follow?_cons_eq_some.1 h
      exact follow?_cons_eq_some.2 ⟨node', child', hnode', hchild', ih hrest⟩

theorem not_spent_assignment {target : Target} {value : NodeRef}
    (h : row[ref]? = some (.assignment target value)) : ¬row.Spent ref := by
  rintro ⟨node, _, _, _, hnode, htarget, -⟩
  cases h.symm.trans hnode
  cases htarget

theorem Grown.nodup_visited {root : NodeRef} (h : Grown first row [root]) :
    (row.visited root).Nodup :=
  List.flatMap_singleton (f := row.visited) (x := root) ▸ h.once

/-- **What has been added to an empty row is a tree.** -/
theorem Grown.isTree {root : NodeRef} (h : Grown [] row [root]) : row.IsTree root := by
  have hordered : row.Ordered := fun ref node hnode => h.ordered ref node (Nat.zero_le _) hnode
  have hroot : root < row.length := h.inside root (List.mem_singleton_self _)
  have hvisits := List.flatMap_singleton (f := row.visited) (x := root)
  have hunique : ∀ (path path' : List ℕ) (ref : NodeRef), row.follow? root path = some ref →
      row.follow? root path' = some ref → path = path' :=
    fun _ _ _ => hordered.path_unique hroot h.nodup_visited
  have hreached : ∀ ref < row.length,
      (∃ path, row.follow? root path = some ref) ∨ row.Spent ref := by
    intro ref hlt
    rw [← hordered.mem_visited_iff hroot, ← hvisits]
    exact h.left ref (Nat.zero_le _) hlt
  refine ⟨hordered, hroot, hunique, hreached, ?_⟩
  intro node target ref assigned value hnode htarget hrefs hassigned path hpath
  -- The assignment is reached, and the node shares its first part with it.
  obtain ⟨path', hpath'⟩ : ∃ path', row.follow? root path' = some assigned :=
    (hreached assigned (List.getElem?_eq_some_iff.1 hassigned).1).resolve_right
      (not_spent_assignment hassigned)
  obtain ⟨part, parts, hparts⟩ := List.exists_cons_of_ne_nil hrefs
  have hleft : node.children[0]? = some part := by
    rw [← Node.refs_of_target? htarget, hparts]
    rfl
  have hright : (Node.assignment target value).children[0]? = some part := by
    rw [Node.children, hparts]
    rfl
  have hsame := hunique _ _ part (follow?_concat hpath hnode hleft)
    (follow?_concat hpath' hassigned hright)
  cases List.append_cancel_right hsame
  cases hpath.symm.trans hpath'
  cases hnode.symm.trans hassigned
  cases htarget

/-! ### What is found in a row in order -/

theorem exists_forall₂ {α β : Type} {R : α → β → Prop} {as : List α} (h : ∀ a ∈ as, ∃ b, R a b) :
    ∃ bs, List.Forall₂ R as bs := by
  induction as with
  | nil => exact ⟨[], .nil⟩
  | cons a as ih =>
      obtain ⟨b, hb⟩ := h a List.mem_cons_self
      obtain ⟨bs, hbs⟩ := ih fun a' ha' => h a' (List.mem_cons_of_mem _ ha')
      exact ⟨b :: bs, .cons hb hbs⟩

/-- A node is read as an expression, if an expression is found at each of its references. -/
theorem exists_reads (h : ∀ child ∈ node.children, ∃ e, row.Denotes child e) :
    ∃ e, row.Reads node e := by
  cases node with
  | atom a span line => exact ⟨_, reads_atom a span line⟩
  | function decl => exact ⟨_, reads_function decl⟩
  | group inner =>
      obtain ⟨e, he⟩ := h inner (List.mem_singleton_self _)
      exact ⟨_, reads_group he⟩
  | unary op operand =>
      obtain ⟨e, he⟩ := h operand (List.mem_singleton_self _)
      exact ⟨_, reads_unary op he⟩
  | property base name =>
      obtain ⟨e, he⟩ := h base (List.mem_singleton_self _)
      exact ⟨_, reads_property name he⟩
  | binary op left right =>
      obtain ⟨e, he⟩ := h left List.mem_cons_self
      obtain ⟨e', he'⟩ := h right (List.mem_cons_of_mem _ List.mem_cons_self)
      exact ⟨_, reads_binary op he he'⟩
  | logical op left right =>
      obtain ⟨e, he⟩ := h left List.mem_cons_self
      obtain ⟨e', he'⟩ := h right (List.mem_cons_of_mem _ List.mem_cons_self)
      exact ⟨_, reads_logical op he he'⟩
  | index base place =>
      obtain ⟨e, he⟩ := h base List.mem_cons_self
      obtain ⟨e', he'⟩ := h place (List.mem_cons_of_mem _ List.mem_cons_self)
      exact ⟨_, reads_index he he'⟩
  | call callee arguments =>
      obtain ⟨e, he⟩ := h callee List.mem_cons_self
      obtain ⟨es, hes⟩ := exists_forall₂ fun ref href => h ref (List.mem_cons_of_mem _ href)
      exact ⟨_, reads_call he hes⟩
  | array elements =>
      obtain ⟨es, hes⟩ := exists_forall₂ h
      exact ⟨_, reads_array hes⟩
  | object entries =>
      have hentries : ∀ entry ∈ entries, ∃ e, row.DenotesEntry entry e := by
        intro entry hentry
        obtain ⟨e, he⟩ := h entry.2 (List.mem_map_of_mem hentry)
        exact ⟨(entry.1, e), rfl, he⟩
      obtain ⟨es, hes⟩ := exists_forall₂ hentries
      exact ⟨_, reads_object hes⟩
  | assignment target value =>
      obtain ⟨v, hv⟩ := h value (List.mem_append_right _ (List.mem_singleton_self _))
      cases target with
      | name name => exact ⟨.assignName name v, fun _ hgrows => hv.read hgrows⟩
      | property base name =>
          obtain ⟨e, he⟩ := h base List.mem_cons_self
          exact ⟨.assignProperty e name v, fun _ hgrows =>
            (he.read hgrows).trans (hv.read hgrows)⟩
      | index base place =>
          obtain ⟨e, he⟩ := h base List.mem_cons_self
          obtain ⟨e', he'⟩ := h place (List.mem_cons_of_mem _ List.mem_cons_self)
          exact ⟨.assignIndex e e' v, fun _ hgrows =>
            (he.read hgrows).trans ((he'.read hgrows).trans (hv.read hgrows))⟩

/-- **An expression is found at every place of a row in order.** -/
theorem Ordered.denotes (h : row.Ordered) (hlt : ref < row.length) : ∃ e, row.Denotes ref e := by
  induction row using List.reverseRecOn generalizing ref with
  | nil => exact absurd hlt (Nat.not_lt_zero _)
  | append_singleton row node ih =>
      have hgrows : row <+: row ++ [node] := List.prefix_append _ _
      have hrow : ∀ ref < row.length, ∃ e, Denotes row ref e := fun ref hlt =>
        ih (fun ref node hnode => h ref node (getElem?_mono hgrows hnode)) hlt
      rw [List.length_append, List.length_singleton] at hlt
      rcases Nat.lt_or_eq_of_le (Nat.le_of_lt_succ hlt) with hin | rfl
      · obtain ⟨e, he⟩ := hrow ref hin
        exact ⟨e, he.mono hgrows⟩
      · obtain ⟨e, he⟩ := exists_reads fun child hchild =>
          hrow child (h _ node List.getElem?_concat_length child hchild)
        exact ⟨e, denotes_push he⟩

end Row
end Tracepoint
