/-
Snapshots of the variables in sight.

A snapshot names every variable in sight once, with a shown copy of its value.  Names of inner
scopes come first; a name that an inner scope has already is left out.  Copies are bounded in
depth, in the items of a container, and all together in the number of values that are copied.

* `Limits` — the bounds;
* `Copying` — steps of copying, which use up what is left of the number of values;
* `spend`, `copyCell`, `copy` — the copy of a value;
* `copyScope`, `snapshot` — the copies of all variables in sight;
* `Snapshot.find?` — the value shown for a name.
-/

import Tracepoint.Session.Interpreter

set_option relaxedAutoImplicit false
set_option autoImplicit false

namespace Tracepoint

/-- How much a snapshot copies. -/
structure Limits where
  /-- Containers nested deeper are not shown. -/
  depth : Nat := 4
  /-- The entries of a container that are shown. -/
  items : Nat := 100
  /-- The values that are copied for one snapshot. -/
  nodes : Nat := 10000
  deriving Repr, DecidableEq

/-- Names with shown values. -/
abbrev Snapshot := List (String × Shown)

/-- The value shown for a name. -/
def Snapshot.find? (s : Snapshot) (name : String) : Option Shown :=
  (List.find? (fun (key, _) => key == name) s).map (·.2)

/-- Steps of copying. The state is the number of values that may still be copied. -/
abbrev Copying := StateM Nat

namespace Shown

/-- A container that contains itself here. -/
def circular : Shown := placeholder "[Circular]"

/-- A value that is beyond the number of values to copy. -/
def elided : Shown := placeholder "[...]"

/-- The entries of a container that are not shown, if there are any. -/
def hidden? (limit count : Nat) : Option Shown :=
  if limit < count then
    some (placeholder ("... " ++ toString (count - limit) ++ " more items"))
  else none

end Shown

/-- Stands for the key of the entries that are not shown. -/
def hiddenKey : String := "..."

section

variable {υ : Type}

/-- The copy of a container inside the containers `outer`. What it holds is copied by `inside?`,
or not at all if there is none. -/
def copyCell (limits : Limits) (outer : List Nat) (inside? : Option (υ → Copying Shown)) :
    Marshalled υ → Copying Shown
  | .plain value => return value
  | .list identity items =>
    if outer.contains identity then return .circular
    else
      match inside? with
      | none => return .placeholder "[Array]"
      | some inside => do
        let copies ← (items.take limits.items).mapM inside
        return .array (copies ++ (Shown.hidden? limits.items items.length).toList)
  | .record identity entries =>
    if outer.contains identity then return .circular
    else
      match inside? with
      | none => return .placeholder "[Object]"
      | some inside => do
        let copies ← (entries.take limits.items).mapM fun (key, value) => do
          let copied ← inside value
          return (key, copied)
        let hidden := (Shown.hidden? limits.items entries.length).toList
        return .object (copies ++ hidden.map fun summary => (hiddenKey, summary))

/-- The identity of a container. -/
def Marshalled.identity? : Marshalled υ → Option Nat
  | .plain _ => none
  | .list identity _ | .record identity _ => some identity

/-- Uses up one of the values that may still be copied. When none is left, the value is
elided. -/
@[inline] def spend (copying : Copying Shown) : Copying Shown := do
  let left ← get
  if left = 0 then return .elided
  else
    set (left - 1)
    copying

/-- The copy of a value inside the containers `outer`, with containers copied at most `levels`
deep. -/
def copy (limits : Limits) (marshal : υ → Marshalled υ) :
    (levels : Nat) → (outer : List Nat) → υ → Copying Shown
  | 0, outer, v => spend (copyCell limits outer none (marshal v))
  | levels + 1, outer, v => spend do
    let m := marshal v
    let inside := copy limits marshal levels (m.identity?.toList ++ outer)
    copyCell limits outer (some inside) m

/-- Adds the variables of a scope whose names are not there yet. -/
def copyScope (limits : Limits) (marshal : υ → Marshalled υ) :
    List (String × υ) → Snapshot → Copying Snapshot
  | [], shown => return shown
  | (name, v) :: rest, shown =>
    if (shown.find? name).isSome then copyScope limits marshal rest shown
    else do
      let copied ← copy limits marshal limits.depth [] v
      copyScope limits marshal rest (shown ++ [(name, copied)])

/-- Adds the variables of some scopes, the innermost one first. -/
def copyScopes (limits : Limits) (marshal : υ → Marshalled υ) :
    List (List (String × υ)) → Snapshot → Copying Snapshot
  | [], shown => return shown
  | scope :: outer, shown => do
    let shown ← copyScope limits marshal scope shown
    copyScopes limits marshal outer shown

end

/-- The variables in sight. -/
def snapshot {ε σ υ : Type} (I : Interpreter ε σ υ) (limits : Limits) (s : σ) : Snapshot :=
  ((copyScopes limits (I.marshal s) (I.scopes s) []).run limits.nodes).1

end Tracepoint
