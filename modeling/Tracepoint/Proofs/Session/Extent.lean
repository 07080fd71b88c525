/-
Snapshots are bounded and always end.

Copying goes down into containers, and containers may hold themselves.  It ends however deep it may
go: a container is not entered twice on the way down to a value, and there are no more containers
than cells.  How much is shown is bounded three times: by the depth of a container, by the entries
of a container, and by the number of values that are looked at, which is counted here by a copier
that writes down what it looks at.

Main definitions:

* `Noting` — steps of copying that write down the values they look at;
* `Noting.snapshot` — a snapshot with what was looked at for it;
* `Shown.at?`, `Machine.at?` — what is at a place inside a shown value, and inside a value;
* `Limits.Abridges` — how much of a container is shown;
* `Machine.Fits` — a node stands for a container within the limits.

Main results:

* `Noting.Follows.copy` — one value is looked at for each that is used up;
* `Machine.Enclosing.length_le` — no more containers lie inside each other than there are cells;
* `Machine.copy_eq_of_le` — where the depth is that of the heap, more makes no difference;
* `Machine.Shows.fits_at` — each node stands for the value at its place;
* `snapshot_bounded` — **a snapshot is bounded, and it ends**.
-/

import Tracepoint.Proofs.Session.Unfolding

set_option relaxedAutoImplicit false
set_option autoImplicit false

namespace Tracepoint

/-! ### Looking at values -/

/-- Steps of copying that write down the values they look at. The state is the number of values
that may still be copied, and what was looked at. -/
abbrev Noting (υ : Type) := StateM (ℕ × List υ)

namespace Noting

variable {υ α β : Type}

/-- Looks at a value. -/
def look (marshal : υ → Marshalled υ) (v : υ) : Noting υ (Marshalled υ) := do
  let (left, looked) ← get
  set (left, looked ++ [v])
  return marshal v

/-- Uses up one of the values that may still be copied, like `Tracepoint.spend`. -/
def spend (noting : Noting υ Shown) : Noting υ Shown := do
  let (left, looked) ← get
  if left = 0 then return .elided
  else
    set (left - 1, looked)
    noting

/-- The copy of a container, made like `Tracepoint.copyCell`. -/
def copyCell (limits : Limits) (outer : List ℕ) (inside? : Option (υ → Noting υ Shown)) :
    Marshalled υ → Noting υ Shown
  | .plain value => return value
  | .list identity items =>
    if outer.contains identity then return .circular
    else
      match inside? with
      | none => return .placeholder "[Array]"
      | some inside => do
        let copies ← (items.take limits.items).mapM inside
        return .array (copies ++ (Shown.hidden? limits.items items.length).toList)
  | .record identity entries =>
    if outer.contains identity then return .circular
    else
      match inside? with
      | none => return .placeholder "[Object]"
      | some inside => do
        let copies ← (entries.take limits.items).mapM fun (key, value) => do
          let copied ← inside value
          return (key, copied)
        let hidden := (Shown.hidden? limits.items entries.length).toList
        return .object (copies ++ hidden.map fun summary => (hiddenKey, summary))

/-- The copy of a value, made like `Tracepoint.copy`. -/
def copy (limits : Limits) (marshal : υ → Marshalled υ) :
    (levels : ℕ) → (outer : List ℕ) → υ → Noting υ Shown
  | 0, outer, v => spend do
    let m ← look marshal v
    copyCell limits outer none m
  | levels + 1, outer, v => spend do
    let m ← look marshal v
    let inside := copy limits marshal levels (m.identity?.toList ++ outer)
    copyCell limits outer (some inside) m

/-- Adds the variables of a scope, like `Tracepoint.copyScope`. -/
def copyScope (limits : Limits) (marshal : υ → Marshalled υ) :
    List (String × υ) → Snapshot → Noting υ Snapshot
  | [], shown => return shown
  | (name, v) :: rest, shown =>
    if (shown.find? name).isSome then copyScope limits marshal rest shown
    else do
      let copied ← copy limits marshal limits.depth [] v
      copyScope limits marshal rest (shown ++ [(name, copied)])

/-- Adds the variables of some scopes, like `Tracepoint.copyScopes`. -/
def copyScopes (limits : Limits) (marshal : υ → Marshalled υ) :
    List (List (String × υ)) → Snapshot → Noting υ Snapshot
  | [], shown => return shown
  | scope :: outer, shown => do
    let shown ← copyScope limits marshal scope shown
    copyScopes limits marshal outer shown

/-- The variables in sight, and the values that were looked at for them one after the other. -/
def snapshot {ε σ : Type} (I : Interpreter ε σ υ) (limits : Limits) (s : σ) :
    Snapshot × List υ :=
  let (shown, _, looked) :=
    (copyScopes limits (I.marshal s) (I.scopes s) []).run (limits.nodes, [])
  (shown, looked)

/-- The noting steps do what the plain ones do, and look at one value for each that is used up. -/
def Follows (noting : Noting υ α) (copying : Copying α) : Prop :=
  ∀ left looked, ∃ more,
    noting.run (left, looked) =
      ((copying.run left).1, (copying.run left).2, looked ++ more) ∧
    more.length + (copying.run left).2 = left

theorem Follows.pure (a : α) : Follows (pure a : Noting υ α) (pure a) := by
  intro left looked
  exact ⟨[], by rw [List.append_nil]; rfl, Nat.zero_add left⟩

theorem Follows.bind {noting : Noting υ α} {copying : Copying α} {f : α → Noting υ β}
    {g : α → Copying β} (h : Follows noting copying) (hf : ∀ a, Follows (f a) (g a)) :
    Follows (noting >>= f) (copying >>= g) := by
  intro left looked
  obtain ⟨first, hrun, hfirst⟩ := h left looked
  obtain ⟨rest, hrun', hrest⟩ :=
    hf (copying.run left).1 (copying.run left).2 (looked ++ first)
  refine ⟨first ++ rest, ?_, ?_⟩
  · rw [← List.append_assoc]
    simp only [StateT.run_bind, hrun]
    exact hrun'
  · have hsum : (first ++ rest).length +
        ((g (copying.run left).1).run (copying.run left).2).2 = left := by
      rw [List.length_append]
      omega
    exact hsum

theorem Follows.mapM {γ : Type} {f : γ → Noting υ α} {g : γ → Copying α} (xs : List γ)
    (h : ∀ x, Follows (f x) (g x)) : Follows (xs.mapM f) (xs.mapM g) := by
  induction xs with
  | nil => exact .pure []
  | cons x xs ih =>
      rw [List.mapM_cons, List.mapM_cons]
      exact (h x).bind fun y => ih.bind fun ys => .pure (y :: ys)

/-- A value that is used up is looked at. -/
theorem Follows.spend {marshal : υ → Marshalled υ} {v : υ} {f : Marshalled υ → Noting υ Shown}
    {copying : Copying Shown} (h : Follows (f (marshal v)) copying) :
    Follows (Noting.spend (look marshal v >>= f)) (Tracepoint.spend copying) := by
  intro left looked
  cases left with
  | zero => exact ⟨[], by rw [List.append_nil]; rfl, rfl⟩
  | succ left =>
      obtain ⟨more, hrun, hmore⟩ := h left (looked ++ [v])
      refine ⟨v :: more, ?_, ?_⟩
      · rw [List.append_assoc] at hrun
        exact hrun
      · have hsum : (v :: more).length + (copying.run left).2 = left + 1 := by
          rw [List.length_cons]
          omega
        exact hsum

theorem Follows.copyCell_some {inside : υ → Noting υ Shown} {inside' : υ → Copying Shown}
    (limits : Limits) (outer : List ℕ) (m : Marshalled υ)
    (h : ∀ v, Follows (inside v) (inside' v)) :
    Follows (copyCell limits outer (some inside) m)
      (Tracepoint.copyCell limits outer (some inside') m) := by
  cases m with
  | plain value => exact .pure value
  | list identity items =>
      simp only [copyCell, Tracepoint.copyCell]
      split
      · exact .pure _
      · exact (Follows.mapM _ h).bind fun copies => .pure _
  | record identity entries =>
      simp only [copyCell, Tracepoint.copyCell]
      split
      · exact .pure _
      · refine Follows.bind (.mapM _ fun e => ?_) fun copies => .pure _
        exact (h e.2).bind fun copied => .pure (e.1, copied)

theorem Follows.copyCell_none (limits : Limits) (outer : List ℕ) (m : Marshalled υ) :
    Follows (copyCell limits outer none m) (Tracepoint.copyCell limits outer none m) := by
  cases m with
  | plain value => exact .pure value
  | list identity items =>
      simp only [copyCell, Tracepoint.copyCell]
      split
      · exact .pure _
      · exact .pure _
  | record identity entries =>
      simp only [copyCell, Tracepoint.copyCell]
      split
      · exact .pure _
      · exact .pure _

/-- **One value is looked at for each that is used up.** -/
theorem Follows.copy (limits : Limits) (marshal : υ → Marshalled υ) (levels : ℕ) (outer : List ℕ)
    (v : υ) :
    Follows (copy limits marshal levels outer v)
      (Tracepoint.copy limits marshal levels outer v) := by
  induction levels generalizing outer v with
  | zero => exact .spend (.copyCell_none limits outer (marshal v))
  | succ levels ih =>
      refine .spend ?_
      exact .copyCell_some limits outer (marshal v) fun w => ih _ w

theorem Follows.copyScope (limits : Limits) (marshal : υ → Marshalled υ)
    (entries : List (String × υ)) (shown : Snapshot) :
    Follows (copyScope limits marshal entries shown)
      (Tracepoint.copyScope limits marshal entries shown) := by
  induction entries generalizing shown with
  | nil => exact .pure shown
  | cons first rest ih =>
      obtain ⟨name, v⟩ := first
      rw [Noting.copyScope, Tracepoint.copyScope]
      split
      · exact ih shown
      · exact (Follows.copy limits marshal _ _ v).bind fun copied => ih _

theorem Follows.copyScopes (limits : Limits) (marshal : υ → Marshalled υ)
    (scopes : List (List (String × υ))) (shown : Snapshot) :
    Follows (copyScopes limits marshal scopes shown)
      (Tracepoint.copyScopes limits marshal scopes shown) := by
  induction scopes generalizing shown with
  | nil => exact .pure shown
  | cons scope outer ih => exact (Follows.copyScope limits marshal scope shown).bind ih

/-- The noting copier makes the snapshots of the plain one, and looks at as many values as are
used up. -/
theorem snapshot_follows {ε σ : Type} (I : Interpreter ε σ υ) (limits : Limits) (s : σ) :
    (snapshot I limits s).1 = Tracepoint.snapshot I limits s ∧
      (snapshot I limits s).2.length +
        ((Tracepoint.copyScopes limits (I.marshal s) (I.scopes s) []).run limits.nodes).2 =
        limits.nodes := by
  obtain ⟨more, hrun, hlength⟩ :=
    Follows.copyScopes limits (I.marshal s) (I.scopes s) [] limits.nodes []
  rw [snapshot, hrun]
  exact ⟨rfl, hlength⟩

end Noting

/-! ### Places -/

namespace Shown

/-- The nodes right inside a node. -/
def children : Shown → List Shown
  | array items => items
  | object entries => entries.map Prod.snd
  | _ => []

theorem children_of_leaf {s : Shown} (h : s.isContainer = false) : s.children = [] := by
  cases s with
  | array items => cases h
  | object entries => cases h
  | _ => rfl

/-- The node at a place, which is told by positions from the outside inwards. -/
def at? (s : Shown) : List ℕ → Option Shown
  | [] => some s
  | k :: place => s.children[k]?.bind fun child => child.at? place

theorem summary_inj {count count' : ℕ} : summary count = summary count' ↔ count = count' := by
  constructor
  · intro h
    rw [summary, summary, placeholder.injEq, String.append_left_inj, String.append_right_inj] at h
    exact Nat.repr_inj.1 h
  · intro h
    rw [h]

/-- There is nothing inside a summary. -/
theorem eq_of_at?_summary {count : ℕ} {place : List ℕ} {node : Shown}
    (h : (summary count).at? place = some node) : place = [] ∧ node = summary count := by
  cases place with
  | nil => exact ⟨rfl, (Option.some.inj h).symm⟩
  | cons k place => simp [at?, summary, children] at h

end Shown

/-- How much is shown of a container of `count` entries: the first ones and a summary behind them,
which is there if there are more. The summary tells how many are not shown, and no other node looks
like one. -/
structure Limits.Abridges (limits : Limits) (count : ℕ) (children : List Shown) : Prop where
  length : children.length = min limits.items count + if limits.items < count then 1 else 0
  summary : ∀ (k : ℕ) hidden, children[k]? = some (.summary hidden) ↔
    k = limits.items ∧ 0 < hidden ∧ hidden + limits.items = count

theorem Limits.abridges_append {limits : Limits} {count : ℕ} {copies : List Shown}
    (hlength : copies.length = min limits.items count)
    (hcopies : ∀ (k : ℕ) hidden, copies[k]? ≠ some (Shown.summary hidden)) :
    limits.Abridges count (copies ++ limits.hiddenItems count) := by
  rw [hiddenItems_eq]
  by_cases hmore : limits.items < count
  · rw [Nat.min_eq_left (Nat.le_of_lt hmore)] at hlength
    rw [if_pos hmore]
    refine ⟨?_, fun k hidden => ⟨fun hk => ?_, ?_⟩⟩
    · rw [List.length_append, hlength, if_pos hmore, Nat.min_eq_left (Nat.le_of_lt hmore)]
      rfl
    · rcases Nat.lt_or_ge k copies.length with hlt | hge
      · rw [List.getElem?_append_left hlt] at hk
        exact absurd hk (hcopies k hidden)
      · rw [List.getElem?_append_right hge, List.getElem?_singleton] at hk
        split at hk
        next hzero =>
          have hcount := Shown.summary_inj.1 (Option.some.inj hk)
          omega
        next => cases hk
    · rintro ⟨rfl, hpos, hsum⟩
      have hcount : count - limits.items = hidden := by omega
      rw [hcount, ← hlength, List.getElem?_concat_length]
  · have hcount : min limits.items count = count := Nat.min_eq_right (Nat.le_of_not_lt hmore)
    rw [hcount] at hlength
    rw [if_neg hmore, List.append_nil]
    refine ⟨?_, fun k hidden => ⟨fun hk => absurd hk (hcopies k hidden), ?_⟩⟩
    · rw [hlength, hcount, if_neg hmore]
      rfl
    · rintro ⟨-, hpos, hsum⟩
      omega

/-- What is shown of a container of `count` entries lies at the positions of entries. -/
theorem Limits.lt_of_getElem?_append {limits : Limits} {count : ℕ} {copies : List Shown}
    (hlength : copies.length = min limits.items count) {k : ℕ} {child : Shown}
    (hchild : (copies ++ limits.hiddenItems count)[k]? = some child) :
    k < count ∧ (copies[k]? = some child ∨ ∃ hidden, child = .summary hidden) := by
  rcases Nat.lt_or_ge k copies.length with hlt | hge
  · rw [List.getElem?_append_left hlt] at hchild
    exact ⟨by omega, .inl hchild⟩
  · rw [List.getElem?_append_right hge, hiddenItems_eq] at hchild
    split at hchild
    next hmore =>
      rw [List.getElem?_singleton] at hchild
      split at hchild
      next hzero => exact ⟨by omega, .inr ⟨_, (Option.some.inj hchild).symm⟩⟩
      next => cases hchild
    next => cases hchild

namespace Machine

/-- What a container holds. -/
def children (m : Machine) : Value → List Value
  | .array r => ((m.heap.items? r).getD #[]).toList
  | .object r => ((m.heap.entries? r).getD []).map Prod.snd
  | _ => []

/-- The value at a place inside a value. -/
def at? (m : Machine) (v : Value) : List ℕ → Option Value
  | [] => some v
  | k :: place => (m.children v)[k]?.bind fun child => m.at? child place

/-- A node that lies `depth` deep stands for the value `v`: if it is an array or an object, then so
is `v`, it lies no deeper than containers are shown and than they can lie inside each other, and it
shows of `v` what may be shown. -/
def Fits (m : Machine) (limits : Limits) (depth : ℕ) (v : Value) : Shown → Prop
  | .array items => depth ≤ limits.depth ∧ depth ≤ m.heap.size ∧
    ∃ r cell, v = .array r ∧ m.heap.get? r = some (.array cell) ∧ limits.Abridges cell.size items
  | .object entries => depth ≤ limits.depth ∧ depth ≤ m.heap.size ∧
    ∃ r cell, v = .object r ∧ m.heap.get? r = some (.object cell) ∧
      limits.Abridges cell.length (entries.map Prod.snd)
  | _ => True

/-! ### Containers inside each other -/

variable {m : Machine} {limits : Limits} {r : Ref} {outer : List Ref}

/-- Containers that lie inside each other: distinct ones that are there. -/
structure Enclosing (m : Machine) (outer : List Ref) : Prop where
  nodup : outer.Nodup
  isSome : ∀ r ∈ outer, (m.heap.get? r).isSome

theorem Enclosing.nil (m : Machine) : m.Enclosing [] :=
  ⟨List.nodup_nil, fun _ hr => absurd hr List.not_mem_nil⟩

theorem Enclosing.cons (h : m.Enclosing outer) (houtside : r ∉ outer)
    (hcell : (m.heap.get? r).isSome) : m.Enclosing (r :: outer) := by
  refine ⟨List.nodup_cons.2 ⟨houtside, h.nodup⟩, fun r' hr' => ?_⟩
  rcases List.mem_cons.1 hr' with rfl | hr'
  · exact hcell
  · exact h.isSome r' hr'

/-- **No more containers lie inside each other than there are cells.** -/
theorem Enclosing.length_le (h : m.Enclosing outer) : outer.length ≤ m.heap.size :=
  Heap.length_le_of_nodup h.nodup h.isSome

/-- Inside as many containers as there are cells, each container contains itself. -/
theorem Enclosing.mem_of_full (h : m.Enclosing outer) (hfull : m.heap.size ≤ outer.length)
    (hcell : (m.heap.get? r).isSome) : r ∈ outer := by
  by_contra houtside
  have hle := (h.cons houtside hcell).length_le
  rw [List.length_cons] at hle
  omega

/-- One more level makes no difference where the levels are enough for all cells. -/
theorem copy_succ_of_room {G : Proto → Prop} {levels : ℕ} {v : Value} (hm : m.Intact G)
    (houter : m.Enclosing outer) (hroom : m.heap.size ≤ outer.length + levels)
    (hv : m.Backs G v) :
    copy limits m.marshal (levels + 1) (outer.map Ref.index) v =
      copy limits m.marshal levels (outer.map Ref.index) v := by
  -- on the levels: with none left, `outer` has all cells
  induction levels generalizing outer v with
  | zero =>
      rcases kind_of_backs hv with ⟨shown, hatom⟩ | ⟨r, items, rfl, hcell⟩ |
        ⟨r, entries, rfl, hcell⟩
      · rw [copy_atom hatom, copy_atom hatom]
      · have hinside := houter.mem_of_full hroom (Option.isSome_of_eq_some hcell)
        rw [copy_circular rfl hinside, copy_circular rfl hinside]
      · have hinside := houter.mem_of_full hroom (Option.isSome_of_eq_some hcell)
        rw [copy_circular rfl hinside, copy_circular rfl hinside]
  | succ levels ih =>
      have hinner : m.heap.size ≤ outer.length + 1 + levels := by omega
      rcases kind_of_backs hv with ⟨shown, hatom⟩ | ⟨r, items, rfl, hcell⟩ |
        ⟨r, entries, rfl, hcell⟩
      · rw [copy_atom hatom, copy_atom hatom]
      · by_cases hinside : r ∈ outer
        · rw [copy_circular rfl hinside, copy_circular rfl hinside]
        · have houter' := houter.cons hinside (Option.isSome_of_eq_some hcell)
          have hitems : ∀ w ∈ items.toList.take limits.items,
              copy limits m.marshal (levels + 1) ((r :: outer).map Ref.index) w =
                copy limits m.marshal levels ((r :: outer).map Ref.index) w :=
            fun w hw => ih houter' hinner (hm.backs_item hcell hw)
          rw [copy_succ_array hinside hcell, copy_succ_array hinside hcell,
            Copying.mapM_congr hitems]
      · by_cases hinside : r ∈ outer
        · rw [copy_circular rfl hinside, copy_circular rfl hinside]
        · have houter' := houter.cons hinside (Option.isSome_of_eq_some hcell)
          have hentries : ∀ e ∈ entries.take limits.items,
              copy limits m.marshal (levels + 1) ((r :: outer).map Ref.index) e.2 =
                copy limits m.marshal levels ((r :: outer).map Ref.index) e.2 :=
            fun e he => ih houter' hinner (hm.backs_entry hcell he)
          rw [copy_succ_object hinside hcell, copy_succ_object hinside hcell]
          refine congrArg spend (congrArg (· >>= _) (Copying.mapM_congr fun e he => ?_))
          rw [hentries e he]

/-- **Where the levels are enough for all cells, more levels make no difference.** -/
theorem copy_eq_of_le {G : Proto → Prop} {depth : ℕ} {v : Value} (hm : m.Intact G)
    (hdepth : m.heap.size ≤ depth) (hv : m.Backs G v) :
    copy limits m.marshal depth [] v = copy limits m.marshal m.heap.size [] v := by
  induction depth, hdepth using Nat.le_induction with
  | base => rfl
  | succ depth hdepth ih =>
      have hroom : m.heap.size ≤ ([] : List Ref).length + depth := by
        rw [List.length_nil]
        omega
      exact (copy_succ_of_room hm (.nil m) hroom hv).trans ih

/-- The depth of the limits is looked at only where copying begins. -/
theorem copy_depth {υ : Type} (limits : Limits) (marshal : υ → Marshalled υ) (depth levels : ℕ)
    (outer : List ℕ) (v : υ) :
    copy { limits with depth } marshal levels outer v = copy limits marshal levels outer v := by
  induction levels generalizing outer v with
  | zero => rfl
  | succ levels ih =>
      have hinside : ∀ outer, copy { limits with depth } marshal levels outer =
          copy limits marshal levels outer := fun outer => funext (ih outer)
      rw [copy, copy]
      simp only [hinside]
      rfl

theorem copyVariable_of_le {G : Proto → Prop} {depth : ℕ} (hm : m.Intact G)
    (hdepth : m.heap.size ≤ depth) {b : String × Value} (hb : b ∈ m.sight) :
    copyVariable { limits with depth } m.marshal b =
      copyVariable { limits with depth := m.heap.size } m.marshal b := by
  rw [copyVariable, copyVariable, copy_depth limits m.marshal depth,
    copy_depth limits m.marshal m.heap.size, copy_eq_of_le hm hdepth (hm.backs_sight hb)]

/-! ### Nodes and the values they stand for -/

variable {elides : Prop} {depth : ℕ} {v : Value} {shown : Shown}

/-- Only nodes with others inside them have to fit. -/
theorem fits_of_leaf (h : shown.isContainer = false) : m.Fits limits depth v shown := by
  cases shown with
  | array items => cases h
  | object entries => cases h
  | _ => trivial

theorem children_array {items : Array Value} (hcell : m.heap.get? r = some (.array items)) :
    m.children (.array r) = items.toList := by
  simp [children, Heap.items?, hcell]

theorem children_object {entries : List (String × Value)}
    (hcell : m.heap.get? r = some (.object entries)) :
    m.children (.object r) = entries.map Prod.snd := by
  simp [children, Heap.entries?, hcell]

/-- No value is shown like a summary. -/
theorem Shows.ne_summary (h : m.Shows limits elides outer depth v shown) (hidden : ℕ) :
    shown ≠ .summary hidden := by
  intro heq
  have hzero : shown.copies = 0 := heq ▸ Shown.copies_summary hidden
  cases h with
  | atom hatom =>
      rw [copies_of_atom? hatom] at hzero
      cases hzero
  | circular _ _ => exact absurd hzero (by decide)
  | deepArray _ _ => exact absurd hzero (by decide)
  | deepObject _ _ => exact absurd hzero (by decide)
  | array _ _ _ _ _ =>
      rw [Shown.copies_array] at hzero
      omega
  | object _ _ _ _ _ =>
      rw [Shown.copies_object] at hzero
      omega
  | elided _ => exact Shown.summary_ne_elided hidden heq.symm

/-- A node right inside a node is a summary, or it shows what is held at its position. -/
theorem Shows.child (h : m.Shows limits elides outer depth v shown) {k : ℕ} {child : Shown}
    (hchild : shown.children[k]? = some child) :
    ∃ w, (m.children v)[k]? = some w ∧
      ((∃ hidden, child = .summary hidden) ∨
        ∃ r, r ∉ outer ∧ (m.heap.get? r).isSome ∧
          m.Shows limits elides (r :: outer) (depth + 1) w child) := by
  cases h with
  | atom hatom =>
      rw [Shown.children_of_leaf (leaf_of_atom? hatom).1] at hchild
      cases hchild
  | circular _ _ => cases hchild
  | deepArray _ _ => cases hchild
  | deepObject _ _ => cases hchild
  | elided _ => cases hchild
  | @array _ _ r items copies houtside hdepth hcell hlength hcopies =>
      obtain ⟨hk, hcopy⟩ := Limits.lt_of_getElem?_append hlength hchild
      refine ⟨items[k], by rw [children_array hcell]; simp [hk], ?_⟩
      rcases hcopy with hcopy | hsummary
      · have hitem := hcopies k _ _ (Array.getElem?_eq_getElem hk) hcopy
        exact .inr ⟨r, houtside, Option.isSome_of_eq_some hcell, hitem⟩
      · exact .inl hsummary
  | @object _ _ r entries copies houtside hdepth hcell hkeys hcopies =>
      have hlength : (copies.map Prod.snd).length = min limits.items entries.length := by
        rw [List.length_map, Copying.length_of_keys hkeys]
      rw [Shown.children, limits.map_snd_append] at hchild
      obtain ⟨hk, hcopy⟩ := Limits.lt_of_getElem?_append hlength hchild
      refine ⟨entries[k].2, by rw [children_object hcell]; simp [hk], ?_⟩
      rcases hcopy with hcopy | hsummary
      · rw [List.getElem?_map, Option.map_eq_some_iff] at hcopy
        obtain ⟨e, he, rfl⟩ := hcopy
        have hentry := hcopies k _ _ (List.getElem?_eq_getElem hk) he
        exact .inr ⟨r, houtside, Option.isSome_of_eq_some hcell, hentry⟩
      · exact .inl hsummary

/-- **Each node stands for the value at its place.** A node at a place inside a shown value is a
summary, or it shows the value that is at this place inside the value. -/
theorem Shows.at? (h : m.Shows limits elides outer depth v shown) (houter : m.Enclosing outer)
    {place : List ℕ} {node : Shown} (hnode : shown.at? place = some node) :
    ∃ w, m.at? v place = some w ∧
      ((∃ hidden, node = .summary hidden) ∨
        ∃ outer', m.Enclosing outer' ∧ outer'.length = outer.length + place.length ∧
          m.Shows limits elides outer' (depth + place.length) w node) := by
  -- from the outside inwards
  induction place generalizing outer depth v shown with
  | nil =>
      obtain rfl : shown = node := Option.some.inj hnode
      exact ⟨v, rfl, .inr ⟨outer, houter, rfl, h⟩⟩
  | cons k place ih =>
      obtain ⟨child, hchild, hnode⟩ := Option.bind_eq_some_iff.1 hnode
      obtain ⟨w, hw, hshows⟩ := h.child hchild
      rcases hshows with ⟨hidden, rfl⟩ | ⟨r, houtside, hcell, hshows⟩
      · obtain ⟨rfl, rfl⟩ := Shown.eq_of_at?_summary hnode
        exact ⟨w, by rw [Machine.at?, hw]; rfl, .inl ⟨hidden, rfl⟩⟩
      · obtain ⟨w', hw', hplace⟩ := ih hshows (houter.cons houtside hcell) hnode
        refine ⟨w', by rw [Machine.at?, hw]; exact hw', hplace.imp_right ?_⟩
        rintro ⟨outer', houter', hlength, hshows'⟩
        rw [List.length_cons] at hlength
        refine ⟨outer', houter', by rw [hlength, List.length_cons]; omega, ?_⟩
        rw [List.length_cons, Nat.add_comm place.length 1, ← Nat.add_assoc]
        exact hshows'

/-- A node that is made by the rules fits the limits. -/
theorem Shows.fits (h : m.Shows limits elides outer depth v shown) (houter : m.Enclosing outer)
    (hdepth : outer.length + 1 = depth) : m.Fits limits depth v shown := by
  cases h with
  | atom hatom => exact fits_of_leaf (leaf_of_atom? hatom).1
  | circular _ _ => trivial
  | deepArray _ _ => trivial
  | deepObject _ _ => trivial
  | elided _ => trivial
  | @array _ _ r items copies houtside hdeep hcell hlength hcopies =>
      have hle := (houter.cons houtside (Option.isSome_of_eq_some hcell)).length_le
      refine ⟨hdeep, hdepth ▸ hle, r, items, rfl, hcell, Limits.abridges_append hlength ?_⟩
      intro k hidden hk
      have hitem : k < items.size := by
        have hcopy := (List.getElem?_eq_some_iff.1 hk).1
        omega
      exact (hcopies k _ _ (Array.getElem?_eq_getElem hitem) hk).ne_summary hidden rfl
  | @object _ _ r entries copies houtside hdeep hcell hkeys hcopies =>
      have hlength : (copies.map Prod.snd).length = min limits.items entries.length := by
        rw [List.length_map, Copying.length_of_keys hkeys]
      have hle := (houter.cons houtside (Option.isSome_of_eq_some hcell)).length_le
      refine ⟨hdeep, hdepth ▸ hle, r, entries, rfl, hcell, ?_⟩
      rw [limits.map_snd_append]
      refine Limits.abridges_append hlength ?_
      intro k hidden hk
      rw [List.getElem?_map, Option.map_eq_some_iff] at hk
      obtain ⟨e, he, heq⟩ := hk
      have hentry : k < entries.length := by
        have hcopy := (List.getElem?_eq_some_iff.1 he).1
        rw [List.length_map] at hlength
        omega
      exact (hcopies k _ _ (List.getElem?_eq_getElem hentry) he).ne_summary hidden heq

/-- What a variable is shown as stands, node by node, for its value. -/
theorem Shows.fits_at (h : m.Shows limits elides [] 1 v shown) {place : List ℕ} {node : Shown}
    (hnode : shown.at? place = some node) :
    ∃ w, m.at? v place = some w ∧ m.Fits limits (place.length + 1) w node := by
  obtain ⟨w, hw, hplace⟩ := h.at? (.nil m) hnode
  refine ⟨w, hw, ?_⟩
  rcases hplace with ⟨hidden, rfl⟩ | ⟨outer, houter, hlength, hshows⟩
  · exact fits_of_leaf rfl
  · rw [List.length_nil, Nat.zero_add] at hlength
    rw [Nat.add_comm 1] at hshows
    exact hshows.fits houter (congrArg (· + 1) hlength)

end Machine

/-- **A snapshot is bounded, and it ends.** However far a machine has gone on the run of a program,
and whatever the limits are: no more values are looked at for a snapshot than may be copied, and
as many as it has nodes that stand for values; where the depth is that of the heap, more depth makes
no difference; and every node stands for the value at its place, where arrays and objects lie no
deeper than containers are shown and have as many entries as may be shown, with a summary that
counts all others. -/
theorem snapshot_bounded (program : Program) (n : ℕ) (limits : Limits) :
    let m := machineAfter program n
    let shown := snapshot Script.interpreter limits m
    let noted := Noting.snapshot Script.interpreter limits m
    noted.1 = shown ∧ noted.2.length ≤ limits.nodes ∧
    (shown.map fun e => e.2.copies).sum = noted.2.length ∧
    (∀ depth, m.heap.size ≤ depth →
      snapshot Script.interpreter { limits with depth } m =
        snapshot Script.interpreter { limits with depth := m.heap.size } m) ∧
    List.Forall₂ (fun b e => e.1 = b.1 ∧ ∀ place node, e.2.at? place = some node →
      ∃ v, m.at? b.2 place = some v ∧ m.Fits limits (place.length + 1) v node) m.sight shown := by
  intro m shown noted
  have hm : m.Intact fun _ => True := intact_machineAfter program n
  obtain ⟨hsame, hlooked⟩ := Noting.snapshot_follows Script.interpreter limits m
  have hleft : noted.2.length +
      ((m.sight.mapM (copyVariable limits m.marshal)).run limits.nodes).2 = limits.nodes := by
    rw [← copyScopes_sight]
    exact hlooked
  have hspent := Machine.spends_snapshot hm limits
  have hcount : (shown.map fun e => e.2.copies).sum = noted.2.length :=
    Nat.add_right_cancel (hspent.trans hleft.symm)
  refine ⟨hsame, Nat.le.intro hleft, hcount, fun depth hdepth => ?_, ?_⟩
  · have hvariables : ∀ b ∈ m.sight, copyVariable { limits with depth } m.marshal b =
        copyVariable { limits with depth := m.heap.size } m.marshal b :=
      fun b hb => Machine.copyVariable_of_le hm hdepth hb
    rw [snapshot_eq, snapshot_eq, Copying.mapM_congr hvariables]
  · refine (Machine.shows_snapshot hm limits).imp ?_
    rintro b e ⟨hname, hshows⟩
    exact ⟨hname, fun place node hnode => hshows.fits_at hnode⟩

end Tracepoint
