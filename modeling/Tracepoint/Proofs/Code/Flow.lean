/-
How control flows through code.

What an instruction makes of what the frame has depends on the instruction alone.  The plan of a
tree is consistent with that: every instruction in its code finds the operands and the scopes that
it takes, and leads only to offsets where the plan says what it leaves.

Main definitions:

* `Instr.takes`, `Instr.leaves`, `Instr.after`, `Instr.successors` — what instructions do to shapes;
* `Instr.Finds` — the operand of an instruction leads to something;
* `Proto.Obeys`, `Plan.Obeyed` — an instruction, and all code of a plan, is consistent;
* `Plan.Leads` — code of a plan lies between two offsets, and is consistent if it leads to places
  that are.

Main results:

* `Chunk.At.stop_eq` — how long an instruction is;
* `Plan.Leads.seq`, `leads_conditional`, `leads_whileLoop` and the like — plans one after the other,
  and the plan of each form from those of its parts;
* `leads_expr`, `leads_stmt` and their companions — **where a tree lies, its plan is obeyed**.
-/

import Tracepoint.Proofs.Code.Image
import Tracepoint.Proofs.Code.Plan

set_option relaxedAutoImplicit false
set_option autoImplicit false

namespace Tracepoint

/-! ### The length of instructions -/

namespace Instr

theorem size_of_narrow? {first : UInt8} {i : Instr} (h : narrow? first = some i) : i.size = 1 := by
  unfold narrow? at h
  split at h
  all_goals first
    | (cases h; rfl)
    | cases h

theorem size_of_wide? {first : UInt8} {make : UInt32 → Instr} (h : wide? first = some make)
    (w : UInt32) : (make w).size = wideSize := by
  unfold wide? at h
  split at h
  all_goals first
    | (cases h; rfl)
    | cases h

theorem next_of_decodeAt {code : Array UInt8} {offset next : ℕ} {i : Instr}
    (h : decodeAt code offset = .ok (some (i, next))) : next = offset + i.size := by
  unfold decodeAt at h
  split at h
  · cases h
  · split at h
    next i' _ hnarrow =>
      cases h
      rw [size_of_narrow? hnarrow]
    next make _ hwide =>
      split at h
      · cases h
        rw [size_of_wide? hwide]
      · cases h
    next =>
      split at h
      · split at h
        · cases h
          rfl
        · cases h
      · cases h

end Instr

theorem Chunk.At.stop_eq {c : Chunk} {start stop : ℕ} {i : Instr} (h : c.At start i stop) :
    stop = start + i.size :=
  Instr.next_of_decodeAt h

/-! ### What instructions do to shapes -/

namespace Instr

/-- The operands that an instruction takes. -/
def takes : Instr → ℕ
  | .pop | .declare _ _ | .set _ | .getProperty _ | .ret | .negate | .not => 1
  | .jump .ifFalse _ | .jump .ifFalseOrPop _ | .jump .ifTrueOrPop _ => 1
  | .setProperty _ | .getIndex | .operate _ => 2
  | .setIndex => 3
  | .makeArray count => count.toNat
  | .makeObject count => 2 * count.toNat
  | .call count => count.toNat + 1
  | _ => 0

/-- The operands that it leaves for the instruction behind it. -/
def leaves : Instr → ℕ
  | .constant _ | .get _ | .closure _ | .set _ | .getProperty _ | .setProperty _ | .getIndex
  | .setIndex | .makeArray _ | .makeObject _ | .call _ | .operate _ | .negate | .not => 1
  | _ => 0

/-- The scopes that are open behind an instruction. -/
def scopesAfter (scopes : ℕ) : Instr → ℕ
  | .pushScope => scopes + 1
  | .popScope => scopes - 1
  | _ => scopes

/-- What the frame has behind an instruction. -/
def after (i : Instr) (σ : Shape) : Shape :=
  ⟨σ.operands - i.takes + i.leaves, i.scopesAfter σ.scopes⟩

/-- Where a jump leads that ends at `next`. -/
def target (next : ℕ) (distance : Int32) : ℕ :=
  ((next : Int) + distance.toInt).toNat

/-- Where an instruction leads that ends at `next`, and what the frame has there. -/
def successors (next : ℕ) (σ : Shape) : Instr → List (ℕ × Shape)
  | .halt | .ret => []
  | .jump .always distance => [(target next distance, σ)]
  | .jump .ifFalse distance =>
    let left := after (.jump .ifFalse distance) σ
    [(next, left), (target next distance, left)]
  | .jump kind distance => [(next, after (.jump kind distance) σ), (target next distance, σ)]
  | i => [(next, i.after σ)]

/-- The instruction only leads to the one behind it. -/
def isPlain : Instr → Bool
  | .halt | .ret | .jump _ _ | .pushScope | .popScope => false
  | _ => true

theorem successors_of_isPlain {i : Instr} (h : i.isPlain = true) (next : ℕ) (σ : Shape) :
    i.successors next σ = [(next, i.after σ)] := by
  cases i with
  | halt => cases h
  | ret => cases h
  | jump _ _ => cases h
  | _ => rfl

/-- The operand of an instruction leads to something: to a constant, to a name, or to a function
that was compiled from a declaration. -/
def Finds (p : Proto) : Instr → Prop
  | .constant w => (p.chunk.pool.get? w.toNat).isSome
  | .declare w _ | .get w | .set w | .getProperty w | .setProperty w =>
    (p.chunk.pool.text? w.toNat).isSome
  | .closure w =>
    ∃ decl : FunctionDecl, decl.Lies ∧ p.functions[w.toNat]? = some (compileFunction decl)
  | _ => True

/-- What an instruction that ends at `next` asks of the frame apart from operands. A function
returns its only operand, and a program ends without operands and scopes. -/
def Suits (inFunction : Bool) (next : ℕ) (slot : Slot) : Instr → Prop
  | .pushScope => slot.opens = true
  | .popScope => 0 < slot.shape.scopes
  | .jump _ distance => 0 ≤ (next : Int) + distance.toInt
  | .ret => inFunction = true ∧ slot.shape.operands = 1
  | .halt => inFunction = false ∧ slot.shape = ⟨0, 0⟩
  | _ => True

theorem suits_of_isPlain {i : Instr} (h : i.isPlain = true) (inFunction : Bool) (next : ℕ)
    (slot : Slot) : i.Suits inFunction next slot := by
  cases i with
  | halt => cases h
  | ret => cases h
  | jump _ _ => cases h
  | pushScope => cases h
  | popScope => cases h
  | _ => trivial

end Instr

/-- A jump leads to where its distance points. -/
theorem Chunk.Jumps.target {c : Chunk} {start goal stop : ℕ} {kind : JumpKind}
    (h : c.Jumps start kind goal stop) :
    ∃ distance, c.At start (.jump kind distance) stop ∧ 0 ≤ (stop : Int) + distance.toInt ∧
      Instr.target stop distance = goal := by
  obtain ⟨distance, hat, hgoal⟩ := h
  refine ⟨distance, hat, by omega, ?_⟩
  rw [Instr.target, hgoal, Int.toNat_natCast]

/-! ### Plans that are obeyed -/

/-- An instruction lies where its slot is, and is consistent with it: it finds what it needs and
leads to offsets that have the shapes it leaves. -/
structure Proto.Obeys (p : Proto) (inFunction : Bool) (S : ℕ → Shape → Prop) (offset : ℕ)
    (slot : Slot) (i : Instr) : Prop where
  lies : p.chunk.At offset i (offset + slot.size)
  enough : i.takes ≤ slot.shape.operands
  finds : i.Finds p
  suits : i.Suits inFunction (offset + slot.size) slot
  leads : ∀ g ∈ i.successors (offset + slot.size) slot.shape, S g.1 g.2

namespace Plan

/-- All slots hold instructions that are consistent with them. -/
def Obeyed (p : Proto) (inFunction : Bool) (S : ℕ → Shape → Prop) (start : ℕ) (plan : Plan) :
    Prop :=
  ∀ x ∈ plan.spots start, ∃ i, p.Obeys inFunction S x.1 x.2 i

/-- Code of a plan lies between two offsets. It is consistent if the places that it leads to have
the shapes that `goals` says. -/
structure Leads (p : Proto) (inFunction : Bool) (plan : Plan) (start stop : ℕ)
    (goals : (ℕ → Shape → Prop) → Prop) : Prop where
  size : stop = start + plan.size
  obeyed : ∀ S, plan.Within S start → goals S → plan.Obeyed p inFunction S start

namespace Leads

variable {p : Proto} {inFunction : Bool} {first second : Plan} {start middle stop : ℕ}
  {goals goals' : (ℕ → Shape → Prop) → Prop}

theorem nil (start : ℕ) (goals : (ℕ → Shape → Prop) → Prop) :
    Leads p inFunction [] start start goals :=
  ⟨rfl, fun _ _ _ _ hx => nomatch hx⟩

theorem mono {G : (ℕ → Shape → Prop) → Prop} (h : first.Leads p inFunction start stop goals)
    (hgoals : ∀ S, first.Within S start → G S → goals S) :
    first.Leads p inFunction start stop G :=
  ⟨h.size, fun S hS hgoal => h.obeyed S hS (hgoals S hS hgoal)⟩

/-- One piece of code behind the other. -/
theorem append (hfirst : first.Leads p inFunction start middle goals)
    (hsecond : second.Leads p inFunction middle stop goals')
    (hgoals : ∀ S, second.Within S middle → goals' S → goals S) :
    Leads p inFunction (first ++ second) start stop goals' := by
  have hmiddle := hfirst.size
  subst hmiddle
  refine ⟨by rw [hsecond.size, size_append, Nat.add_assoc], fun S hS hgoal x hx => ?_⟩
  obtain ⟨hfirstS, hsecondS⟩ := within_append.1 hS
  rw [spots_append] at hx
  rcases List.mem_append.1 hx with hx | hx
  · exact hfirst.obeyed S hfirstS (hgoals S hsecondS hgoal) x hx
  · exact hsecond.obeyed S hsecondS hgoal x hx

/-- Code that leaves what the code behind it finds. -/
theorem seq {σ : Shape} (hfirst : first.Leads p inFunction start middle fun S => S middle σ)
    (hsecond : second.Leads p inFunction middle stop goals) (hbegins : second.Begins σ) :
    Leads p inFunction (first ++ second) start stop goals :=
  hfirst.append hsecond fun _ hS _ => hbegins.within hS

theorem behind {S : ℕ → Shape → Prop} (hfirst : first.Leads p inFunction start middle goals)
    (hS : Within S start (first ++ second)) : second.Within S middle := by
  rw [hfirst.size]
  exact (within_append.1 hS).2

/-- Where code starts, the frame has what the code finds. -/
theorem enter {σ : Shape} (h : first.Leads p inFunction start stop goals)
    (hstarts : first.Starts σ) (hgoal : ∀ S, goals S → S stop σ) (S : ℕ → Shape → Prop)
    (hS : first.Within S start) (hgoals : goals S) : S start σ :=
  hstarts.within hS (h.size ▸ hgoal S hgoals)

/-- A single instruction. -/
theorem single {slot : Slot} {i : Instr} (hat : p.chunk.At start i stop)
    (hsize : i.size = slot.size) (henough : i.takes ≤ slot.shape.operands) (hfinds : i.Finds p)
    (hsuits : i.Suits inFunction stop slot)
    (hleads : ∀ S, goals S → ∀ g ∈ i.successors stop slot.shape, S g.1 g.2) :
    Leads p inFunction [slot] start stop goals := by
  have hstop : stop = start + slot.size := by rw [hat.stop_eq, hsize]
  subst hstop
  refine ⟨rfl, fun S _ hgoal x hx => ?_⟩
  obtain rfl := List.mem_singleton.1 hx
  exact ⟨i, hat, henough, hfinds, hsuits, hleads S hgoal⟩

/-- A single instruction that only leads to the one behind it. -/
theorem plain {slot : Slot} {i : Instr} {σ : Shape} (hat : p.chunk.At start i stop)
    (hplain : i.isPlain = true) (hsize : i.size = slot.size)
    (henough : i.takes ≤ slot.shape.operands) (hfinds : i.Finds p)
    (hafter : i.after slot.shape = σ) :
    Leads p inFunction [slot] start stop fun S => S stop σ := by
  refine single hat hsize henough hfinds (i.suits_of_isPlain hplain inFunction stop slot) ?_
  intro S hgoal g hg
  rw [i.successors_of_isPlain hplain, List.mem_singleton] at hg
  subst hg
  exact hafter ▸ hgoal

/-- An instruction that makes one operand of some. -/
theorem gathers {i : Instr} {h d count : ℕ} (hat : p.chunk.At start i stop)
    (hplain : i.isPlain = true) (hsize : i.size = (Slot.wide (h + count) d).size)
    (htakes : i.takes = count) (hleaves : i.leaves = 1) (hscopes : i.scopesAfter d = d)
    (hfinds : i.Finds p) :
    Leads p inFunction [.wide (h + count) d] start stop fun S => S stop ⟨h + 1, d⟩ := by
  have hafter : i.after ⟨h + count, d⟩ = ⟨h + 1, d⟩ := by
    rw [Instr.after, htakes, hleaves, hscopes, Nat.add_sub_cancel]
  exact .plain hat hplain hsize (htakes ▸ Nat.le_add_left _ h) hfinds hafter

end Leads

end Plan

/-! ### Expressions -/

section

variable {p : Proto} {inFunction : Bool} {start stop : ℕ} (h d : ℕ)

theorem finds_of_text? {w : UInt32} {name : String}
    (hname : p.chunk.pool.text? w.toNat = some name) :
    (p.chunk.pool.text? w.toNat).isSome = true := by
  rw [hname]
  rfl

theorem leads_pushes {c : Constant} (hlies : p.Pushes c start stop) :
    Plan.Leads p inFunction [.wide h d] start stop fun S => S stop ⟨h + 1, d⟩ := by
  obtain ⟨w, hat, hc⟩ := hlies
  exact .plain hat rfl rfl (Nat.zero_le _) (show (_ : Option Constant).isSome from hc ▸ rfl) rfl

theorem leads_makes {decl : FunctionDecl} (hlies : p.Makes decl start stop) (hdecl : decl.Lies) :
    Plan.Leads p inFunction [.wide h d] start stop fun S => S stop ⟨h + 1, d⟩ := by
  obtain ⟨w, hat, hfunction⟩ := hlies
  exact .plain hat rfl rfl (Nat.zero_le _) ⟨decl, hdecl, hfunction⟩ rfl

theorem leads_atom {a : Atom} (hlies : a.Lies p start stop) :
    Plan.Leads p inFunction [.wide h d] start stop fun S => S stop ⟨h + 1, d⟩ := by
  cases a with
  | name text =>
      obtain ⟨w, hat, hname⟩ := hlies
      exact .plain hat rfl rfl (Nat.zero_le _) (finds_of_text? hname) rfl
  | number _ => exact leads_pushes h d hlies
  | bool _ => exact leads_pushes h d hlies
  | null => exact leads_pushes h d hlies
  | undefined => exact leads_pushes h d hlies
  | string _ => exact leads_pushes h d hlies

/-- The instructions of an operator behind its operands. -/
theorem leads_binary {op : BinaryOp} (hlies : p.chunk.Sequence op.instrs start stop) :
    Plan.Leads p inFunction
      (.narrow (h + 2) d :: op.instrs.tail.map fun _ => .narrow (h + 1) d) start stop
      fun S => S stop ⟨h + 1, d⟩ := by
  have hoperate : ∀ {operation : Operation} {middle : ℕ},
      p.chunk.At start (.operate operation) middle →
      Plan.Leads p inFunction [.narrow (h + 2) d] start middle fun S => S middle ⟨h + 1, d⟩ :=
    fun hat => .plain hat rfl rfl (Nat.le_add_left 2 h) trivial rfl
  -- One instruction, or two of which the second one is `not`.
  cases op with
  | notEqual =>
      obtain ⟨a, hop, b, hnot, rfl⟩ := hlies
      exact (hoperate hop).seq (.plain hnot rfl rfl (Nat.le_add_left 1 h) trivial rfl)
        (Plan.begins_cons _ _)
  | strictNotEqual =>
      obtain ⟨a, hop, b, hnot, rfl⟩ := hlies
      exact (hoperate hop).seq (.plain hnot rfl rfl (Nat.le_add_left 1 h) trivial rfl)
        (Plan.begins_cons _ _)
  | _ =>
      obtain ⟨a, hop, rfl⟩ := hlies
      exact hoperate hop

theorem leads_unary {op : UnaryOp} (hlies : p.chunk.At start op.instr stop) :
    Plan.Leads p inFunction [.narrow (h + 1) d] start stop fun S => S stop ⟨h + 1, d⟩ := by
  cases op <;> exact .plain hlies rfl rfl (Nat.le_add_left 1 h) trivial rfl

/-- The jump of a logical operator takes the left operand, or leads away with it. -/
theorem leads_shortcut {op : LogicalOp} {target : ℕ}
    (hlies : p.chunk.Jumps start op.jumpKind target stop) :
    Plan.Leads p inFunction [.wide (h + 1) d] start stop
      fun S => S stop ⟨h, d⟩ ∧ S target ⟨h + 1, d⟩ := by
  obtain ⟨distance, hat, hnonneg, rfl⟩ := hlies.target
  refine .single hat rfl ?_ trivial hnonneg ?_
  · cases op <;> exact Nat.le_add_left 1 h
  · rintro S ⟨hnext, hgoal⟩ g hg
    have hg : g ∈ [(stop, Shape.mk h d), (Instr.target stop distance, Shape.mk (h + 1) d)] := by
      cases op <;> exact hg
    rcases List.mem_cons.1 hg with rfl | hg
    · exact hnext
    · obtain rfl := List.mem_singleton.1 hg
      exact hgoal

end

mutual

/-- **Where an expression lies, its plan is obeyed.** -/
theorem leads_expr (p : Proto) (inFunction : Bool) : ∀ (e : Expr) (start stop h d : ℕ),
    e.Lies p start stop →
    (e.plan h d).Leads p inFunction start stop fun S => S stop ⟨h + 1, d⟩
  | .atom a _ _, start, stop, h, d, hlies => by
      rw [Expr.plan]
      exact leads_atom h d hlies
  | .group inner, start, stop, h, d, hlies => by
      rw [Expr.plan]
      exact leads_expr p inFunction inner start stop h d hlies
  | .unary op operand, start, stop, h, d, hlies => by
      obtain ⟨a, hoperand, hop⟩ := hlies
      rw [Expr.plan]
      exact (leads_expr p inFunction operand start a h d hoperand).seq (leads_unary h d hop)
        (Plan.begins_cons _ _)
  | .binary op left right, start, stop, h, d, hlies => by
      obtain ⟨a, b, hleft, hright, hop⟩ := hlies
      rw [Expr.plan, List.append_assoc]
      refine (leads_expr p inFunction left start a h d hleft).seq ?_
        ((begins_exprPlan (h + 1) d right).append _)
      exact (leads_expr p inFunction right a b (h + 1) d hright).seq (leads_binary h d hop)
        (Plan.begins_cons _ _)
  | .logical op left right, start, stop, h, d, hlies => by
      obtain ⟨a, b, hleft, hjump, hright⟩ := hlies
      rw [Expr.plan]
      refine (leads_expr p inFunction left start a h d hleft).seq ?_ (Plan.begins_cons _ _)
      exact (leads_shortcut h d hjump).append (leads_expr p inFunction right b stop h d hright)
        fun S hS hgoal => ⟨(begins_exprPlan h d right).within hS, hgoal⟩
  | .assignName name value, start, stop, h, d, hlies => by
      obtain ⟨a, hvalue, w, hat, hname⟩ := hlies
      rw [Expr.plan]
      exact (leads_expr p inFunction value start a h d hvalue).seq
        (.plain hat rfl rfl (Nat.le_add_left 1 h) (finds_of_text? hname) rfl)
        (Plan.begins_cons _ _)
  | .assignProperty object name value, start, stop, h, d, hlies => by
      obtain ⟨a, b, hobject, hvalue, w, hat, hname⟩ := hlies
      rw [Expr.plan, List.append_assoc]
      refine (leads_expr p inFunction object start a h d hobject).seq ?_
        ((begins_exprPlan (h + 1) d value).append _)
      exact (leads_expr p inFunction value a b (h + 1) d hvalue).seq
        (.plain hat rfl rfl (Nat.le_add_left 2 h) (finds_of_text? hname) rfl)
        (Plan.begins_cons _ _)
  | .assignIndex object index value, start, stop, h, d, hlies => by
      obtain ⟨a, b, c, hobject, hindex, hvalue, hat⟩ := hlies
      rw [Expr.plan, List.append_assoc, List.append_assoc]
      refine (leads_expr p inFunction object start a h d hobject).seq ?_
        ((begins_exprPlan (h + 1) d index).append _)
      refine (leads_expr p inFunction index a b (h + 1) d hindex).seq ?_
        ((begins_exprPlan (h + 2) d value).append _)
      exact (leads_expr p inFunction value b c (h + 2) d hvalue).seq
        (.plain hat rfl rfl (Nat.le_add_left 3 h) trivial rfl) (Plan.begins_cons _ _)
  | .call callee arguments, start, stop, h, d, hlies => by
      obtain ⟨a, b, hcallee, harguments, w, hat, hcount⟩ := hlies
      rw [Expr.plan, List.append_assoc]
      have hlast : Plan.Leads p inFunction [.wide (h + 1 + arguments.length) d] b stop
          fun S => S stop ⟨h + 1, d⟩ := by
        rw [Nat.add_assoc, Nat.add_comm 1]
        exact .gathers hat rfl rfl (congrArg (· + 1) hcount) rfl rfl trivial
      refine (leads_expr p inFunction callee start a h d hcallee).seq ?_
        (begins_exprsPlan (h + 1) d arguments)
      exact (leads_exprs p inFunction arguments a b (h + 1) d harguments).seq hlast
        (Plan.begins_cons _ _)
  | .property object name, start, stop, h, d, hlies => by
      obtain ⟨a, hobject, w, hat, hname⟩ := hlies
      rw [Expr.plan]
      exact (leads_expr p inFunction object start a h d hobject).seq
        (.plain hat rfl rfl (Nat.le_add_left 1 h) (finds_of_text? hname) rfl)
        (Plan.begins_cons _ _)
  | .index object index, start, stop, h, d, hlies => by
      obtain ⟨a, b, hobject, hindex, hat⟩ := hlies
      rw [Expr.plan, List.append_assoc]
      refine (leads_expr p inFunction object start a h d hobject).seq ?_
        ((begins_exprPlan (h + 1) d index).append _)
      exact (leads_expr p inFunction index a b (h + 1) d hindex).seq
        (.plain hat rfl rfl (Nat.le_add_left 2 h) trivial rfl) (Plan.begins_cons _ _)
  | .array elements, start, stop, h, d, hlies => by
      obtain ⟨a, helements, w, hat, hcount⟩ := hlies
      rw [Expr.plan]
      exact (leads_exprs p inFunction elements start a h d helements).seq
        (.gathers hat rfl rfl hcount rfl rfl trivial) (Plan.begins_cons _ _)
  | .object entries, start, stop, h, d, hlies => by
      obtain ⟨a, hentries, w, hat, hcount⟩ := hlies
      rw [Expr.plan]
      exact (leads_entries p inFunction entries start a h d hentries).seq
        (.gathers hat rfl rfl (congrArg (2 * ·) hcount) rfl rfl trivial) (Plan.begins_cons _ _)
  | .function decl, start, stop, h, d, hlies => by
      rw [Expr.plan]
      exact leads_makes h d hlies.1 hlies.2

theorem leads_exprs (p : Proto) (inFunction : Bool) : ∀ (es : List Expr) (start stop h d : ℕ),
    exprsLie p es start stop →
    (exprsPlan h d es).Leads p inFunction start stop fun S => S stop ⟨h + es.length, d⟩
  | [], start, stop, h, d, hlies => by
      obtain rfl : start = stop := hlies
      rw [exprsPlan]
      exact .nil start _
  | [e], start, stop, h, d, hlies => by
      obtain ⟨a, he, rfl⟩ := hlies
      rw [exprsPlan, exprsPlan, List.append_nil]
      exact leads_expr p inFunction e start a h d he
  | e :: next :: rest, start, stop, h, d, hlies => by
      obtain ⟨a, he, hrest⟩ := hlies
      have hlength : h + (e :: next :: rest).length = h + 1 + (next :: rest).length := by
        simp only [List.length_cons]
        omega
      rw [exprsPlan, hlength]
      refine (leads_expr p inFunction e start a h d he).seq
        (leads_exprs p inFunction (next :: rest) a stop (h + 1) d hrest) ?_
      rw [exprsPlan]
      exact (begins_exprPlan (h + 1) d next).append _

theorem leads_entries (p : Proto) (inFunction : Bool) :
    ∀ (entries : List (String × Expr)) (start stop h d : ℕ), entriesLie p entries start stop →
    (entriesPlan h d entries).Leads p inFunction start stop
      fun S => S stop ⟨h + 2 * entries.length, d⟩
  | [], start, stop, h, d, hlies => by
      obtain rfl : start = stop := hlies
      rw [entriesPlan]
      exact .nil start _
  | (key, e) :: rest, start, stop, h, d, hlies => by
      obtain ⟨a, b, hkey, he, hrest⟩ := hlies
      have hlength : h + 2 * ((key, e) :: rest).length = h + 2 + 2 * rest.length := by
        rw [List.length_cons]
        omega
      rw [entriesPlan, hlength]
      have hothers := leads_entries p inFunction rest b stop (h + 2) d hrest
      refine (leads_pushes h d hkey).seq ?_ ((begins_exprPlan (h + 1) d e).append _)
      refine (leads_expr p inFunction e a b (h + 1) d he).append hothers fun S hS hgoal => ?_
      -- The last entry may be followed by nothing.
      cases rest with
      | nil =>
          obtain rfl : b = stop := hrest
          exact hgoal
      | cons entry rest =>
          rw [entriesPlan] at hS
          exact (Plan.begins_cons _ _).within hS

end

/-! ### Parts of statements -/

section

variable {p : Proto} {inFunction : Bool} {start stop target : ℕ} (d : ℕ)

theorem leads_value {value : Option Expr} (hlies : valueLies p value start stop) :
    (valuePlan d value).Leads p inFunction start stop fun S => S stop ⟨1, d⟩ := by
  cases value with
  | some e => exact leads_expr p inFunction e start stop 0 d hlies
  | none => exact leads_pushes 0 d hlies

theorem leads_goto {operands : ℕ} (hlies : p.chunk.Jumps start .always target stop) :
    Plan.Leads p inFunction [.wide operands d] start stop fun S => S target ⟨operands, d⟩ := by
  obtain ⟨distance, hat, hnonneg, rfl⟩ := hlies.target
  refine .single hat rfl (Nat.zero_le _) trivial hnonneg fun S hS g hg => ?_
  obtain rfl := List.mem_singleton.1 hg
  exact hS

theorem leads_jumpIfFalse (hlies : p.chunk.Jumps start .ifFalse target stop) :
    Plan.Leads p inFunction [.wide 1 d] start stop
      fun S => S stop ⟨0, d⟩ ∧ S target ⟨0, d⟩ := by
  obtain ⟨distance, hat, hnonneg, rfl⟩ := hlies.target
  refine .single hat rfl (Nat.le_refl 1) trivial hnonneg ?_
  rintro S ⟨hnext, hS⟩ g hg
  rcases List.mem_cons.1 hg with rfl | hg
  · exact hnext
  · obtain rfl := List.mem_singleton.1 hg
    exact hS

theorem leads_opening (hlies : p.chunk.At start .pushScope stop) :
    Plan.Leads p inFunction [.opening d] start stop fun S => S stop ⟨0, d + 1⟩ := by
  refine .single hlies rfl (Nat.zero_le _) trivial rfl fun S hS g hg => ?_
  obtain rfl := List.mem_singleton.1 hg
  exact hS

theorem leads_closing (hlies : p.chunk.At start .popScope stop) :
    Plan.Leads p inFunction [.narrow 0 (d + 1)] start stop fun S => S stop ⟨0, d⟩ := by
  refine .single hlies rfl (Nat.zero_le _) trivial (Nat.succ_pos d) fun S hS g hg => ?_
  obtain rfl := List.mem_singleton.1 hg
  exact hS

theorem leads_closes {count : ℕ} (hlies : p.chunk.Closes count start stop) (hle : count ≤ d) :
    (closingPlan d count).Leads p inFunction start stop fun S => S stop ⟨0, d - count⟩ := by
  induction count generalizing start d with
  | zero =>
      obtain rfl : start = stop := hlies
      exact .nil start _
  | succ count ih =>
      obtain ⟨a, hclose, hrest⟩ := hlies
      obtain ⟨n, rfl⟩ : ∃ n, d = n + 1 := ⟨d - 1, by omega⟩
      have hothers := ih n hrest (by omega)
      have hdepth : n + 1 - (count + 1) = n - count := by omega
      rw [hdepth]
      refine (leads_closing n hclose).append hothers fun S hS hgoal => ?_
      -- The last one may be followed by nothing.
      cases count with
      | zero =>
          obtain rfl : a = stop := hrest
          exact hgoal
      | succ count => exact (Plan.begins_cons _ _).within hS

theorem leads_leaving {count middle : ℕ} (hcloses : p.chunk.Closes count start middle)
    (hjump : p.chunk.Jumps middle .always target stop) (hle : count ≤ d) :
    (leavingPlan d (some count)).Leads p inFunction start stop
      fun S => S target ⟨0, d - count⟩ :=
  (leads_closes d hcloses hle).seq (leads_goto (d - count) hjump) (Plan.begins_cons _ _)

theorem leads_test {exit : ℕ} {condition : Option Expr}
    (hlies : testLies p exit condition start stop) :
    (testPlan d condition).Leads p inFunction start stop
      fun S => S stop ⟨0, d⟩ ∧ S exit ⟨0, d⟩ := by
  cases condition with
  | none =>
      obtain rfl : start = stop := hlies
      exact .nil start _
  | some e =>
      obtain ⟨a, he, hjump⟩ := hlies
      exact (leads_expr p inFunction e start a 0 d he).seq (leads_jumpIfFalse d hjump)
        (Plan.begins_cons _ _)

theorem leads_expression {e : Expr} {middle : ℕ} (he : e.Lies p start middle)
    (hpop : p.chunk.At middle .pop stop) :
    Plan.Leads p inFunction (e.plan 0 d ++ [.narrow 1 d]) start stop fun S => S stop ⟨0, d⟩ :=
  (leads_expr p inFunction e start middle 0 d he).seq
    (.plain hpop rfl rfl (Nat.le_refl 1) trivial rfl) (Plan.begins_cons _ _)

theorem leads_increment {increment : Option Expr} (hlies : incrementLies p increment start stop) :
    (incrementPlan d increment).Leads p inFunction start stop fun S => S stop ⟨0, d⟩ := by
  cases increment with
  | none =>
      obtain rfl : start = stop := hlies
      exact .nil start _
  | some e =>
      obtain ⟨a, he, hpop⟩ := hlies
      exact leads_expression d he hpop

theorem leads_declares {w : UInt32} {name : String} {kind : BindingKind}
    (hat : p.chunk.At start (.declare w kind) stop)
    (hname : p.chunk.pool.text? w.toNat = some name) :
    Plan.Leads p inFunction [.declaring d] start stop fun S => S stop ⟨0, d⟩ :=
  .plain hat rfl rfl (Nat.le_refl 1) (finds_of_text? hname) rfl

theorem leads_binds {decl : FunctionDecl} (hdecl : decl.name.isSome → decl.Lies)
    (hlies : p.Binds decl start stop) :
    (decl.bindPlan d).Leads p inFunction start stop fun S => S stop ⟨0, d⟩ := by
  unfold FunctionDecl.bindPlan
  cases hname : decl.name with
  | none =>
      simp only [Proto.Binds, hname] at hlies
      subst hlies
      exact .nil start _
  | some name =>
      simp only [Proto.Binds, hname] at hlies
      obtain ⟨a, hmakes, w, hat, htext⟩ := hlies
      exact (leads_makes 0 d hmakes (hdecl (by rw [hname]; rfl))).seq
        (leads_declares d hat htext) (Plan.begins_cons _ _)

theorem leads_hoist {body : List Stmt} (hlies : hoistLies p body start stop) :
    (hoistPlan d body).Leads p inFunction start stop fun S => S stop ⟨0, d⟩ := by
  induction body generalizing start with
  | nil =>
      obtain rfl : start = stop := hlies
      exact .nil start _
  | cons s rest ih =>
      cases s with
      | function decl =>
          obtain ⟨hdecl, a, hbinds, hrest⟩ := hlies
          have hothers := ih hrest
          exact (leads_binds d hdecl hbinds).append hothers
            (hothers.enter (starts_hoistPlan d rest) fun _ h => h)
      | _ => exact ih hlies

end

/-! ### Statements -/

/-- The exits of a loop have the shape of its body, seen from inside so many scopes. -/
def Exits.Known (S : ℕ → Shape → Prop) (d : ℕ) (e : Exits) : Prop :=
  S e.breakTo ⟨0, d - e.depth⟩ ∧ S e.continueTo ⟨0, d - e.depth⟩

/-- The places that a statement leads to have the shapes that it leaves there. -/
def Leaves (exits : Option Exits) (d stop : ℕ) (S : ℕ → Shape → Prop) : Prop :=
  S stop ⟨0, d⟩ ∧ ∀ e, exits = some e → e.Known S d

/-- No loop is entered in fewer scopes than its exits are away. -/
def Reachable (exits : Option Exits) (d : ℕ) : Prop :=
  ∀ e, exits = some e → e.depth ≤ d

theorem leaves_none {d stop : ℕ} {S : ℕ → Shape → Prop} (h : S stop ⟨0, d⟩) :
    Leaves none d stop S :=
  ⟨h, fun _ he => nomatch he⟩

theorem reachable_none (d : ℕ) : Reachable none d :=
  fun _ he => nomatch he

/-- The body of a loop leaves for the exits of the loop. -/
theorem leaves_loop {d stop breakTo continueTo : ℕ} {S : ℕ → Shape → Prop} (hstop : S stop ⟨0, d⟩)
    (hbreak : S breakTo ⟨0, d⟩) (hcontinue : S continueTo ⟨0, d⟩) :
    Leaves (some ⟨⟨breakTo, continueTo⟩, 0⟩) d stop S := by
  refine ⟨hstop, fun e he => ?_⟩
  obtain rfl := Option.some.inj he
  exact ⟨hbreak, hcontinue⟩

theorem reachable_loop (targets : Targets) (d : ℕ) : Reachable (some ⟨targets, 0⟩) d := by
  intro e he
  obtain rfl := Option.some.inj he
  exact Nat.zero_le d

/-- In one more scope, the exits are one scope further away. -/
theorem Leaves.deeper {exits : Option Exits} {d stop inner : ℕ} {S : ℕ → Shape → Prop}
    (h : Leaves exits d stop S) (hinner : S inner ⟨0, d + 1⟩) :
    Leaves (exits.map Exits.deeper) (d + 1) inner S := by
  refine ⟨hinner, fun e he => ?_⟩
  obtain ⟨e', he', rfl⟩ := Option.map_eq_some_iff.1 he
  obtain ⟨hbreak, hcontinue⟩ := h.2 e' he'
  have hdepth : d + 1 - (e'.depth + 1) = d - e'.depth := Nat.add_sub_add_right d 1 e'.depth
  exact ⟨hdepth.symm ▸ hbreak, hdepth.symm ▸ hcontinue⟩

theorem Reachable.deeper {exits : Option Exits} {d : ℕ} (h : Reachable exits d) :
    Reachable (exits.map Exits.deeper) (d + 1) := by
  intro e he
  obtain ⟨e', he', rfl⟩ := Option.map_eq_some_iff.1 he
  exact Nat.succ_le_succ (h e' he')

section

variable {p : Proto} {inFunction : Bool} {exits : Option Exits} {condition : Expr}
  {bindings success failure body : Plan} {start a b c e f stop d : ℕ}

/-- A block, in which functions are bound before its statements. -/
theorem leads_block (hopen : p.chunk.At start .pushScope a)
    (hbindings : bindings.Leads p inFunction a b fun S => S b ⟨0, d + 1⟩)
    (hbody : body.Leads p inFunction b c (Leaves (exits.map Exits.deeper) (d + 1) c))
    (hclose : p.chunk.At c .popScope stop) (hbindingsStart : bindings.Starts ⟨0, d + 1⟩)
    (hbodyStarts : body.Starts ⟨0, d + 1⟩) :
    Plan.Leads p inFunction (.opening d :: (bindings ++ body ++ [.narrow 0 (d + 1)])) start stop
      (Leaves exits d stop) := by
  have hinner := hbindings.append hbody (hbody.enter hbodyStarts fun _ hgoal => hgoal.1)
  have hleave : Plan.Leads p inFunction [.narrow 0 (d + 1)] c stop (Leaves exits d stop) :=
    (leads_closing d hclose).mono fun _ _ hgoal => hgoal.1
  refine (leads_opening d hopen).seq (hinner.append hleave fun S hS hgoal => ?_) ?_
  · exact hgoal.deeper ((Plan.begins_cons _ _).within hS)
  · exact (hbindingsStart.append hbodyStarts).append_begins (Plan.begins_cons _ _)

theorem leads_conditional (hcondition : condition.Lies p start a)
    (hskip : p.chunk.Jumps a .ifFalse stop b)
    (hsuccess : success.Leads p inFunction b stop (Leaves exits d stop))
    (hstarts : success.Starts ⟨0, d⟩) :
    Plan.Leads p inFunction (condition.plan 0 d ++ .wide 1 d :: success) start stop
      (Leaves exits d stop) := by
  refine (leads_expr p inFunction condition start a 0 d hcondition).seq ?_ (Plan.begins_cons _ _)
  refine (leads_jumpIfFalse d hskip).append hsuccess fun S hS hgoal => ⟨?_, hgoal.1⟩
  exact hsuccess.enter hstarts (fun _ h => h.1) S hS hgoal

theorem leads_conditionalElse (hcondition : condition.Lies p start a)
    (hskip : p.chunk.Jumps a .ifFalse e b)
    (hsuccess : success.Leads p inFunction b c (Leaves exits d c))
    (hpass : p.chunk.Jumps c .always stop e)
    (hfailure : failure.Leads p inFunction e stop (Leaves exits d stop))
    (hstartsSuccess : success.Starts ⟨0, d⟩) (hstartsFailure : failure.Starts ⟨0, d⟩) :
    Plan.Leads p inFunction
      (condition.plan 0 d ++ .wide 1 d :: (success ++ .wide 0 d :: failure)) start stop
      (Leaves exits d stop) := by
  have hgoto : Plan.Leads p inFunction [.wide 0 d] c e fun S => S stop ⟨0, d⟩ :=
    leads_goto d hpass
  have hrest := hsuccess.append (hgoto.append hfailure fun _ _ hgoal => hgoal.1)
    fun S hS hgoal => ⟨(Plan.begins_cons _ _).within hS, hgoal.2⟩
  refine (leads_expr p inFunction condition start a 0 d hcondition).seq ?_ (Plan.begins_cons _ _)
  refine (leads_jumpIfFalse d hskip).append hrest fun S hS hgoal => ⟨?_, ?_⟩
  · exact (hstartsSuccess.append_begins (Plan.begins_cons _ _)).within hS
  · exact hfailure.enter hstartsFailure (fun _ h => h.1) S (hgoto.behind (hsuccess.behind hS))
      hgoal

theorem leads_whileLoop (hcondition : condition.Lies p start a)
    (hskip : p.chunk.Jumps a .ifFalse stop b)
    (hbody : body.Leads p inFunction b c (Leaves (some ⟨⟨stop, start⟩, 0⟩) d c))
    (hback : p.chunk.Jumps c .always start stop) (hstarts : body.Starts ⟨0, d⟩) :
    Plan.Leads p inFunction (condition.plan 0 d ++ .wide 1 d :: (body ++ [.wide 0 d])) start stop
      (Leaves exits d stop) := by
  have hround := hbody.append
    ((leads_goto d hback).mono (G := fun S => S stop ⟨0, d⟩ ∧ S start ⟨0, d⟩)
      fun _ _ hgoal => hgoal.2)
    fun S hS hgoal => leaves_loop ((Plan.begins_cons _ _).within hS) hgoal.1 hgoal.2
  have hloop := (leads_expr p inFunction condition start a 0 d hcondition).seq
    ((leads_jumpIfFalse d hskip).append hround fun S hS hgoal =>
      ⟨(hstarts.append_begins (Plan.begins_cons _ _)).within hS, hgoal.1⟩)
    (Plan.begins_cons _ _)
  -- The way back leads to where the condition starts.
  exact hloop.mono fun S hS hgoal =>
    ⟨hgoal.1, ((begins_exprPlan 0 d condition).append _).within hS⟩

theorem begins_rounds (hstarts : body.Starts ⟨0, d⟩) (test increment : Option Expr) :
    Plan.Begins ⟨0, d⟩
      (testPlan d test ++ (body ++ (incrementPlan d increment ++ [.wide 0 d]))) :=
  (starts_testPlan d test).append_begins
    (hstarts.append_begins ((starts_incrementPlan d increment).append_begins
      (Plan.begins_cons _ _)))

/-- The rounds of a counting loop: its test, its body, and what it does after each round. -/
theorem leads_rounds {test increment : Option Expr} (htest : testLies p f test a b)
    (hbody : body.Leads p inFunction b c (Leaves (some ⟨⟨f, c⟩, 0⟩) d c))
    (hincrement : incrementLies p increment c e) (hback : p.chunk.Jumps e .always a f)
    (hstarts : body.Starts ⟨0, d⟩) :
    Plan.Leads p inFunction
      (testPlan d test ++ (body ++ (incrementPlan d increment ++ [.wide 0 d]))) a f
      fun S => S f ⟨0, d⟩ := by
  have hnextBegins : Plan.Begins ⟨0, d⟩ (incrementPlan d increment ++ [.wide 0 d]) :=
    (starts_incrementPlan d increment).append_begins (Plan.begins_cons _ _)
  have hroundBegins := hstarts.append_begins hnextBegins
  have hgoto : Plan.Leads p inFunction [.wide 0 d] e f fun S => S a ⟨0, d⟩ := leads_goto d hback
  have hnext := (leads_increment d hincrement).seq hgoto (Plan.begins_cons _ _)
  have hround := hbody.append
    (hnext.mono (G := fun S => S f ⟨0, d⟩ ∧ S a ⟨0, d⟩) fun _ _ hgoal => hgoal.2)
    fun S hS hgoal => leaves_loop (hnextBegins.within hS) hgoal.1 (hnextBegins.within hS)
  have hloop := (leads_test d htest).append hround
    fun S hS hgoal => ⟨hroundBegins.within hS, hgoal.1⟩
  -- The way back leads to where the condition starts.
  exact hloop.mono fun S hS hgoal => ⟨hgoal, (begins_rounds hstarts test increment).within hS⟩

end

mutual

/-- **Where a statement lies, its plan is obeyed.** -/
theorem leads_stmt (p : Proto) (inFunction : Bool) : ∀ (s : Stmt) (start stop d : ℕ)
    (exits : Option Exits) (hoisted : Bool), s.Lies p exits inFunction hoisted start stop →
    Reachable exits d →
    (s.plan hoisted (exits.map Exits.depth) d).Leads p inFunction start stop (Leaves exits d stop)
  | .declare kind name initial _, start, stop, d, exits, hoisted, hlies, _ => by
      obtain ⟨a, hvalue, w, hat, hname⟩ := hlies
      rw [Stmt.plan]
      exact ((leads_value d hvalue).seq (leads_declares d hat hname) (Plan.begins_cons _ _)).mono
        fun _ _ hgoal => hgoal.1
  | .function decl, start, stop, d, exits, true, hlies, _ => by
      obtain rfl : start = stop := hlies
      rw [Stmt.plan]
      exact .nil start _
  | .function decl, start, stop, d, exits, false, hlies, _ => by
      obtain ⟨hdecl, hbinds⟩ := hlies
      rw [Stmt.plan]
      exact (leads_binds d hdecl hbinds).mono fun _ _ hgoal => hgoal.1
  | .expression e _, start, stop, d, exits, hoisted, hlies, _ => by
      obtain ⟨a, he, hpop⟩ := hlies
      rw [Stmt.plan]
      exact (leads_expression d he hpop).mono fun _ _ hgoal => hgoal.1
  | .block body _, start, stop, d, exits, hoisted, hlies, hdepth => by
      obtain ⟨a, b, c, hopen, hbindings, hbody, hclose⟩ := hlies
      rw [Stmt.plan, map_depth_deeper]
      exact leads_block hopen (leads_hoist (d + 1) hbindings)
        (leads_stmts p inFunction body b c (d + 1) _ hbody hdepth.deeper) hclose
        (starts_hoistPlan (d + 1) body) (starts_stmtsPlan _ (d + 1) body)
  | .conditional condition success none _, start, stop, d, exits, hoisted, hlies, hdepth => by
      obtain ⟨a, b, hcondition, hskip, hsuccess⟩ := hlies
      rw [Stmt.plan]
      exact leads_conditional hcondition hskip
        (leads_stmt p inFunction success b stop d exits false hsuccess hdepth)
        (starts_stmtPlan false _ d success)
  | .conditional condition success (some failure) _, start, stop, d, exits, hoisted, hlies,
      hdepth => by
      obtain ⟨a, b, c, e, hcondition, hskip, hsuccess, hpass, hfailure⟩ := hlies
      rw [Stmt.plan]
      exact leads_conditionalElse hcondition hskip
        (leads_stmt p inFunction success b c d exits false hsuccess hdepth) hpass
        (leads_stmt p inFunction failure e stop d exits false hfailure hdepth)
        (starts_stmtPlan false _ d success) (starts_stmtPlan false _ d failure)
  | .whileLoop condition body _, start, stop, d, exits, hoisted, hlies, _ => by
      obtain ⟨a, b, c, hcondition, hskip, hbody, hback⟩ := hlies
      rw [Stmt.plan]
      exact leads_whileLoop hcondition hskip
        (leads_stmt p inFunction body b c d _ false hbody (reachable_loop _ d)) hback
        (starts_stmtPlan false (some 0) d body)
  | .forLoop first condition increment body _, start, stop, d, exits, hoisted, hlies, _ => by
      obtain ⟨a, b, c, d', e, f, hopen, hfirst, htest, hbody, hincrement, hback, hclose⟩ := hlies
      rw [Stmt.plan]
      have hstarts := starts_stmtPlan false (some 0) (d + 1) body
      have hrounds := leads_rounds htest
        (leads_stmt p inFunction body c d' (d + 1) _ false hbody (reachable_loop _ (d + 1)))
        hincrement hback hstarts
      have hbegins := begins_rounds hstarts condition increment
      have hleave : Plan.Leads p inFunction [.narrow 0 (d + 1)] f stop (Leaves exits d stop) :=
        (leads_closing d hclose).mono fun _ _ hgoal => hgoal.1
      refine (leads_opening d hopen).seq ?_
        ((starts_startPlan (d + 1) first).append_begins (hbegins.append _))
      exact (leads_start p inFunction first a b (d + 1) hfirst).seq
        (hrounds.seq hleave (Plan.begins_cons _ _)) (hbegins.append _)
  | .returnValue value _, start, stop, d, exits, hoisted, hlies, _ => by
      obtain ⟨hin, a, hvalue, hat⟩ := hlies
      rw [Stmt.plan]
      refine (leads_value d hvalue).seq (.single hat rfl (Nat.le_refl 1) trivial ⟨hin, rfl⟩ ?_)
        (Plan.begins_cons _ _)
      exact fun S _ g hg => nomatch hg
  | .breakLoop _, start, stop, d, exits, hoisted, hlies, hdepth => by
      obtain ⟨e, a, rfl, hcloses, hjump⟩ := hlies
      rw [Stmt.plan]
      exact (leads_leaving d hcloses hjump (hdepth e rfl)).mono fun _ _ hgoal => (hgoal.2 e rfl).1
  | .continueLoop _, start, stop, d, exits, hoisted, hlies, hdepth => by
      obtain ⟨e, a, rfl, hcloses, hjump⟩ := hlies
      rw [Stmt.plan]
      exact (leads_leaving d hcloses hjump (hdepth e rfl)).mono fun _ _ hgoal => (hgoal.2 e rfl).2
  | .empty _, start, stop, d, exits, hoisted, hlies, _ => by
      obtain rfl : start = stop := hlies
      rw [Stmt.plan]
      exact .nil start _

theorem leads_stmts (p : Proto) (inFunction : Bool) : ∀ (body : List Stmt) (start stop d : ℕ)
    (exits : Option Exits), stmtsLie p exits inFunction body start stop → Reachable exits d →
    (stmtsPlan (exits.map Exits.depth) d body).Leads p inFunction start stop (Leaves exits d stop)
  | [], start, stop, d, exits, hlies, _ => by
      obtain rfl : start = stop := hlies
      rw [stmtsPlan]
      exact .nil start _
  | s :: rest, start, stop, d, exits, hlies, hdepth => by
      obtain ⟨a, hs, hrest⟩ := hlies
      rw [stmtsPlan]
      have hothers := leads_stmts p inFunction rest a stop d exits hrest hdepth
      refine (leads_stmt p inFunction s start a d exits true hs hdepth).append hothers ?_
      intro S hS hgoal
      exact ⟨hothers.enter (starts_stmtsPlan _ d rest) (fun _ h => h.1) S hS hgoal, hgoal.2⟩

theorem leads_start (p : Proto) (inFunction : Bool) : ∀ (first : Option Stmt) (start stop d : ℕ),
    startLies p inFunction first start stop →
    (startPlan d first).Leads p inFunction start stop fun S => S stop ⟨0, d⟩
  | none, start, stop, d, hlies => by
      obtain rfl : start = stop := hlies
      rw [startPlan]
      exact .nil start _
  | some s, start, stop, d, hlies => by
      rw [startPlan]
      exact (leads_stmt p inFunction s start stop d none true hlies (reachable_none d)).mono
        fun _ _ => leaves_none

end

end Tracepoint
