/-
Patched jumps among other steps.

A jump forward is placed with a distance that means nothing yet, and patched when its target is
reached.  Whatever else is built in between, five bytes stand at its offset and are its own: other
instructions are placed behind them, and other patches hit other jumps.  So a patch finds the jump,
writes its distance and nothing else, and no later step touches the jump, unless it patches it
again.

The distance is the difference of two offsets, from the end of the jump to its target, in a signed
word.  The same word is read when the jump is decoded, and added when a machine takes it.

Main definitions:

* `Builder.Careful` — only jumps are patched that have been placed;
* `Builder.Leads` — **a jump stands at an offset and leads from its end to a target**.

Main results:

* `Builder.standsAt_patchJump` — a patched jump is a jump of its kind, with the distance to the end;
* `Builder.Careful.stands` — a jump that was placed stands where it was placed;
* `Builder.Careful.keeps` — **a jump stays unless it is patched itself**;
* `jumps_patched` — **patches and jumps back lead where they should, and stay**.
-/

import Tracepoint.Proofs.Code.Construction
import Tracepoint.Proofs.Machine.Steps

set_option relaxedAutoImplicit false
set_option autoImplicit false

namespace Tracepoint

namespace Builder

variable {b : Builder} {steps later : List Step} {step : Step} {start line : ℕ} {kind : JumpKind}
variable {d : Int32}

/-! ### Distances -/

/-- A jump stands at an offset of the code, and its distance leads from its end to the target: as a
sum, and for every machine that is at its end and takes it. -/
structure Leads (b : Builder) (start : ℕ) (kind : JumpKind) (d : Int32) (target : ℕ) : Prop where
  decoded : Instr.decodeAt b.code start = .ok (some (.jump kind d, start + Instr.wideSize))
  sum : ((start + Instr.wideSize : ℕ) : Int) + d.toInt = target
  moved : ∀ (site : Site) (s : Store) (stack : List Value),
    Exec.jump d (site.machine s (start + Instr.wideSize) stack) =
      .ok () (site.machine s target stack)

theorem toInt_distance {stop target : ℕ} (hback : stop ≤ target + Chunk.sizeLimit)
    (hforth : target < stop + Chunk.sizeLimit) :
    (stop : Int) + (distance stop target).toInt = target := by
  simp only [Chunk.sizeLimit] at hback hforth
  rw [distance, Int32.toInt_ofInt_of_le (by omega) (by omega)]
  omega

/-- A jump that stands somewhere leads where its distance does. -/
theorem Leads.of_standsAt {target : ℕ} (h : (Instr.jump kind d).StandsAt b.code start)
    (hsum : ((start + Instr.wideSize : ℕ) : Int) + d.toInt = target) :
    b.Leads start kind d target where
  decoded := Instr.decodeAt_eq_iff.2 ⟨h, rfl⟩
  sum := hsum
  moved := fun _ _ _ => Site.run_jump hsum pure

/-! ### What one step leaves -/

/-- An instruction that is emitted stands at the end of what was there. -/
theorem standsAt_emit (b : Builder) (i : Instr) (line : ℕ) :
    i.StandsAt (b.emit i line).code b.size := by
  have h := i.standsAt_append b.code.toList []
  rw [List.append_nil, ← emit_code b i line, Array.length_toList] at h
  exact h

/-- **A patched jump is a jump of its kind, with the distance to the end.** -/
theorem standsAt_patchJump (h : (Instr.jump kind d).StandsAt b.code start) :
    (Instr.jump kind (distance (start + Instr.wideSize) b.size)).StandsAt
      (b.patchJump start).code start := by
  have hsize : start + 5 ≤ b.code.size := h.le_size
  refine .of_operand ?_ ?_
  · rw [getElem?_patchJump (Or.inl (Nat.le_refl _))]
    exact h 0 (Instr.size_pos _)
  · intro k hk
    rw [code_patchJump]
    refine getElem?_overwrite_of_inside hk ?_
    change start + 1 + 4 ≤ b.code.size
    omega

/-- A step that patches no jump, or a jump in front of this one or behind it, leaves it. -/
theorem standsAt_perform (h : (Instr.jump kind d).StandsAt b.code start)
    (hpatch : ∀ other, step = .patch other →
      other + Instr.wideSize ≤ start ∨ start + Instr.wideSize ≤ other) :
    (Instr.jump kind d).StandsAt (b.perform step).code start := by
  intro k hk
  have hsize : start + 5 ≤ b.size := h.le_size
  change k < 5 at hk
  rw [← h k hk]
  refine getElem?_perform (by omega) ?_
  intro other hother
  have hapart := hpatch other hother
  simp only [Instr.wideSize] at hapart
  omega

/-! ### What many steps leave -/

/-- Only jumps are patched that have been placed. -/
def Careful (steps : List Step) : Prop :=
  ∀ before start later, steps = before ++ .patch start :: later →
    ∃ kind d line, Places before start (.jump kind d) line

theorem Careful.of_append (h : Careful (steps ++ later)) : Careful steps := by
  rintro before start rest rfl
  exact h before start (rest ++ later) (by simp)

theorem careful_nil : Careful [] := by
  intro before start later hnil
  simp at hnil

theorem Careful.concat (h : Careful steps)
    (hstep : ∀ start, step = .patch start → ∃ kind d line, Places steps start (.jump kind d) line) :
    Careful (steps ++ [step]) := by
  intro before start later hsteps
  rcases List.eq_nil_or_concat later with rfl | ⟨later, last, rfl⟩
  · obtain ⟨rfl, hlast⟩ := List.append_inj' hsteps rfl
    exact hstep start (by simpa using hlast)
  · rw [List.concat_eq_append, ← List.cons_append, ← List.append_assoc] at hsteps
    obtain ⟨rfl, -⟩ := List.append_inj' hsteps rfl
    exact h before start later rfl

/-- Two jumps lie apart. -/
theorem Places.jumps_apart {other line' : ℕ} {kind' : JumpKind} {d' : Int32}
    (h : Places steps start (.jump kind d) line) (h' : Places steps other (.jump kind' d') line')
    (hne : other ≠ start) : other + Instr.wideSize ≤ start ∨ start + Instr.wideSize ≤ other := by
  rcases Nat.lt_or_gt_of_ne hne with hlt | hgt
  · exact Or.inl (h'.apart h hlt)
  · exact Or.inr (h.apart h' hgt)

/-- A careful step leaves a jump, unless it patches it. -/
theorem Careful.perform (h : Careful (steps ++ [step]))
    (hplaces : Places steps start (.jump kind d) line) {d' : Int32}
    (hstands : (Instr.jump kind d').StandsAt (built steps).code start) (hne : step ≠ .patch start) :
    (Instr.jump kind d').StandsAt (built (steps ++ [step])).code start := by
  rw [built_concat]
  refine standsAt_perform hstands ?_
  rintro other rfl
  obtain ⟨kind', d'', line', hother⟩ := h steps other [] rfl
  exact hplaces.jumps_apart hother fun heq => hne (heq ▸ rfl)

/-- **A jump that was placed stands where it was placed**, with some distance. -/
theorem Careful.stands (h : Careful steps) (hplaces : Places steps start (.jump kind d) line) :
    ∃ d', (Instr.jump kind d').StandsAt (built steps).code start := by
  induction steps using List.reverseRecOn with
  | nil =>
      obtain ⟨before, step, later, hnil, -⟩ := hplaces
      simp at hnil
  | append_singleton steps step ih =>
      rcases places_concat.1 hplaces with hold | ⟨rfl, hplaced⟩
      · obtain ⟨d', hstands⟩ := ih h.of_append hold
        by_cases hpatch : step = .patch start
        · rw [built_concat, hpatch]
          exact ⟨_, standsAt_patchJump hstands⟩
        · exact ⟨d', h.perform hold hstands hpatch⟩
      · rw [built_concat, perform_of_placed hplaced]
        exact ⟨d, standsAt_emit _ _ _⟩

/-- **A jump stays unless it is patched itself.** -/
theorem Careful.keeps (h : Careful (steps ++ later))
    (hplaces : Places steps start (.jump kind d) line) {d' : Int32}
    (hstands : (Instr.jump kind d').StandsAt (built steps).code start)
    (hno : .patch start ∉ later) :
    (Instr.jump kind d').StandsAt (built (steps ++ later)).code start := by
  induction later using List.reverseRecOn with
  | nil => rwa [List.append_nil]
  | append_singleton later step ih =>
      rw [← List.append_assoc] at h ⊢
      rw [List.mem_append, List.mem_singleton, not_or] at hno
      refine h.perform (hplaces.append later) (ih h.of_append hno.1) ?_
      exact fun heq => hno.2 heq.symm

end Builder

open Builder (Step built Places Careful Leads)

/-- **Patches and jumps back lead where they should, and stay.** In code that is built by any steps
of which none patches anything but a jump:

* to patch a jump changes no byte but the four behind its first one; the jump is decoded as one of
  the kind that was placed, and leads from its end to the end of the code;
* a jump back to any place in the code, or to its end, is added at the end and leads there, if its
  distance fits a word, as it does in a chunk below the limit;
* whatever steps follow, none of them patching this jump again, it is decoded as before. -/
theorem jumps_patched (steps : List Step) (hcareful : Careful steps) :
    (∀ start kind d line, Places steps start (.jump kind d) line →
      (built steps).size < Chunk.sizeLimit →
      (∀ k, k ≤ start ∨ start + 4 < k →
        (built (steps ++ [.patch start])).code[k]? = (built steps).code[k]?) ∧
      ∃ d', Leads (built (steps ++ [.patch start])) start kind d' (built steps).size ∧
        ∀ later, Careful (steps ++ .patch start :: later) → .patch start ∉ later →
          Instr.decodeAt (built (steps ++ .patch start :: later)).code start =
            .ok (some (.jump kind d', start + Instr.wideSize))) ∧
    ∀ target line, target ≤ (built steps).size →
      (built steps).size + Instr.wideSize ≤ target + Chunk.sizeLimit →
      ∃ d', (built (steps ++ [.loop target line])).code.toList =
          (built steps).code.toList ++ (Instr.jump .always d').encode ∧
        Leads (built (steps ++ [.loop target line])) (built steps).size .always d' target ∧
        ∀ later, Careful (steps ++ .loop target line :: later) →
          .patch (built steps).size ∉ later →
            Instr.decodeAt (built (steps ++ .loop target line :: later)).code (built steps).size =
              .ok (some (.jump .always d', (built steps).size + Instr.wideSize)) := by
  constructor
  · intro start kind d line hplaces hsize
    obtain ⟨old, hold⟩ := hcareful.stands hplaces
    have hpatched := Builder.standsAt_patchJump hold
    have hbuilt := Builder.built_concat steps (.patch start)
    refine ⟨?_, _, .of_standsAt (hbuilt ▸ hpatched) (Builder.toInt_distance ?_ ?_), ?_⟩
    · intro k hk
      rw [hbuilt]
      exact Builder.getElem?_patchJump hk
    · have hle : start + 5 ≤ (built steps).size := hplaces.le_size
      simp only [Instr.wideSize]
      omega
    · omega
    · intro later hlater hno
      rw [List.append_cons] at hlater ⊢
      refine Instr.decodeAt_eq_iff.2 ⟨hlater.keeps (hplaces.append _) (hbuilt ▸ hpatched) hno, rfl⟩
  · intro target line htarget hsize
    have hbuilt := Builder.built_concat steps (.loop target line)
    have hemitted := Builder.standsAt_emit (built steps)
      (.jump .always (Builder.distance ((built steps).size + Instr.wideSize) target)) line
    refine ⟨_, ?_, .of_standsAt (hbuilt ▸ hemitted) (Builder.toInt_distance hsize ?_), ?_⟩
    · rw [hbuilt]
      exact Builder.emit_code _ _ _
    · simp only [Chunk.sizeLimit]
      omega
    · intro later hlater hno
      have hplaces : Places (steps ++ [.loop target line]) (built steps).size
          (.jump .always _) line := ⟨steps, _, [], rfl, rfl, rfl⟩
      rw [List.append_cons] at hlater ⊢
      exact Instr.decodeAt_eq_iff.2 ⟨hlater.keeps hplaces (hbuilt ▸ hemitted) hno, rfl⟩

/-- A jump behind a condition, with an instruction to jump over. -/
def conditionalSteps : List Step :=
  [.emit .enter 1, .emit (.jump .ifFalse 0) 2, .emit .pop 2]

/-- The jump is patched and leads to the end, also when the program has ended; and a jump back leads
to the start. -/
theorem jumps_patched_conditional :
    Careful conditionalSteps ∧ Places conditionalSteps 1 (.jump .ifFalse 0) 2 ∧
    (built conditionalSteps).size < Chunk.sizeLimit ∧
    (∃ d, Leads (built (conditionalSteps ++ [.patch 1])) 1 .ifFalse d 7 ∧
      Instr.decodeAt (built (conditionalSteps ++ [.patch 1, .emit .halt 3])).code 1 =
        .ok (some (.jump .ifFalse d, 6))) ∧
    ∃ d, Leads (built (conditionalSteps ++ [.loop 0 4])) 7 .always d 0 := by
  have hsize : (built conditionalSteps).size = 7 := by decide
  have hlimit : (built conditionalSteps).size < Chunk.sizeLimit := by
    rw [hsize]
    decide
  have hplaces : Places conditionalSteps 1 (.jump .ifFalse 0) 2 :=
    ⟨[.emit .enter 1], .emit (.jump .ifFalse 0) 2, _, rfl, rfl, rfl⟩
  have hcareful : Careful conditionalSteps :=
    ((Builder.careful_nil.concat (by simp)).concat (by simp)).concat (by simp)
  have hlater : Careful (conditionalSteps ++ [.patch 1, .emit .halt 3]) := by
    rw [List.append_cons]
    refine (hcareful.concat ?_).concat (by simp)
    intro start hstart
    cases hstart
    exact ⟨_, _, _, hplaces⟩
  obtain ⟨hpatch, hloop⟩ := jumps_patched conditionalSteps hcareful
  obtain ⟨-, d, hleads, hstays⟩ := hpatch 1 .ifFalse 0 2 hplaces hlimit
  obtain ⟨d', -, hback, -⟩ := hloop 0 4 (Nat.zero_le _) (by rw [hsize]; decide)
  refine ⟨hcareful, hplaces, hlimit, ⟨d, ?_, hstays _ hlater (by simp)⟩, d', ?_⟩
  · rw [hsize] at hleads
    exact hleads
  · rw [hsize] at hback
    exact hback

end Tracepoint
