import Mathlib
import WordScheme.Proofs.FunctionRun
import WordScheme.Proofs.LoweringMoves

/-!
# Every lowering goes by moves

`Assembled.proceeds` has one rule for each part of the lowering. So from every proper state an
expression is lowered by moves, to a word if it succeeds, and finds no more functions than it has
lambdas and `let`s: `lower_proceeds`. `LowerState.Builds` is what this gives for whole functions,
those that fail included.
-/

namespace WordScheme

open FunctionDraft LowerState Lower Role

variable {assigned : List Name}

/-! ### Assembled lowerings -/

namespace Role

/-- What a role says of its operand. -/
def Holds (s : LowerState) : Role → Prop
  | .word o => s.Has .word o
  | .callee o => s.Callable o

variable {Γ : List Role} {x : Role} {s t : LowerState}

/-- An operand keeps its role as the state grows. -/
private theorem Holds.grows (h : x.Holds s) (hst : s.Grows t) : x.Holds t := by
  cases x with
  | word o => exact Has.grows h hst
  | callee o => exact Callable.grows h hst

/-- A role that is known holds where the known ones do. -/
private theorem Known.holds (h : Known Γ x) (hΓ : ∀ y ∈ Γ, y.Holds s) : x.Holds s := by
  induction h with
  | given h => exact hΓ _ h
  | constant value => exact has_word s value
  | callee _ ih => exact Has.callable ih

/-- Roles that held go on to hold along with those of a result. -/
private theorem holds_append {Δ : List Role} (hst : s.Grows t) (hΓ : ∀ y ∈ Γ, y.Holds s)
    (hΔ : ∀ y ∈ Δ, y.Holds t) : ∀ y ∈ Δ ++ Γ, y.Holds t :=
  List.forall_mem_append.mpr ⟨hΔ, fun y hy => (hΓ y hy).grows hst⟩

end Role

namespace Lower

variable {V : Vocabulary} {Γ : List Role} {ε : Effect} {α : Type} {m : Lower α}
  {Δ : α → List Role} {s : LowerState}

/-- A part that gives a word. -/
private theorem Proceeds.asWord {n : Nat} {m : Lower Operand}
    (h : Proceeds n s m fun v t => t.Has .word v) :
    Proceeds n s m fun v t => ∀ x ∈ [Role.word v], x.Holds t :=
  h.mono fun _ _ hv => List.forall_mem_singleton.mpr hv

/-- The result of such a part is a word. -/
private theorem Proceeds.of_asWord {n : Nat} {m : Lower Operand}
    (h : Proceeds n s m fun v t => ∀ x ∈ [Role.word v], x.Holds t) :
    Proceeds n s m fun v t => t.Has .word v :=
  h.mono fun _ _ hv => hv _ List.mem_cons_self

/-- **An assembled lowering goes by moves**, finds no more functions than its effect says, and gives
what its result is known for. -/
theorem Assembled.proceeds (h : Assembled V Γ ε m Δ) (hΓ : ∀ x ∈ Γ, x.Holds s) :
    Proceeds ε.count s m fun a t => ∀ x ∈ Δ a, x.Holds t := by
  induction h generalizing s with
  | pure h => exact proceeds_pure fun x hx => (h x hx).holds hΓ
  | throw h => exact proceeds_throw
  | bind _ _ ihm ihf =>
    refine (ihm hΓ).of_run.bind fun a t hst ht => ?_
    exact ihf a s t ht.1 (holds_append hst hΓ ht.2)
  | unlessLeft ha _ ih =>
    refine proceeds_ofDraft_bind ?_
    split
    · exact (proceeds_pure fun x hx => (ha x hx).holds hΓ).weaken (Nat.zero_le _)
    · exact ih hΓ
  | literal value h => exact (lowerLiteral_proceeds value).asWord
  | var name => exact (lowerVariable_proceeds name).asWord
  | calleeVar name =>
    exact (lowerCalleeVariable_proceeds name).mono fun _ _ hf => List.forall_mem_singleton.mpr hf
  | toWord h => exact (toWord_proceeds_of_callable (h.holds hΓ)).asWord
  | lift h => exact (liftLambda_proceeds _).mono fun _ _ hf => List.forall_mem_singleton.mpr hf.1
  | operator op hl hr => exact (lowerOperator_proceeds op (hl.holds hΓ) (hr.holds hΓ)).asWord
  | primitive p hlength hargs =>
    exact (lowerPrimitive_proceeds p hlength fun o ho => (hargs o ho).holds hΓ).asWord
  | application hf hargs =>
    exact (lowerApplication_proceeds (hf.holds hΓ) fun o ho => (hargs o ho).holds hΓ).asWord
  | elements h => exact (lowerElements_proceeds fun o ho => (h o ho).holds hΓ).asWord
  | declare name h =>
    exact (bindLocal_proceeds V.cells name (h.holds hΓ)).mono fun _ _ _ _ hx => nomatch hx
  | assign hname h =>
    exact (lowerAssignment_proceeds _ (h.holds hΓ)).mono fun _ _ _ _ hx => nomatch hx
  | assignGlobal name h =>
    exact (assignGlobal_proceeds name (h.holds hΓ)).mono fun _ _ _ _ hx => nomatch hx
  | returning h => exact (returning_proceeds (h.holds hΓ)).mono fun _ _ _ _ hx => nomatch hx
  | branches hstem hc _ _ ihpos ihneg =>
    refine (lowerBranches_proceeds _ (hc.holds hΓ) (fun t hst => ?_) fun t hst => ?_).asWord
    · exact (ihpos fun x hx => (hΓ x hx).grows hst).of_asWord
    · exact (ihneg fun x hx => (hΓ x hx).grows hst).of_asWord

/-- An assembled lowering of a value gives a word. -/
private theorem Assembled.proceeds_word {m : Lower Operand}
    (h : Assembled V Γ ε m fun v => [.word v]) (hΓ : ∀ x ∈ Γ, x.Holds s) :
    Proceeds ε.count s m fun v t => t.Has .word v :=
  (h.proceeds hΓ).of_asWord

end Lower

/-! ### Expressions -/

section Expressions

open Vocabulary

/-- **Lowering an expression** goes by moves and gives a word. -/
theorem lower_proceeds (e : Expr) (s : LowerState) :
    Proceeds e.functionCount s (lower assigned e) fun v t => t.Has .word v :=
  (lower_assembled (V := all assigned) e covers_all : Assembled _ [] _ _ _).proceeds_word
    fun _ hx => nomatch hx

/-- A sequence is lowered by moves to a word, and finds no more functions than it has. -/
private theorem lowerSequence_proceeds (es : List Expr) (s : LowerState) {value : Operand}
    (hv : s.Has .word value) :
    Proceeds (functionCounts es) s (lowerSequence assigned value es) fun v t => t.Has .word v :=
  (lowerSequence_assembled (V := all assigned) es covers_all known_head :
    Assembled _ [.word value] _ _ _).proceeds_word (List.forall_mem_singleton.mpr hv)

/-- A top level form is lowered by moves to a word. -/
theorem lowerForm_proceeds (form : Expr) (s : LowerState) :
    Proceeds form.functionCount s (lowerForm assigned form) fun v t => t.Has .word v :=
  (lowerForm_assembled (V := all assigned) form covers_all : Assembled _ [] _ _ _).proceeds_word
    fun _ hx => nomatch hx

/-- The top level forms are lowered by moves to a word, and find no more functions than those that
are not skipped have. -/
theorem lowerForms_proceeds (skipped : List Nat) (index : Nat) {value : Operand} (s : LowerState)
    (hv : s.Has .word value) (forms : List Expr) :
    Proceeds (functionCounts (unskipped skipped index forms)) s
      (lowerForms assigned skipped index value forms) fun v t => t.Has .word v :=
  (lowerForms_assembled (V := all assigned) skipped index known_head forms covers_all :
    Assembled _ [.word value] _ _ _).proceeds_word (List.forall_mem_singleton.mpr hv)

end Expressions

/-! ### Bodies -/

/-- A body is lowered by moves to a word, and finds no more functions than it has. -/
theorem lowerBody_proceeds (lambda : Lambda) (s : LowerState) :
    Proceeds (functionCounts lambda.body) s (lowerBody assigned lambda) fun v t =>
      t.Has .word v := by
  refine (spillParams_proceeds assigned lambda.params).andThen fun _ t _ _ => ?_
  refine proceeds_push.andThen fun _ u _ _ => ?_
  refine (lowerSequence_proceeds lambda.body u (has_word u 0)).bind_zero fun v w _ hv => ?_
  exact proceeds_pop.andThen fun _ r hwr _ => proceeds_pure (hv.grows hwr)

/-! ### Whole functions -/

private theorem BlockDraft.eq_of_mapM_finish {bs : List BlockDraft} {blocks : List Block}
    (h : bs.mapM BlockDraft.finish = .ok blocks) : bs = blocks.map Block.toDraft := by
  induction bs generalizing blocks with
  | nil =>
    cases h
    rfl
  | cons b bs ih =>
    rw [List.mapM_cons] at h
    cases hterminator : b.terminator with
    | none =>
      rw [BlockDraft.finish, hterminator] at h
      cases h
    | some t =>
      rw [BlockDraft.finish, hterminator] at h
      cases hbs : bs.mapM BlockDraft.finish with
      | error e =>
        rw [hbs] at h
        cases h
      | ok rest =>
        rw [hbs] at h
        cases h
        rw [List.map_cons, ← ih hbs, Block.toDraft, ← hterminator]

/-- A finished function is made of what the draft has. -/
theorem FunctionDraft.of_finish {d : FunctionDraft} {f : FinishedFunction}
    (h : d.finish = .ok f) :
    ∃ blocks, f = ⟨⟨d.name, .word, wordParams d.params, blocks⟩, d.pending⟩ ∧
      d.blocks.rows = blocks.map Block.toDraft := by
  rw [finish] at h
  cases hblocks : d.blocks.rows.mapM BlockDraft.finish with
  | error e =>
    rw [hblocks] at h
    cases h
  | ok blocks =>
    rw [hblocks] at h
    cases hstray : d.stray? with
    | some label =>
      simp only [hstray] at h
      cases h
    | none =>
      simp only [hstray] at h
      cases h
      exact ⟨blocks, rfl, BlockDraft.eq_of_mapM_finish hblocks⟩

/-- The statements of a finished function stand in the draft. -/
theorem FunctionDraft.contains_of_finish {d : FunctionDraft} {f : FinishedFunction}
    (h : d.finish = .ok f) {b : Block} (hb : b ∈ f.function.blocks) {x : Statement}
    (hx : x ∈ b.statements) : d.Contains x := by
  obtain ⟨blocks, rfl, hrows⟩ := of_finish h
  obtain ⟨i, hi⟩ := List.mem_iff_getElem?.mp hb
  refine ⟨i, b.toDraft, ?_, hx⟩
  rw [block?, Table.get?, hrows, List.getElem?_map, hi]
  rfl

/-- The terminators of a finished function end blocks of the draft. -/
theorem FunctionDraft.endsIn_of_finish {d : FunctionDraft} {f : FinishedFunction}
    (h : d.finish = .ok f) {b : Block} (hb : b ∈ f.function.blocks) : d.EndsIn b.terminator := by
  obtain ⟨blocks, rfl, hrows⟩ := of_finish h
  obtain ⟨i, hi⟩ := List.mem_iff_getElem?.mp hb
  refine ⟨i, b.toDraft, ?_, rfl⟩
  rw [block?, Table.get?, hrows, List.getElem?_map, hi]
  rfl

namespace LowerState

/-- The state in which a function starts. -/
def start (unit : CompileUnit) (name : Name) (params : List Name) (globals : Globals) :
    LowerState :=
  ⟨{ unit with lifted := [] }, .start name params globals⟩

variable (unit : CompileUnit) (name : Name) (params : List Name) (globals : Globals)

/-- A function starts in a proper state. -/
theorem proper_start : (start unit name params globals).Proper := by
  refine ⟨?_, fun frame hf x hx => ?_⟩
  · rintro x r ⟨i, b, hb, hx⟩
    obtain ⟨-, rfl⟩ := Site.block?_start hb
    cases hx
  · obtain ⟨houter, -, hmem⟩ := Scope.foldl_bind_params params Scope.empty.push List.nodup_nil
    -- the frame of the parameters, and the empty one of the top level around it
    rcases List.mem_cons.mp hf with rfl | hf
    · obtain ⟨p, -, rfl⟩ := (hmem x hx).resolve_left List.not_mem_nil
      exact ⟨.param p, .inl rfl⟩
    · have hempty : frame ∈ Scope.empty.push.outer := by
        rw [← houter]
        exact hf
      obtain rfl := List.mem_singleton.mp hempty
      cases hx

/-- Nothing has been written at the start of a function. -/
theorem written_start : (start unit name params globals).Written := by
  refine ⟨?_, ?_⟩
  · rintro x ⟨i, b, hb, hx⟩
    obtain ⟨-, rfl⟩ := Site.block?_start hb
    cases hx
  · rintro t ⟨i, b, hb, ht⟩
    obtain ⟨-, rfl⟩ := Site.block?_start hb
    cases ht

/-- Moves lead from the start of a function to a state in which it is built, or in which that
fails. What is built gives rise to `n` functions at most. -/
structure Builds (n : Nat) (s : LowerState)
    (result : Except CompileError FinishedFunction × CompileUnit) (t : LowerState) : Prop where
  moves : s.Moves t
  unit : result.2 = t.unit
  finish : ∀ f, result.1 = .ok f → t.draft.finish = .ok f
  count : ∀ f, result.1 = .ok f → pendingCount f.pending ≤ n

end LowerState

/-- The end of a function checks its code and changes nothing. -/
private theorem proceeds_finish (s : LowerState) :
    Proceeds 0 s (do match (← get).draft.finish with
      | .ok finished => return finished
      | .error e => throw e : Lower FinishedFunction) fun f t => t.draft.finish = .ok f := by
  refine proceeds_get_bind ?_
  split
  · next hok => exact proceeds_pure hok
  · exact proceeds_throw

/-- A function is lowered by moves as its body is. -/
theorem lowerWhole_proceeds {n : Nat} {s : LowerState} {steps : Lower Operand}
    (h : Proceeds n s steps fun v t => t.Has .word v) :
    Proceeds n s (lowerWhole steps) fun f t => t.draft.finish = .ok f := by
  refine h.bind_zero fun v t _ hv => proceeds_ofDraft_bind ?_
  split
  · exact proceeds_finish t
  · exact (proceeds_ret hv).andThen fun _ u _ _ => proceeds_finish u

private theorem buildFunction_start (unit : CompileUnit) (name : Name) (params : List Name)
    (globals : Globals) (steps : Lower Operand) :
    buildFunction unit (.start name params globals) steps =
      match lowerWhole steps (start unit name params globals) with
      | .ok finished s => (.ok finished, s.unit)
      | .error e s => (.error e, s.unit) :=
  rfl

/-- A body that is lowered by moves to a word builds a function. -/
private theorem exists_builds {n : Nat} (unit : CompileUnit) (name : Name) (params : List Name)
    (globals : Globals) {steps : Lower Operand}
    (h : Proceeds n (start unit name params globals) steps fun v t => t.Has .word v) :
    ∃ t, (start unit name params globals).Builds n
      (buildFunction unit (.start name params globals) steps) t := by
  have hproper := proper_start unit name params globals
  have hwhole := lowerWhole_proceeds h
  rw [buildFunction_start]
  cases hrun : lowerWhole steps (start unit name params globals) with
  | ok f t =>
    obtain ⟨hmoves, hcount, hfinish⟩ := hwhole.ok hproper hrun
    refine ⟨t, hmoves, rfl, fun g hg => ?_, fun g hg => ?_⟩
    · rw [← Except.ok.inj hg]
      exact hfinish
    · obtain ⟨_, hf, -⟩ := FunctionDraft.of_finish hfinish
      rw [← Except.ok.inj hg, hf]
      exact hcount.trans (Nat.zero_add n).le
  | error e t =>
    refine ⟨t, hwhole.error hproper hrun, rfl, ?_, ?_⟩ <;>
    · intro g hg
      cases hg

/-- **Building a function goes by moves**, also where it fails. -/
theorem lowerFunction_builds (unit : CompileUnit) (f : PendingFunction) :
    ∃ t, (start unit f.name f.lambda.params f.globals).Builds (functionCounts f.lambda.body)
      (lowerFunction unit f) t :=
  exists_builds unit _ _ _ (lowerBody_proceeds f.lambda _)

/-- **The entry function is built by moves.** -/
theorem lowerEntry_builds (unit : CompileUnit) (forms : List Expr) (skipped : List Nat)
    (globals : Globals) :
    ∃ t, (start unit unit.entry [] globals).Builds (functionCounts (unskipped skipped 0 forms))
      (lowerEntry unit forms skipped globals) t :=
  exists_builds unit _ _ _ (lowerForms_proceeds skipped 0 _ (has_word _ 0) forms)

end WordScheme
