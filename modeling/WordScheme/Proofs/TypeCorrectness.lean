import Mathlib
import WordScheme.Proofs.Dominance
import WordScheme.Proofs.MoveRun

/-!
# Lowered code is well typed

`Function.WellTyped` says of a function that the operands of all its instructions and terminators
have the types that these ask for, and that a register is read with the type of the instruction that
defines it. All functions that the lowering gives are of this kind, and the value of every
expression is a word, wherever in a function the expression stands.

Where expressions stand is `LowerState.Reached`: what is done between two expressions of a function
are the steps of `Lower.Stage`, so every state in which the lowering of a function comes to an
expression is reached by such steps from the start of the function. The blocks and instructions on
the way may be any.
-/

namespace WordScheme

open FunctionDraft LowerState Lower

/-! ### Expressions -/

/-- What is done between two expressions of a function that assigns to the given names. -/
inductive Lower.Stage (assigned : List Name) : {α : Type} → Lower α → Prop
  | spillParams (params : List Name) : Stage assigned (spillParams assigned params)
  | push : Stage assigned (onScope Scope.push)
  | pop : Stage assigned (onScope Scope.pop)
  | emit (i : Instruction) : Stage assigned (emit i)
  | addBlock (base : Name) : Stage assigned (addBlock base)
  | terminate (t : Terminator) : Stage assigned (terminate t)
  | moveTo (block : BlockRef) : Stage assigned (moveTo block)
  | liftLambda (lambda : Lambda) : Stage assigned (liftLambda lambda)
  | callee (name : Name) : Stage assigned (lowerCalleeVariable name)
  | lower (e : Expr) : Stage assigned (lower assigned e)
  | form (e : Expr) : Stage assigned (lowerForm assigned e)

namespace LowerState

/-- The states in which the lowering of a function that assigns to the given names may come to an
expression. -/
inductive Reached (assigned : List Name) : LowerState → Prop
  | start (unit : CompileUnit) (name : Name) (params : List Name) (globals : Globals) :
      Reached assigned (start unit name params globals)
  | next {α : Type} {s t : LowerState} {m : Lower α} {a : α} (h : Reached assigned s)
      (hm : Stage assigned m) (hrun : m s = .ok a t) : Reached assigned t

variable {assigned : List Name} {s t : LowerState}

/-- A run by moves that succeeds ends in a proper state. -/
private theorem Proper.ok {α : Type} {n : Nat} {m : Lower α} {Q : α → LowerState → Prop} {a : α}
    (h : s.Proper) (hm : Proceeds n s m Q) (hrun : m s = .ok a t) : t.Proper :=
  h.moves (hm.ok h hrun).1

/-- An operation on the draft keeps a state proper if it only adds and keeps the local names. -/
private theorem Proper.tryDraft {f : FunctionDraft → EStateM.Result CompileError FunctionDraft Unit}
    (h : s.Proper)
    (hf : ∀ d, f s.draft = .ok () d → s.Grows { s with draft := d } ∧ d.scope = s.draft.scope)
    (hrun : Lower.tryDraft f s = .ok () t) : t.Proper := by
  rw [tryDraft_eq] at hrun
  cases hd : f s.draft with
  | error e d =>
    rw [hd] at hrun
    cases hrun
  | ok a d =>
    rw [hd] at hrun
    cases hrun
    exact h.grows (hf d hd).1 (hf d hd).2

/-- What is done between two expressions leaves the state proper, whatever is written. -/
private theorem Proper.stage {α : Type} {m : Lower α} {a : α} (h : s.Proper) (hm : Stage assigned m)
    (hrun : m s = .ok a t) : t.Proper := by
  cases hm with
  | spillParams params => exact h.ok (spillParams_proceeds assigned params) hrun
  | push => exact h.ok proceeds_push hrun
  | pop => exact h.ok proceeds_pop hrun
  | emit i =>
    cases hrun
    exact h.grows (grows_emit s i) (emit_scope s.draft i)
  | addBlock base =>
    cases hrun
    exact h.grows (grows_addBlock s base) rfl
  | terminate u =>
    refine h.tryDraft (fun d hd => ?_) hrun
    obtain ⟨-, rfl⟩ := FunctionDraft.of_terminate_ok hd
    exact ⟨grows_endWith s u, rfl⟩
  | moveTo block =>
    refine h.tryDraft (fun d hd => ?_) hrun
    obtain ⟨hlt, rfl⟩ := FunctionDraft.of_moveTo_ok hd
    exact ⟨grows_goTo s hlt, rfl⟩
  | liftLambda lambda => exact h.ok (liftLambda_proceeds lambda) hrun
  | callee name => exact h.ok (lowerCalleeVariable_proceeds name) hrun
  | lower e => exact h.ok (lower_proceeds e s) hrun
  | form e => exact h.ok (lowerForm_proceeds e s) hrun

/-- Every state that lowering reaches is proper. -/
private theorem Reached.proper (h : s.Reached assigned) : s.Proper := by
  induction h with
  | start unit name params globals => exact proper_start unit name params globals
  | next _ hm hrun ih => exact ih.stage hm hrun

end LowerState

/-! ### Functions -/

namespace Function

/-- The statements of a function. -/
def statements (f : Function) : List Statement :=
  f.blocks.flatMap Block.statements

/-- All operands have the types that are asked for, and a register that of its definition. -/
structure WellTyped (f : Function) : Prop where
  instructions : ∀ s ∈ f.statements, s.instruction.WellTyped
  terminators : ∀ b ∈ f.blocks, b.terminator.WellTyped
  registers : ∀ b ∈ f.blocks, ∀ r ty, .register r ty ∈ b.operands →
    (∃ s ∈ f.statements, s.dest = some r) ∧
      ∀ s ∈ f.statements, s.dest = some r → s.instruction.resultTy = ty

variable {f : Function}

/-- A register of a block is the result of a statement. -/
private theorem mem_statements_of_destinations {b : Block} (hb : b ∈ f.blocks) {r : Nat}
    (h : r ∈ destinations b.statements) : ∃ s ∈ f.statements, s.dest = some r := by
  obtain ⟨s, hs, hdest⟩ := List.mem_filterMap.mp h
  exact ⟨s, List.mem_flatMap.mpr ⟨b, hb, hs⟩, hdest⟩

/-- In single assignment form every register that is read is defined. -/
private theorem SingleAssignment.exists_definition (h : f.SingleAssignment) {b : Block}
    (hb : b ∈ f.blocks) {r : Nat} {ty : Ty} (ho : .register r ty ∈ b.operands) :
    ∃ s ∈ f.statements, s.dest = some r := by
  have hbefore : f.DefinedBefore r b.label → ∃ s ∈ f.statements, s.dest = some r := by
    rintro ⟨c, hc, hr, -⟩
    exact mem_statements_of_destinations hc hr
  rw [Block.operands, List.mem_append, List.mem_flatMap] at ho
  rcases ho with ⟨s, hs, ho⟩ | ho
  · obtain ⟨k, hk⟩ := List.mem_iff_getElem?.mp hs
    cases hin : s.instruction.incoming? with
    | none =>
      have hphi : s.instruction.isPhi = false := by
        rw [Instruction.isPhi, hin]
        rfl
      rcases h.statements b hb k s hk hphi r ty ho with hr | hr
      · have hsub := (List.take_sublist k b.statements).filterMap Statement.dest
        exact mem_statements_of_destinations hb (hsub.subset hr)
      · exact hbefore hr
    | some incoming =>
      obtain ⟨ty', hphi⟩ := Instruction.eq_phi_of_incoming? hin
      rw [hphi, Instruction.operands] at ho
      obtain ⟨⟨o, l⟩, hx, rfl⟩ := List.mem_map.mp ho
      obtain ⟨c, hc, hr, -⟩ := h.phis b hb s hs incoming hin r ty l hx
      exact mem_statements_of_destinations hc hr
  · rcases h.terminators b hb r ty ho with hr | hr
    · exact mem_statements_of_destinations hb hr
    · exact hbefore hr

end Function

namespace LowerState

variable {unit : CompileUnit} {name : Name} {params : List Name} {globals : Globals} {n : Nat}
  {result : Except CompileError FinishedFunction × CompileUnit} {t : LowerState}
  {f : FinishedFunction}

/-- What a function is built of may be written. -/
theorem Builds.allows (h : (start unit name params globals).Builds n result t)
    (hf : result.1 = .ok f) {b : Block} (hb : b ∈ f.function.blocks) {x : Statement}
    (hx : x ∈ b.statements) : t.Allows x.instruction :=
  ((written_start unit name params globals).moves h.moves).statements
    (contains_of_finish (h.finish f hf) hb hx)

/-- The terminators of a built function are well typed and refer to what is known. -/
private theorem Builds.terminators (h : (start unit name params globals).Builds n result t)
    (hf : result.1 = .ok f) {b : Block} (hb : b ∈ f.function.blocks) :
    b.terminator.WellTyped ∧ ∀ o ∈ b.terminator.operands, t.Knows o :=
  ((written_start unit name params globals).moves h.moves).terminators
    (endsIn_of_finish (h.finish f hf) hb)

/-- Every operand of a function that is built is known in the end. -/
theorem Builds.knows (h : (start unit name params globals).Builds n result t)
    (hf : result.1 = .ok f) {b : Block} (hb : b ∈ f.function.blocks) {o : Operand}
    (ho : o ∈ b.operands) : t.Knows o := by
  rw [Block.operands, List.mem_append, List.mem_flatMap] at ho
  rcases ho with ⟨x, hx, ho⟩ | ho
  · exact (h.allows hf hb hx).known o ho
  · exact (h.terminators hf hb).2 o ho

/-- A built function is well typed if it assigns to each register once. -/
private theorem Builds.wellTyped (h : (start unit name params globals).Builds n result t)
    (hf : result.1 = .ok f) (hssa : f.function.SingleAssignment) : f.function.WellTyped where
  instructions := by
    intro x hx
    obtain ⟨b, hb, hx⟩ := List.mem_flatMap.mp hx
    exact (h.allows hf hb hx).typed
  terminators := fun b hb => (h.terminators hf hb).1
  registers := by
    intro b hb r ty ho
    refine ⟨hssa.exists_definition hb ho, fun x hx hdest => ?_⟩
    obtain ⟨c, hc, hx⟩ := List.mem_flatMap.mp hx
    cases h.knows hf hb ho with
    | register _ _ hty => exact hty (contains_of_finish (h.finish f hf) hc hx) hdest

end LowerState

/-- **Lowered code is well typed**: the value of an expression is a word, wherever in a function the
expression stands, and the functions of lambdas and of whole programs are well typed. -/
theorem lowered_wellTyped (assigned : List Name) (e : Expr) (s t : LowerState) (v : Operand)
    (unit : CompileUnit) (f : PendingFunction) (forms : List Expr) (skipped : List Nat)
    (globals : Globals) (done : FinishedFunction) :
    (s.Reached assigned → lower assigned e s = .ok v t → v.ty = .word) ∧
    ((lowerFunction unit f).1 = .ok done ∨ (lowerEntry unit forms skipped globals).1 = .ok done →
      done.function.WellTyped) := by
  refine ⟨fun hs hrun => ((lower_proceeds e s).ok hs.proper hrun).2.2.2, fun h => ?_⟩
  obtain ⟨_, _, _, q, hq⟩ := exists_finishes h
  obtain ⟨avail, ha⟩ := (Site.available_start _ _ _).steps (Site.sound_start _ _ _) hq.steps
  have hssa := hq.singleAssignment ha
  rcases h with h | h
  · obtain ⟨u, hu⟩ := lowerFunction_builds unit f
    exact hu.wellTyped h hssa
  · obtain ⟨u, hu⟩ := lowerEntry_builds unit forms skipped globals
    exact hu.wellTyped h hssa

/-- A comparison of the double of the value of a word with the double of its bits. -/
def comparedDoubles : Expr :=
  .binary (.floatCompare .less) (.primitive .exactToInexact [.var "x"]) (.var "x")

theorem lowered_wellTyped_compared : ∃ v t done,
    (start (.start "m" "main") "f" ["x"] []).Reached [] ∧
      lower [] comparedDoubles (start (.start "m" "main") "f" ["x"] []) = .ok v t ∧ v.ty = .word ∧
      (lowerFunction (.start "m" "main") ⟨"f", ⟨["x"], [comparedDoubles]⟩, []⟩).1 = .ok done ∧
      done.function.statements.map (fun s => s.instruction.resultTy) =
        [.double, .word, .double, .double, .flag, .word] ∧ done.function.WellTyped := by
  have hstart : (start (.start "m" "main") "f" ["x"] []).Reached [] := .start _ _ _ _
  have hvalue : (lower [] comparedDoubles).run' (start (.start "m" "main") "f" ["x"] []) =
      some (.register 6 .word) := by cbv
  have htypes : (lowerFunction (.start "m" "main")
      ⟨"f", ⟨["x"], [comparedDoubles]⟩, []⟩).1.toOption.map
        (fun done => done.function.statements.map fun s => s.instruction.resultTy) =
      some [.double, .word, .double, .double, .flag, .word] := by decide +kernel
  obtain ⟨done, hok, htypes⟩ := exists_ok_of_toOption htypes
  cases hrun : lower [] comparedDoubles (start (.start "m" "main") "f" ["x"] []) with
  | error e t =>
    rw [EStateM.run', EStateM.run, hrun] at hvalue
    cases hvalue
  | ok v t =>
    obtain ⟨hword, hfunction⟩ := lowered_wellTyped [] comparedDoubles _ t v (.start "m" "main")
      ⟨"f", ⟨["x"], [comparedDoubles]⟩, []⟩ [] [] [] done
    exact ⟨v, t, done, hstart, rfl, hword hstart hrun, hok, htypes, hfunction (.inl hok)⟩

end WordScheme
