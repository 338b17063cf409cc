import Mathlib
import WordScheme.Proofs.FunctionAccount

/-!
# Functions that fail

A function that cannot be lowered may have added to the module before it fails: declarations, types
and strings that other functions share, and placeholders of lambdas. `CompileUnit.discardLifted`
takes the placeholders back. `failed_function_undone` says that nothing else of the unit's functions
and variables is touched by this.

Functions are taken back by name, so none that was there before may be called like a lambda that the
attempt has found (`CompileUnit.Clear`). This holds in a compilation because of what is known about
its definitions (`InRun.clear`), and in a unit that is used in any other order because then all
functions are lambdas that were found earlier (`Free.clear`).
-/

namespace WordScheme

open LowerState Lower NameSupply

/-! ### Attempts -/

/-- A function to be built: the entry function from its forms, or one with parameters and body. -/
inductive Attempt where
  | entry (forms : List Expr) (skipped : List Nat) (globals : Globals)
  | function (f : PendingFunction)

namespace Attempt

/-- The top level names that the function may refer to. -/
def globals : Attempt → Globals
  | .entry _ _ globals => globals
  | .function f => f.globals

/-- Builds the function. The unit is kept also when that fails. -/
def run (u : CompileUnit) : Attempt → Except CompileError FinishedFunction × CompileUnit
  | .entry forms skipped globals => lowerEntry u forms skipped globals
  | .function f => lowerFunction u f

/-- The state in which the function starts. -/
def begin (u : CompileUnit) : Attempt → LowerState
  | .entry _ _ globals => .start u u.entry [] globals
  | .function f => .start u f.name f.lambda.params f.globals

/-- The steps that lower its body. -/
def steps : Attempt → Lower Operand
  | .entry forms skipped _ => lowerForms (assignedAll forms) skipped 0 (.word 0) forms
  | .function f => lowerBody (assignedAll f.lambda.body) f.lambda

/-- How the lowering ends, with the state in which it does. -/
def ending (u : CompileUnit) (a : Attempt) :
    EStateM.Result CompileError LowerState FinishedFunction :=
  lowerWhole a.steps (a.begin u)

variable {a : Attempt} {u v : CompileUnit} {e : CompileError} {s : LowerState}

theorem begin_unit (a : Attempt) (u : CompileUnit) :
    (a.begin u).unit = { u with lifted := [] } := by
  cases a <;> rfl

private theorem begin_globals (a : Attempt) (u : CompileUnit) :
    (a.begin u).draft.globals = a.globals := by
  cases a <;> rfl

/-- What is kept of the end of a lowering: its result and the unit. -/
private theorem run_eq (a : Attempt) (u : CompileUnit) : a.run u =
    match a.ending u with
    | .ok finished s => (.ok finished, s.unit)
    | .error e s => (.error e, s.unit) := by
  cases a <;> rfl

/-- A function that fails does so in a state with the unit that is left. -/
private theorem exists_ending_of_error (h : a.run u = (.error e, v)) :
    ∃ s, a.ending u = .error e s ∧ s.unit = v := by
  rw [run_eq] at h
  cases hending : a.ending u with
  | ok finished s =>
    rw [hending] at h
    cases h
  | error e' s =>
    rw [hending] at h
    cases h
    exact ⟨s, rfl, rfl⟩

/-- A lowering that fails has gone by moves. -/
private theorem moves_of_error (h : a.ending u = .error e s) : (a.begin u).Moves s := by
  cases a with
  | entry forms skipped globals =>
    have hsteps : Proceeds _ (start u u.entry [] globals)
        (lowerForms (assignedAll forms) skipped 0 (.word 0) forms) fun v t => t.Has .word v :=
      lowerForms_proceeds skipped 0 _ (has_word _ 0) forms
    exact (lowerWhole_proceeds hsteps).error (proper_start u u.entry [] globals) h
  | function f =>
    have hsteps : Proceeds _ (start u f.name f.lambda.params f.globals)
        (lowerBody (assignedAll f.lambda.body) f.lambda) fun v t => t.Has .word v :=
      lowerBody_proceeds f.lambda _
    exact (lowerWhole_proceeds hsteps).error
      (proper_start u f.name f.lambda.params f.globals) h

/-- Every attempt goes by moves. -/
private theorem exists_builds (a : Attempt) (u : CompileUnit) :
    ∃ n t, (a.begin u).Builds n (a.run u) t := by
  cases a with
  | entry forms skipped globals => exact ⟨_, lowerEntry_builds u forms skipped globals⟩
  | function f => exact ⟨_, lowerFunction_builds u f⟩

end Attempt

/-! ### Clear units -/

/-- The next function of the queue is built, or skipped. -/
inductive Progress.Advances (policy : ErrorPolicy) : Progress → Progress → Prop
  | next {p q : Progress} {f : PendingFunction} {queue : List PendingFunction}
      (hqueue : p.queue = f :: queue)
      (hrecord : Progress.record { p with queue } policy f.name (lowerFunction p.unit f) = .ok q) :
      Advances policy p q

/-- Taking functions back adds no definition. -/
private theorem foldl_eraseP_sublist (names : List Name) (ds : List Definition) :
    (names.foldl (fun ds name => ds.eraseP (Definition.isFunctionNamed name)) ds).Sublist ds := by
  induction names generalizing ds with
  | nil => exact List.Sublist.refl ds
  | cons name names ih => exact (ih _).trans List.eraseP_sublist

namespace CompileUnit

variable {G : Globals} {u : CompileUnit}

/-- An attempt begins with new names for its lambdas. -/
private theorem Clear.begin {a : Attempt} (h : u.Clear a.globals) :
    (a.begin u).unit.Clear (a.begin u).draft.globals := by
  rw [a.begin_unit, a.begin_globals]
  exact h.setLifted []

/-- A clear unit is clear after any attempt, also among other top level names. -/
private theorem Clear.run {a : Attempt} (h : u.Clear a.globals) (hG : u.Clear G) :
    (a.run u).2.Clear G := by
  obtain ⟨n, t, hbuilds⟩ := a.exists_builds u
  have hbegin : (a.begin u).unit.Clear G := by
    rw [a.begin_unit]
    exact hG.setLifted []
  rw [hbuilds.unit]
  exact (clear_moves hbuilds.moves h.begin hbegin).2

/-- Lambdas to come get new names also once others are taken back. -/
private theorem Clear.discardLifted (h : u.Clear G) : u.discardLifted.2.Clear G := by
  obtain ⟨hindexed, hdefinitions⟩ := ModuleDraft.indexed_foldl_dropFunction h.indexed u.lifted
  have hsub : (functionNames u.discardLifted.2.module.definitions).Sublist
      (functionNames u.module.definitions) := by
    refine List.Sublist.filterMap _ ?_
    change List.Sublist (u.lifted.foldl ModuleDraft.dropFunction u.module).definitions _
    rw [hdefinitions]
    exact foldl_eraseP_sublist u.lifted u.module.definitions
  exact ⟨hindexed, h.lambdaNames, h.distinct.sublist hsub, fun name hname =>
    h.named name (hsub.subset hname)⟩

/-- The units that come from a new one by attempts and by taking lambdas back, in any order and
among any top level names. No function is ever installed. -/
inductive Free : CompileUnit → Prop
  | start (moduleName : String) (entry : Name) : Free (.start moduleName entry)
  | run {u : CompileUnit} (h : Free u) (a : Attempt) : Free (a.run u).2
  | discard {u : CompileUnit} (h : Free u) : Free u.discardLifted.2

/-- In a unit in which nothing is installed the lambdas to come get new names. -/
private theorem Free.clear (h : u.Free) (G : Globals) : u.Clear G := by
  induction h generalizing G with
  | start moduleName entry =>
    exact ⟨ModuleDraft.indexed_empty moduleName, positive_empty, List.nodup_nil, nofun⟩
  | run _ a ih => exact (ih a.globals).run (ih G)
  | discard _ ih => exact (ih G).discardLifted

/-- The units that compiling a program goes through, with its top level names. -/
inductive InRun (forms : List Expr) (options : CompileOptions) : Globals → CompileUnit → Prop
  /-- The top level names have been noted. -/
  | noted {top : TopLevel} (htop : topLevel forms options = .ok top) :
      InRun forms options top.globals top.unit
  /-- The entry function has been built or has failed. -/
  | entry {top : TopLevel} (htop : topLevel forms options = .ok top) :
      InRun forms options top.globals (lowerEntry top.unit forms top.functionForms top.globals).2
  /-- The result of the entry function and those of some others have been taken in. -/
  | recorded {top : TopLevel} {begun p : Progress} (htop : topLevel forms options = .ok top)
      (hbegun : top.started forms options = .ok begun)
      (hp : Relation.ReflTransGen (Progress.Advances options.policy) begun p) :
      InRun forms options top.globals p.unit
  /-- The next function of the queue has been built or has failed. -/
  | function {top : TopLevel} {begun p : Progress} {f : PendingFunction}
      {queue : List PendingFunction} (htop : topLevel forms options = .ok top)
      (hbegun : top.started forms options = .ok begun)
      (hp : Relation.ReflTransGen (Progress.Advances options.policy) begun p)
      (hqueue : p.queue = f :: queue) : InRun forms options top.globals (lowerFunction p.unit f).2

end CompileUnit

/-- A compilation stays in order while its queue is worked off. -/
theorem Progress.Sound.advances {G : Globals} {policy : ErrorPolicy} {p q : Progress}
    (hp : p.Sound G) (h : Relation.ReflTransGen (Progress.Advances policy) p q) : q.Sound G := by
  induction h with
  | refl => exact hp
  | tail _ hadvances ih =>
    obtain ⟨hqueue, hrecord⟩ := hadvances
    obtain ⟨hrest, -, hdeclared, t, hbuilds⟩ := ih.next hqueue
    exact (hrest.record hbuilds hdeclared hrecord).1

namespace CompileUnit

variable {G : Globals} {u : CompileUnit}

/-- In the course of a compilation the lambdas to come get new names. -/
private theorem InRun.clear {forms : List Expr} {options : CompileOptions}
    (h : u.InRun forms options G) : u.Clear G := by
  have hsound : ∀ {top : TopLevel} {begun p : Progress}, topLevel forms options = .ok top →
      top.started forms options = .ok begun →
      Relation.ReflTransGen (Progress.Advances options.policy) begun p →
      p.Sound top.globals := by
    intro top begun p htop hbegun hp
    obtain ⟨htop, -⟩ := TopLevel.sound_topLevel htop
    exact (htop.started hbegun).1.advances hp
  cases h with
  | noted htop => exact (TopLevel.sound_topLevel htop).1.unit.clear
  | @entry top htop =>
    have hclear := (TopLevel.sound_topLevel htop).1.unit.clear
    exact hclear.run (a := .entry forms top.functionForms top.globals) hclear
  | recorded htop hbegun hp => exact (hsound htop hbegun hp).unit.clear
  | @function top begun p f queue htop hbegun hp hqueue =>
    have hp := hsound htop hbegun hp
    obtain ⟨-, hglobals, -⟩ := hp.next hqueue
    have hclear : p.unit.Clear (Attempt.function f).globals := by
      change p.unit.Clear f.globals
      rw [hglobals]
      exact hp.unit.clear
    exact hclear.run hp.unit.clear

/-- A unit that a compilation goes through, with the top level names of its program, or one that is
used freely, with any top level names. -/
def Reached (G : Globals) (u : CompileUnit) : Prop :=
  u.Free ∨ ∃ forms options, u.InRun forms options G

private theorem Reached.clear (h : u.Reached G) : u.Clear G := by
  rcases h with hfree | ⟨forms, options, hrun⟩
  · exact hfree.clear G
  · exact hrun.clear

end CompileUnit

/-! ### What a failed function leaves -/

/-- What an attempt may add to a module: definitions that functions share, and placeholders. -/
def Definition.IsAddition (d : Definition) : Prop :=
  d.isShared = true ∨ ∃ name params, d = ModuleDraft.placeholder name params

/-- A run of moves adds shared definitions and placeholders of lambdas. -/
private theorem LowerState.adds_moves {s t : LowerState} (hclear : s.unit.Clear s.draft.globals)
    (hlifted : s.unit.lifted = []) (hmoves : s.Moves t) :
    t.Adds Definition.IsAddition s.unit.module.definitions := by
  induction hmoves with
  | refl => exact ⟨[], (List.append_nil _).symm, hlifted, nofun⟩
  | tail hmoves hmove ih =>
    have hclear' := (clear_moves hmoves hclear hclear).1
    exact ih.effect (fun _ hd => .inl hd) (fun _ _ => .inr ⟨_, _, rfl⟩) hclear' hmove.effect

/-- The lambdas that have been lifted are those that have been found, in the same order. -/
private theorem Attempt.lifted_eq {u : CompileUnit} {a : Attempt} {s : LowerState}
    (hclear : u.Clear a.globals) (hmoves : (a.begin u).Moves s) :
    s.unit.lifted = s.draft.pending.map PendingFunction.name := by
  cases a with
  | entry forms skipped globals => exact (listed_moves hclear hmoves).lifted
  | function f => exact (listed_moves hclear hmoves).lifted

/-- **A failed function leaves the unit's functions and variables as they were.** It has added
definitions at the end of the module, and once its lambdas are taken back those are left of them
that functions share. The lambdas taken back are the ones that it has found, in this order, and
these are the functions that it has added. -/
theorem failed_function_undone (u : CompileUnit) (a : Attempt) (hu : u.Reached a.globals)
    (e : CompileError) (v : CompileUnit) (hfail : a.run u = (.error e, v)) :
    ∃ s added, a.ending u = .error e s ∧ s.unit = v ∧
      v.module.definitions = u.module.definitions ++ added ∧
      (∀ d ∈ added, d.IsAddition) ∧ v.discardLifted.1 = functionNames added ∧
      v.discardLifted.1 = s.draft.pending.map PendingFunction.name ∧
      v.discardLifted.2.module.definitions =
        u.module.definitions ++ added.filter Definition.isShared := by
  obtain ⟨s, hending, rfl⟩ := Attempt.exists_ending_of_error hfail
  have hmoves := Attempt.moves_of_error hending
  have hclear := hu.clear
  have hnone : (a.begin u).unit.lifted = [] := by
    rw [a.begin_unit]
  obtain ⟨added, hdefinitions, hlifted, hadded⟩ := adds_moves hclear.begin hnone hmoves
  rw [a.begin_unit] at hdefinitions
  obtain ⟨hclear', -⟩ := clear_moves hmoves hclear.begin hclear.begin
  obtain ⟨-, hdiscard⟩ := hclear'.definitions_discardLifted hdefinitions hlifted
  have hkept : added.filter (fun d => d.function?.isNone) = added.filter Definition.isShared := by
    refine List.filter_congr fun d hd => ?_
    rcases hadded d hd with hshared | ⟨name, params, rfl⟩
    · rw [hshared, Definition.function?_of_isShared hshared]
      rfl
    · rfl
  rw [hkept] at hdiscard
  exact ⟨s, added, hending, rfl, hdefinitions, hadded, hlifted,
    Attempt.lifted_eq hclear hmoves, hdiscard⟩

/-- A unit in which a function with a lambda has been built. -/
def usedUnit : CompileUnit :=
  (Attempt.run (.start "m" "main") (.function ⟨"f", ⟨[], [.lambda [] [.integer 1]]⟩, []⟩)).2

/-- A function that calls a lambda with a string before it fails. At the top level there is a name
that the lambda would get. -/
def liftsAndFails : Attempt :=
  .function ⟨"g",
    ⟨[], [.call (.lambda ["x"] [.var "x"]) [.literal (.string "hi")], .var "missing"]⟩,
    [("lambda1", .var)]⟩

theorem failed_function_undone_lifting :
    usedUnit.Reached liftsAndFails.globals ∧
    functionNames usedUnit.module.definitions = ["lambda"] ∧
    ∃ v kept, liftsAndFails.run usedUnit = (.error (.unresolved "missing"), v) ∧
      v.discardLifted.1 = ["lambda2"] ∧
      v.discardLifted.2.module.definitions = usedUnit.module.definitions ++ kept ∧
      kept.map Definition.name = [".str"] := by
  have hreached : usedUnit.Reached liftsAndFails.globals := .inl (.run (.start "m" "main") _)
  have hfail : liftsAndFails.run usedUnit =
      (.error (.unresolved "missing"), (liftsAndFails.run usedUnit).2) :=
    Prod.ext (by cbv) rfl
  have hlifted : (liftsAndFails.run usedUnit).2.discardLifted.1 = ["lambda2"] := by
    cbv
  have hbefore : usedUnit.module.definitions.map Definition.name = ["lambda"] := by
    cbv
  have hafter : (liftsAndFails.run usedUnit).2.discardLifted.2.module.definitions.map
      Definition.name = ["lambda", ".str"] := by
    cbv
  obtain ⟨s, added, -, -, -, -, -, -, hdefinitions⟩ :=
    failed_function_undone usedUnit liftsAndFails hreached _ _ hfail
  rw [hdefinitions, List.map_append, hbefore] at hafter
  exact ⟨hreached, by cbv, _, _, hfail, hlifted, hdefinitions, List.append_cancel_left hafter⟩

end WordScheme
