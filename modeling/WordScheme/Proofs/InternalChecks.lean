import Mathlib
import WordScheme.Compile
import WordScheme.Proofs.FunctionRun

/-!
# The lowering passes its own checks

A draft refuses a second terminator, an unknown block, a block without terminator and a block out of
reach. None of these refusals is ever seen: whatever unit, names and body a function is built from,
it can only fail by an error of the source (`CompileError.AtSource`). A wrong number of arguments is
among these only where the two numbers differ, so the case of a primitive that is given as many
operands as it takes and still finds no rule does not arise. The current block of a draft is in
range by the type of drafts.

For whole programs this carries over through the queue of functions: `drain_atSource`.
-/

namespace WordScheme

/-- Building the functions of a lambda fails by errors of the source only. -/
theorem lowerFunction_atSource {unit : CompileUnit} {f : PendingFunction} {e : CompileError}
    (h : (lowerFunction unit f).1 = .error e) : e.AtSource := by
  have houtcome := lowerFunction_outcome unit f
  rw [h] at houtcome
  exact houtcome

theorem lowerEntry_atSource {unit : CompileUnit} {forms : List Expr} {skipped : List Nat}
    {globals : Globals} {e : CompileError}
    (h : (lowerEntry unit forms skipped globals).1 = .error e) : e.AtSource := by
  have houtcome := lowerEntry_outcome unit forms skipped globals
  rw [h] at houtcome
  exact houtcome

/-! ### The queue -/

namespace Progress

/-- The functions that were skipped so far failed by errors of the source. -/
def Blameless (p : Progress) : Prop :=
  ∀ d ∈ p.diagnostics, d.error.AtSource

/-- What a compilation has come to: it goes on, or it has stopped at an error of the source. -/
def BlamelessResult : Except Diagnostic Progress → Prop
  | .ok p => p.Blameless
  | .error d => d.error.AtSource

/-- Taking in the result of a function whose errors are errors of the source. -/
theorem Blameless.record {p : Progress} (hp : p.Blameless) (policy : ErrorPolicy) (name : Name)
    (result : Except CompileError FinishedFunction × CompileUnit)
    (hresult : ∀ e, result.1 = .error e → e.AtSource) :
    BlamelessResult (p.record policy name result) := by
  obtain ⟨outcome, unit⟩ := result
  cases outcome with
  | ok finished => exact hp
  | error e =>
    have he : e.AtSource := hresult e rfl
    cases policy with
    | abort => exact he
    | keepGoing =>
      intro d hd
      rcases List.mem_append.mp hd with hd | hd
      · exact hp d hd
      · rw [List.mem_singleton.mp hd]
        exact he

/-- The queue, however long it is. -/
theorem drain_atSource (policy : ErrorPolicy) (limit : Nat) {p : Progress} (hp : p.Blameless) :
    BlamelessResult (p.drain policy limit) := by
  induction limit generalizing p with
  | zero => exact hp
  | succ limit ih =>
    rw [drain]
    cases hqueue : p.queue with
    | nil => exact hp
    | cons f queue =>
      have hrest : Blameless { p with queue } := hp
      have hrecord := hrest.record policy f.name (lowerFunction p.unit f)
        fun e => lowerFunction_atSource
      dsimp only
      cases hr : Progress.record { p with queue } policy f.name (lowerFunction p.unit f) with
      | error d =>
        rw [hr] at hrecord
        exact hrecord
      | ok q =>
        rw [hr] at hrecord
        exact ih hrecord

end Progress

/-- The only other error of a compilation is a definition of a reserved name. -/
theorem collect_error {t : TopLevel} {index : Nat} {forms : List Expr} {e : CompileError}
    (h : t.collect index forms = .error e) : ∃ name, e = .reservedName name := by
  induction forms generalizing t index with
  | nil => cases h
  | cons form forms ih =>
    rw [TopLevel.collect.eq_def] at h
    split at h
    · cases h
    · next hforms =>
      cases hforms
      split_ifs at h
      · exact ⟨_, (Except.error.inj h).symm⟩
      · exact ih h
      · exact ih h
    · next hforms =>
      cases hforms
      exact ih h

/-- What a whole compilation reports are errors of the source and definitions of reserved names. -/
private theorem compileProgram_outcome (forms : List Expr) (options : CompileOptions) :
    match compileProgram forms options with
    | .ok output => ∀ d ∈ output.diagnostics, d.error.AtSource
    | .error d => d.error.AtSource ∨ ∃ name, d.error = .reservedName name := by
  rw [compileProgram]
  cases hcollect : TopLevel.collect ⟨(CompileUnit.start options.moduleName options.entry).ensure
      (ModuleDraft.placeholder options.entry []), [], [], []⟩ 0 forms with
  | error e => exact .inr (collect_error hcollect)
  | ok top =>
    have hbegun := Progress.Blameless.record (p := ⟨top.unit, [], top.pending⟩)
      (fun d hd => nomatch hd) options.policy options.entry
      (lowerEntry top.unit forms top.functionForms top.globals)
      fun e => lowerEntry_atSource
    dsimp only [Except.mapError, bind, Except.bind]
    cases hr : Progress.record ⟨top.unit, [], top.pending⟩ options.policy options.entry
        (lowerEntry top.unit forms top.functionForms top.globals) with
    | error d =>
      rw [hr] at hbegun
      exact .inl hbegun
    | ok begun =>
      rw [hr] at hbegun
      have hdone := Progress.drain_atSource options.policy (functionCounts forms) hbegun
      dsimp only
      cases hd : begun.drain options.policy (functionCounts forms) with
      | error d =>
        rw [hd] at hdone
        exact .inl hdone
      | ok done =>
        rw [hd] at hdone
        exact hdone

/-- **The lowering never trips its own checks**: only errors of the source come out of it, for each
function built from any unit, names and body, and for each function on the way through a program. -/
theorem lowering_errors_atSource (unit : CompileUnit) (f : PendingFunction) (forms : List Expr)
    (skipped : List Nat) (globals : Globals) (options : CompileOptions) :
    (∀ e, (lowerFunction unit f).1 = .error e → e.AtSource) ∧
    (∀ e, (lowerEntry unit forms skipped globals).1 = .error e → e.AtSource) ∧
    (∀ d, compileProgram forms options = .error d →
      d.error.AtSource ∨ ∃ name, d.error = .reservedName name) ∧
    ∀ output, compileProgram forms options = .ok output →
      ∀ d ∈ output.diagnostics, d.error.AtSource := by
  have houtcome := compileProgram_outcome forms options
  refine ⟨fun e => lowerFunction_atSource, fun e => lowerEntry_atSource, fun d hd => ?_,
    fun output hout => ?_⟩
  · rw [hd] at houtcome
    exact houtcome
  · rw [hout] at houtcome
    exact houtcome

/-- A sum of a conditional whose arms both leave the function and a name that means nothing. The
name is looked up although control never gets there. -/
def strandedSum : Expr :=
  .binary (.word .add) (.ifElse (.var "x") (.ret (.integer 1)) (.ret (.integer 2))) (.var "missing")

theorem lowering_errors_atSource_stranded :
    (lowerFunction (.start "m" "main") ⟨"f", ⟨["x"], [strandedSum]⟩, []⟩).1 =
        .error (.unresolved "missing") ∧
      compileProgram [.define "f" (.lambda ["x"] [strandedSum])] ⟨"m", "main", .abort⟩ =
        .error ⟨"f", .unresolved "missing"⟩ ∧
      CompileError.AtSource (.unresolved "missing") := by
  have hfunction : (lowerFunction (.start "m" "main") ⟨"f", ⟨["x"], [strandedSum]⟩, []⟩).1 =
      .error (.unresolved "missing") := by cbv
  have hprogram : compileProgram [.define "f" (.lambda ["x"] [strandedSum])] ⟨"m", "main", .abort⟩ =
      .error ⟨"f", .unresolved "missing"⟩ := by cbv
  obtain ⟨herror, -, -, -⟩ := lowering_errors_atSource (.start "m" "main")
    ⟨"f", ⟨["x"], [strandedSum]⟩, []⟩ [] [] [] ⟨"m", "main", .abort⟩
  exact ⟨hfunction, hprogram, herror _ hfunction⟩

end WordScheme
