import Mathlib
import WordScheme.Compile
import WordScheme.Proofs.MoveRun

/-!
# Compilations work off their queue

`Progress.drain` builds a limited number of functions. `Progress.Drains` is the same without a
limit: it goes on until nothing waits, or to the first function whose failure stops the compilation.
`Compiles` is what this gives for whole programs, and `compileProgram_compiles` says that the limit
of `compileProgram` is never what ends it, under either policy and whatever fails on the way.

The measure is `pendingCount`. A function that has been built leaves the queue and brings with it
the functions found in its body, of which there are fewer by one than it counted for; and what waits
at first, together with what the entry function may find, is no more than the program has.
-/

namespace WordScheme

open LowerState

/-! ### Runs without a limit -/

/-- The queue is worked off, or a function fails and stops the compilation. -/
inductive Progress.Drains (policy : ErrorPolicy) : Progress → Except Diagnostic Progress → Prop
  | done {p : Progress} (h : p.queue = []) : Drains policy p (.ok p)
  | stop {p : Progress} {f : PendingFunction} {queue : List PendingFunction} {d : Diagnostic}
      (hqueue : p.queue = f :: queue)
      (hrecord : Progress.record { p with queue } policy f.name (lowerFunction p.unit f) =
        .error d) : Drains policy p (.error d)
  | next {p q : Progress} {f : PendingFunction} {queue : List PendingFunction}
      {result : Except Diagnostic Progress} (hqueue : p.queue = f :: queue)
      (hrecord : Progress.record { p with queue } policy f.name (lowerFunction p.unit f) = .ok q)
      (hrest : Drains policy q result) : Drains policy p result

/-- The top level definitions of a program. -/
def topLevel (forms : List Expr) (options : CompileOptions) : Except CompileError TopLevel :=
  TopLevel.collect ⟨(CompileUnit.start options.moduleName options.entry).ensure
    (ModuleDraft.placeholder options.entry []), [], [], []⟩ 0 forms

/-- The compilation with its entry function built, or skipped. -/
def TopLevel.started (top : TopLevel) (forms : List Expr) (options : CompileOptions) :
    Except Diagnostic Progress :=
  Progress.record ⟨top.unit, [], top.pending⟩ options.policy options.entry
    (lowerEntry top.unit forms top.functionForms top.globals)

/-- What compiling a program comes to. -/
inductive Compiles (forms : List Expr) (options : CompileOptions) :
    Except Diagnostic CompileOutput → Prop
  | reserved {e : CompileError} (h : topLevel forms options = .error e) :
      Compiles forms options (.error ⟨options.entry, e⟩)
  | entryFails {top : TopLevel} {d : Diagnostic} (htop : topLevel forms options = .ok top)
      (h : top.started forms options = .error d) : Compiles forms options (.error d)
  | stops {top : TopLevel} {begun : Progress} {d : Diagnostic}
      (htop : topLevel forms options = .ok top) (hbegun : top.started forms options = .ok begun)
      (h : begun.Drains options.policy (.error d)) : Compiles forms options (.error d)
  | finishes {top : TopLevel} {begun done : Progress}
      (htop : topLevel forms options = .ok top) (hbegun : top.started forms options = .ok begun)
      (h : begun.Drains options.policy (.ok done)) :
      Compiles forms options (.ok ⟨done.unit.module.finish, done.diagnostics⟩)

/-! ### The measure -/

namespace Progress

variable {policy : ErrorPolicy} {p q : Progress}

/-- A function that has been built, or failed, adds to the queue what was found in its body. -/
private theorem pendingCount_record {n : Nat} {s t : LowerState} {name : Name}
    {result : Except CompileError FinishedFunction × CompileUnit} (hbuilds : s.Builds n result t)
    (h : p.record policy name result = .ok q) :
    pendingCount q.queue ≤ pendingCount p.queue + n := by
  obtain ⟨outcome, unit⟩ := result
  cases outcome with
  | ok f =>
    cases h
    rw [pendingCount_append]
    exact Nat.add_le_add_left (hbuilds.count f rfl) _
  | error e =>
    cases policy with
    | abort => cases h
    | keepGoing =>
      cases h
      exact Nat.le_add_right _ _

/-- A limit that covers what waits is never reached. -/
private theorem drain_drains {limit : Nat} (h : pendingCount p.queue ≤ limit) :
    p.Drains policy (p.drain policy limit) := by
  induction limit generalizing p with
  | zero =>
    rw [drain]
    refine .done ?_
    cases hqueue : p.queue with
    | nil => rfl
    | cons f queue =>
      rw [hqueue, pendingCount_cons] at h
      omega
  | succ limit ih =>
    rw [drain]
    cases hqueue : p.queue with
    | nil => exact .done hqueue
    | cons f queue =>
      dsimp only
      cases hrecord : Progress.record { p with queue } policy f.name (lowerFunction p.unit f) with
      | error d => exact .stop hqueue hrecord
      | ok q =>
        obtain ⟨t, hbuilds⟩ := lowerFunction_builds p.unit f
        have hcount := pendingCount_record hbuilds hrecord
        rw [hqueue, pendingCount_cons] at h
        exact .next hqueue hrecord (ih (by dsimp only at hcount; omega))

end Progress

namespace TopLevel

/-- What becomes of the top level definitions at a form: nothing, or the first definition of a name
that is not reserved is noted. -/
inductive Notes (t : TopLevel) (index : Nat) : Expr → TopLevel → Prop
  | skip (form : Expr) : Notes t index form t
  | function {name : Name} {params : List Name} {body : List Expr}
      (hreserved : isReserved t.unit.entry name = false) (hnew : t.globals.has name = false) :
      Notes t index (.define name (.lambda params body))
        { unit := t.unit.ensure (ModuleDraft.placeholder name params)
          globals := t.globals.put name (.function params.length)
          functions := t.functions ++ [(name, ⟨params, body⟩)]
          functionForms := t.functionForms ++ [index] }
  | var {name : Name} {value : Expr} (hreserved : isReserved t.unit.entry name = false)
      (hnew : t.globals.has name = false) :
      Notes t index (.define name value)
        { t with
          unit := t.unit.ensure (ModuleDraft.wordVariable name)
          globals := t.globals.put name .var }

theorem collect_cons {t top : TopLevel} {index : Nat} {form : Expr} {forms : List Expr}
    (h : t.collect index (form :: forms) = .ok top) :
    ∃ u, t.Notes index form u ∧ u.collect (index + 1) forms = .ok top := by
  rw [collect.eq_def] at h
  split at h
  · next hnil => cases hnil
  · next name value rest hcons =>
    cases hcons
    split_ifs at h with hreserved hnew
    · exact ⟨_, .skip _, h⟩
    · rw [Bool.not_eq_true] at hreserved hnew
      refine ⟨_, ?_, h⟩
      rw [define.eq_def]
      split
      · exact .function hreserved hnew
      · exact .var hreserved hnew
  · next hcons =>
    cases hcons
    exact ⟨_, .skip _, h⟩

private theorem pendingCount_pending (t : TopLevel) :
    pendingCount t.pending = (t.functions.map fun x => 1 + functionCounts x.2.body).sum := by
  rw [pendingCount, pending, List.map_map]
  rfl

/-- A form that is skipped gives rise to no function. -/
private theorem functionCounts_unskipped_cons (skipped : List Nat) (index : Nat) (form : Expr)
    (forms : List Expr) : functionCounts (unskipped skipped index (form :: forms)) =
      (if skipped.contains index then 0 else form.functionCount) +
        functionCounts (unskipped skipped (index + 1) forms) := by
  rw [unskipped]
  split
  · rw [Nat.zero_add]
  · rw [functionCounts]

/-- The functions of the top level and those that the other forms give rise to are no more than the
forms have. -/
theorem collect_count {t top : TopLevel} {index : Nat} {forms : List Expr}
    (h : t.collect index forms = .ok top) :
    t.functionForms ⊆ top.functionForms ∧
      pendingCount top.pending + functionCounts (unskipped top.functionForms index forms) ≤
        pendingCount t.pending + functionCounts forms := by
  induction forms generalizing t index with
  | nil =>
    cases h
    exact ⟨List.Subset.refl _, le_refl _⟩
  | cons form forms ih =>
    obtain ⟨u, hnotes, hrest⟩ := collect_cons h
    obtain ⟨hsub, hle⟩ := ih hrest
    rw [functionCounts_unskipped_cons, functionCounts]
    simp only [pendingCount_pending] at hle ⊢
    cases hnotes with
    | skip =>
      refine ⟨hsub, ?_⟩
      split <;> omega
    | @function name params body _ _ =>
      -- the form is skipped, as its function waits already
      have hmem : index ∈ top.functionForms := hsub (List.mem_append_right _ List.mem_cons_self)
      refine ⟨fun i hi => hsub (List.mem_append_left _ hi), ?_⟩
      rw [List.map_append, List.sum_append, List.map_singleton, List.sum_singleton] at hle
      dsimp only at hle
      rw [if_pos (List.contains_iff_mem.mpr hmem), Expr.functionCount, Expr.functionCount]
      omega
    | var =>
      refine ⟨hsub, ?_⟩
      dsimp only at hle
      split <;> omega

private theorem pendingCount_started {top : TopLevel} {forms : List Expr} {options : CompileOptions}
    {begun : Progress} (htop : topLevel forms options = .ok top)
    (hbegun : top.started forms options = .ok begun) :
    pendingCount begun.queue ≤ functionCounts forms := by
  obtain ⟨t, hbuilds⟩ := lowerEntry_builds top.unit forms top.functionForms top.globals
  have hrecord := Progress.pendingCount_record hbuilds hbegun
  obtain ⟨-, hcollect⟩ := collect_count htop
  have hnone : pendingCount (TopLevel.pending ⟨(CompileUnit.start options.moduleName
      options.entry).ensure (ModuleDraft.placeholder options.entry []), [], [], []⟩) = 0 := rfl
  dsimp only at hrecord
  omega

end TopLevel

/-- **A compilation is never cut short**: its answer is that of working off the queue. -/
theorem compileProgram_compiles (forms : List Expr) (options : CompileOptions) :
    Compiles forms options (compileProgram forms options) := by
  change Compiles forms options (do
    let top ← (topLevel forms options).mapError (⟨options.entry, ·⟩)
    let begun ← top.started forms options
    let done ← begun.drain options.policy (functionCounts forms)
    return ⟨done.unit.module.finish, done.diagnostics⟩)
  cases htop : topLevel forms options with
  | error e => exact .reserved htop
  | ok top =>
    cases hbegun : top.started forms options with
    | error d =>
      dsimp only [Except.mapError, bind, Except.bind]
      rw [hbegun]
      exact .entryFails htop hbegun
    | ok begun =>
      have hdrains : begun.Drains options.policy _ :=
        Progress.drain_drains (TopLevel.pendingCount_started htop hbegun)
      dsimp only [Except.mapError, bind, Except.bind]
      rw [hbegun]
      dsimp only
      cases hdone : begun.drain options.policy (functionCounts forms) with
      | error d => exact .stops htop hbegun (hdone ▸ hdrains)
      | ok done => exact .finishes htop hbegun (hdone ▸ hdrains)

end WordScheme
