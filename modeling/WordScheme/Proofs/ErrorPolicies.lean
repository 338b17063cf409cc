import Mathlib
import WordScheme.Proofs.CompileRun
import WordScheme.Proofs.InternalChecks

/-!
# The two error policies agree

Up to the first function that fails a compilation does not depend on its policy. There `abort` stops
with a diagnostic, which under `keepGoing` is the first of those that are reported. So the two agree
on every program that compiles, and a program that does not is refused by both only where it defines
a reserved name.

`Progress.Agree` relates the outcomes of the two policies; it holds of one function
(`record_agree`), of the queue (`drain_agree`) and of programs (`compileProgram_agree`). Where
`abort` stops, `keepGoing` goes on with functions that the other never gets to: that it comes to an
end there is `drain_keepGoing`, and that the end is an empty queue is `compileProgram_compiles`.
-/

namespace WordScheme

namespace Progress

/-- How the outcome under `keepGoing` relates to that under `abort`, from a compilation with the
given diagnostics: it is the same, or the first new diagnostic is the one that `abort` stops
with. -/
def Agree (diagnostics : List Diagnostic) :
    (aborting going : Except Diagnostic Progress) → Prop
  | .ok p, going => going = .ok p ∧ p.diagnostics = diagnostics
  | .error d, going => ∃ q, going = .ok q ∧ diagnostics ++ [d] <+: q.diagnostics

variable {diagnostics : List Diagnostic}

/-- One outcome after another, if `keepGoing` always goes on. -/
private theorem Agree.bind {aborting going : Except Diagnostic Progress}
    {f g : Progress → Except Diagnostic Progress} (h : Agree diagnostics aborting going)
    (hf : ∀ p, p.diagnostics = diagnostics → Agree diagnostics (f p) (g p))
    (hg : ∀ q, ∃ r, g q = .ok r ∧ q.diagnostics <+: r.diagnostics) :
    Agree diagnostics (aborting >>= f) (going >>= g) := by
  cases aborting with
  | ok p =>
    obtain ⟨rfl, hp⟩ := h
    exact hf p hp
  | error d =>
    obtain ⟨q, rfl, hd⟩ := h
    obtain ⟨r, hr, hprefix⟩ := hg q
    exact ⟨r, hr, hd.trans hprefix⟩

/-- Both policies take a function in alike, until one fails. -/
private theorem record_agree (p : Progress) (name : Name)
    (result : Except CompileError FinishedFunction × CompileUnit) :
    Agree p.diagnostics (p.record .abort name result) (p.record .keepGoing name result) := by
  obtain ⟨outcome, unit⟩ := result
  cases outcome with
  | ok finished => exact ⟨rfl, rfl⟩
  | error e => exact ⟨_, rfl, List.prefix_rfl⟩

/-- Going on never fails, and forgets no diagnostic. -/
private theorem record_keepGoing (p : Progress) (name : Name)
    (result : Except CompileError FinishedFunction × CompileUnit) :
    ∃ q, p.record .keepGoing name result = .ok q ∧ p.diagnostics <+: q.diagnostics := by
  obtain ⟨outcome, unit⟩ := result
  cases outcome with
  | ok finished => exact ⟨_, rfl, List.prefix_rfl⟩
  | error e => exact ⟨_, rfl, List.prefix_append _ _⟩

/-- Whatever fails, the queue goes on and diagnostics are only added. -/
private theorem drain_keepGoing (limit : Nat) (p : Progress) :
    ∃ q, p.drain .keepGoing limit = .ok q ∧ p.diagnostics <+: q.diagnostics := by
  induction limit generalizing p with
  | zero => exact ⟨p, rfl, List.prefix_rfl⟩
  | succ limit ih =>
    rw [drain]
    cases p.queue with
    | nil => exact ⟨p, rfl, List.prefix_rfl⟩
    | cons f queue =>
      obtain ⟨q, hq, hprefix⟩ := record_keepGoing { p with queue } f.name (lowerFunction p.unit f)
      obtain ⟨r, hr, hprefix'⟩ := ih q
      refine ⟨r, ?_, hprefix.trans hprefix'⟩
      dsimp only
      rw [hq]
      exact hr

/-- Both policies work off a queue alike, until a function fails. -/
private theorem drain_agree (limit : Nat) (p : Progress) :
    Agree p.diagnostics (p.drain .abort limit) (p.drain .keepGoing limit) := by
  induction limit generalizing p with
  | zero => exact ⟨rfl, rfl⟩
  | succ limit ih =>
    rw [drain, drain]
    cases p.queue with
    | nil => exact ⟨rfl, rfl⟩
    | cons f queue =>
      refine (record_agree { p with queue } f.name (lowerFunction p.unit f)).bind (fun q hq => ?_)
        (drain_keepGoing limit)
      change q.diagnostics = p.diagnostics at hq
      change Agree p.diagnostics _ _
      rw [← hq]
      exact ih q

end Progress

/-- The whole compilation of the functions of a program, given its top level. -/
def TopLevel.completed (top : TopLevel) (forms : List Expr) (options : CompileOptions) :
    Except Diagnostic Progress := do
  let begun ← top.started forms options
  begun.drain options.policy (functionCounts forms)

/-- Both policies complete a program alike, until a function fails. -/
private theorem TopLevel.completed_agree (top : TopLevel) (forms : List Expr)
    (options : CompileOptions) :
    Progress.Agree [] (top.completed forms { options with policy := .abort })
      (top.completed forms { options with policy := .keepGoing }) := by
  refine Progress.Agree.bind (Progress.record_agree _ _ _) (fun p hp => ?_)
    (Progress.drain_keepGoing _)
  rw [← hp]
  exact Progress.drain_agree _ p

/-- What stops a compilation once its top level has been noted is an error of the source. -/
private theorem TopLevel.completed_atSource {top : TopLevel} {forms : List Expr}
    {options : CompileOptions}
    {d : Diagnostic} (h : top.completed forms options = .error d) : d.error.AtSource := by
  have hbegun := Progress.Blameless.record (p := ⟨top.unit, [], top.pending⟩)
    (fun d hd => nomatch hd) options.policy options.entry
    (lowerEntry top.unit forms top.functionForms top.globals) fun e => lowerEntry_atSource
  rw [completed, started] at h
  cases hr : Progress.record ⟨top.unit, [], top.pending⟩ options.policy options.entry
      (lowerEntry top.unit forms top.functionForms top.globals) with
  | error d' =>
    rw [hr] at h hbegun
    cases h
    exact hbegun
  | ok begun =>
    rw [hr] at h hbegun
    have hdone := Progress.drain_atSource options.policy (functionCounts forms) hbegun
    change begun.drain options.policy (functionCounts forms) = .error d at h
    rw [h] at hdone
    exact hdone

/-- A program is compiled in two steps: its top level is collected, and then completed. -/
theorem compileProgram_eq (forms : List Expr) (options : CompileOptions) :
    compileProgram forms options = (do
      let top ← (topLevel forms options).mapError (⟨options.entry, ·⟩)
      let done ← top.completed forms options
      return ⟨done.unit.module.finish, done.diagnostics⟩) := by
  simp only [TopLevel.completed, bind_assoc]
  rfl

/-- The outcomes of a program under `abort` and under `keepGoing`. -/
inductive PoliciesAgree : (aborting going : Except Diagnostic CompileOutput) → Prop
  | compiled (module : Module) : PoliciesAgree (.ok ⟨module, []⟩) (.ok ⟨module, []⟩)
  | refused (entry name : Name) :
      PoliciesAgree (.error ⟨entry, .reservedName name⟩) (.error ⟨entry, .reservedName name⟩)
  | reported {d : Diagnostic} (h : d.error.AtSource) (module : Module) (rest : List Diagnostic) :
      PoliciesAgree (.error d) (.ok ⟨module, d :: rest⟩)

/-- **Both policies compile a program alike, until a function fails.** -/
theorem compileProgram_agree (forms : List Expr) (options : CompileOptions) :
    PoliciesAgree (compileProgram forms { options with policy := .abort })
      (compileProgram forms { options with policy := .keepGoing }) := by
  -- the top level is noted before the policy matters
  have htop : ∀ policy, topLevel forms { options with policy } = topLevel forms options :=
    fun _ => rfl
  rw [compileProgram_eq, compileProgram_eq, htop .abort, htop .keepGoing]
  cases hnoted : topLevel forms options with
  | error e =>
    obtain ⟨name, rfl⟩ := collect_error hnoted
    exact .refused options.entry name
  | ok top =>
    have hagree := top.completed_agree forms options
    dsimp only [Except.mapError, bind, Except.bind]
    cases habort : top.completed forms { options with policy := .abort } with
    | ok done =>
      rw [habort] at hagree
      obtain ⟨hgoing, hdiagnostics⟩ := hagree
      rw [hgoing]
      dsimp only
      rw [hdiagnostics]
      exact .compiled _
    | error d =>
      rw [habort] at hagree
      obtain ⟨done, hgoing, rest, hdiagnostics⟩ := hagree
      rw [hgoing]
      dsimp only
      rw [← hdiagnostics]
      exact .reported (TopLevel.completed_atSource habort) _ rest

/-- **The two error policies agree**. Both give the answer of working off the queue. A program that
compiles under `abort` has the same module under `keepGoing`, without diagnostics; one with a
reserved name is refused by both; and in every other case `keepGoing` gives a module, and first of
all the diagnostic that `abort` stops with. -/
theorem error_policies_agree (forms : List Expr) (options : CompileOptions) :
    (∀ policy, Compiles forms { options with policy }
      (compileProgram forms { options with policy })) ∧
    (∀ output, compileProgram forms { options with policy := .abort } = .ok output →
      compileProgram forms { options with policy := .keepGoing } = .ok ⟨output.module, []⟩) ∧
    (∀ d name, compileProgram forms { options with policy := .abort } = .error d →
      d.error = .reservedName name →
      compileProgram forms { options with policy := .keepGoing } = .error d) ∧
    (∀ d, compileProgram forms { options with policy := .abort } = .error d →
      (∀ name, d.error ≠ .reservedName name) →
      ∃ output, compileProgram forms { options with policy := .keepGoing } = .ok output ∧
        output.diagnostics.head? = some d) := by
  refine ⟨fun policy => compileProgram_compiles forms _, ?_⟩
  have hagree := compileProgram_agree forms options
  generalize compileProgram forms { options with policy := .abort } = aborting at hagree ⊢
  generalize compileProgram forms { options with policy := .keepGoing } = going at hagree ⊢
  cases hagree with
  | compiled module =>
    refine ⟨fun output h => ?_, fun _ _ h => (nomatch h), fun _ h => (nomatch h)⟩
    cases h
    rfl
  | refused entry name =>
    refine ⟨fun _ h => (nomatch h), fun _ _ h _ => h, fun d h hother => ?_⟩
    cases h
    exact absurd rfl (hother name)
  | reported hsource module rest =>
    refine ⟨fun _ h => (nomatch h), fun d name h hname => ?_, fun d h _ => ?_⟩
    · cases h
      rw [hname] at hsource
      exact hsource.elim
    · cases h
      exact ⟨_, rfl, rfl⟩

/-- Two functions with a name that means nothing, after an entry function that compiles. -/
def twiceUnresolved : List Expr :=
  [.define "f" (.lambda [] [.var "missing"]), .define "g" (.lambda ["x"] [.var "y"]),
    .call (.var "g") [.call (.var "f") []]]

theorem error_policies_agree_unresolved :
    compileProgram twiceUnresolved ⟨"m", "main", .abort⟩ =
        .error ⟨"f", .unresolved "missing"⟩ ∧
      ∃ output, compileProgram twiceUnresolved ⟨"m", "main", .keepGoing⟩ = .ok output ∧
        output.diagnostics.head? = some ⟨"f", .unresolved "missing"⟩ := by
  have habort : compileProgram twiceUnresolved ⟨"m", "main", .abort⟩ =
      .error ⟨"f", .unresolved "missing"⟩ := by cbv
  obtain ⟨-, -, -, hgoes⟩ := error_policies_agree twiceUnresolved ⟨"m", "main", .abort⟩
  refine ⟨habort, hgoes _ habort ?_⟩
  intro name h
  cases h

end WordScheme
