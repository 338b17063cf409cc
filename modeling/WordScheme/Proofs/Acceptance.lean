import Mathlib
import WordScheme.Proofs.CheckedLowering
import WordScheme.Proofs.InternalChecks
import WordScheme.Proofs.Termination

/-!
# Which programs are accepted

A compilation that stops at the first error succeeds exactly for the programs that pass the static
check `isWellFormed`, as long as nothing in them returns early: `compileProgram_ok_iff_wellFormed`.

Building one function succeeds exactly if its body is well formed, and then all functions of the
body are found (`lowerFunction_decided`, `lowerEntry_decided`). The queue takes this to everything
that waits and all inside of it (`Progress.Drains.ok_iff`). What waits at first and what the entry
function finds are together the functions of the program (`TopLevel.Ahead.perm`).
-/

namespace WordScheme

open Lower LowerState FunctionDraft

/-! ### Parameters -/

namespace Scope

/-- After a change its name has the new binding if it had one, and the others keep theirs. -/
private theorem lookupIn?_rebindIn (name : Name) (b : Binding) (other : Name)
    (frames : List (Assoc Name Binding)) : lookupIn? other (rebindIn name b frames) =
      if name = other then (lookupIn? name frames).map fun _ => b else lookupIn? other frames := by
  induction frames with
  | nil => simp [lookupIn?]
  | cons frame frames ih =>
    rw [rebindIn_cons, lookupIn?, lookupIn?]
    by_cases hhas : frame.has name = true
    · -- the frame that has the name is the one that changes
      obtain ⟨old, hold⟩ := Option.isSome_iff_exists.mp hhas
      rw [if_pos hhas, lookupIn?, hold]
      split_ifs with heq
      · rw [← heq, Assoc.get?_put_self]
        rfl
      · rw [Assoc.get?_put_of_ne _ _ (Ne.symm heq)]
    · have hnone : frame.get? name = none := by simpa [Assoc.has] using hhas
      rw [if_neg hhas, lookupIn?, ih, hnone]
      split_ifs with heq
      · rw [← heq, hnone]
        rfl
      · rfl

/-- A name that is bound is given another binding. -/
private theorem lookup?_rebind (s : Scope) (name : Name) (b : Binding) (other : Name) :
    (s.rebind name b).lookup? other =
      if name = other then (s.lookup? name).map fun _ => b else s.lookup? other := by
  rw [lookup?, frames_rebind, lookupIn?_rebindIn]
  rfl

/-- A parameter is bound to itself. -/
private theorem lookup?_foldl_bind_params (params : List Name) (s : Scope) (name : Name) :
    (params.foldl (fun s p => s.bind p (.value (.param p .word))) s).lookup? name =
      if name ∈ params then some (.value (.param name .word)) else s.lookup? name := by
  induction params generalizing s with
  | nil => rfl
  | cons param params ih =>
    rw [List.foldl_cons, ih, lookup?_bind]
    grind

end Scope

private theorem Assoc.get?_map_none (names : List Name) (name : Name) :
    Assoc.get? (names.map ((·, none)) : Locals) name =
      if name ∈ names then some none else none := by
  induction names with
  | nil => rfl
  | cons first names ih =>
    rw [List.map_cons, Assoc.get?, ih]
    grind

/-! ### Functions -/

section Functions

variable {G : Globals} {assigned : List Name} {locals : Locals} {s : LowerState}

/-- A function starts with its parameters as its local names. None of them lives in a cell yet. -/
private theorem at_start (unit : CompileUnit) (name : Name) (params : List Name) (G : Globals)
    (assigned : List Name) : (start unit name params G).At G (assigned.filter (· ∉ params))
      (params.map (·, none)) := by
  have hlookup : ∀ other, (start unit name params G).draft.scope.lookup? other =
      if other ∈ params then some (.value (.param other .word)) else none :=
    Scope.lookup?_foldl_bind_params params Scope.empty.push
  refine ⟨⟨rfl, fun other => ?_, fun other hother b hb => ?_⟩, rfl⟩
  · rw [hlookup, Assoc.get?_map_none]
    split <;> rfl
  · rw [hlookup, if_neg (by simpa using (List.mem_filter.mp hother).2)] at hb
    cases hb

/-- A parameter has been moved into a cell, and the others wait. -/
private theorem LowerState.At.spill {name : Name} {names : List Name}
    (hs : s.At G (assigned.filter (· ∉ name :: names)) locals)
    (hname : locals.get? name = some none) (pointer : Operand) :
    At G (assigned.filter (· ∉ names)) locals
      ⟨s.unit, { s.draft with scope := s.draft.scope.rebind name (.slot pointer) }⟩ := by
  refine ⟨⟨hs.globals, fun other => ?_, fun other hother b hb => ?_⟩, hs.live⟩
  · change ((s.draft.scope.rebind name (.slot pointer)).lookup? other).map _ = _
    rw [Scope.lookup?_rebind]
    split_ifs with heq
    · obtain ⟨b, hb, -⟩ := Option.map_eq_some_iff.mp ((hs.lookup name).trans hname)
      rw [← heq, hname, hb]
      rfl
    · exact hs.lookup other
  · change (s.draft.scope.rebind name (.slot pointer)).lookup? other = some b at hb
    rw [Scope.lookup?_rebind] at hb
    split_ifs at hb with heq
    · obtain ⟨_, -, rfl⟩ := Option.map_eq_some_iff.mp hb
      exact ⟨pointer, rfl⟩
    · refine hs.slots other ?_ b hb
      simp only [List.mem_filter, decide_eq_true_eq, List.mem_cons, not_or] at hother ⊢
      exact ⟨hother.1, Ne.symm heq, hother.2⟩

/-- Parameters that are assigned to are moved into cells. The names that can be seen stay. -/
private theorem spillParams_decides {names : List Name}
    (hs : s.At G (assigned.filter (· ∉ names)) locals)
    (hnames : ∀ name ∈ names, locals.get? name = some none) :
    Decides true s (spillParams assigned names) fun _ t => t.At G assigned locals ∧
      t.draft.pending.map PendingFunction.lambda = s.draft.pending.map PendingFunction.lambda := by
  induction names generalizing s with
  | nil =>
    have hall : assigned.filter (· ∉ []) = assigned := by simp
    exact ⟨rfl, hall ▸ hs, rfl⟩
  | cons name names ih =>
    obtain ⟨hname, hnames⟩ := List.forall_mem_cons.mp hnames
    rw [spillParams]
    split_ifs with hassigned
    · refine (lowers_emit (.alloca .word) s hs).bind fun pointer t ht => ?_
      refine (checks_store _ pointer t ht.1).bind fun _ u hu => ?_
      refine .after rfl ((ih (hu.1.spill hname pointer) hnames).mono fun _ v hv => ⟨hv.1, ?_⟩)
      have hfound := (ht.2.1.trans hu.2.1).found
      rw [List.append_nil, List.append_nil] at hfound
      exact hv.2.trans hfound
    · -- only names that are assigned to matter
      have hsame : assigned.filter (· ∉ name :: names) = assigned.filter (· ∉ names) := by
        refine List.filter_congr fun other hother => ?_
        have hne : other ≠ name := fun heq => hassigned (List.contains_iff_mem.mpr (heq ▸ hother))
        simp [hne]
      exact ih (hsame ▸ hs) hnames

/-- **A body can be lowered exactly if the function is well formed.** -/
theorem lowerBody_decides (l : Lambda) (hreturn : returnFreeAll l.body = true)
    (hs : s.At G ((assignedAll l.body).filter (· ∉ l.params)) (l.params.map (·, none))) :
    Decides (l.wellFormed G.get?) s (lowerBody (assignedAll l.body) l) fun _ t =>
      t.draft.terminated = false ∧ t.draft.pending.map PendingFunction.lambda =
        s.draft.pending.map PendingFunction.lambda ++ lambdasAll false l.body := by
  have hparams : ∀ name ∈ l.params,
      Assoc.get? (l.params.map ((·, none)) : Locals) name = some none :=
    fun name hname => (Assoc.get?_map_none _ _).trans (if_pos hname)
  refine (spillParams_decides hs hparams).bind fun _ t ht => ?_
  -- the body is lowered in a frame of its own
  let inner : LowerState := ⟨t.unit, { t.draft with scope := t.draft.scope.push }⟩
  have hinner : inner.At G (assignedAll l.body) (l.params.map (·, none)) :=
    ⟨⟨ht.1.globals, ht.1.lookup, ht.1.slots⟩, ht.1.live⟩
  refine .after (t := inner) rfl ?_
  have hzero : (Operand.word 0).arity? = none := rfl
  have hbody := lowerSequence_lowers (G := G) l.body hreturn (List.Subset.refl _) hzero
    (l.params.map (·, none)) inner hinner
  refine hbody.bind_true fun v u hu => ?_
  refine .after rfl ⟨rfl, hu.1.live, ?_⟩
  rw [← ht.2]
  exact hu.2.1.found

/-- A function is built as `ok` says, and then the given functions are found in its body. -/
def Decided (ok : Bool) (found : List Lambda) : Except CompileError FinishedFunction → Prop
  | .ok f => ok = true ∧ f.pending.map PendingFunction.lambda = found
  | .error _ => ok = false

/-- Blocks are refused only for a missing terminator. -/
private theorem BlockDraft.exists_of_mapM_finish {bs : List BlockDraft} {e : CompileError}
    (h : bs.mapM BlockDraft.finish = .error e) : ∃ label, e = .missingTerminator label := by
  induction bs with
  | nil => cases h
  | cons b bs ih =>
    rw [List.mapM_cons] at h
    cases hterminator : b.terminator with
    | none =>
      rw [BlockDraft.finish, hterminator] at h
      cases h
      exact ⟨b.label, rfl⟩
    | some t =>
      rw [BlockDraft.finish, hterminator] at h
      cases hbs : bs.mapM BlockDraft.finish with
      | ok blocks =>
        rw [hbs] at h
        cases h
      | error e' =>
        rw [hbs] at h
        cases h
        exact ih hbs

/-- The checks at the end of a function do not fail by errors of the source. -/
private theorem not_atSource_of_finish {d : FunctionDraft} {e : CompileError}
    (h : d.finish = .error e) : ¬ e.AtSource := by
  rw [finish] at h
  cases hblocks : d.blocks.rows.mapM BlockDraft.finish with
  | error e' =>
    rw [hblocks] at h
    cases h
    obtain ⟨label, rfl⟩ := BlockDraft.exists_of_mapM_finish hblocks
    exact id
  | ok blocks =>
    rw [hblocks] at h
    cases hstray : d.stray? with
    | none =>
      simp only [hstray] at h
      cases h
    | some label =>
      simp only [hstray] at h
      cases h
      exact id

/-- A function is built exactly when its steps succeed. -/
private theorem buildFunction_decided {ok : Bool} {found : List Lambda} {unit : CompileUnit}
    {draft : FunctionDraft} {steps : Lower Operand}
    (hsteps : Decides ok ⟨{ unit with lifted := [] }, draft⟩ steps fun _ t =>
      t.draft.terminated = false ∧ t.draft.pending.map PendingFunction.lambda = found)
    (hsource : ∀ e, (buildFunction unit draft steps).1 = .error e → e.AtSource) :
    Decided ok found (buildFunction unit draft steps).1 := by
  have hleaving : Decides ok ⟨{ unit with lifted := [] }, draft⟩ (leaving steps) fun _ t =>
      t.draft.pending.map PendingFunction.lambda = found := by
    refine hsteps.bind_true fun v t ht => ?_
    refine .after (a := false) (congrArg (EStateM.Result.ok · t) ht.1) ?_
    rw [Decides, if_neg (by simp), terminate_eq ht.1]
    exact ⟨rfl, ht.2⟩
  rw [buildFunction_eq] at hsource ⊢
  rw [Decides] at hleaving
  cases hrun : leaving steps ⟨{ unit with lifted := [] }, draft⟩ with
  | error e t =>
    rw [hrun] at hleaving
    exact hleaving
  | ok _ t =>
    rw [hrun] at hleaving hsource
    change Decided ok found t.draft.finish
    cases hfinish : t.draft.finish with
    | error e => exact absurd (hsource e hfinish) (not_atSource_of_finish hfinish)
    | ok g =>
      obtain ⟨_, rfl, -⟩ := of_finish hfinish
      exact hleaving

/-- **A function without returns is built exactly when its lambda is well formed.** -/
private theorem lowerFunction_decided (unit : CompileUnit) (f : PendingFunction)
    (hreturn : returnFreeAll f.lambda.body = true) :
    Decided (f.lambda.wellFormed f.globals.get?) (lambdasAll false f.lambda.body)
      (lowerFunction unit f).1 :=
  buildFunction_decided
    (lowerBody_decides f.lambda hreturn (at_start unit f.name f.lambda.params f.globals _))
    fun _ => lowerFunction_atSource

end Functions

/-! ### The queue -/

open PendingFunction

/-- What was found in a body, with all inside of it, is all that the body has. -/
private theorem allLambdas_perm {fs : List PendingFunction} {es : List Expr}
    (h : fs.map PendingFunction.lambda = lambdasAll false es) :
    (allLambdas fs).Perm (lambdasAll true es) := by
  have hperm := lambdasAll_perm es
  rw [← h, List.flatMap_map] at hperm
  exact hperm.symm

namespace Progress

variable {G : Globals} {p q : Progress} {f : PendingFunction} {queue : List PendingFunction}

/-- A compilation that stops at the first error goes on if and only if the function is built. -/
private theorem record_abort_iff (name : Name) {ok : Bool} {found : List Lambda}
    {result : Except CompileError FinishedFunction × CompileUnit}
    (h : Decided ok found result.1) :
    match p.record .abort name result with
    | .ok q => ok = true ∧ ∃ fs, q.queue = p.queue ++ fs ∧ fs.map PendingFunction.lambda = found
    | .error _ => ok = false := by
  obtain ⟨outcome, unit⟩ := result
  cases outcome with
  | error e => exact h
  | ok g => exact ⟨h.1, g.pending, rfl, h.2⟩

private theorem allLambdas_cons (f : PendingFunction) (queue : List PendingFunction) :
    allLambdas (f :: queue) = f.lambda :: (lambdasAll true f.lambda.body ++ allLambdas queue) :=
  rfl

/-- **The queue is worked off exactly if all functions that wait are well formed**, and all inside
of them. -/
theorem Drains.ok_iff {result : Except Diagnostic Progress} (h : p.Drains .abort result)
    (hp : p.Sound G) (hreturn : ∀ l ∈ allLambdas p.queue, returnFreeAll l.body = true) :
    (∃ q, result = .ok q) ↔ ∀ l ∈ allLambdas p.queue, l.wellFormed G.get? = true := by
  induction h with
  | @done p hqueue =>
    rw [hqueue]
    exact iff_of_true ⟨p, rfl⟩ fun l hl => nomatch hl
  | @stop p f queue d hqueue hrecord =>
    rw [hqueue, allLambdas_cons] at hreturn ⊢
    have hdecided := lowerFunction_decided p.unit f (hreturn _ List.mem_cons_self)
    rw [(hp.next hqueue).2.1] at hdecided
    have hfails := record_abort_iff (p := { p with queue }) f.name hdecided
    rw [hrecord] at hfails
    refine iff_of_false (fun ⟨q, hq⟩ => nomatch hq) fun hall => ?_
    have hwell := hall _ List.mem_cons_self
    rw [hfails] at hwell
    cases hwell
  | @next p q f queue result hqueue hrecord _ ih =>
    rw [hqueue, allLambdas_cons] at hreturn ⊢
    obtain ⟨hrest, hG, hdeclared, t, hbuilds⟩ := hp.next hqueue
    have hdecided := lowerFunction_decided p.unit f (hreturn _ List.mem_cons_self)
    rw [hG] at hdecided
    have hgoes := record_abort_iff (p := { p with queue }) f.name hdecided
    rw [hrecord] at hgoes
    obtain ⟨hwell, fs, hq, hfs⟩ := hgoes
    -- what was inside of the function waits now
    have hmem : ∀ l, l ∈ allLambdas q.queue ↔
        l ∈ lambdasAll true f.lambda.body ++ allLambdas queue := by
      intro l
      rw [hq, allLambdas, List.flatMap_append, List.mem_append, List.mem_append,
        ← (allLambdas_perm hfs).mem_iff]
      exact or_comm
    have hreturn' : ∀ l ∈ allLambdas q.queue, returnFreeAll l.body = true :=
      fun l hl => hreturn l (.tail _ ((hmem l).mp hl))
    rw [ih (hrest.record hbuilds hdeclared hrecord).1 hreturn', List.forall_mem_cons,
      and_iff_right hwell]
    exact forall_congr' fun l => by rw [hmem]

end Progress

/-! ### The top level -/

namespace TopLevel

variable {t u top : TopLevel} {index : Nat} {form : Expr} {forms : List Expr}

/-- A definition gives its name the kind of its value. -/
private theorem globals_define (t : TopLevel) (index : Nat) (name : Name) (value : Expr) :
    (t.define index name value).globals = t.globals.put name value.kind := by
  cases value <;> rfl

/-- How a form is read, and whether it is skipped when the entry function is built. The first
definition of a name is if its value is a lambda. -/
inductive Reads (t : TopLevel) (index : Nat) : Expr → Bool → TopLevel → Prop
  | first {name : Name} {value : Expr} (hnew : t.globals.has name = false) :
      Reads t index (.define name value) value.arity?.isSome (t.define index name value)
  | again {name : Name} {value : Expr} (hold : t.globals.has name = true) :
      Reads t index (.define name value) false t
  | other {form : Expr} (hform : ∀ name value, form ≠ .define name value) :
      Reads t index form false t

/-- The forms of a top level are read one by one. -/
theorem exists_reads (h : t.collect index (form :: forms) = .ok top) :
    ∃ skipped u, t.Reads index form skipped u ∧ u.collect (index + 1) forms = .ok top := by
  by_cases hform : ∃ name value, form = .define name value
  · obtain ⟨name, value, rfl⟩ := hform
    rw [collect] at h
    split_ifs at h with _ hold
    · exact ⟨false, t, .again hold, h⟩
    · exact ⟨_, _, .first (Bool.not_eq_true _ ▸ hold), h⟩
  · have hother : ∀ name value, form ≠ .define name value :=
      fun name value heq => hform ⟨name, value, heq⟩
    rw [collect] at h
    · exact ⟨false, t, .other hother, h⟩
    · exact hother

private theorem Reads.functionForms {skipped : Bool} (h : t.Reads index form skipped u) :
    u.functionForms = if skipped then t.functionForms ++ [index] else t.functionForms := by
  cases h with
  | @first name value hnew => cases value <;> rfl
  | again => rfl
  | other => rfl

/-- A form defines its name unless that is defined. -/
theorem Reads.get?_globals {skipped : Bool} (h : t.Reads index form skipped u) (name : Name) :
    u.globals.get? name =
      (t.globals.get? name).or ((form.definition? name).map Expr.kind) := by
  cases h with
  | @first other value hnew =>
    rw [globals_define, Expr.definition?]
    split_ifs with heq
    · have hnone : t.globals.get? other = none := by simpa [Assoc.has] using hnew
      rw [← heq, Assoc.get?_put_self, hnone]
      rfl
    · rw [Assoc.get?_put_of_ne _ _ (Ne.symm heq), Option.map_none, Option.or_none]
  | @again other value hold =>
    rw [Expr.definition?]
    split_ifs with heq
    · obtain ⟨kind, hkind⟩ := Option.isSome_iff_exists.mp hold
      rw [← heq, hkind]
      rfl
    · rw [Option.map_none, Option.or_none]
  | other hform =>
    rw [Expr.definition?, Option.map_none, Option.or_none]
    exact hform

/-- **The first definition of a name decides what it is.** -/
theorem get?_collect (h : t.collect index forms = .ok top) (name : Name) :
    top.globals.get? name = (t.globals.get? name).or (topKind? forms name) := by
  induction forms generalizing t index with
  | nil =>
    cases h
    exact (Option.or_none).symm
  | cons form forms ih =>
    obtain ⟨skipped, u, hreads, hrest⟩ := exists_reads h
    rw [ih hrest, hreads.get?_globals, Option.or_assoc, topKind?, topKind?, firstDefinition?,
      firstDefinition?, List.findSome?_cons]
    cases form.definition? name <;> rfl

/-- Only places from the index on are added to those that are skipped. -/
private theorem functionForms_collect (h : t.collect index forms = .ok top) {i : Nat}
    (hi : i ∈ top.functionForms) : i ∈ t.functionForms ∨ index ≤ i := by
  induction forms generalizing t index with
  | nil =>
    cases h
    exact .inl hi
  | cons form forms ih =>
    obtain ⟨skipped, u, hreads, hrest⟩ := exists_reads h
    have hmem := ih hrest
    rw [hreads.functionForms] at hmem
    cases skipped with
    | true => grind
    | false => grind

/-- The forms from an index on are still to be read. -/
structure Ahead (t : TopLevel) (index : Nat) (forms : List Expr) (top : TopLevel) : Prop where
  collect : t.collect index forms = .ok top
  lt : ∀ i ∈ t.functionForms, i < index

/-- The next form is read, and skipped later as it is noted now. -/
theorem Ahead.cons (h : t.Ahead index (form :: forms) top) :
    ∃ u, t.Reads index form (top.functionForms.contains index) u ∧
      u.Ahead (index + 1) forms top := by
  obtain ⟨skipped, u, hreads, hrest⟩ := exists_reads h.collect
  have hforms := hreads.functionForms
  have hlt := h.lt
  have hlt' : ∀ i ∈ u.functionForms, i < index + 1 := by
    rw [hforms]
    grind
  have hskipped : top.functionForms.contains index = skipped := by
    cases skipped with
    | true =>
      refine List.contains_iff_mem.mpr ((collect_count hrest).1 ?_)
      simp [hforms]
    | false =>
      rw [Bool.eq_false_iff, ne_eq, List.contains_iff_mem]
      intro hmem
      have hcases := functionForms_collect hrest hmem
      grind
  exact ⟨u, hskipped ▸ hreads, hrest, hlt'⟩

/-- A form that is skipped adds its functions to those that wait. -/
private theorem Reads.allLambdas_pending {skipped : Bool} (h : t.Reads index form skipped u) :
    allLambdas u.pending =
      if skipped then allLambdas t.pending ++ form.lambdas true else allLambdas t.pending := by
  rw [TopLevel.allLambdas_pending, TopLevel.allLambdas_pending]
  cases h with
  | @first name value hnew =>
    cases value with
    | lambda params body => simp [define, Expr.arity?, Expr.lambdas, Lambda.withInner]
    | _ => rfl
  | again => rfl
  | other => rfl

/-- **The functions that wait at first, and those in forms that are not skipped, are all functions
of the program.** -/
theorem Ahead.perm (h : t.Ahead index forms top) :
    (allLambdas top.pending ++ lambdasAll true (unskipped top.functionForms index forms)).Perm
      (allLambdas t.pending ++ lambdasAll true forms) := by
  induction forms generalizing t index with
  | nil =>
    cases h.collect
    rfl
  | cons form forms ih =>
    obtain ⟨u, hreads, hrest⟩ := h.cons
    have hperm := ih hrest
    rw [hreads.allLambdas_pending] at hperm
    rw [unskipped, lambdasAll]
    split_ifs at hperm ⊢ with hskipped
    · rwa [List.append_assoc] at hperm
    · -- the functions of the form are in front on both sides
      rw [lambdasAll]
      refine (List.perm_append_comm_assoc _ _ _).trans ?_
      exact (hperm.append_left _).trans (List.perm_append_comm_assoc _ _ _)

variable {assigned defined : List Name}

theorem Reads.has_globals {skipped : Bool} {name : Name} {value : Expr}
    (h : t.Reads index (.define name value) skipped u)
    (hdefined : ∀ other, t.globals.has other = defined.contains other) (other : Name) :
    u.globals.has other = (name :: defined).contains other := by
  rw [List.contains_cons, ← hdefined, Assoc.has, Assoc.has, h.get?_globals, Expr.definition?]
  by_cases heq : name = other
  · simp [heq]
  · simp [heq, Ne.symm heq]

/-- A form that is skipped is the first definition of a function. -/
private theorem Reads.of_skipped (h : t.Reads index form true u) :
    ∃ name params body, form = .define name (.lambda params body) ∧ t.globals.has name = false := by
  generalize hskipped : true = skipped at h
  cases h with
  | @first name value hnew =>
    cases value with
    | lambda params body => exact ⟨name, params, body, rfl, hnew⟩
    | _ => cases hskipped
  | again => cases hskipped
  | other => cases hskipped

/-- A definition that is not skipped may only be of a variable, which the check asks of all but the
first. -/
private theorem Reads.isVar_eq {name : Name} {value : Expr}
    (h : t.Reads index (.define name value) false u) (hrest : u.collect (index + 1) forms = .ok top)
    (hdefined : ∀ other, t.globals.has other = defined.contains other) :
    (!defined.contains name || top.globals.get? name == some .var) =
      (top.globals.get? name == some .var) := by
  generalize hskipped : false = skipped at h
  cases h with
  | first hnew =>
    have harity : value.arity? = none := by simpa using hskipped.symm
    have hkind : value.kind = .var := by rw [Expr.kind, harity]
    have hget : top.globals.get? name = some .var := by
      rw [get?_collect hrest, globals_define, Assoc.get?_put_self, hkind, Option.some_or]
    simp [hget]
  | again hold =>
    rw [← hdefined, hold]
    rfl
  | other hform => exact absurd rfl (hform name value)

/-- A form that is not skipped, and the forms behind it. -/
private theorem lowerForm_bind_lowers {G : Globals} {skipped : List Nat} {ok ok' : Bool}
    {locals locals₁ locals₂ : Locals} {ls ks : List Lambda}
    (hform : Lowers G assigned ok locals locals₁ ls (lowerForm assigned form))
    (hforms : ∀ {value : Operand}, value.arity? = none → Lowers G assigned ok' locals₁ locals₂ ks
      (lowerForms assigned skipped (index + 1) value forms)) :
    Lowers G assigned (ok && ok') locals locals₂ (ls ++ ks) (do
      let value ← lowerForm assigned form
      if ← terminated then return value
      lowerForms assigned skipped (index + 1) value forms) := by
  refine hform.bind fun v hv => checks_terminated.andThen fun done hdone => ?_
  rw [hdone]
  exact hforms hv

/-- A definition stores to a variable of the top level. -/
private theorem lowerForm_define_lowers {G : Globals} (name : Name) (value : Expr)
    (hreturn : value.returnFree = true) (hsub : value.assigned ⊆ assigned) (locals : Locals) :
    Lowers G assigned (value.wellFormed G.get? assigned locals && G.get? name == some .var) locals
      (value.after assigned locals) (value.lambdas false)
      (lowerForm assigned (.define name value)) := by
  refine (lower_lowers value hreturn hsub locals).bind_nil fun v _ => ?_
  exact (assignGlobal_checks name v).bind_true fun _ _ => lowers_word 0

/-- **The forms of a program can be lowered exactly if they are well formed.** -/
theorem Ahead.lowerForms_lowers (h : t.Ahead index forms top)
    (hdefined : ∀ name, t.globals.has name = defined.contains name)
    (hreturn : returnFreeAll forms = true) (hsub : assignedAll forms ⊆ assigned)
    (locals : Locals) : ∃ locals', ∀ {value : Operand}, value.arity? = none →
      Lowers top.globals assigned
        (wellFormedForms top.globals.get? assigned defined forms locals) locals locals'
        (lambdasAll false (unskipped top.functionForms index forms))
        (lowerForms assigned top.functionForms index value forms) := by
  induction forms generalizing t index defined locals with
  | nil => exact ⟨locals, fun hvalue => checks_pure hvalue⟩
  | cons form forms ih =>
    rw [returnFreeAll, Bool.and_eq_true] at hreturn
    rw [assignedAll, List.append_subset] at hsub
    obtain ⟨u, hreads, hrest⟩ := h.cons
    by_cases hform : ∃ name e, form = .define name e
    · obtain ⟨name, e, rfl⟩ := hform
      obtain ⟨locals', hforms⟩ := ih hrest (hreads.has_globals hdefined) hreturn.2 hsub.2
        (e.after assigned locals)
      refine ⟨locals', fun {value} hvalue => ?_⟩
      rw [lowerForms, unskipped, wellFormedForms]
      cases hskipped : top.functionForms.contains index with
      | true =>
        -- nothing is lowered, and nothing can be wrong
        rw [hskipped] at hreads
        obtain ⟨_, params, body, heq, hnew⟩ := hreads.of_skipped
        cases heq
        rw [← hdefined, hnew, Expr.wellFormed]
        exact hforms hvalue
      | false =>
        rw [hskipped] at hreads
        rw [hreads.isVar_eq hrest.collect hdefined, ← Bool.and_assoc]
        exact lowerForm_bind_lowers (lowerForm_define_lowers name e hreturn.1 hsub.1 locals) hforms
    · have hother : ∀ name e, form ≠ .define name e := fun name e heq => hform ⟨name, e, heq⟩
      generalize hskipped : top.functionForms.contains index = skipped at hreads
      cases hreads with
      | first => exact absurd rfl (hother _ _)
      | again => exact absurd rfl (hother _ _)
      | other =>
        obtain ⟨locals', hforms⟩ := ih hrest hdefined hreturn.2 hsub.2 (form.after assigned locals)
        refine ⟨locals', fun {value} hvalue => ?_⟩
        rw [lowerForms, unskipped, wellFormedForms, hskipped]
        · refine lowerForm_bind_lowers ?_ hforms
          rw [lowerForm]
          · exact lower_lowers form hreturn.1 hsub.1 locals
          · exact hother
        · exact hother

end TopLevel

/-! ### Programs -/

section Programs

variable {forms : List Expr} {options : CompileOptions} {top : TopLevel}

theorem topLevel_ahead (htop : topLevel forms options = .ok top) :
    TopLevel.Ahead ⟨(CompileUnit.start options.moduleName options.entry).ensure
      (ModuleDraft.placeholder options.entry []), [], [], []⟩ 0 forms top :=
  ⟨htop, nofun⟩

theorem get?_topLevel (htop : topLevel forms options = .ok top) :
    top.globals.get? = topKind? forms :=
  funext fun name => TopLevel.get?_collect htop name

/-- The top level of a program is collected exactly when all of its definitions are allowed. -/
private theorem exists_topLevel_iff (forms : List Expr) (options : CompileOptions) :
    (∃ top, topLevel forms options = .ok top) ↔
      forms.all (Expr.isAllowed options.entry) = true := by
  have hentry : ((CompileUnit.start options.moduleName options.entry).ensure
      (ModuleDraft.placeholder options.entry [])).entry = options.entry := rfl
  rw [topLevel, TopLevel.collect_ok_iff, List.all_eq_true, hentry]
  refine ⟨fun h form hform => ?_, fun h name value hmem => ?_⟩
  · rw [Expr.isAllowed.eq_def]
    split
    · next name value =>
      rw [h name value hform]
      rfl
    · rfl
  · have hallowed := h _ hmem
    rwa [Expr.isAllowed, Bool.not_eq_true'] at hallowed

/-- The entry function is built exactly if the forms of the program are well formed. -/
private theorem lowerEntry_decided (htop : topLevel forms options = .ok top)
    (hreturn : returnFreeAll forms = true) :
    Decided (wellFormedForms (topKind? forms) (assignedAll forms) [] forms [])
      (lambdasAll false (unskipped top.functionForms 0 forms))
      (lowerEntry top.unit forms top.functionForms top.globals).1 := by
  have hnone : ∀ name, Assoc.has ([] : Globals) name = ([] : List Name).contains name :=
    fun _ => rfl
  obtain ⟨locals', hforms⟩ := (topLevel_ahead htop).lowerForms_lowers hnone hreturn
    (List.Subset.refl _) []
  have hstart := at_start top.unit top.unit.entry [] top.globals (assignedAll forms)
  rw [List.filter_eq_self.mpr (by simp)] at hstart
  rw [← get?_topLevel htop]
  refine buildFunction_decided ?_ fun _ => lowerEntry_atSource
  exact (hforms rfl _ hstart).mono fun _ t ht => ⟨ht.1.live, ht.2.1.found⟩

/-- All functions of the program wait once the entry function is built, or are inside of those that
do. -/
private theorem allLambdas_started_perm {begun : Progress} {fs : List PendingFunction}
    (htop : topLevel forms options = .ok top) (hqueue : begun.queue = top.pending ++ fs)
    (hfs : fs.map PendingFunction.lambda =
      lambdasAll false (unskipped top.functionForms 0 forms)) :
    (allLambdas begun.queue).Perm (lambdasAll true forms) := by
  have hperm := (topLevel_ahead htop).perm
  rw [hqueue, allLambdas, List.flatMap_append]
  exact ((allLambdas_perm hfs).append_left _).trans hperm

/-- Once the entry function is built, what is left to check are the functions of the program. -/
private theorem drains_started_iff {begun : Progress} {result : Except Diagnostic Progress}
    (htop : topLevel forms options = .ok top) (hpolicy : options.policy = .abort)
    (hbegun : top.started forms options = .ok begun) (hdrains : begun.Drains .abort result)
    (hreturn : returnFreeAll forms = true)
    (hreturn' : ∀ l ∈ lambdasAll true forms, returnFreeAll l.body = true) :
    wellFormedForms (topKind? forms) (assignedAll forms) [] forms [] = true ∧
      ((∃ done, result = .ok done) ↔
        ∀ l ∈ lambdasAll true forms, l.wellFormed (topKind? forms) = true) := by
  obtain ⟨hsound, -⟩ := TopLevel.sound_topLevel htop
  have hsound' := (hsound.started hbegun).1
  have hentry := Progress.record_abort_iff (p := ⟨top.unit, [], top.pending⟩) options.entry
    (lowerEntry_decided htop hreturn)
  rw [TopLevel.started, hpolicy] at hbegun
  rw [hbegun] at hentry
  obtain ⟨hwell, fs, hqueue, hfs⟩ := hentry
  have hperm := allLambdas_started_perm htop hqueue hfs
  have hiff := hdrains.ok_iff hsound' fun l hl => hreturn' l (hperm.mem_iff.mp hl)
  rw [get?_topLevel htop] at hiff
  exact ⟨hwell, hiff.trans (forall_congr' fun l => by rw [hperm.mem_iff])⟩

/-- **A program is accepted exactly if it is well formed**, as long as nothing in it returns
early. -/
theorem compileProgram_ok_iff_wellFormed (forms : List Expr) (moduleName : String) (entry : Name)
    (hreturn : isReturnFree forms = true) :
    (∃ output, compileProgram forms ⟨moduleName, entry, .abort⟩ = .ok output) ↔
      isWellFormed entry forms = true := by
  rw [isReturnFree, Bool.and_eq_true, List.all_eq_true] at hreturn
  have hallowed : (∃ top, topLevel forms ⟨moduleName, entry, .abort⟩ = .ok top) ↔
      forms.all (Expr.isAllowed entry) = true := exists_topLevel_iff forms _
  rw [isWellFormed, Bool.and_eq_true, Bool.and_eq_true, ← hallowed, List.all_eq_true]
  have hcompiles := compileProgram_compiles forms ⟨moduleName, entry, .abort⟩
  generalize compileProgram forms ⟨moduleName, entry, .abort⟩ = result at hcompiles
  cases hcompiles with
  | reserved htop =>
    refine iff_of_false nofun fun hwell => ?_
    obtain ⟨top, htop'⟩ := hwell.1
    rw [htop] at htop'
    cases htop'
  | @entryFails top d htop hfails =>
    refine iff_of_false nofun fun hwell => ?_
    have hentry := Progress.record_abort_iff (p := ⟨top.unit, [], top.pending⟩) entry
      (lowerEntry_decided htop hreturn.1)
    rw [TopLevel.started] at hfails
    rw [hfails, hwell.2.1] at hentry
    cases hentry
  | stops htop hbegun hdrains =>
    obtain ⟨-, hiff⟩ := drains_started_iff htop rfl hbegun hdrains hreturn.1 hreturn.2
    refine iff_of_false nofun fun hwell => ?_
    obtain ⟨done, hdone⟩ := hiff.mpr hwell.2.2
    cases hdone
  | finishes htop hbegun hdrains =>
    obtain ⟨hwell, hiff⟩ := drains_started_iff htop rfl hbegun hdrains hreturn.1 hreturn.2
    exact iff_of_true ⟨_, rfl⟩ ⟨⟨_, htop⟩, hwell, hiff.mp ⟨_, rfl⟩⟩

/-- A program whose function `g` defines `step` before a conditional and `m` in one of its arms,
assigns to a variable of the top level, and ends with the given expression. -/
def stepping (last : Expr) : List Expr :=
  [.define "twice" (.lambda ["f", "x"] [.call (.var "f") [.call (.var "f") [.var "x"]]]),
    .define "count" (.integer 0),
    .define "g" (.lambda ["n"]
      [.define "step" (.lambda ["k"] [.binary (.word .add) (.var "k") (.integer 1)]),
        .ifElse (.var "n")
          (.sequence [.define "m" (.call (.var "step") [.var "n"]), .assign "count" (.var "m")])
          (.letIn [("m", .var "n")] [.assign "count" (.var "m")]),
        last]),
    .call (.var "g") [.integer 3]]

/-- A function may be handed to another, but neither can a local function be called with too many
arguments nor a name be used behind the arm that defines it. -/
theorem compileProgram_ok_iff_wellFormed_stepping :
    (isReturnFree (stepping (.call (.var "twice") [.var "step", .var "n"])) = true ∧
      ∃ output, compileProgram (stepping (.call (.var "twice") [.var "step", .var "n"]))
        ⟨"m", "main", .abort⟩ = .ok output) ∧
    (isReturnFree (stepping (.call (.var "step") [.var "n", .var "n"])) = true ∧
      ¬ ∃ output, compileProgram (stepping (.call (.var "step") [.var "n", .var "n"]))
        ⟨"m", "main", .abort⟩ = .ok output) ∧
    isReturnFree (stepping (.var "m")) = true ∧
      ¬ ∃ output, compileProgram (stepping (.var "m")) ⟨"m", "main", .abort⟩ = .ok output := by
  have hfree : isReturnFree (stepping (.call (.var "twice") [.var "step", .var "n"])) = true := by
    decide +kernel
  have hfree' : isReturnFree (stepping (.call (.var "step") [.var "n", .var "n"])) = true := by
    decide +kernel
  have hfree'' : isReturnFree (stepping (.var "m")) = true := by decide +kernel
  refine ⟨⟨hfree, ?_⟩, ⟨hfree', ?_⟩, hfree'', ?_⟩
  · rw [compileProgram_ok_iff_wellFormed _ _ _ hfree]
    decide +kernel
  · rw [compileProgram_ok_iff_wellFormed _ _ _ hfree']
    decide +kernel
  · rw [compileProgram_ok_iff_wellFormed _ _ _ hfree'']
    decide +kernel

end Programs

end WordScheme
