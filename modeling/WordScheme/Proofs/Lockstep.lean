import Mathlib
import WordScheme.Compile
import WordScheme.Proofs.LambdaNodes
import WordScheme.Proofs.LoweringRun
import WordScheme.Proofs.ModuleIndex

/-!
# Lowering side by side

Two programs may be lowered step for step alike although they are written differently, or although
the modules they are lowered into are not the same. A `Likeness` says in which way they may differ:
by a relation between modules that new definitions without code respect, and by a relation between
expressions that are built alike, except that a `let` may stand against the call of a lambda.

`Likeness.InStep m m'` says that from states that are alike `m` and `m'` go on to the same value or
the same error, in states that are alike. It holds of the lowerings of expressions that are alike
(`lower_inStep`), and whole functions that are alike give the same code: `lowerFunction_built` and
`lowerEntry_built`.
-/

namespace WordScheme

open Lower

/-! ### Expressions that are built alike -/

/-- Two clauses of one kind with related parts. -/
inductive Clause.Like (E : Expr → Expr → Prop) : Clause → Clause → Prop
  | test {p p' b b' : Expr} (hp : E p p') (hb : E b b') : Like E (.test p b) (.test p' b')
  | otherwise {b b' : Expr} (hb : E b b') : Like E (.otherwise b) (.otherwise b')

/-- Two expressions of one kind with related parts, or a `let` and the call of a lambda. -/
inductive Expr.Like (E : Expr → Expr → Prop) : Expr → Expr → Prop
  | literal (value : Literal) : Like E (.literal value) (.literal value)
  | var (name : Name) : Like E (.var name) (.var name)
  | binary (op : BinaryOp) {l l' r r' : Expr} (hl : E l l') (hr : E r r') :
      Like E (.binary op l r) (.binary op l' r')
  | primitive (p : Primitive) {es es' : List Expr} (h : List.Forall₂ E es es') :
      Like E (.primitive p es) (.primitive p es')
  | ifElse {c c' p p' n n' : Expr} (hc : E c c') (hp : E p p') (hn : E n n') :
      Like E (.ifElse c p n) (.ifElse c' p' n')
  | cond {cs cs' : List Clause} (h : List.Forall₂ (Clause.Like E) cs cs') :
      Like E (.cond cs) (.cond cs')
  | and {es es' : List Expr} (h : List.Forall₂ E es es') : Like E (.and es) (.and es')
  | or {es es' : List Expr} (h : List.Forall₂ E es es') : Like E (.or es) (.or es')
  | not {e e' : Expr} (h : E e e') : Like E (.not e) (.not e')
  | letIn {bs bs' : List (Name × Expr)} {es es' : List Expr}
      (hnames : bs'.map Prod.fst = bs.map Prod.fst)
      (hbs : List.Forall₂ E (bs.map Prod.snd) (bs'.map Prod.snd)) (hes : List.Forall₂ E es es') :
      Like E (.letIn bs es) (.letIn bs' es')
  /-- The values that a `let` binds are arguments, and the names parameters. -/
  | letCall {bs : List (Name × Expr)} {es es' vs' : List Expr}
      (hbs : List.Forall₂ E (bs.map Prod.snd) vs') (hes : List.Forall₂ E es es') :
      Like E (.letIn bs es) (.call (.lambda (bs.map Prod.fst) es') vs')
  | define (name : Name) {e e' : Expr} (h : E e e') : Like E (.define name e) (.define name e')
  | lambda (params : List Name) {es es' : List Expr} (h : List.Forall₂ E es es') :
      Like E (.lambda params es) (.lambda params es')
  | call {t t' : Expr} {es es' : List Expr} (ht : E t t') (h : List.Forall₂ E es es') :
      Like E (.call t es) (.call t' es')
  | array {es es' : List Expr} (h : List.Forall₂ E es es') : Like E (.array es) (.array es')
  | assign (name : Name) {e e' : Expr} (h : E e e') : Like E (.assign name e) (.assign name e')
  | sequence {es es' : List Expr} (h : List.Forall₂ E es es') :
      Like E (.sequence es) (.sequence es')
  | ret {e e' : Expr} (h : E e e') : Like E (.ret e) (.ret e')

/-- The same top level names, defined in the same way, though perhaps noted in another order. -/
structure Globals.Alike (G G' : Globals) : Prop where
  get? : ∀ name, G'.get? name = G.get? name
  length : G'.length = G.length

/-- How two lowerings that run side by side may differ. -/
structure Likeness where
  modules : ModuleDraft → ModuleDraft → Prop
  exprs : Expr → Expr → Prop
  ensure : ∀ {m m' d}, modules m m' → d.isPlain = true → modules (m.ensure d) (m'.ensure d)
  like : ∀ {e e'}, exprs e e' → Expr.Like exprs e e'
  assigned : ∀ {es es'}, List.Forall₂ exprs es es' → assignedAll es' = assignedAll es

/-- The draft with other top level names and other functions found in it. -/
def FunctionDraft.amid (d : FunctionDraft) (globals : Globals) (pending : List PendingFunction) :
    FunctionDraft :=
  { d with globals, pending }

namespace Likeness

/-- Two lambdas with the same parameters and bodies that are alike. -/
structure Lambdas (K : Likeness) (l l' : Lambda) : Prop where
  params : l'.params = l.params
  body : List.Forall₂ K.exprs l.body l'.body

private theorem lambdas_of_body {K : Likeness} (params : List Name) {es es' : List Expr}
    (h : List.Forall₂ K.exprs es es') : K.Lambdas ⟨params, es⟩ ⟨params, es'⟩ :=
  ⟨rfl, h⟩

/-- Two functions that wait under the same name. -/
structure Pending (K : Likeness) (f f' : PendingFunction) : Prop where
  name : f'.name = f.name
  lambda : K.Lambdas f.lambda f'.lambda
  globals : f.globals.Alike f'.globals

/-- Two units that differ in their modules only. -/
def Units (K : Likeness) (u u' : CompileUnit) : Prop :=
  ∃ m, K.modules u.module m ∧ u' = { u with module := m }

/-- Two drafts with the same code. -/
structure Drafts (K : Likeness) (d d' : FunctionDraft) : Prop where
  globals : d.globals.Alike d'.globals
  pending : List.Forall₂ K.Pending d.pending d'.pending
  same : d' = d.amid d'.globals d'.pending

structure States (K : Likeness) (s s' : LowerState) : Prop where
  unit : K.Units s.unit s'.unit
  draft : K.Drafts s.draft s'.draft

/-- The same value or the same error, in states that are alike. -/
inductive Outcomes (K : Likeness) {α : Type} :
    EStateM.Result CompileError LowerState α → EStateM.Result CompileError LowerState α → Prop
  | ok (a : α) {s s' : LowerState} (h : K.States s s') : Outcomes K (.ok a s) (.ok a s')
  | error (e : CompileError) {s s' : LowerState} (h : K.States s s') :
      Outcomes K (.error e s) (.error e s')

/-- From states that are alike both lowerings go on alike. -/
def InStep (K : Likeness) {α : Type} (m m' : Lower α) : Prop :=
  ∀ s s', K.States s s' → K.Outcomes (m s) (m' s')

variable {K : Likeness} {α β : Type}

/-! ### Rules -/

private theorem inStep_pure (a : α) : K.InStep (pure a) (pure a) :=
  fun _ _ hs => .ok a hs

private theorem inStep_throw (e : CompileError) : K.InStep (throw e : Lower α) (throw e) :=
  fun _ _ hs => .error e hs

/-- Two steps after each other, the second for what the first can give. -/
private theorem InStep.bind_of {m m' : Lower α} {f f' : α → Lower β} (h : K.InStep m m')
    (hf : ∀ a s t, m s = .ok a t → K.InStep (f a) (f' a)) : K.InStep (m >>= f) (m' >>= f') := by
  intro s s' hs
  have hm := h s s' hs
  rw [run_bind, run_bind]
  generalize hr : m s = r at hm ⊢
  generalize m' s' = r' at hm ⊢
  cases hm with
  | ok a ht => exact hf a s _ hr _ _ ht
  | error e ht => exact .error e ht

/-- Lowerings that go in step do so one after another. -/
private theorem InStep.bind {m m' : Lower α} {f f' : α → Lower β} (h : K.InStep m m')
    (hf : ∀ a, K.InStep (f a) (f' a)) : K.InStep (m >>= f) (m' >>= f') :=
  h.bind_of fun a _ _ _ => hf a

/-- Something about the draft that is the same on both sides. -/
private theorem inStep_ofDraft {f : FunctionDraft → α} (hf : ∀ d d', K.Drafts d d' → f d' = f d) :
    K.InStep (ofDraft f) (ofDraft f) := by
  intro s s' hs
  change K.Outcomes (.ok (f s.draft) s) (.ok (f s'.draft) s')
  rw [hf _ _ hs.draft]
  exact .ok _ hs

/-- Something about the draft that does not depend on the top level names. -/
private theorem inStep_ofDraft_of_amid {f : FunctionDraft → α}
    (hf : ∀ d G ps, f (d.amid G ps) = f d) : K.InStep (ofDraft f) (ofDraft f) := by
  refine inStep_ofDraft fun d d' hd => ?_
  rw [hd.same, hf]

/-- What a step leaves of a draft that does not touch the top level names. -/
private theorem Drafts.of_amid {d d' : FunctionDraft} (h : K.Drafts d d') {next : FunctionDraft}
    (hnext : next = next.amid d.globals d.pending) :
    K.Drafts next (next.amid d'.globals d'.pending) := by
  refine ⟨?_, ?_, rfl⟩
  · rw [hnext]
    exact h.globals
  · rw [hnext]
    exact h.pending

/-- A step on the draft that does not touch the top level names. -/
private theorem inStep_onDraft {f : FunctionDraft → α × FunctionDraft}
    (hf : ∀ d G ps, f (d.amid G ps) = ((f d).1, (f d).2.amid G ps)) :
    K.InStep (onDraft f) (onDraft f) := by
  intro s s' hs
  have hself : (f s.draft).2 = (f s.draft).2.amid s.draft.globals s.draft.pending :=
    congrArg Prod.snd (hf s.draft s.draft.globals s.draft.pending)
  change K.Outcomes (.ok (f s.draft).1 { s with draft := (f s.draft).2 })
    (.ok (f s'.draft).1 { s' with draft := (f s'.draft).2 })
  rw [hs.draft.same, hf]
  exact .ok _ ⟨hs.unit, hs.draft.of_amid hself⟩

/-- A step on the draft that may fail and does not touch the top level names. -/
private theorem inStep_tryDraft {f : FunctionDraft → EStateM.Result CompileError FunctionDraft Unit}
    (hf : ∀ d G ps, f (d.amid G ps) = match f d with
      | .ok a e => .ok a (e.amid G ps)
      | .error error e => .error error (e.amid G ps)) :
    K.InStep (tryDraft f) (tryDraft f) := by
  intro s s' hs
  have hself := hf s.draft s.draft.globals s.draft.pending
  rw [tryDraft_eq, tryDraft_eq, hs.draft.same, hf]
  change f s.draft = _ at hself
  cases hd : f s.draft with
  | error e next =>
    rw [hd] at hself
    exact .error e ⟨hs.unit, hs.draft.of_amid (EStateM.Result.error.inj hself).2⟩
  | ok a next =>
    rw [hd] at hself
    exact .ok a ⟨hs.unit, hs.draft.of_amid (EStateM.Result.ok.inj hself).2⟩

/-- A step on the unit that gives the same on both sides. -/
private theorem inStep_onUnit {f : CompileUnit → α × CompileUnit}
    (hf : ∀ u u', K.Units u u' → (f u').1 = (f u).1 ∧ K.Units (f u).2 (f u').2) :
    K.InStep (onUnit f) (onUnit f) := by
  intro s s' hs
  obtain ⟨hvalue, hunit⟩ := hf _ _ hs.unit
  change K.Outcomes (.ok (f s.unit).1 { s with unit := (f s.unit).2 })
    (.ok (f s'.unit).1 { s' with unit := (f s'.unit).2 })
  rw [hvalue]
  exact .ok _ ⟨hunit, hs.draft⟩

/-! ### Steps on the draft -/

/-- Top level names and functions found do not end a block. -/
private theorem terminated_amid (d : FunctionDraft) (G : Globals) (ps : List PendingFunction) :
    (d.amid G ps).terminated = d.terminated :=
  rfl

/-- A statement goes to the same place amid other top level names and functions found. -/
private theorem append_amid (d : FunctionDraft) (G : Globals) (ps : List PendingFunction)
    (s : Statement) : (d.amid G ps).append s = (d.append s).amid G ps := by
  rw [FunctionDraft.append, FunctionDraft.append, terminated_amid]
  split <;> rfl

private theorem inStep_emit (i : Instruction) : K.InStep (emit i) (emit i) :=
  inStep_onDraft fun d G ps =>
    congrArg (Prod.mk _) (append_amid { d with registers := d.registers + 1 } G ps _)

private theorem inStep_store (value pointer : Operand) :
    K.InStep (store value pointer) (store value pointer) :=
  inStep_onDraft fun d G ps => congrArg (Prod.mk _) (append_amid d G ps _)

private theorem inStep_addBlock (base : Name) : K.InStep (addBlock base) (addBlock base) :=
  inStep_onDraft fun _ _ _ => rfl

private theorem inStep_onScope (f : Scope → Scope) : K.InStep (onScope f) (onScope f) :=
  inStep_onDraft fun _ _ _ => rfl

/-- A terminator is accepted on both sides or on neither. -/
private theorem inStep_terminate (t : Terminator) : K.InStep (terminate t) (terminate t) := by
  refine inStep_tryDraft fun d G ps => ?_
  rw [FunctionDraft.terminate, FunctionDraft.terminate, terminated_amid]
  split <;> rfl

/-- Both sides can move to a block, or neither can. -/
private theorem inStep_moveTo (block : BlockRef) : K.InStep (moveTo block) (moveTo block) := by
  refine inStep_tryDraft fun d G ps => ?_
  by_cases h : block.index < d.blocks.size
  · rw [FunctionDraft.moveTo_of_lt h]
    exact FunctionDraft.moveTo_of_lt (d := d.amid G ps) h
  · rw [FunctionDraft.moveTo, FunctionDraft.moveTo, dif_neg h]
    exact dif_neg h

private theorem inStep_terminated : K.InStep terminated terminated :=
  inStep_ofDraft_of_amid fun _ _ _ => rfl

private theorem inStep_local? (name : Name) : K.InStep (local? name) (local? name) :=
  inStep_ofDraft_of_amid fun _ _ _ => rfl

/-- A top level name is defined in the same way on both sides. -/
private theorem inStep_global? (name : Name) : K.InStep (global? name) (global? name) :=
  inStep_ofDraft fun _ _ hd => hd.globals.get? name

/-! ### Steps on the unit -/

/-- A definition without code keeps modules alike. -/
private theorem Units.ensure {u u' : CompileUnit} (h : K.Units u u') {d : Definition}
    (hd : d.isPlain = true) : K.Units (u.ensure d) (u'.ensure d) := by
  obtain ⟨m, hm, rfl⟩ := h
  exact ⟨m.ensure d, K.ensure hm hd, rfl⟩

/-- A string has the same constant on both sides. -/
private theorem inStep_stringConstant (value : String) :
    K.InStep (onUnit (·.stringConstant value)) (onUnit (·.stringConstant value)) := by
  refine inStep_onUnit fun u u' hu => ?_
  obtain ⟨m, hm, rfl⟩ := hu
  simp only [CompileUnit.stringConstant]
  cases u.strings.get? value with
  | some name => exact ⟨rfl, m, hm, rfl⟩
  | none => exact ⟨rfl, _, K.ensure hm rfl, rfl⟩

private theorem inStep_arrayType (length : Nat) :
    K.InStep (onUnit (·.arrayType length)) (onUnit (·.arrayType length)) :=
  inStep_onUnit fun _ _ hu => ⟨rfl, hu.ensure rfl⟩

private theorem inStep_libraryFunction (f : LibraryFunction) :
    K.InStep (onUnit (·.libraryFunction f)) (onUnit (·.libraryFunction f)) :=
  inStep_onUnit fun _ _ hu => ⟨rfl, hu.ensure rfl⟩

/-- The next name for a lambda depends on which top level names there are, not on their order. -/
private theorem freshLambdaName_alike {u u' : CompileUnit} (hu : K.Units u u') {G G' : Globals}
    (hG : G.Alike G') : (u'.freshLambdaName G').1 = (u.freshLambdaName G).1 ∧
      K.Units (u.freshLambdaName G).2 (u'.freshLambdaName G').2 := by
  obtain ⟨m, hm, rfl⟩ := hu
  have htaken : (fun name => name == u.entry || G'.has name) =
      fun name => name == u.entry || G.has name := by
    funext name
    rw [Assoc.has, Assoc.has, hG.get?]
  simp only [CompileUnit.freshLambdaName]
  rw [htaken, hG.length]
  exact ⟨rfl, m, hm, rfl⟩

/-- A lambda is lifted under the next free name. -/
theorem liftLambda_eq (l : Lambda) (s : LowerState) :
    liftLambda l s = .ok (.global (s.unit.freshLambdaName s.draft.globals).1
      (.wordFunction l.params.length)) (s.lift l) :=
  rfl

/-- Lambdas that are alike are lifted under the same name. -/
private theorem liftLambda_inStep {l l' : Lambda} (hl : K.Lambdas l l') :
    K.InStep (liftLambda l) (liftLambda l') := by
  intro s s' hs
  obtain ⟨hname, m, hm, hunit⟩ := freshLambdaName_alike hs.unit hs.draft.globals
  rw [liftLambda_eq, liftLambda_eq, hname, hl.params]
  refine .ok _ ⟨?_, hs.draft.globals, ?_, ?_⟩
  · rw [LowerState.lift, LowerState.lift, hname, hl.params, hunit]
    exact ⟨_, K.ensure hm rfl, rfl⟩
  · exact List.rel_append hs.draft.pending (.cons ⟨hname, hl, hs.draft.globals⟩ .nil)
  · exact congrArg (fun d => FunctionDraft.enqueue d _) hs.draft.same

/-! ### Names -/

private theorem assignGlobal_inStep (name : Name) (value : Operand) :
    K.InStep (assignGlobal name value) (assignGlobal name value) := by
  refine (inStep_global? name).bind fun kind => ?_
  split
  · exact inStep_store _ _
  · exact inStep_throw _
  · exact inStep_throw _

/-- A name can be assigned to on both sides or on neither. -/
private theorem lowerAssignment_inStep (name : Name) (value : Operand) :
    K.InStep (lowerAssignment name value) (lowerAssignment name value) := by
  refine (inStep_local? name).bind fun binding => ?_
  split
  · exact inStep_store _ _
  · exact inStep_onScope _
  · exact assignGlobal_inStep name value

/-- The same parameters are spilled on both sides. -/
private theorem spillParams_inStep (assigned params : List Name) :
    K.InStep (spillParams assigned params) (spillParams assigned params) := by
  induction params with
  | nil => exact inStep_pure ()
  | cons name names ih =>
    rw [spillParams]
    split
    · refine (inStep_emit _).bind fun _ => (inStep_store _ _).bind fun _ => ?_
      exact (inStep_onScope _).bind fun _ => ih
    · exact ih

/-! ### Conditionals and composed lowerings -/

/-- Arms that go in step do so as arms of a conditional. -/
private theorem lowerArm_inStep (block merge : BlockRef) {arm arm' : Lower Operand}
    (h : K.InStep arm arm') : K.InStep (lowerArm block merge arm) (lowerArm block merge arm') := by
  refine (inStep_moveTo block).bind fun _ => (inStep_onScope _).bind fun _ => ?_
  refine h.bind fun value => (inStep_onScope _).bind fun _ => ?_
  refine inStep_terminated.bind fun done => ?_
  split
  · exact inStep_pure _
  · refine (inStep_ofDraft_of_amid fun _ _ _ => rfl).bind fun last => ?_
    exact (inStep_terminate _).bind fun _ => inStep_pure _

/-- Conditionals whose arms go in step do so themselves. -/
private theorem lowerBranches_inStep (stem : String) (condition : Operand)
    {positive positive' negative negative' : Lower Operand} (hpos : K.InStep positive positive')
    (hneg : K.InStep negative negative') :
    K.InStep (lowerBranches stem condition positive negative)
      (lowerBranches stem condition positive' negative') := by
  refine inStep_terminated.bind fun done => ?_
  split
  · exact inStep_pure _
  · refine (inStep_emit _).bind fun flag => (inStep_addBlock _).bind fun thenBlock => ?_
    refine (inStep_addBlock _).bind fun elseBlock => (inStep_addBlock _).bind fun merge => ?_
    refine (inStep_terminate _).bind fun _ => ?_
    refine (lowerArm_inStep thenBlock merge hpos).bind fun fromThen => ?_
    refine (lowerArm_inStep elseBlock merge hneg).bind fun fromElse => ?_
    refine (inStep_moveTo merge).bind fun _ => ?_
    split
    · exact (inStep_terminate _).bind fun _ => inStep_pure _
    · exact inStep_emit _

/-- **A composed lowering is in step with itself**, if it lifts no lambda. -/
theorem inStep_of_composed {V : Vocabulary} {ε : Effect} {m : Lower α} (h : Composed V ε m)
    (hnone : ε.lambdas = []) : K.InStep m m := by
  induction h with
  | pure a => exact inStep_pure a
  | throw e => exact inStep_throw e
  | bind _ _ ihm ihf =>
    obtain ⟨hm, hf⟩ := List.append_eq_nil_iff.mp hnone
    exact (ihm hm).bind_of fun a s t hrun => ihf a s t hrun hf
  | unlessLeft a _ ih =>
    refine inStep_terminated.bind fun done => ?_
    split
    · exact inStep_pure a
    · exact ih hnone
  | local? name => exact inStep_local? name
  | global? name => exact inStep_global? name
  | emit h => exact inStep_emit _
  | store value pointer => exact inStep_store value pointer
  | declare name b h => exact inStep_onScope _
  | assign value h => exact lowerAssignment_inStep _ value
  | lift h => cases hnone
  | string h =>
    refine (inStep_stringConstant _).bind fun r => ?_
    exact (inStep_emit _).bind fun _ => inStep_emit _
  | array length => exact inStep_arrayType length
  | library f => exact inStep_libraryFunction f
  | returning value =>
    refine inStep_terminated.bind fun done => ?_
    cases done with
    | true => exact inStep_pure _
    | false => exact inStep_terminate _
  | branches hstem condition _ _ ihpos ihneg =>
    obtain ⟨hpos, hneg⟩ := List.append_eq_nil_iff.mp hnone
    exact lowerBranches_inStep _ condition (ihpos hpos) (ihneg hneg)

/-- A part of the lowering that is quiet. -/
private theorem inStep_quiet {V : Vocabulary} {m : Lower α} (h : Composed V .quiet m) :
    K.InStep m m :=
  inStep_of_composed h rfl

/-- Targets that are alike are lambdas, variables or other values together. -/
private theorem lowerCallee_inStep {target target' : Expr} {lowered lowered' : Lower Operand}
    (ht : K.exprs target target') (h : K.InStep lowered lowered') :
    K.InStep (lowerCallee target lowered) (lowerCallee target' lowered') := by
  cases K.like ht with
  | lambda params hbody => exact liftLambda_inStep ⟨rfl, hbody⟩
  | var name => exact inStep_quiet (V := .all []) (lowerCalleeVariable_composed name)
  | _ => exact h

/-- The call of a lambda with as many arguments as it has parameters. -/
private theorem applied_inStep {l l' : Lambda} {args args' : Lower (List Operand)}
    (hl : K.Lambdas l l') (hargs : K.InStep args args')
    (hlength : ∀ {s vs t}, args s = .ok vs t → vs.length = l.params.length) :
    K.InStep (liftLambda l >>= fun f => args >>= fun vs => emit (.callWord f vs))
      (liftLambda l' >>= fun f => args' >>= fun vs => lowerApplication f vs) := by
  refine (liftLambda_inStep hl).bind_of fun f s t hf => ?_
  cases hf
  refine hargs.bind_of fun vs u v hvs => ?_
  rw [lowerApplication_of_length _ (hlength hvs)]
  exact inStep_emit _

end Likeness

/-! ### Expressions -/

section Expressions

open Likeness

variable {K : Likeness} {assigned : List Name}

/-- A primitive is refused on both sides or on neither. -/
private theorem lower_primitive_inStep (p : Primitive) {es es' : List Expr}
    (h : List.Forall₂ K.exprs es es')
    (hall : K.InStep (lowerAll assigned es) (lowerAll assigned es')) :
    K.InStep (lower assigned (.primitive p es)) (lower assigned (.primitive p es')) := by
  by_cases hlength : es.length = p.arity
  · rw [lower_primitive_eq hlength, lower_primitive_eq (h.length_eq ▸ hlength)]
    exact hall.bind fun vs => inStep_of_composed (V := .all []) (lowerPrimitive_composed p vs) rfl
  · rw [lower_primitive_of_ne hlength, lower_primitive_of_ne (h.length_eq ▸ hlength), h.length_eq]
    exact inStep_throw _

/-- A definition, of a lambda on both sides or on neither. -/
private theorem lower_define_inStep (name : Name) {e e' : Expr} (h : K.exprs e e')
    (hlower : K.InStep (lower assigned e) (lower assigned e')) :
    K.InStep (lower assigned (.define name e)) (lower assigned (.define name e')) := by
  have hbind : ∀ v, K.InStep (do bindLocal assigned name v; return Operand.word 0)
      (do bindLocal assigned name v; return Operand.word 0) :=
    fun v => (inStep_quiet (V := .all assigned) (bindLocal_composed name v)).bind
      fun _ => inStep_pure _
  have hother : (∀ params body, e ≠ .lambda params body) →
      (∀ params body, e' ≠ .lambda params body) →
      K.InStep (lower assigned (.define name e)) (lower assigned (.define name e')) := by
    intro he he'
    rw [lower_define_of_ne he, lower_define_of_ne he']
    exact hlower.bind hbind
  cases K.like h with
  | lambda params hbody =>
    rw [lower, lower]
    exact (liftLambda_inStep (lambdas_of_body params hbody)).bind hbind
  | _ => exact hother nofun nofun

mutual

/-- **Expressions that are alike are lowered in step.** -/
theorem lower_inStep : (e : Expr) → {e' : Expr} → K.exprs e e' →
    K.InStep (lower assigned e) (lower assigned e')
  | .literal value, _, h => by
    cases K.like h
    rw [lower]
    exact inStep_of_composed (V := .all []) (lowerLiteral_composed value fun _ _ => trivial) rfl
  | .var name, _, h => by
    cases K.like h
    rw [lower]
    exact inStep_quiet (V := .all []) (lowerVariable_composed name)
  | .binary op _ _, _, h => by
    cases K.like h with
    | binary _ hl hr =>
      rw [lower, lower]
      refine (lower_inStep _ hl).bind fun l => (lower_inStep _ hr).bind fun r => ?_
      exact inStep_quiet (V := .all []) (lowerOperator_composed op l r)
  | .primitive p args, _, h => by
    cases K.like h with
    | primitive _ hargs => exact lower_primitive_inStep p hargs (lowerAll_inStep args hargs)
  | .ifElse c p n, _, h => by
    cases K.like h with
    | ifElse hc hp hn =>
      rw [lower, lower]
      refine (lower_inStep c hc).bind fun v => ?_
      exact lowerBranches_inStep "if" v (lower_inStep p hp) (lower_inStep n hn)
  | .cond clauses, _, h => by
    cases K.like h with
    | cond hclauses =>
      rw [lower, lower]
      exact lowerClauses_inStep clauses hclauses
  | .and operands, _, h => by
    cases K.like h with
    | and hes =>
      rw [lower, lower]
      exact lowerAnd_inStep operands hes
  | .or operands, _, h => by
    cases K.like h with
    | or hes =>
      rw [lower, lower]
      exact lowerOr_inStep operands hes
  | .not operand, _, h => by
    cases K.like h with
    | not he =>
      rw [lower, lower]
      refine (lower_inStep operand he).bind fun v => ?_
      exact lowerBranches_inStep "not" v (inStep_pure _) (inStep_pure _)
  | .letIn bindings body, _, h => by
    cases K.like h with
    | @letIn _ bs' _ _ hnames hbs hes =>
      rw [lower, lower, lowerBindings_eq bs']
      refine (liftLambda_inStep ⟨hnames, hes⟩).bind fun callee => ?_
      exact (lowerBindings_inStep bindings hbs).bind fun vs => inStep_emit _
    | letCall hbs hes =>
      rw [lower, lower]
      refine applied_inStep ⟨rfl, hes⟩ (lowerBindings_inStep bindings hbs) fun hvs => ?_
      rw [lowerBindings_eq] at hvs
      rw [length_of_lowerAll hvs, List.length_map, List.length_map]
  | .define name value, _, h => by
    cases K.like h with
    | define _ he => exact lower_define_inStep name he (lower_inStep value he)
  | .lambda params _, _, h => by
    cases K.like h with
    | lambda _ hbody =>
      rw [lower, lower]
      refine (liftLambda_inStep (lambdas_of_body params hbody)).bind fun f => ?_
      exact inStep_quiet (V := .all []) (toWord_composed f)
  | .call target args, _, h => by
    cases K.like h with
    | call ht hargs =>
      rw [lower, lower]
      refine (lowerCallee_inStep ht (lower_inStep target ht)).bind fun callee => ?_
      refine (lowerAll_inStep args hargs).bind fun vs => ?_
      exact inStep_quiet (V := .all []) (lowerApplication_composed callee vs)
  | .array elements, _, h => by
    cases K.like h with
    | array hes =>
      rw [lower, lower]
      refine (lowerAll_inStep elements hes).bind fun vs => ?_
      exact inStep_quiet (V := .all []) (lowerElements_composed vs)
  | .assign name value, _, h => by
    cases K.like h with
    | assign _ he =>
      rw [lower, lower]
      refine (lower_inStep value he).bind fun v => ?_
      exact (lowerAssignment_inStep name v).bind fun _ => inStep_pure _
  | .sequence forms, _, h => by
    cases K.like h with
    | sequence hes =>
      rw [lower, lower]
      exact lowerSequence_inStep forms _ hes
  | .ret value, _, h => by
    cases K.like h with
    | ret he =>
      rw [lower_ret, lower_ret]
      refine (lower_inStep value he).bind fun v => ?_
      exact (inStep_of_composed (V := .all []) (.returning v) rfl).bind fun _ => inStep_pure _
termination_by structural e => e

/-- Lists of expressions that are alike are lowered in step. -/
private theorem lowerAll_inStep :
    (es : List Expr) → {es' : List Expr} → List.Forall₂ K.exprs es es' →
    K.InStep (lowerAll assigned es) (lowerAll assigned es')
  | [], _, .nil => by
    rw [lowerAll]
    exact inStep_pure _
  | e :: es, _, .cons he hes => by
    rw [lowerAll, lowerAll]
    refine (lower_inStep e he).bind fun v => (lowerAll_inStep es hes).bind fun vs => ?_
    exact inStep_pure _
termination_by structural es => es

/-- The values that a `let` binds are lowered in step with the arguments of a call. -/
private theorem lowerBindings_inStep : (bs : List (Name × Expr)) → {es' : List Expr} →
    List.Forall₂ K.exprs (bs.map Prod.snd) es' →
    K.InStep (lowerBindings assigned bs) (lowerAll assigned es')
  | [], _, .nil => by
    rw [lowerBindings, lowerAll]
    exact inStep_pure _
  | (_, e) :: bs, _, .cons he hbs => by
    rw [lowerBindings, lowerAll]
    refine (lower_inStep e he).bind fun v => (lowerBindings_inStep bs hbs).bind fun vs => ?_
    exact inStep_pure _
termination_by structural bs => bs

private theorem lowerSequence_inStep : (es : List Expr) → (value : Operand) → {es' : List Expr} →
    List.Forall₂ K.exprs es es' →
    K.InStep (lowerSequence assigned value es) (lowerSequence assigned value es')
  | [], value, _, .nil => by
    rw [lowerSequence]
    exact inStep_pure value
  | e :: es, _, _, .cons he hes => by
    rw [lowerSequence, lowerSequence]
    refine (lower_inStep e he).bind fun v => inStep_terminated.bind fun done => ?_
    split
    · exact inStep_pure v
    · exact lowerSequence_inStep es v hes
termination_by structural es => es

private theorem lowerClauses_inStep : (cs : List Clause) → {cs' : List Clause} →
    List.Forall₂ (Clause.Like K.exprs) cs cs' →
    K.InStep (lowerClauses assigned cs) (lowerClauses assigned cs')
  | [], _, .nil => by
    rw [lowerClauses]
    exact inStep_pure _
  | .otherwise body :: cs, _, .cons (.otherwise hb) hcs => by
    rw [lowerClauses, lowerClauses]
    exact lowerBranches_inStep "cond" _ (lower_inStep body hb) (lowerClauses_inStep cs hcs)
  | .test predicate body :: cs, _, .cons (.test hp hb) hcs => by
    rw [lowerClauses, lowerClauses]
    refine (lower_inStep predicate hp).bind fun v => ?_
    exact lowerBranches_inStep "cond" v (lower_inStep body hb) (lowerClauses_inStep cs hcs)
termination_by structural cs => cs

private theorem lowerAnd_inStep :
    (es : List Expr) → {es' : List Expr} → List.Forall₂ K.exprs es es' →
    K.InStep (lowerAnd assigned es) (lowerAnd assigned es')
  | [], _, .nil => by
    rw [lowerAnd]
    exact inStep_pure _
  | [e], _, .cons he .nil => by
    rw [lowerAnd, lowerAnd]
    exact lower_inStep e he
  | e :: d :: es, _, .cons he (.cons hd hes) => by
    rw [lowerAnd_cons_cons, lowerAnd_cons_cons]
    refine (lower_inStep e he).bind fun v => ?_
    exact lowerBranches_inStep "and" v (lowerAnd_inStep (d :: es) (.cons hd hes)) (inStep_pure _)
termination_by structural es => es

private theorem lowerOr_inStep :
    (es : List Expr) → {es' : List Expr} → List.Forall₂ K.exprs es es' →
    K.InStep (lowerOr assigned es) (lowerOr assigned es')
  | [], _, .nil => by
    rw [lowerOr]
    exact inStep_pure _
  | [e], _, .cons he .nil => by
    rw [lowerOr, lowerOr]
    exact lower_inStep e he
  | e :: d :: es, _, .cons he (.cons hd hes) => by
    rw [lowerOr_cons_cons, lowerOr_cons_cons]
    refine (lower_inStep e he).bind fun v => ?_
    exact lowerBranches_inStep "or" v (inStep_pure v) (lowerOr_inStep (d :: es) (.cons hd hes))
termination_by structural es => es

end

end Expressions

/-! ### Functions -/

/-- The forms that are skipped leave no trace, and neither does their place. -/
private theorem lowerForms_eq (assigned : List Name) (skipped : List Nat) (index i : Nat)
    (value : Operand) (forms : List Expr) : lowerForms assigned skipped index value forms =
      lowerForms assigned [] i value (unskipped skipped index forms) := by
  induction forms generalizing index i value with
  | nil => rfl
  | cons form forms ih =>
    rw [lowerForms, unskipped]
    split
    · exact ih (index + 1) i value
    · rw [lowerForms]
      simp only [ih (index + 1) (i + 1), List.contains_nil, Bool.false_eq_true, ↓reduceIte]

/-- The given steps, and the return of their value unless they have left the function. -/
def leaving (steps : Lower Operand) : Lower Unit := do
  let value ← steps
  unless ← terminated do
    terminate (.ret value)

/-- The finished function, if it passes the check. -/
def closing : Lower FinishedFunction := do
  match (← get).draft.finish with
  | .ok finished => return finished
  | .error e => throw e

/-- A function is lowered in two steps: its value is returned, and then the draft is closed. -/
private theorem lowerWhole_eq (steps : Lower Operand) :
    lowerWhole steps = leaving steps >>= fun _ => closing := by
  rw [lowerWhole, leaving, bind_assoc]
  refine bind_congr fun value => ?_
  rw [bind_assoc]
  refine bind_congr fun done => ?_
  split <;> rfl

/-- Closing a draft checks it and changes nothing. -/
private theorem closing_eq (s : LowerState) : closing s = match s.draft.finish with
    | .ok finished => .ok finished s
    | .error e => .error e s := by
  change (match s.draft.finish with
    | .ok finished => pure finished
    | .error e => throw e : Lower FinishedFunction) s = _
  cases s.draft.finish <;> rfl

theorem buildFunction_eq (unit : CompileUnit) (draft : FunctionDraft) (steps : Lower Operand) :
    buildFunction unit draft steps = match leaving steps ⟨{ unit with lifted := [] }, draft⟩ with
      | .ok _ s => (s.draft.finish, s.unit)
      | .error e s => (.error e, s.unit) := by
  rw [buildFunction, lowerWhole_eq, EStateM.run, run_bind]
  cases leaving steps ⟨{ unit with lifted := [] }, draft⟩ with
  | error e s => rfl
  | ok _ s =>
    dsimp only
    rw [closing_eq]
    cases s.draft.finish <;> rfl

namespace Likeness

variable {K : Likeness} {assigned : List Name}

private theorem lowerForm_inStep {e e' : Expr} (h : K.exprs e e') :
    K.InStep (lowerForm assigned e) (lowerForm assigned e') := by
  have hlower : K.InStep (lower assigned e) (lower assigned e') := lower_inStep e h
  cases K.like h with
  | define name he =>
    refine (lower_inStep _ he).bind fun v => ?_
    exact (assignGlobal_inStep name v).bind fun _ => inStep_pure _
  | _ => exact hlower

/-- Lists of top level forms that are alike are lowered in step. -/
private theorem lowerForms_inStep (i : Nat) (value : Operand) {es es' : List Expr}
    (h : List.Forall₂ K.exprs es es') :
    K.InStep (lowerForms assigned [] i value es) (lowerForms assigned [] i value es') := by
  induction h generalizing i value with
  | nil => exact inStep_pure value
  | cons he _ ih =>
    rw [lowerForms, lowerForms]
    refine (lowerForm_inStep he).bind fun v => inStep_terminated.bind fun done => ?_
    split
    · exact inStep_pure v
    · exact ih (i + 1) v

/-- Bodies that are alike are lowered in step. -/
private theorem lowerBody_inStep {l l' : Lambda} (hl : K.Lambdas l l') :
    K.InStep (lowerBody assigned l) (lowerBody assigned l') := by
  rw [lowerBody, lowerBody, hl.params]
  refine (spillParams_inStep assigned l.params).bind fun _ => (inStep_onScope _).bind fun _ => ?_
  refine (lowerSequence_inStep l.body _ hl.body).bind fun v => ?_
  exact (inStep_onScope _).bind fun _ => inStep_pure v

/-- The same code or the same error, with units and functions found that are alike. -/
inductive Built (K : Likeness) : Except CompileError FinishedFunction × CompileUnit →
    Except CompileError FinishedFunction × CompileUnit → Prop
  | ok (function : Function) {ps ps' : List PendingFunction} {u u' : CompileUnit}
      (hpending : List.Forall₂ K.Pending ps ps') (hunit : K.Units u u') :
      Built K (.ok ⟨function, ps⟩, u) (.ok ⟨function, ps'⟩, u')
  | error (e : CompileError) {u u' : CompileUnit} (hunit : K.Units u u') :
      Built K (.error e, u) (.error e, u')

/-- The end of a function checks its code only. -/
private theorem finish_amid (d : FunctionDraft) (G : Globals) (ps : List PendingFunction) :
    (d.amid G ps).finish = d.finish.map fun f => ⟨f.function, ps⟩ := by
  have hstray : (d.amid G ps).stray? = d.stray? := rfl
  have hrows : (d.amid G ps).blocks.rows = d.blocks.rows := rfl
  rw [FunctionDraft.finish, FunctionDraft.finish, hstray, hrows]
  cases d.blocks.rows.mapM BlockDraft.finish with
  | error e => rfl
  | ok blocks => cases d.stray? <;> rfl

/-- Drafts that are alike are finished alike. -/
private theorem finish_built {s s' : LowerState} (hs : K.States s s') :
    K.Built (s.draft.finish, s.unit) (s'.draft.finish, s'.unit) := by
  rw [hs.draft.same, finish_amid]
  cases hfinish : s.draft.finish with
  | error e => exact .error e hs.unit
  | ok f =>
    obtain ⟨blocks, rfl, -⟩ := FunctionDraft.of_finish hfinish
    exact .ok _ hs.draft.pending hs.unit

/-- Lowerings that go in step build the same function. -/
private theorem buildFunction_built {u u' : CompileUnit} {d d' : FunctionDraft}
    {m m' : Lower Operand} (hu : K.Units u u') (hd : K.Drafts d d') (hm : K.InStep m m') :
    K.Built (buildFunction u d m) (buildFunction u' d' m') := by
  have hended : K.InStep (leaving m) (leaving m') := by
    refine hm.bind fun v => inStep_terminated.bind fun done => ?_
    split
    · exact inStep_pure _
    · exact inStep_terminate _
  have hstart : K.States ⟨{ u with lifted := [] }, d⟩ ⟨{ u' with lifted := [] }, d'⟩ := by
    obtain ⟨m, hm, rfl⟩ := hu
    exact ⟨⟨m, hm, rfl⟩, hd⟩
  have houtcome := hended _ _ hstart
  rw [buildFunction_eq, buildFunction_eq]
  generalize leaving m _ = r at houtcome ⊢
  generalize leaving m' _ = r' at houtcome ⊢
  cases houtcome with
  | ok _ ht => exact finish_built ht
  | error e ht => exact .error e ht.unit

/-- **Functions that are alike give the same code.** -/
theorem lowerFunction_built {u u' : CompileUnit} {f f' : PendingFunction} (hu : K.Units u u')
    (hf : K.Pending f f') : K.Built (lowerFunction u f) (lowerFunction u' f') := by
  rw [lowerFunction, lowerFunction, hf.name, hf.lambda.params, K.assigned hf.lambda.body]
  exact buildFunction_built hu ⟨hf.globals, .nil, rfl⟩ (lowerBody_inStep hf.lambda)

/-- **Entry functions are alike** if the forms are that are not skipped. -/
theorem lowerEntry_built {u u' : CompileUnit} {forms forms' : List Expr}
    {skipped skipped' : List Nat} {G G' : Globals} (hu : K.Units u u') (hG : G.Alike G')
    (hassigned : assignedAll forms' = assignedAll forms)
    (hforms : List.Forall₂ K.exprs (unskipped skipped 0 forms) (unskipped skipped' 0 forms')) :
    K.Built (lowerEntry u forms skipped G) (lowerEntry u' forms' skipped' G') := by
  have hentry : u'.entry = u.entry := by
    obtain ⟨m, -, rfl⟩ := hu
    rfl
  rw [lowerEntry, lowerEntry, hentry, hassigned, lowerForms_eq _ skipped 0 0,
    lowerForms_eq _ skipped' 0 0]
  exact buildFunction_built hu ⟨hG, .nil, rfl⟩ (lowerForms_inStep 0 _ hforms)

/-! ### Compilations -/

/-- Two compilations at the same point. -/
structure Progresses (K : Likeness) (p p' : Progress) : Prop where
  unit : K.Units p.unit p'.unit
  diagnostics : p'.diagnostics = p.diagnostics
  queue : List.Forall₂ K.Pending p.queue p'.queue

/-- Two compilations that go on at the same point, or stop with the same diagnostic. -/
inductive GoOn (K : Likeness) : Except Diagnostic Progress → Except Diagnostic Progress → Prop
  | ok {p p' : Progress} (h : K.Progresses p p') : GoOn K (.ok p) (.ok p')
  | error (d : Diagnostic) : GoOn K (.error d) (.error d)

/-- Compilations that go on alike do so with the same step behind them. -/
theorem GoOn.bind {r r' : Except Diagnostic Progress} {g : Progress → Except Diagnostic Progress}
    (h : K.GoOn r r')
    (hg : ∀ {p p'}, r = .ok p → r' = .ok p' → K.Progresses p p' → K.GoOn (g p) (g p')) :
    K.GoOn (r >>= g) (r' >>= g) := by
  cases h with
  | ok h => exact hg rfl rfl h
  | error d => exact .error d

/-- The results of functions that are alike are taken in alike, if the modules stay alike. -/
theorem Progresses.record {p p' : Progress} (h : K.Progresses p p') {policy : ErrorPolicy}
    (name : Name) {r r' : Except CompileError FinishedFunction × CompileUnit} (hr : K.Built r r')
    (hinstall : ∀ f, r.1 = .ok f → K.Units (r.2.install f.function) (r'.2.install f.function))
    (hdiscard : policy = .keepGoing → K.Units r.2.discardLifted.2 r'.2.discardLifted.2) :
    K.GoOn (p.record policy name r) (p'.record policy name r') := by
  cases hr with
  | ok function hpending hunit =>
    exact .ok ⟨hinstall _ rfl, h.diagnostics, List.rel_append h.queue hpending⟩
  | error e hunit =>
    cases policy with
    | abort => exact .error _
    | keepGoing => exact .ok ⟨hdiscard rfl, congrArg (· ++ _) h.diagnostics, h.queue⟩

end Likeness

end WordScheme
