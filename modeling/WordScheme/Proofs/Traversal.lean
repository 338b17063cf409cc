import Mathlib
import WordScheme.Proofs.LoweringParts

/-!
# The traversal of expressions

`Lower.Assembled V Γ ε m Δ` says that `m` is assembled from the parts of the lowering that do not
recurse, and that each part is used with operands of which enough is known: where a word is needed a
word, where a target of a call is needed one of these. `Γ` lists what is known before `m`, and `Δ`
what is known of its result. The vocabulary and the effect are those of `Lower.Composed`, which an
assembled lowering also is (`Assembled.composed`).

The recursion of `lower` and of its companions on lists is gone through once, by `lower_assembled`
and the statements beside it, one case for each form of expression. What holds of every lowering is
then shown by one rule for each part, or for each operation: that it leads from site to site, that
it goes by moves and to well typed code, which functions it finds and what it demands, which blocks
and frames it changes. The recursion is followed again only where it is compared with another one:
with the lowering of a second expression (`lower_inStep`), with the static check (`lower_lowers`)
and with evaluation (`lower_computes`).
-/

namespace WordScheme

open Lower NameSupply

/-- The errors that tell of a fault in the source: a name that means nothing, an assignment to a
function, or a number of arguments that differs from the one expected. -/
def CompileError.AtSource : CompileError → Prop
  | .unresolved _ => True
  | .notAssignable _ => True
  | .argumentCount _ expected actual => expected ≠ actual
  | _ => False

/-! ### What is known of operands -/

/-- What an operand can be used as. -/
inductive Role where
  /-- A word. -/
  | word (o : Operand)
  /-- The target of a call: a word, or the address of a known function. -/
  | callee (o : Operand)

namespace Role

/-- The operand of a role. -/
def operand : Role → Operand
  | .word o => o
  | .callee o => o

/-- What follows from the roles `Γ` that are known. -/
inductive Known (Γ : List Role) : Role → Prop
  | given {x : Role} (h : x ∈ Γ) : Known Γ x
  | constant (value : Int64) : Known Γ (.word (.word value))
  | callee {o : Operand} (h : Known Γ (.word o)) : Known Γ (.callee o)

variable {Γ Γ' : List Role} {x : Role} {o : Operand}

/-- The role at the head of the list. -/
theorem known_head : Known (x :: Γ) x :=
  .given List.mem_cons_self

/-- What the result of a part is known for. -/
private theorem known_mem {vs : List Operand} (h : o ∈ vs) : Known (vs.map .word ++ Γ) (.word o) :=
  .given (List.mem_append_left Γ (List.mem_map_of_mem h))

/-- What is known stays known as more becomes known. -/
private theorem Known.append_right (h : Known Γ x) (Γ' : List Role) : Known (Γ' ++ Γ) x := by
  induction h with
  | given h => exact .given (List.mem_append_right Γ' h)
  | constant value => exact .constant value
  | callee _ ih => exact .callee ih

private theorem known_singleton (h : Known Γ x) : ∀ y ∈ [x], Known Γ y :=
  fun _ hy => List.mem_singleton.mp hy ▸ h

end Role

open Role

/-! ### Assembled lowerings -/

namespace Lower

/-- A lowering that is assembled from parts, each used with operands that are known. -/
inductive Assembled (V : Vocabulary) :
    List Role → Effect → {α : Type} → Lower α → (α → List Role) → Prop
  | pure {Γ : List Role} {α : Type} {a : α} {Δ : α → List Role} (h : ∀ x ∈ Δ a, Known Γ x) :
      Assembled V Γ .quiet (pure a) Δ
  | throw {Γ : List Role} {ε : Effect} {α : Type} {e : CompileError} {Δ : α → List Role}
      (h : e.AtSource) : Assembled V Γ ε (throw e) Δ
  | bind {Γ : List Role} {ε δ : Effect} {α β : Type} {m : Lower α} {f : α → Lower β}
      {Δ : α → List Role} {Θ : β → List Role} (hm : Assembled V Γ ε m Δ)
      (hf : ∀ a s t, m s = .ok a t → Assembled V (Δ a ++ Γ) δ (f a) Θ) :
      Assembled V Γ (ε.seq δ) (m >>= f) Θ
  /-- The rest is left out where the function has been left. -/
  | unlessLeft {Γ : List Role} {ε : Effect} {α : Type} {a : α} {m : Lower α} {Δ : α → List Role}
      (ha : ∀ x ∈ Δ a, Known Γ x) (hm : Assembled V Γ ε m Δ) :
      Assembled V Γ ε.unlessLeft (terminated >>= fun done => if done then Pure.pure a else m) Δ
  | literal {Γ : List Role} (value : Literal)
      (h : ∀ text ∈ value.string?.toList, V.strings text) :
      Assembled V Γ (.literal value) (lowerLiteral value) fun v => [.word v]
  | var {Γ : List Role} (name : Name) :
      Assembled V Γ .quiet (lowerVariable name) fun v => [.word v]
  | calleeVar {Γ : List Role} (name : Name) :
      Assembled V Γ .quiet (lowerCalleeVariable name) fun v => [.callee v]
  | toWord {Γ : List Role} {o : Operand} (h : Known Γ (.callee o)) :
      Assembled V Γ .quiet (toWord o) fun v => [.word v]
  | lift {Γ : List Role} {l : Lambda} (h : ∀ value ∈ stringsAll l.body, V.strings value) :
      Assembled V Γ (.lift l) (liftLambda l) fun v => [.callee v]
  | operator {Γ : List Role} (op : BinaryOp) {lhs rhs : Operand} (hl : Known Γ (.word lhs))
      (hr : Known Γ (.word rhs)) :
      Assembled V Γ .quiet (lowerOperator op lhs rhs) fun v => [.word v]
  | primitive {Γ : List Role} (p : Primitive) {args : List Operand}
      (hlength : args.length = p.arity) (hargs : ∀ o ∈ args, Known Γ (.word o)) :
      Assembled V Γ (.primitive p) (lowerPrimitive p args) fun v => [.word v]
  | application {Γ : List Role} {f : Operand} {args : List Operand} (hf : Known Γ (.callee f))
      (hargs : ∀ o ∈ args, Known Γ (.word o)) :
      Assembled V Γ .quiet (lowerApplication f args) fun v => [.word v]
  | elements {Γ : List Role} {values : List Operand} (h : ∀ o ∈ values, Known Γ (.word o)) :
      Assembled V Γ .quiet (lowerElements values) fun v => [.word v]
  | declare {Γ : List Role} (name : Name) {value : Operand} (h : Known Γ (.callee value)) :
      Assembled V Γ .quiet (bindLocal V.cells name value) fun _ => []
  | assign {Γ : List Role} {name : Name} {value : Operand} (hname : V.assigns name)
      (h : Known Γ (.word value)) : Assembled V Γ .quiet (lowerAssignment name value) fun _ => []
  | assignGlobal {Γ : List Role} (name : Name) {value : Operand} (h : Known Γ (.word value)) :
      Assembled V Γ .quiet (assignGlobal name value) fun _ => []
  | returning {Γ : List Role} {value : Operand} (h : Known Γ (.word value)) :
      Assembled V Γ .leaving (returning value) fun _ => []
  | branches {Γ : List Role} {ε δ : Effect} {stem : String} (hstem : Undigited stem)
      {condition : Operand} (hc : Known Γ (.word condition)) {positive negative : Lower Operand}
      (hpos : Assembled V Γ ε positive fun v => [.word v])
      (hneg : Assembled V Γ δ negative fun v => [.word v]) :
      Assembled V Γ (ε.branches δ) (lowerBranches stem condition positive negative)
        fun v => [.word v]

namespace Assembled

variable {V : Vocabulary} {Γ : List Role} {ε δ : Effect} {α β : Type} {m : Lower α}
  {f : α → Lower β} {Δ : α → List Role} {Θ : β → List Role}

/-- One part after another, whatever the first gives. -/
private theorem andThen (hm : Assembled V Γ ε m Δ) (hf : ∀ a, Assembled V (Δ a ++ Γ) δ (f a) Θ) :
    Assembled V Γ (ε.seq δ) (m >>= f) Θ :=
  hm.bind fun a _ _ _ => hf a

/-- A part, and what comes after it if that is quiet. -/
private theorem andThen_quiet (hm : Assembled V Γ ε m Δ)
    (hf : ∀ a, Assembled V (Δ a ++ Γ) .quiet (f a) Θ) : Assembled V Γ ε (m >>= f) Θ :=
  ε.seq_quiet ▸ hm.andThen hf

/-- Less may be known of a result. -/
private theorem weaken {Δ' : α → List Role} (hm : Assembled V Γ ε m Δ)
    (h : ∀ a, ∀ x ∈ Δ' a, Known (Δ a ++ Γ) x) : Assembled V Γ ε m Δ' := by
  have hpure := hm.andThen_quiet (f := Pure.pure) fun a => .pure (h a)
  rwa [bind_pure] at hpure

/-- A constant word as a value. -/
theorem constant (value : Int64) :
    Assembled V Γ .quiet (Pure.pure (Operand.word value)) fun v => [.word v] :=
  .pure (known_singleton (.constant value))

/-- **An assembled lowering is composed.** -/
theorem composed (h : Assembled V Γ ε m Δ) : Composed V ε m := by
  induction h with
  | pure h => exact .pure _
  | throw h => exact .throw _
  | bind _ _ ihm ihf => exact ihm.bind ihf
  | unlessLeft _ _ ih => exact .unlessLeft _ ih
  | literal value h => exact lowerLiteral_composed value h
  | var name => exact lowerVariable_composed name
  | calleeVar name => exact lowerCalleeVariable_composed name
  | toWord h => exact toWord_composed _
  | lift h => exact .lift h
  | operator op hl hr => exact lowerOperator_composed op _ _
  | primitive p hlength hargs => exact lowerPrimitive_composed p _
  | application hf hargs => exact lowerApplication_composed _ _
  | elements h => exact lowerElements_composed _
  | declare name h => exact bindLocal_composed name _
  | assign hname h => exact .assign _ hname
  | assignGlobal name h => exact assignGlobal_composed name _
  | returning h => exact .returning _
  | branches hstem hc _ _ ihpos ihneg => exact .branches hstem _ ihpos ihneg

end Assembled

end Lower

/-! ### Expressions -/

section Expressions

variable {V : Vocabulary} {Γ : List Role}

/-- A definition binds its name to a lambda as such, and to anything else by its value. -/
private theorem lower_define_assembled (name : Name) {value : Expr}
    (hstrings : ∀ text ∈ value.strings, V.strings text)
    (h : Assembled V Γ value.effect (lower V.cells value) fun v => [.word v]) :
    Assembled V Γ value.effect (lower V.cells (.define name value)) fun v => [.word v] := by
  have hbind : ∀ {Γ : List Role} {v : Operand}, Known Γ (.callee v) →
      Assembled V Γ .quiet (do bindLocal V.cells name v; return Operand.word 0)
        fun v => [.word v] :=
    fun hv => (Assembled.declare name hv).andThen_quiet fun _ => .constant 0
  by_cases hlambda : ∃ params body, value = .lambda params body
  · obtain ⟨params, body, rfl⟩ := hlambda
    rw [lower, Expr.effect_lambda]
    exact (Assembled.lift (l := ⟨params, body⟩) hstrings).andThen_quiet fun f => hbind known_head
  · rw [lower_define_of_ne fun params body heq => hlambda ⟨params, body, heq⟩]
    exact h.andThen_quiet fun v => hbind (.callee known_head)

/-- The target of a call is a lambda or a name as such, and anything else by its value. -/
private theorem lowerCallee_assembled (target : Expr)
    (hstrings : ∀ text ∈ target.strings, V.strings text)
    {lowered : Lower Operand} (h : Assembled V Γ target.effect lowered fun v => [.word v]) :
    Assembled V Γ target.effect (lowerCallee target lowered) fun v => [.callee v] := by
  have hother : Assembled V Γ target.effect lowered fun v => [.callee v] :=
    h.weaken fun v => known_singleton (.callee known_head)
  cases target with
  | lambda params body =>
    rw [Expr.effect_lambda]
    exact .lift hstrings
  | var name => exact .calleeVar name
  | _ => exact hother

/-- A primitive is applied to as many operands as it takes, or refused. -/
private theorem lower_primitive_assembled (p : Primitive) (args : List Expr)
    (h : Assembled V Γ (effectAll args) (lowerAll V.cells args) fun vs => vs.map .word) :
    Assembled V Γ ((effectAll args).seq (.primitive p)) (lower V.cells (.primitive p args))
      fun v => [.word v] := by
  by_cases hlength : args.length = p.arity
  · rw [lower_primitive_eq hlength]
    refine h.bind fun vs s t hvs => .primitive p ?_ fun o ho => known_mem ho
    rw [length_of_lowerAll hvs, hlength]
  · rw [lower_primitive_of_ne hlength]
    exact .throw fun heq => hlength heq.symm

/-- A `let` calls its own function, which takes as many arguments as there are bindings. -/
private theorem lower_letIn_assembled (bindings : List (Name × Expr)) {body : List Expr}
    (hbody : ∀ text ∈ stringsAll body, V.strings text)
    (h : ∀ {Γ : List Role}, Assembled V Γ (effectBindings bindings)
      (lowerBindings V.cells bindings) fun vs => vs.map .word) :
    Assembled V Γ (Expr.letIn bindings body).effect (lower V.cells (.letIn bindings body))
      fun v => [.word v] := by
  rw [lower, Expr.effect_letIn]
  refine (Assembled.lift (l := ⟨bindings.map Prod.fst, body⟩) hbody).bind fun f s t hf => ?_
  obtain ⟨name, rfl⟩ := eq_global_of_liftLambda hf
  rw [← Effect.seq_quiet (effectBindings bindings)]
  refine h.bind fun vs s t hvs => ?_
  rw [lowerBindings_eq] at hvs
  -- the number of arguments is right, so that it need not be checked
  rw [← lowerApplication_of_length]
  · exact .application (known_head.append_right _) fun o ho => known_mem ho
  · rw [length_of_lowerAll hvs, List.length_map, List.length_map]

mutual

/-- **Every expression is lowered by parts** that use words as words and targets of calls as
these. -/
theorem lower_assembled : (e : Expr) → V.Covers e.assigned e.strings → {Γ : List Role} →
    Assembled V Γ e.effect (lower V.cells e) fun v => [.word v]
  | .literal value, h, _ => by
    rw [lower, Expr.effect_literal]
    exact .literal value h.strings
  | .var name, _, _ => by
    rw [lower, Expr.effect_var]
    exact .var name
  | .binary op lhs rhs, h, _ => by
    obtain ⟨hl, hr⟩ := Vocabulary.covers_append.mp h
    rw [lower, Expr.effect_binary]
    refine (lower_assembled lhs hl).andThen fun l => ?_
    refine (lower_assembled rhs hr).andThen_quiet fun r => ?_
    exact .operator op (known_head.append_right [_]) known_head
  | .primitive p args, h, _ => by
    rw [Expr.effect_primitive]
    exact lower_primitive_assembled p args (lowerAll_assembled args h)
  | .ifElse c p n, h, _ => by
    obtain ⟨h, hn⟩ := Vocabulary.covers_append.mp h
    obtain ⟨hc, hp⟩ := Vocabulary.covers_append.mp h
    rw [lower, Expr.effect_ifElse]
    refine (lower_assembled c hc).andThen fun v => ?_
    exact .branches (by simp [Undigited]) known_head (lower_assembled p hp) (lower_assembled n hn)
  | .cond clauses, h, _ => by
    rw [lower, Expr.effect_cond]
    exact lowerClauses_assembled clauses h
  | .and operands, h, _ => by
    rw [lower]
    exact lowerAnd_assembled operands h
  | .or operands, h, _ => by
    rw [lower]
    exact lowerOr_assembled operands h
  | .not operand, h, _ => by
    rw [lower, Expr.effect_not]
    refine (lower_assembled operand h).andThen fun v => ?_
    exact .branches (by simp [Undigited]) known_head (.constant 0) (.constant 1)
  | .letIn bindings body, ⟨hassigned, hstrings⟩, _ => by
    obtain ⟨hvalues, hbody⟩ := List.forall_mem_append.mp hstrings
    exact lower_letIn_assembled bindings hbody
      (lowerBindings_assembled bindings ⟨hassigned, hvalues⟩)
  | .define name value, h, _ => by
    rw [Expr.effect_define]
    exact lower_define_assembled name h.strings (lower_assembled value h)
  | .lambda params body, h, _ => by
    rw [lower, Expr.effect_lambda]
    exact (Assembled.lift (l := ⟨params, body⟩) h.strings).andThen_quiet fun f =>
      .toWord known_head
  | .call target args, h, _ => by
    obtain ⟨ht, hargs⟩ := Vocabulary.covers_append.mp h
    rw [lower, Expr.effect_call]
    refine (lowerCallee_assembled target ht.strings (lower_assembled target ht)).andThen fun f => ?_
    refine (lowerAll_assembled args hargs).andThen_quiet fun vs => ?_
    exact .application (known_head.append_right _) fun o ho => known_mem ho
  | .array elements, h, _ => by
    rw [lower, Expr.effect_array]
    exact (lowerAll_assembled elements h).andThen_quiet fun vs => .elements fun o ho => known_mem ho
  | .assign name value, ⟨hassigned, hstrings⟩, _ => by
    obtain ⟨hname, hvalue⟩ := List.forall_mem_cons.mp hassigned
    rw [lower, Expr.effect_assign]
    refine (lower_assembled value ⟨hvalue, hstrings⟩).andThen_quiet fun v => ?_
    exact (Assembled.assign hname known_head).andThen_quiet fun _ => .constant 0
  | .sequence forms, h, _ => by
    rw [lower, Expr.effect_sequence]
    exact lowerSequence_assembled forms h (.constant 0)
  | .ret value, h, _ => by
    rw [lower_ret, Expr.effect_ret]
    refine (lower_assembled value h).andThen fun v => ?_
    exact (Assembled.returning known_head).andThen_quiet fun _ => .constant 0

/-- Lowering a list of expressions is assembled of parts and gives words. -/
private theorem lowerAll_assembled : (es : List Expr) → V.Covers (assignedAll es) (stringsAll es) →
    {Γ : List Role} → Assembled V Γ (effectAll es) (lowerAll V.cells es) fun vs => vs.map .word
  | [], _, _ => by
    rw [lowerAll, effectAll_nil]
    exact .pure fun x hx => nomatch hx
  | e :: es, h, _ => by
    obtain ⟨he, hes⟩ := Vocabulary.covers_append.mp h
    rw [lowerAll, effectAll_cons]
    refine (lower_assembled e he).andThen fun v => ?_
    refine (lowerAll_assembled es hes).andThen_quiet fun vs => .pure ?_
    exact List.forall_mem_cons.mpr ⟨known_head.append_right _,
      fun x hx => .given (List.mem_append_left _ hx)⟩

private theorem lowerBindings_assembled : (bs : List (Name × Expr)) →
    V.Covers (assignedBindings bs) (bindingStrings bs) → {Γ : List Role} →
    Assembled V Γ (effectBindings bs) (lowerBindings V.cells bs) fun vs => vs.map .word
  | [], _, _ => by
    rw [lowerBindings, effectBindings_nil]
    exact .pure fun x hx => nomatch hx
  | (_, e) :: bs, h, _ => by
    obtain ⟨he, hbs⟩ := Vocabulary.covers_append.mp h
    rw [lowerBindings, effectBindings_cons]
    refine (lower_assembled e he).andThen fun v => ?_
    refine (lowerBindings_assembled bs hbs).andThen_quiet fun vs => .pure ?_
    exact List.forall_mem_cons.mpr ⟨known_head.append_right _,
      fun x hx => .given (List.mem_append_left _ hx)⟩

/-- Lowering a sequence is assembled of parts and gives a word. -/
theorem lowerSequence_assembled : (es : List Expr) → V.Covers (assignedAll es) (stringsAll es) →
    {Γ : List Role} → {value : Operand} → Known Γ (.word value) →
    Assembled V Γ (effectChain es) (lowerSequence V.cells value es) fun v => [.word v]
  | [], _, _, _, hvalue => by
    rw [lowerSequence, effectChain_nil]
    exact .pure (known_singleton hvalue)
  | e :: es, h, _, _, _ => by
    obtain ⟨he, hes⟩ := Vocabulary.covers_append.mp h
    rw [lowerSequence, effectChain_cons]
    refine (lower_assembled e he).andThen fun v => ?_
    exact .unlessLeft (known_singleton known_head) (lowerSequence_assembled es hes known_head)

private theorem lowerClauses_assembled : (cs : List Clause) →
    V.Covers (assignedClauses cs) (clauseStrings cs) → {Γ : List Role} →
    Assembled V Γ (effectClauses cs) (lowerClauses V.cells cs) fun v => [.word v]
  | [], _, _ => by
    rw [lowerClauses, effectClauses_nil]
    exact .constant 0
  | .otherwise body :: cs, h, _ => by
    obtain ⟨hb, hcs⟩ := Vocabulary.covers_append.mp h
    rw [lowerClauses, effectClauses_otherwise]
    exact .branches (by simp [Undigited]) (.constant 1) (lower_assembled body hb)
      (lowerClauses_assembled cs hcs)
  | .test predicate body :: cs, h, _ => by
    obtain ⟨h, hcs⟩ := Vocabulary.covers_append.mp h
    obtain ⟨hp, hb⟩ := Vocabulary.covers_append.mp h
    rw [lowerClauses, effectClauses_test]
    refine (lower_assembled predicate hp).andThen fun v => ?_
    exact .branches (by simp [Undigited]) known_head (lower_assembled body hb)
      (lowerClauses_assembled cs hcs)

private theorem lowerAnd_assembled : (es : List Expr) → V.Covers (assignedAll es) (stringsAll es) →
    {Γ : List Role} → Assembled V Γ (Expr.and es).effect (lowerAnd V.cells es) fun v => [.word v]
  | [], _, _ => by
    rw [lowerAnd, Expr.effect_and_nil]
    exact .constant 1
  | [e], h, _ => by
    rw [lowerAnd, Expr.effect_and_singleton]
    exact lower_assembled e (Vocabulary.covers_append.mp h).1
  | e :: d :: es, h, _ => by
    obtain ⟨he, hes⟩ := Vocabulary.covers_append.mp h
    rw [lowerAnd_cons_cons, Expr.effect_and_cons_cons]
    refine (lower_assembled e he).andThen fun v => ?_
    exact .branches (by simp [Undigited]) known_head (lowerAnd_assembled (d :: es) hes)
      (.constant 0)

private theorem lowerOr_assembled : (es : List Expr) → V.Covers (assignedAll es) (stringsAll es) →
    {Γ : List Role} → Assembled V Γ (Expr.or es).effect (lowerOr V.cells es) fun v => [.word v]
  | [], _, _ => by
    rw [lowerOr, Expr.effect_or_nil]
    exact .constant 0
  | [e], h, _ => by
    rw [lowerOr, Expr.effect_or_singleton]
    exact lower_assembled e (Vocabulary.covers_append.mp h).1
  | e :: d :: es, h, _ => by
    obtain ⟨he, hes⟩ := Vocabulary.covers_append.mp h
    rw [lowerOr_cons_cons, Expr.effect_or_cons_cons]
    refine (lower_assembled e he).andThen fun v => ?_
    exact .branches (by simp [Undigited]) known_head (.pure (known_singleton known_head))
      (lowerOr_assembled (d :: es) hes)

end

/-! ### Top level forms -/

/-- A definition at the top level assigns to a global. -/
theorem lowerForm_assembled (form : Expr) (h : V.Covers form.assigned form.strings) :
    Assembled V Γ form.effect (lowerForm V.cells form) fun v => [.word v] := by
  cases form with
  | define name value =>
    refine Assembled.andThen_quiet (lower_assembled value h) fun v => ?_
    exact (Assembled.assignGlobal name known_head).andThen_quiet fun _ => .constant 0
  | _ => exact lower_assembled _ h

/-- The forms from an index on, without those at the skipped indices. -/
def unskipped (skipped : List Nat) : (index : Nat) → List Expr → List Expr
  | _, [] => []
  | index, form :: forms =>
    if skipped.contains index then unskipped skipped (index + 1) forms
    else form :: unskipped skipped (index + 1) forms

/-- Lowering the top level forms is assembled of parts, with the effect of the forms that are not
skipped. -/
theorem lowerForms_assembled (skipped : List Nat) (index : Nat) {value : Operand}
    (hvalue : Known Γ (.word value)) (forms : List Expr)
    (h : V.Covers (assignedAll forms) (stringsAll forms)) :
    Assembled V Γ (effectChain (unskipped skipped index forms))
      (lowerForms V.cells skipped index value forms) fun v => [.word v] := by
  induction forms generalizing Γ index value with
  | nil => exact .pure (known_singleton hvalue)
  | cons form forms ih =>
    obtain ⟨hform, hforms⟩ := Vocabulary.covers_append.mp h
    rw [lowerForms, unskipped]
    split
    · exact ih (index + 1) hvalue hforms
    · rw [effectChain_cons]
      refine (lowerForm_assembled form hform).andThen fun v => ?_
      exact .unlessLeft (known_singleton known_head) (ih (index + 1) known_head hforms)

/-! ### Expressions are lowered by operations -/

/-- **Every expression is lowered by the operations of a vocabulary that covers it.** -/
theorem lower_composed (e : Expr) (h : V.Covers e.assigned e.strings) :
    Composed V e.effect (lower V.cells e) :=
  (lower_assembled e h : Assembled V [] _ _ _).composed

/-- Lowering a list of expressions is composed of operations. -/
theorem lowerAll_composed (es : List Expr) (h : V.Covers (assignedAll es) (stringsAll es)) :
    Composed V (effectAll es) (lowerAll V.cells es) :=
  (lowerAll_assembled es h : Assembled V [] _ _ _).composed

theorem lowerSequence_composed (es : List Expr) (value : Operand)
    (h : V.Covers (assignedAll es) (stringsAll es)) :
    Composed V (effectChain es) (lowerSequence V.cells value es) :=
  (lowerSequence_assembled es h known_head : Assembled V [.word value] _ _ _).composed

theorem lowerClauses_composed (cs : List Clause)
    (h : V.Covers (assignedClauses cs) (clauseStrings cs)) :
    Composed V (effectClauses cs) (lowerClauses V.cells cs) :=
  (lowerClauses_assembled cs h : Assembled V [] _ _ _).composed

theorem lowerAnd_composed (es : List Expr) (h : V.Covers (assignedAll es) (stringsAll es)) :
    Composed V (Expr.and es).effect (lowerAnd V.cells es) :=
  (lowerAnd_assembled es h : Assembled V [] _ _ _).composed

theorem lowerOr_composed (es : List Expr) (h : V.Covers (assignedAll es) (stringsAll es)) :
    Composed V (Expr.or es).effect (lowerOr V.cells es) :=
  (lowerOr_assembled es h : Assembled V [] _ _ _).composed

theorem lowerCallee_composed (target : Expr) (h : V.Covers target.assigned target.strings) :
    Composed V target.effect (lowerCallee target (lower V.cells target)) :=
  (lowerCallee_assembled target h.strings (lower_assembled target h) :
    Assembled V [] _ _ _).composed

/-- Lowering the top level forms is composed of operations. -/
theorem lowerForms_composed (skipped : List Nat) (index : Nat) (value : Operand)
    (forms : List Expr) (h : V.Covers (assignedAll forms) (stringsAll forms)) :
    Composed V (effectChain (unskipped skipped index forms))
      (lowerForms V.cells skipped index value forms) :=
  (lowerForms_assembled skipped index known_head forms h :
    Assembled V [.word value] _ _ _).composed

end Expressions

end WordScheme
