import Mathlib
import WordScheme.Proofs.FailedFunctions
import WordScheme.Proofs.LoweringChanges

/-!
# The points of a lowering

`Expr.Next assigned e s e' s'` says that lowering `e` in the state `s` comes, as its next
subexpression, to `e'` in the state `s'`; `Attempt.Comes` follows this from the start of a function
to any subexpression of its body, through arms of conditionals and past what was lowered before. So
it lists the points of the lowering of a function, each with its expression and its state. Code that
is not lowered, such as forms behind a return, has no points.

That these are points of the run is `Next.comesTo` and `Attempt.Comes.comesTo`: from the start the
lowering goes by changes to the state of the point, lowers its expression there, and goes on by
changes from what this gives.
-/

namespace WordScheme

open Lower LowerState NameSupply FunctionDraft

/-! ### Runs that come to a point -/

namespace Lower

/-- Running `m` in `s` comes to `m'` in `s'`, and goes on with what that gives. -/
structure ComesTo (V : Vocabulary) {α β : Type} (m : Lower α) (s : LowerState) (m' : Lower β)
    (s' : LowerState) : Prop where
  changes : Changes V s s'
  rest : ∃ f : β → Lower α, (∀ b, GoesBy V (f b)) ∧ m s = (m' >>= f) s'

variable {V : Vocabulary} {α β γ : Type} {m : Lower α} {m' : Lower β} {s s' t : LowerState}

/-- What comes after two equal outcomes is the same. -/
private theorem bind_congr_run {n : Lower α} {f : α → Lower γ} (h : m s = n t) :
    (m >>= f) s = (n >>= f) t := by
  rw [run_bind, run_bind, h]

/-- A run comes to itself. -/
private theorem ComesTo.refl (m : Lower α) (s : LowerState) : ComesTo V m s m s :=
  ⟨.refl, pure, goesBy_pure, by rw [bind_pure]⟩

/-- What comes after the point may go on. -/
theorem ComesTo.bind (h : ComesTo V m s m' s') {g : α → Lower γ} (hg : ∀ a, GoesBy V (g a)) :
    ComesTo V (m >>= g) s m' s' := by
  obtain ⟨f, hf, hrun⟩ := h.rest
  refine ⟨h.changes, fun b => f b >>= g, fun b => (hf b).andThen hg, ?_⟩
  rw [bind_congr_run hrun, bind_assoc]

/-- A run that goes on as another one does comes to the points of that one. -/
private theorem ComesTo.of_eq {n : Lower α} (heq : m s = n t) (hchanges : Changes V s t)
    (h : ComesTo V n t m' s') : ComesTo V m s m' s' := by
  obtain ⟨f, hf, hrun⟩ := h.rest
  exact ⟨hchanges.trans h.changes, f, hf, heq.trans hrun⟩

/-- The point comes after a part that succeeds. -/
private theorem ComesTo.after {k : Lower γ} {g : γ → Lower α} {c : γ} (hk : GoesBy V k)
    (hrun : k s = .ok c t) (h : ComesTo V (g c) t m' s') : ComesTo V (k >>= g) s m' s' :=
  .of_eq (bind_of_ok hrun) (hk.ok hrun) h

/-- The points of a point are points of the run. -/
private theorem ComesTo.trans {δ : Type} {m'' : Lower δ} {s'' : LowerState}
    (h : ComesTo V m s m' s') (h' : ComesTo V m' s' m'' s'') : ComesTo V m s m'' s'' := by
  obtain ⟨f, hf, hrun⟩ := h.rest
  exact .of_eq hrun h.changes (h'.bind hf)

/-- Behind the point the run goes by changes, too. -/
theorem ComesTo.changes_rest (h : ComesTo V m s m' s') :
    Changes V (endState m' s') (endState m s) := by
  obtain ⟨f, hf, hrun⟩ := h.rest
  rw [endState.eq_def m s, hrun, run_bind, endState]
  cases m' s' with
  | ok b t => exact hf b t
  | error e t => exact .refl

end Lower

/-! ### Conditionals -/

/-- An arm of a conditional: an expression, or a value that is there. -/
inductive Arm where
  | expr (e : Expr)
  | value (o : Operand)

/-- Lowers an arm. -/
def Arm.lowered (assigned : List Name) : Arm → Lower Operand
  | .expr e => lower assigned e
  | .value o => pure o

namespace Expr

/-- Lowering a conditional in the state `s` comes to branch on an operand in the state `t`, with
these arms and blocks named after the stem. -/
inductive Forks (assigned : List Name) :
    Expr → LowerState → String → Operand → Arm → Arm → LowerState → Prop
  | ifElse {c p n : Expr} {s t : LowerState} {v : Operand} (h : lower assigned c s = .ok v t) :
      Forks assigned (.ifElse c p n) s "if" v (.expr p) (.expr n) t
  | test {q b : Expr} {cs : List Clause} {s t : LowerState} {v : Operand}
      (h : lower assigned q s = .ok v t) :
      Forks assigned (.cond (.test q b :: cs)) s "cond" v (.expr b) (.expr (.cond cs)) t
  | otherwise {b : Expr} {cs : List Clause} {s : LowerState} :
      Forks assigned (.cond (.otherwise b :: cs)) s "cond" (.word 1) (.expr b) (.expr (.cond cs)) s
  | and {e d : Expr} {es : List Expr} {s t : LowerState} {v : Operand}
      (h : lower assigned e s = .ok v t) :
      Forks assigned (.and (e :: d :: es)) s "and" v (.expr (.and (d :: es))) (.value (.word 0)) t
  | or {e d : Expr} {es : List Expr} {s t : LowerState} {v : Operand}
      (h : lower assigned e s = .ok v t) :
      Forks assigned (.or (e :: d :: es)) s "or" v (.value v) (.expr (.or (d :: es))) t
  | not {e : Expr} {s t : LowerState} {v : Operand} (h : lower assigned e s = .ok v t) :
      Forks assigned (.not e) s "not" v (.value (.word 0)) (.value (.word 1)) t

/-- Lowering an expression in a state comes to a subexpression next, in another state. -/
inductive Next (assigned : List Name) : Expr → LowerState → Expr → LowerState → Prop
  | lhs {op : BinaryOp} {l r : Expr} {s : LowerState} : Next assigned (.binary op l r) s l s
  | rhs {op : BinaryOp} {l r : Expr} {s t : LowerState} {v : Operand}
      (h : lower assigned l s = .ok v t) : Next assigned (.binary op l r) s r t
  | operand {p : Primitive} {pre post : List Expr} {e : Expr} {s t : LowerState}
      {vs : List Operand} (hlength : (pre ++ e :: post).length = p.arity)
      (h : lowerAll assigned pre s = .ok vs t) :
      Next assigned (.primitive p (pre ++ e :: post)) s e t
  | condition {c p n : Expr} {s : LowerState} : Next assigned (.ifElse c p n) s c s
  | test {q b : Expr} {cs : List Clause} {s : LowerState} :
      Next assigned (.cond (.test q b :: cs)) s q s
  | and {e : Expr} {es : List Expr} {s : LowerState} : Next assigned (.and (e :: es)) s e s
  | or {e : Expr} {es : List Expr} {s : LowerState} : Next assigned (.or (e :: es)) s e s
  | not {e : Expr} {s : LowerState} : Next assigned (.not e) s e s
  /-- The arm that is lowered first begins in its block, in a frame of its own. -/
  | positive {e p : Expr} {n : Arm} {s t u : LowerState} {stem : String} {v : Operand}
      {thenBlock elseBlock merge : BlockRef} (h : Forks assigned e s stem v (.expr p) n t)
      (hlive : t.draft.terminated = false)
      (hfork : fork stem v t = .ok (thenBlock, elseBlock, merge) u)
      (hlt : thenBlock.index < u.draft.blocks.size) :
      Next assigned e s p (u.entered thenBlock.index hlt)
  /-- The other arm begins once the first has been lowered. -/
  | negative {e n : Expr} {p : Arm} {s t u w : LowerState} {stem : String} {v : Operand}
      {thenBlock elseBlock merge : BlockRef} {incoming : List (Operand × Name)}
      (h : Forks assigned e s stem v p (.expr n) t) (hlive : t.draft.terminated = false)
      (hfork : fork stem v t = .ok (thenBlock, elseBlock, merge) u)
      (hthen : lowerArm thenBlock merge (p.lowered assigned) u = .ok incoming w)
      (hlt : elseBlock.index < w.draft.blocks.size) :
      Next assigned e s n (w.entered elseBlock.index hlt)
  | binding {pre post : List (Name × Expr)} {x : Name × Expr} {body : List Expr}
      {s t u : LowerState} {f : Operand} {vs : List Operand}
      (hlift : liftLambda ⟨(pre ++ x :: post).map Prod.fst, body⟩ s = .ok f t)
      (h : lowerBindings assigned pre t = .ok vs u) :
      Next assigned (.letIn (pre ++ x :: post) body) s x.2 u
  | defined {name : Name} {value : Expr} {s : LowerState}
      (hlambda : ∀ params body, value ≠ .lambda params body) :
      Next assigned (.define name value) s value s
  | target {f : Expr} {args : List Expr} {s : LowerState}
      (hlambda : ∀ params body, f ≠ .lambda params body) (hvar : ∀ name, f ≠ .var name) :
      Next assigned (.call f args) s f s
  | argument {f e : Expr} {pre post : List Expr} {s t u : LowerState} {v : Operand}
      {vs : List Operand} (hcallee : lowerCallee f (lower assigned f) s = .ok v t)
      (h : lowerAll assigned pre t = .ok vs u) :
      Next assigned (.call f (pre ++ e :: post)) s e u
  | element {e : Expr} {pre post : List Expr} {s t : LowerState} {vs : List Operand}
      (h : lowerAll assigned pre s = .ok vs t) : Next assigned (.array (pre ++ e :: post)) s e t
  | assigned {name : Name} {value : Expr} {s : LowerState} :
      Next assigned (.assign name value) s value s
  /-- A form is lowered unless the function has been left before. -/
  | form {e : Expr} {pre post : List Expr} {s t : LowerState} {v : Operand}
      (h : lowerSequence assigned (.word 0) pre s = .ok v t)
      (hlive : pre = [] ∨ t.draft.terminated = false) :
      Next assigned (.sequence (pre ++ e :: post)) s e t
  | returned {e : Expr} {s : LowerState} : Next assigned (.ret e) s e s

end Expr

/-! ### Vocabularies of parts -/

private theorem assignedAll_append (es fs : List Expr) :
    assignedAll (es ++ fs) = assignedAll es ++ assignedAll fs := by
  induction es with
  | nil => rfl
  | cons e es ih => rw [List.cons_append, assignedAll, ih, assignedAll, List.append_assoc]

private theorem stringsAll_append (es fs : List Expr) :
    stringsAll (es ++ fs) = stringsAll es ++ stringsAll fs := by
  induction es with
  | nil => rfl
  | cons e es ih => rw [List.cons_append, stringsAll, ih, stringsAll, List.append_assoc]

private theorem assignedBindings_eq (bs : List (Name × Expr)) :
    assignedBindings bs = assignedAll (bs.map Prod.snd) := by
  induction bs with
  | nil => rfl
  | cons b bs ih => rw [assignedBindings, List.map_cons, assignedAll, ih]

private theorem bindingStrings_eq (bs : List (Name × Expr)) :
    bindingStrings bs = stringsAll (bs.map Prod.snd) := by
  induction bs with
  | nil => rfl
  | cons b bs ih => rw [bindingStrings, List.map_cons, stringsAll, ih]

namespace Vocabulary

variable {V : Vocabulary}

/-- The vocabulary covers an expression. -/
def CoversExpr (V : Vocabulary) (e : Expr) : Prop :=
  V.Covers e.assigned e.strings

/-- The vocabulary covers a list of expressions. -/
def CoversAll (V : Vocabulary) (es : List Expr) : Prop :=
  V.Covers (assignedAll es) (stringsAll es)

/-- The vocabulary covers an arm. -/
def CoversArm (V : Vocabulary) : Arm → Prop
  | .expr e => V.CoversExpr e
  | .value _ => True

/-- A vocabulary covers two lists together when it covers each of them. -/
theorem coversAll_append {es fs : List Expr} :
    V.CoversAll (es ++ fs) ↔ V.CoversAll es ∧ V.CoversAll fs := by
  rw [CoversAll, assignedAll_append, stringsAll_append, covers_append]
  rfl

private theorem coversAll_cons {e : Expr} {es : List Expr} :
    V.CoversAll (e :: es) ↔ V.CoversExpr e ∧ V.CoversAll es :=
  covers_append

/-- What covers a list covers the parts around one of its expressions. -/
private theorem CoversAll.split {pre post : List Expr} {e : Expr}
    (h : V.CoversAll (pre ++ e :: post)) : V.CoversAll pre ∧ V.CoversExpr e ∧ V.CoversAll post := by
  rwa [coversAll_append, coversAll_cons] at h

end Vocabulary

open Vocabulary

namespace Expr

variable {V : Vocabulary} {assigned : List Name} {e e' : Expr} {s s' t u : LowerState}

/-! ### Arms -/

/-- A conditional that comes to branch goes on as its branches do. -/
theorem Forks.lower_eq {stem : String} {v : Operand} {p n : Arm}
    (h : Forks assigned e s stem v p n t) :
    lower assigned e s = lowerBranches stem v (p.lowered assigned) (n.lowered assigned) t := by
  cases h with
  | ifElse h =>
    rw [lower, bind_of_ok h]
    rfl
  | test h =>
    rw [lower, lowerClauses, bind_of_ok h]
    simp only [Arm.lowered, lower]
  | otherwise =>
    rw [lower, lowerClauses]
    simp only [Arm.lowered, lower]
  | and h =>
    rw [lower, lowerAnd_cons_cons, bind_of_ok h]
    simp only [Arm.lowered, lower]
  | or h =>
    rw [lower, lowerOr_cons_cons, bind_of_ok h]
    simp only [Arm.lowered, lower]
  | not h =>
    rw [lower, bind_of_ok h]
    rfl

/-- The stems of conditionals have no digits. -/
private theorem Forks.undigited {stem : String} {v : Operand} {p n : Arm}
    (h : Forks assigned e s stem v p n t) : Undigited stem := by
  cases h <;> simp [Undigited]

/-- An arm that the vocabulary covers is lowered by changes. -/
private theorem goesBy_arm {p : Arm} (h : V.CoversArm p) : GoesBy V (p.lowered V.cells) := by
  cases p with
  | expr e => exact (lower_composed e h).goesBy
  | value o => exact goesBy_pure o

/-- A conditional goes by changes to its branch, and the vocabulary covers its arms. -/
theorem Forks.changes {stem : String} {v : Operand} {p n : Arm}
    (h : Forks V.cells e s stem v p n t) (hcovers : V.CoversExpr e) :
    Changes V s t ∧ V.CoversArm p ∧ V.CoversArm n := by
  have hrun : ∀ {c : Expr} {w : Operand}, V.CoversExpr c → lower V.cells c s = .ok w t →
      Changes V s t :=
    fun hc hw => (lower_composed _ hc).goesBy.ok hw
  cases h with
  | ifElse h =>
    obtain ⟨hcp, hn⟩ := covers_append.mp hcovers
    obtain ⟨hc, hp⟩ := covers_append.mp hcp
    exact ⟨hrun hc h, hp, hn⟩
  | test h =>
    obtain ⟨hqb, hcs⟩ := covers_append.mp hcovers
    obtain ⟨hq, hb⟩ := covers_append.mp hqb
    exact ⟨hrun hq h, hb, hcs⟩
  | otherwise =>
    obtain ⟨hb, hcs⟩ := covers_append.mp hcovers
    exact ⟨.refl, hb, hcs⟩
  | and h =>
    obtain ⟨he, hes⟩ := coversAll_cons.mp hcovers
    exact ⟨hrun he h, hes, trivial⟩
  | or h =>
    obtain ⟨he, hes⟩ := coversAll_cons.mp hcovers
    exact ⟨hrun he h, trivial, hes⟩
  | @not c _ _ _ h => exact ⟨hrun (c := c) hcovers h, trivial, trivial⟩

section Arms

variable {stem : String} {v : Operand} {p n : Lower Operand} {thenBlock elseBlock merge : BlockRef}

/-- Where the current block is open, a conditional goes on to join the arms of its fork. -/
private theorem lowerBranches_of_fork (hlive : t.draft.terminated = false)
    (hfork : fork stem v t = .ok (thenBlock, elseBlock, merge) u) :
    lowerBranches stem v p n t = joinArms thenBlock elseBlock merge p n u := by
  rw [lowerBranches_eq, bind_of_ok (terminated_eq hlive)]
  exact bind_of_ok hfork

/-- Lowering an arm comes to what is in it. -/
private theorem comesTo_arm {block : BlockRef} (hlt : block.index < u.draft.blocks.size) :
    ComesTo V (lowerArm block merge p) u p (u.entered block.index hlt) := by
  rw [lowerArm_eq]
  refine .after (goesBy_enterArm block) (enterArm_eq hlt) ?_
  exact (ComesTo.refl p _).bind fun v => goesBy_leaveArm merge v

/-- Joining two arms comes to the positive one. -/
private theorem comesTo_positive (hn : GoesBy V n) (hlt : thenBlock.index < u.draft.blocks.size) :
    ComesTo V (joinArms thenBlock elseBlock merge p n) u p (u.entered thenBlock.index hlt) := by
  rw [joinArms_eq]
  refine (comesTo_arm hlt).bind fun fromThen => ?_
  exact (hn.lowerArm _ _).andThen fun fromElse => goesBy_join _ _

/-- Joining two arms comes to the negative one behind the positive one. -/
private theorem comesTo_negative {w : LowerState} {incoming : List (Operand × Name)}
    (hp : GoesBy V p) (hthen : lowerArm thenBlock merge p u = .ok incoming w)
    (hlt : elseBlock.index < w.draft.blocks.size) :
    ComesTo V (joinArms thenBlock elseBlock merge p n) u n (w.entered elseBlock.index hlt) := by
  rw [joinArms_eq]
  refine .after (hp.lowerArm _ _) hthen ?_
  exact (comesTo_arm hlt).bind fun fromElse => goesBy_join _ _

end Arms

/-! ### Lists -/

/-- Two lists are lowered one after the other. -/
private theorem lowerAll_append (es fs : List Expr) : lowerAll assigned (es ++ fs) =
    lowerAll assigned es >>= fun vs => lowerAll assigned fs >>= fun ws => pure (vs ++ ws) := by
  induction es with
  | nil =>
    rw [lowerAll, pure_bind]
    exact (bind_pure _).symm
  | cons e es ih =>
    rw [List.cons_append, lowerAll, lowerAll, ih]
    simp only [bind_assoc, pure_bind, List.cons_append]

/-- Lowering a list comes to each of its expressions behind those before it. -/
private theorem comesTo_lowerAll {pre post : List Expr} {vs : List Operand}
    (hcovers : V.CoversAll (pre ++ e :: post)) (h : lowerAll V.cells pre s = .ok vs t) :
    ComesTo V (lowerAll V.cells (pre ++ e :: post)) s (lower V.cells e) t := by
  obtain ⟨hpre, -, hpost⟩ := hcovers.split
  rw [lowerAll_append]
  refine .after (lowerAll_composed pre hpre).goesBy h ?_
  rw [lowerAll]
  refine ComesTo.bind (ComesTo.bind (.refl _ _) fun v => ?_) fun ws => goesBy_pure _
  exact (lowerAll_composed post hpost).goesBy.andThen fun ws => goesBy_pure _

/-- Forms that are lowered to their end are lowered like any others before further ones. -/
private theorem lowerSequence_append {pre post : List Expr} {v w : Operand}
    (h : lowerSequence assigned v pre s = .ok w t)
    (hlive : pre = [] ∨ t.draft.terminated = false) :
    lowerSequence assigned v (pre ++ post) s = lowerSequence assigned w post t := by
  induction pre generalizing v s with
  | nil =>
    rw [lowerSequence] at h
    cases h
    rfl
  | cons e pre ih =>
    have hlive : t.draft.terminated = false := hlive.resolve_left (List.cons_ne_nil _ _)
    rw [lowerSequence] at h
    obtain ⟨a, u, he, h⟩ := exists_of_bind h
    rw [List.cons_append, lowerSequence, bind_of_ok he]
    cases hdone : u.draft.terminated with
    | true =>
      rw [bind_of_ok (terminated_eq hdone)] at h
      cases h
      rw [hdone] at hlive
      cases hlive
    | false =>
      rw [bind_of_ok (terminated_eq hdone)] at h ⊢
      exact ih h (.inr hlive)

/-- Lowering a sequence comes to its first form. -/
private theorem comesTo_lowerSequence {post : List Expr} {v : Operand} (hpost : V.CoversAll post) :
    ComesTo V (lowerSequence V.cells v (e :: post)) s (lower V.cells e) s := by
  rw [lowerSequence]
  refine (ComesTo.refl _ _).bind fun w => (goesBy_of_eq fun _ => rfl).andThen fun done => ?_
  split
  · exact goesBy_pure w
  · exact (lowerSequence_composed post w hpost).goesBy

/-! ### Subexpressions -/

/-- A target that is neither a lambda nor a variable is lowered like a value. -/
private theorem lowerCallee_of_ne {f : Expr} {lowered : Lower Operand}
    (hlambda : ∀ params body, f ≠ .lambda params body) (hvar : ∀ name, f ≠ .var name) :
    lowerCallee f lowered = lowered := by
  cases f with
  | lambda params body => exact absurd rfl (hlambda params body)
  | var name => exact absurd rfl (hvar name)
  | _ => rfl

/-- The call of a function comes to the arguments behind its target. -/
private theorem comesTo_argument {f : Expr} {pre post : List Expr} {v : Operand} {vs : List Operand}
    (hf : V.CoversExpr f) (hargs : V.CoversAll (pre ++ e :: post))
    (hcallee : lowerCallee f (lower V.cells f) s = .ok v t)
    (h : lowerAll V.cells pre t = .ok vs u) :
    ComesTo V (lower V.cells (.call f (pre ++ e :: post))) s (lower V.cells e) u := by
  rw [lower]
  refine .after (lowerCallee_composed f hf).goesBy hcallee ?_
  exact (comesTo_lowerAll hargs h).bind fun ws => (lowerApplication_composed v ws).goesBy

/-- **The next subexpression is a point of the run**, and the vocabulary covers it. -/
theorem Next.comesTo (h : Next V.cells e s e' s') (hcovers : V.CoversExpr e) :
    ComesTo V (lower V.cells e) s (lower V.cells e') s' ∧ V.CoversExpr e' := by
  cases h with
  | lhs =>
    obtain ⟨hl, hr⟩ := covers_append.mp hcovers
    refine ⟨?_, hl⟩
    rw [lower]
    refine (ComesTo.refl _ _).bind fun l => ?_
    exact (lower_composed _ hr).goesBy.andThen fun r => (lowerOperator_composed _ l r).goesBy
  | rhs h =>
    obtain ⟨hl, hr⟩ := covers_append.mp hcovers
    refine ⟨?_, hr⟩
    rw [lower]
    refine .after (lower_composed _ hl).goesBy h ?_
    exact (ComesTo.refl _ _).bind fun r => (lowerOperator_composed _ _ r).goesBy
  | operand hlength h =>
    have hall : V.CoversAll _ := hcovers
    refine ⟨?_, hall.split.2.1⟩
    rw [lower_primitive_eq hlength]
    exact (comesTo_lowerAll hall h).bind fun vs => (lowerPrimitive_composed _ vs).goesBy
  | condition =>
    obtain ⟨hcp, hn⟩ := covers_append.mp hcovers
    obtain ⟨hc, hp⟩ := covers_append.mp hcp
    refine ⟨?_, hc⟩
    rw [lower]
    refine (ComesTo.refl _ _).bind fun v => ?_
    exact .lowerBranches (by simp [Undigited]) v (lower_composed _ hp).goesBy
      (lower_composed _ hn).goesBy
  | test =>
    obtain ⟨hqb, hcs⟩ := covers_append.mp hcovers
    obtain ⟨hq, hb⟩ := covers_append.mp hqb
    refine ⟨?_, hq⟩
    rw [lower, lowerClauses]
    refine (ComesTo.refl _ _).bind fun v => ?_
    exact .lowerBranches (by simp [Undigited]) v (lower_composed _ hb).goesBy
      (lowerClauses_composed _ hcs).goesBy
  | @and _ es =>
    obtain ⟨he, hes⟩ := coversAll_cons.mp hcovers
    refine ⟨?_, he⟩
    rw [lower]
    cases es with
    | nil =>
      rw [lowerAnd]
      exact .refl _ _
    | cons d es =>
      rw [lowerAnd_cons_cons]
      refine (ComesTo.refl _ _).bind fun v => ?_
      exact .lowerBranches (by simp [Undigited]) v (lowerAnd_composed _ hes).goesBy (goesBy_pure _)
  | @or _ es =>
    obtain ⟨he, hes⟩ := coversAll_cons.mp hcovers
    refine ⟨?_, he⟩
    rw [lower]
    cases es with
    | nil =>
      rw [lowerOr]
      exact .refl _ _
    | cons d es =>
      rw [lowerOr_cons_cons]
      refine (ComesTo.refl _ _).bind fun v => ?_
      exact .lowerBranches (by simp [Undigited]) v (goesBy_pure _) (lowerOr_composed _ hes).goesBy
  | not =>
    refine ⟨?_, hcovers⟩
    rw [lower]
    refine (ComesTo.refl _ _).bind fun v => ?_
    exact .lowerBranches (by simp [Undigited]) v (goesBy_pure _) (goesBy_pure _)
  | positive hforks hlive hfork hlt =>
    obtain ⟨hchanges, hp, hn⟩ := hforks.changes hcovers
    refine ⟨.of_eq hforks.lower_eq hchanges ?_, hp⟩
    refine .of_eq (lowerBranches_of_fork hlive hfork) ((goesBy_fork hforks.undigited _).ok hfork) ?_
    exact comesTo_positive (goesBy_arm hn) hlt
  | negative hforks hlive hfork hthen hlt =>
    obtain ⟨hchanges, hp, hn⟩ := hforks.changes hcovers
    refine ⟨.of_eq hforks.lower_eq hchanges ?_, hn⟩
    refine .of_eq (lowerBranches_of_fork hlive hfork) ((goesBy_fork hforks.undigited _).ok hfork) ?_
    exact comesTo_negative (goesBy_arm hp) hthen hlt
  | binding hlift h =>
    obtain ⟨hvalues, hbody⟩ := List.forall_mem_append.mp hcovers.strings
    have hall : V.CoversAll _ := ⟨assignedBindings_eq _ ▸ hcovers.assigned,
      bindingStrings_eq _ ▸ hvalues⟩
    rw [List.map_append, List.map_cons] at hall
    refine ⟨?_, hall.split.2.1⟩
    rw [lowerBindings_eq] at h
    rw [lower]
    refine .after (Composed.lift hbody).goesBy hlift ?_
    rw [lowerBindings_eq, List.map_append, List.map_cons]
    exact (comesTo_lowerAll hall h).bind fun vs => goesBy_emit rfl
  | defined hlambda =>
    refine ⟨?_, hcovers⟩
    rw [lower_define_of_ne hlambda]
    refine (ComesTo.refl _ _).bind fun v => ?_
    exact (bindLocal_composed _ v).goesBy.andThen fun _ => goesBy_pure _
  | target hlambda hvar =>
    obtain ⟨hf, hargs⟩ := covers_append.mp hcovers
    refine ⟨?_, hf⟩
    rw [lower, lowerCallee_of_ne hlambda hvar]
    refine (ComesTo.refl _ _).bind fun v => ?_
    exact (lowerAll_composed _ hargs).goesBy.andThen fun vs =>
      (lowerApplication_composed v vs).goesBy
  | argument hcallee h =>
    obtain ⟨hf, hargs⟩ := covers_append.mp hcovers
    exact ⟨comesTo_argument hf hargs hcallee h, (CoversAll.split hargs).2.1⟩
  | element h =>
    have hall : V.CoversAll _ := hcovers
    refine ⟨?_, hall.split.2.1⟩
    rw [lower]
    exact (comesTo_lowerAll hall h).bind fun vs => (lowerElements_composed vs).goesBy
  | assigned =>
    obtain ⟨hname, hvalue⟩ := List.forall_mem_cons.mp hcovers.assigned
    refine ⟨?_, hvalue, hcovers.strings⟩
    rw [lower]
    refine (ComesTo.refl _ _).bind fun v => ?_
    exact (goesBy_assignment v hname).andThen fun _ => goesBy_pure _
  | form h hlive =>
    have hall : V.CoversAll _ := hcovers
    obtain ⟨hpre, he, hpost⟩ := hall.split
    refine ⟨?_, he⟩
    rw [lower]
    refine .of_eq (lowerSequence_append h hlive) ((lowerSequence_composed _ _ hpre).goesBy.ok h) ?_
    exact comesTo_lowerSequence hpost
  | returned =>
    refine ⟨?_, hcovers⟩
    rw [lower_ret]
    refine (ComesTo.refl _ _).bind fun v => ?_
    exact (Composed.returning v).goesBy.andThen fun _ => goesBy_pure _

end Expr

/-! ### Functions -/

/-- Moves parameters that are assigned to into cells, and opens the frame of the body. -/
def openBody (assigned params : List Name) : Lower Unit := do
  spillParams assigned params
  onScope Scope.push

/-- A body is lowered as the sequence of its forms, in a frame of its own. -/
theorem lowerBody_eq (assigned : List Name) (l : Lambda) : lowerBody assigned l =
    openBody assigned l.params >>= fun _ => lower assigned (.sequence l.body) >>= fun value =>
      onScope Scope.pop >>= fun _ => pure value := by
  rw [lowerBody, openBody, bind_assoc, lower]

theorem goesBy_openBody {V : Vocabulary} (params : List Name) :
    GoesBy V (openBody V.cells params) :=
  (goesBy_spillParams params).andThen fun _ _ => .single .push

namespace Attempt

/-- The names that the function assigns to. -/
def assigned : Attempt → List Name
  | .entry forms _ _ => assignedAll forms
  | .function f => assignedAll f.lambda.body

/-- The expressions of the function. -/
def forms : Attempt → List Expr
  | .entry forms _ _ => forms
  | .function f => f.lambda.body

/-- The function comes to its body, or to one of the top level forms. Its parameters have been moved
to their cells by then. -/
inductive Enters (u : CompileUnit) : Attempt → Expr → LowerState → Prop
  | body {f : PendingFunction} {s : LowerState}
      (h : openBody (assignedAll f.lambda.body) f.lambda.params
        ((Attempt.function f).begin u) = .ok () s) :
      Enters u (.function f) (.sequence f.lambda.body) s
  | form {pre post : List Expr} {e : Expr} {skipped : List Nat} {globals : Globals} {v : Operand}
      {t : LowerState} (hskipped : skipped.contains pre.length = false)
      (hdefine : ∀ name value, e ≠ .define name value)
      (h : lowerForms (assignedAll (pre ++ e :: post)) skipped 0 (.word 0) pre
        ((Attempt.entry (pre ++ e :: post) skipped globals).begin u) = .ok v t)
      (hlive : t.draft.terminated = false) :
      Enters u (.entry (pre ++ e :: post) skipped globals) e t
  /-- The value of a definition is stored to the global of its name. -/
  | defined {pre post : List Expr} {name : Name} {value : Expr} {skipped : List Nat}
      {globals : Globals} {v : Operand} {t : LowerState}
      (hskipped : skipped.contains pre.length = false)
      (h : lowerForms (assignedAll (pre ++ .define name value :: post)) skipped 0 (.word 0) pre
        ((Attempt.entry (pre ++ .define name value :: post) skipped globals).begin u) = .ok v t)
      (hlive : t.draft.terminated = false) :
      Enters u (.entry (pre ++ .define name value :: post) skipped globals) value t

/-- The points of the lowering of a function: it comes to an expression in a state. -/
inductive Comes (u : CompileUnit) (a : Attempt) : Expr → LowerState → Prop
  | enter {e : Expr} {s : LowerState} (h : a.Enters u e s) : Comes u a e s
  | next {e e' : Expr} {s s' : LowerState} (h : Comes u a e s)
      (hnext : Expr.Next a.assigned e s e' s') : Comes u a e' s'

/-- Every attempt begins with a new draft. -/
theorem exists_begin (a : Attempt) (u : CompileUnit) :
    ∃ name params, a.begin u = LowerState.start u name params a.globals := by
  cases a <;> exact ⟨_, _, rfl⟩

/-- The vocabulary of a function: what it assigns to is kept in cells. -/
def vocabulary (a : Attempt) (strings : String → Prop) : Vocabulary :=
  ⟨a.assigned, (· ∈ a.assigned), strings⟩

variable {u : CompileUnit} {a : Attempt} {e : Expr} {s : LowerState} {strings : String → Prop}

/-- The vocabulary of an attempt covers its forms. -/
theorem covers_forms (h : ∀ value ∈ stringsAll a.forms, strings value) :
    (a.vocabulary strings).CoversAll a.forms := by
  refine ⟨fun name hname => ?_, h⟩
  cases a <;> exact hname

/-- Top level forms that are lowered to their end are lowered like any others before further
ones. -/
private theorem lowerForms_append {assigned : List Name} {skipped : List Nat} {i : Nat}
    {v w : Operand}
    {pre post : List Expr} {s t : LowerState} (h : lowerForms assigned skipped i v pre s = .ok w t)
    (hlive : t.draft.terminated = false) :
    lowerForms assigned skipped i v (pre ++ post) s =
      lowerForms assigned skipped (i + pre.length) w post t := by
  induction pre generalizing i v s with
  | nil =>
    cases h
    rfl
  | cons form pre ih =>
    rw [List.cons_append, lowerForms, List.length_cons, Nat.add_comm pre.length, ← Nat.add_assoc]
    rw [lowerForms] at h
    split at h
    · next hskipped =>
      rw [if_pos hskipped]
      exact ih h
    · next hskipped =>
      rw [if_neg hskipped]
      obtain ⟨x, r, hform, h⟩ := exists_of_bind h
      rw [bind_of_ok hform]
      cases hdone : r.draft.terminated with
      | true =>
        rw [bind_of_ok (terminated_eq hdone)] at h
        cases h
        rw [hdone] at hlive
        cases hlive
      | false =>
        rw [bind_of_ok (terminated_eq hdone)] at h ⊢
        exact ih h

/-- A top level form that is not skipped, with what comes behind it. -/
private theorem comesTo_lowerForms {V : Vocabulary} {skipped : List Nat} {i : Nat} {v : Operand}
    {post : List Expr} (hskipped : skipped.contains i = false) (hpost : V.CoversAll post) :
    ComesTo V (lowerForms V.cells skipped i v (e :: post)) s (lowerForm V.cells e) s := by
  rw [lowerForms, if_neg (by rw [hskipped]; exact Bool.false_ne_true)]
  refine (ComesTo.refl _ _).bind fun w => (goesBy_of_eq fun _ => rfl).andThen fun done => ?_
  split
  · exact goesBy_pure w
  · exact (lowerForms_composed skipped (i + 1) w post hpost).goesBy

private theorem lowerForm_of_ne {assigned : List Name} (h : ∀ name value, e ≠ .define name value) :
    lowerForm assigned e = lower assigned e := by
  cases e with
  | define name value => exact absurd rfl (h name value)
  | _ => rfl

/-- Behind the forms before it, lowering the entry function comes to a form. -/
private theorem comesTo_entry {pre post : List Expr} {skipped : List Nat} {globals : Globals}
    {v : Operand}
    (hcovers : ((entry (pre ++ e :: post) skipped globals).vocabulary strings).CoversAll
      (pre ++ e :: post)) (hskipped : skipped.contains pre.length = false)
    (h : lowerForms (assignedAll (pre ++ e :: post)) skipped 0 (.word 0) pre
      ((entry (pre ++ e :: post) skipped globals).begin u) = .ok v s)
    (hlive : s.draft.terminated = false) :
    ComesTo ((entry (pre ++ e :: post) skipped globals).vocabulary strings)
      (entry (pre ++ e :: post) skipped globals).steps
      ((entry (pre ++ e :: post) skipped globals).begin u)
      (lowerForm (assignedAll (pre ++ e :: post)) e) s := by
  obtain ⟨hpre, -, hpost⟩ := hcovers.split
  refine .of_eq (lowerForms_append h hlive)
    ((lowerForms_composed skipped 0 _ pre hpre).goesBy.ok h) ?_
  exact comesTo_lowerForms (by rwa [Nat.zero_add]) hpost

/-- **The function comes to where it enters.** -/
theorem Enters.comesTo (h : a.Enters u e s)
    (hstrings : ∀ value ∈ stringsAll a.forms, strings value) :
    ComesTo (a.vocabulary strings) a.steps (a.begin u) (lower a.assigned e) s ∧
      (a.vocabulary strings).CoversExpr e := by
  have hcovers := covers_forms hstrings
  cases h with
  | @body f s h =>
    refine ⟨?_, hcovers⟩
    rw [steps, lowerBody_eq]
    refine .after (goesBy_openBody (V := (function f).vocabulary strings) _) h ?_
    refine (ComesTo.refl _ _).bind fun value => ?_
    exact GoesBy.andThen (fun _ => .single .pop) fun _ => goesBy_pure value
  | form hskipped hdefine h hlive =>
    refine ⟨?_, hcovers.split.2.1⟩
    have hform := comesTo_entry hcovers hskipped h hlive
    rwa [lowerForm_of_ne hdefine] at hform
  | defined hskipped h hlive =>
    have he := hcovers.split.2.1
    refine ⟨(comesTo_entry hcovers hskipped h hlive).trans ?_, he⟩
    refine (ComesTo.refl _ _).bind fun w => ?_
    exact (assignGlobal_composed _ w).goesBy.andThen fun _ => goesBy_pure _

/-- **Every point of a function is a point of its run.** -/
theorem Comes.comesTo (h : a.Comes u e s) (hstrings : ∀ value ∈ stringsAll a.forms, strings value) :
    ComesTo (a.vocabulary strings) a.steps (a.begin u) (lower a.assigned e) s ∧
      (a.vocabulary strings).CoversExpr e := by
  induction h with
  | enter h => exact h.comesTo hstrings
  | next _ hnext ih =>
    obtain ⟨hcomes, hcovers⟩ := ih
    obtain ⟨hcomes', hcovers'⟩ := Expr.Next.comesTo (V := a.vocabulary strings) hnext hcovers
    exact ⟨hcomes.trans hcomes', hcovers'⟩

/-- The names that an expression assigns to are among those of its function. -/
theorem Comes.covers (h : a.Comes u e s) : (a.vocabulary fun _ => True).CoversExpr e :=
  (h.comesTo fun _ _ => trivial).2

/-- The function goes by changes to its points. -/
theorem Comes.changes (h : a.Comes u e s) :
    Changes (a.vocabulary fun _ => True) (a.begin u) s :=
  (h.comesTo fun _ _ => trivial).1.changes

end Attempt

end WordScheme
