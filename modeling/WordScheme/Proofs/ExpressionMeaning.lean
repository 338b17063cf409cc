import Mathlib
import WordScheme.Proofs.LoweringRun
import WordScheme.Proofs.OperationMeaning

/-!
# What the code of expressions does

The traversal of lowering once more, for expressions that are made of words: `lower_computes` says
that the code of an expression computes its value, one case for each form of expression, and its
companions say so of lists of expressions, of bodies, and of what is left of a `cond`, an `and` or
an `or`. Cases in which lowering stops because a block has ended need no argument: no configuration
stands there.
-/

namespace WordScheme

open NameSupply FunctionDraft Site Lower Machine

variable {assigned : List Name} {m : Machine} {globals : Globals}

namespace Machine

variable {p : Site} {P : Config → Prop}

/-- A value is lowered, and then something that uses it. -/
theorem leads_then {code : Lower Operand} {f : Operand → Lower Operand} {ev : Eval Int64}
    {g : Int64 → Eval Int64} (h : p.Ready assigned)
    (hcode : Leads p code fun v q => p.Lowered assigned [v] q ∧ m.Computes P ev p v q)
    (hf : ∀ v q, p.Lowered assigned [v] q → Leads q (f v) fun u r => q.Lowered assigned [u] r ∧
      ∀ x, m.Computes (fun c => m.Reads c q.draft.registers v x) (g x) q u r) :
    Leads p (code >>= f) fun u r => p.Lowered assigned [u] r ∧ m.Computes P (ev >>= g) p u r := by
  refine hcode.bind fun v q ⟨hq, hv⟩ => (hf v q hq).mono fun u r ⟨hr, hu⟩ => ?_
  exact ⟨hq.trans hr, hv.bind (h.later hq) (hq.ready.later hr) hu⟩

/-- Two values are lowered, and then something that uses both. -/
private theorem leads_then_two {code code' : Lower Operand} {f : Operand → Operand → Lower Operand}
    {ev ev' : Eval Int64} {g : Int64 → Int64 → Eval Int64} (h : p.Ready assigned)
    (hcode : Leads p code fun v q => p.Lowered assigned [v] q ∧ m.Computes P ev p v q)
    (hcode' : ∀ q : Site, q.Ready assigned → p.draft.Later q.draft →
      Leads q code' fun v r => q.Lowered assigned [v] r ∧ m.Computes (fun _ => True) ev' q v r)
    (hf : ∀ l r, ∀ q : Site, q.Ready assigned → q.Sees l → q.Sees r →
      Leads q (f l r) fun v t => q.Lowered assigned [v] t ∧ ∀ x y, m.Computes
        (fun c => m.Reads c q.draft.registers l x ∧ m.Reads c q.draft.registers r y)
        (g x y) q v t) :
    Leads p (do let l ← code; let r ← code'; f l r) fun v q => p.Lowered assigned [v] q ∧
      m.Computes P (do let x ← ev; let y ← ev'; g x y) p v q := by
  refine leads_then h hcode fun l q hq => ?_
  refine (hcode' q hq.ready (h.later hq)).bind fun r q' ⟨hq', hr⟩ => ?_
  have hlater := hq.ready.later hq'
  refine (hf l r q' hq'.ready (hq'.arrives.sees l hq.sees_one) hq'.sees_one).mono
    fun v t ⟨ht, hv⟩ => ⟨hq'.trans ht, fun x => ?_⟩
  have hkeeping : m.Simulates q.draft q'.draft (fun c => m.Reads c q.draft.registers l x) ev' _ :=
    Simulates.keeping hr fun _ _ hkeeps hl => hl.keep hkeeps hlater.registers
  exact hkeeping.bind hlater (hq'.ready.later ht) fun y => hv x y

/-- Something is done for its effect, and the value is zero. -/
theorem leads_then_zero {α : Type} {code : Lower Unit} {ev : α → Eval Unit}
    {Q : α → Config → Prop} (h : p.Ready assigned)
    (hcode : Leads p code fun _ q => p.Lowered assigned [] q ∧
      ∀ x, m.Simulates p.draft q.draft (Q x) (ev x) fun _ _ => True) :
    Leads p (do code; return .word 0) fun v q => p.Lowered assigned [v] q ∧
      ∀ x, m.Computes (Q x) (do ev x; return 0) p v q := by
  refine hcode.bind fun _ q ⟨hq, hsim⟩ => ?_
  refine leads_pure ⟨hq.trans (hq.ready.lowered_one (sees_word q 0)), fun x => ?_⟩
  exact (hsim x).bind (h.later hq) (.refl _) fun _ => simulates_pure fun c _ => reads_word m c _ 0

/-- A conditional is lowered, given what its arms compute for each value of the condition. -/
private theorem lowerBranches_computes (h : p.Ready assigned) {stem : String}
    (hstem : Undigited stem)
    {condition : Operand} (hc : p.Sees condition) {positive negative : Lower Operand}
    (evThen evElse : Int64 → Eval Int64)
    (hpositive : ∀ q : Site, q.Ready assigned → p.draft.Later q.draft → (∀ o, p.Sees o → q.Sees o) →
      Leads q positive fun v r => q.Lowered assigned [v] r ∧
        ∀ x, m.Computes (fun c => m.Reads c p.draft.registers condition x) (evThen x) q v r)
    (hnegative : ∀ q : Site, q.Ready assigned → p.draft.Later q.draft → (∀ o, p.Sees o → q.Sees o) →
      Leads q negative fun v r => q.Lowered assigned [v] r ∧
        ∀ x, m.Computes (fun c => m.Reads c p.draft.registers condition x) (evElse x) q v r) :
    Leads p (lowerBranches stem condition positive negative) fun v q => p.Lowered assigned [v] q ∧
      ∀ x, m.Computes (fun c => m.Reads c p.draft.registers condition x)
        (if x ≠ 0 then Eval.inFrame (evThen x) else Eval.inFrame (evElse x)) p v q := by
  refine (lowerBranches_leads h hstem hc hpositive hnegative).mono fun v q hb => ?_
  refine ⟨hb.lowered h hstem hc, fun x => ?_⟩
  exact computes_branched hb h hstem hc (fun hr => hr x) (fun hs => hs x)
    (fun _ _ hkeeps hread => hread.keep hkeeps (le_refl _)) id

/-- An arm that does not depend on the condition. -/
private theorem leads_arm {code : Lower Operand} {ev : Eval Int64} {Q : Int64 → Config → Prop}
    (h : Leads p code fun v q => p.Lowered assigned [v] q ∧ m.Computes (fun _ => True) ev p v q) :
    Leads p code fun v q => p.Lowered assigned [v] q ∧ ∀ x, m.Computes (Q x) ev p v q :=
  h.mono fun _ _ ⟨hq, hv⟩ => ⟨hq, fun _ => hv.of_imp fun _ _ => trivial⟩

end Machine

mutual

/-- **The code of an expression computes its value.** -/
theorem lower_computes : (e : Expr) → (hfirst : e.isFirstOrder = true) →
    (he : e.assigned ⊆ assigned) → {p : Site} → p.Ready assigned → p.draft.globals = globals →
    Leads p (lower assigned e) fun v q => p.Lowered assigned [v] q ∧
      m.Computes (fun _ => True) (eval m.world globals e) p v q
  | .literal value, hfirst, _, p, h, _ => by
    rw [Expr.isFirstOrder] at hfirst
    rw [lower, eval]
    exact lowerLiteral_computes h hfirst
  | .var name, _, _, p, h, hg => by
    rw [lower, eval, ← hg]
    exact lowerVariable_computes h name
  | .binary (.word op) lhs rhs, hfirst, he, p, h, hg => by
    rw [Expr.isFirstOrder, Bool.and_eq_true] at hfirst
    rw [Expr.assigned, List.append_subset] at he
    rw [lower, eval]
    exact leads_then_two h (lower_computes lhs hfirst.1 he.1 h hg)
      (fun q hq hlater => lower_computes rhs hfirst.2 he.2 hq (hlater.globals.trans hg))
      fun _ _ _ hq hl hr => lowerOperator_word_computes hq op hl hr
  | .binary (.compare op) lhs rhs, hfirst, he, p, h, hg => by
    rw [Expr.isFirstOrder, Bool.and_eq_true] at hfirst
    rw [Expr.assigned, List.append_subset] at he
    rw [lower, eval]
    exact leads_then_two h (lower_computes lhs hfirst.1 he.1 h hg)
      (fun q hq hlater => lower_computes rhs hfirst.2 he.2 hq (hlater.globals.trans hg))
      fun _ _ _ hq hl hr => lowerOperator_compare_computes hq op hl hr
  | .primitive (.library f) args, hfirst, he, p, h, hg => by
    rw [Expr.isFirstOrder] at hfirst
    rw [Expr.assigned] at he
    rw [lower, eval]
    split
    · next hne => exact leads_throw fun heq => hne heq.symm
    · refine (lowerAll_simulates args hfirst he h hg).bind fun vs q ⟨hq, hargs⟩ => ?_
      refine leads_onUnit_bind fun u => ?_
      have hcall := hq.ready.emit (i := .callWord (u.libraryFunction f).1 vs) rfl fun o ho => by
        rcases List.mem_cons.mp ho with rfl | ho
        · trivial
        · exact hq.sees o ho
      refine leads_emit ⟨hq.trans hcall, ?_⟩
      refine hargs.bind (h.later hq) (hq.ready.later hcall) fun ws => ?_
      refine simulates_emit_word (fun _ _ => rfl) fun a c hstate hreads => ?_
      exact performs_call hstate rfl rfl hreads
  | .ifElse c pos neg, hfirst, he, p, h, hg => by
    simp only [Expr.isFirstOrder, Bool.and_eq_true] at hfirst
    simp only [Expr.assigned, List.append_subset] at he
    obtain ⟨⟨hc, hpos⟩, hneg⟩ := he
    rw [lower, eval]
    refine leads_then h (lower_computes c hfirst.1.1 hc h hg) fun v q hq => ?_
    have hgq : q.draft.globals = globals := (h.later hq).globals.trans hg
    exact lowerBranches_computes hq.ready (by simp [Undigited]) hq.sees_one _ _
      (fun r hr hlater _ => leads_arm
        (lower_computes pos hfirst.1.2 hpos hr (hlater.globals.trans hgq)))
      fun r hr hlater _ => leads_arm
        (lower_computes neg hfirst.2 hneg hr (hlater.globals.trans hgq))
  | .cond clauses, hfirst, he, p, h, hg => by
    rw [Expr.isFirstOrder] at hfirst
    rw [Expr.assigned] at he
    rw [lower, eval]
    exact lowerClauses_computes clauses hfirst he h hg
  | .and operands, hfirst, he, p, h, hg => by
    rw [Expr.isFirstOrder] at hfirst
    rw [Expr.assigned] at he
    rw [lower, eval]
    exact lowerAnd_computes operands hfirst he h hg
  | .or operands, hfirst, he, p, h, hg => by
    rw [Expr.isFirstOrder] at hfirst
    rw [Expr.assigned] at he
    rw [lower, eval]
    exact lowerOr_computes operands hfirst he h hg
  | .not operand, hfirst, he, p, h, hg => by
    rw [Expr.isFirstOrder] at hfirst
    rw [Expr.assigned] at he
    rw [lower, eval]
    refine leads_then h (lower_computes operand hfirst he h hg) fun v q hq => ?_
    refine (lowerBranches_computes (m := m) hq.ready (by simp [Undigited]) hq.sees_one
      (fun _ => pure 0) (fun _ => pure 1) (fun r hr _ _ => leads_arm (leads_word_computes hr 0))
      fun r hr _ _ => leads_arm (leads_word_computes hr 1)).mono fun u r ⟨hr, hu⟩ => ⟨hr, ?_⟩
    -- evaluation opens no frame for the two constants
    intro x
    have hx := hu x
    rw [Eval.inFrame_pure, Eval.inFrame_pure] at hx
    by_cases hzero : x = 0
    · rw [if_neg (not_not.mpr hzero)] at hx
      rwa [show wordOfBool (x == 0) = 1 by rw [hzero]; rfl]
    · rw [if_pos hzero] at hx
      rwa [show wordOfBool (x == 0) = 0 by rw [beq_false_of_ne hzero]; rfl]
  | .define name value, hfirst, he, p, h, hg => by
    rw [Expr.isFirstOrder] at hfirst
    rw [Expr.assigned] at he
    rw [lower_define_of_ne fun params body heq => by simp [heq, Expr.isFirstOrder] at hfirst, eval]
    refine leads_then h (lower_computes value hfirst he h hg) fun v q hq => ?_
    exact leads_then_zero hq.ready (bindLocal_simulates hq.ready name hq.sees_one)
  | .call target args, hfirst, he, p, h, hg => by
    simp only [Expr.isFirstOrder, Bool.and_eq_true] at hfirst
    simp only [Expr.assigned, List.append_subset] at he
    rw [lower, eval]
    refine (lowerCallee_simulates h hfirst.1 (lower_computes target hfirst.1 he.1 h hg)).bind
      fun callee q ⟨hq, hcallee⟩ => ?_
    have hgq : q.draft.globals = globals := (h.later hq).globals.trans hg
    refine (lowerAll_simulates args hfirst.2 he.2 hq.ready hgq).bind fun vs r ⟨hr, hargs⟩ => ?_
    refine (lowerApplication_computes (m := m) hr.ready (hr.arrives.sees callee hq.sees_one) hr.sees
      globals).mono fun v t ⟨ht, happly⟩ => ⟨hq.trans (hr.trans ht), ?_⟩
    have hlater := hq.ready.later hr
    rw [hg] at hcallee
    -- what is called is known before the arguments are evaluated, and kept until then
    refine hcallee.bind (h.later hq) (hlater.trans (hr.ready.later ht)) fun target => ?_
    have hkeeping : m.Simulates q.draft r.draft
        (fun c => m.Targets globals c q.draft.registers callee target) _ _ :=
      hargs.keeping fun _ _ hkeeps htarget => htarget.keep hkeeps hlater.registers
    exact hkeeping.bind hlater (hr.ready.later ht) fun ws => happly target ws
  | .assign name value, hfirst, he, p, h, hg => by
    rw [Expr.isFirstOrder] at hfirst
    rw [Expr.assigned, List.cons_subset] at he
    rw [lower, eval]
    refine leads_then h (lower_computes value hfirst he.2 h hg) fun v q hq => ?_
    have hassign := lowerAssignment_simulates (m := m) hq.ready he.1 hq.sees_one
    rw [(h.later hq).globals.trans hg] at hassign
    exact leads_then_zero hq.ready hassign
  | .sequence forms, hfirst, he, p, h, hg => by
    rw [Expr.isFirstOrder] at hfirst
    rw [Expr.assigned] at he
    rw [lower, eval]
    refine (lowerSequence_computes forms hfirst he h hg (sees_word p 0)).mono fun v q ⟨hq, hv⟩ => ?_
    exact ⟨hq, (hv 0).of_imp fun c _ => reads_word m c _ 0⟩
  | .ret value, hfirst, he, p, h, hg => by
    rw [Expr.isFirstOrder] at hfirst
    rw [Expr.assigned] at he
    rw [lower, eval]
    refine leads_then h (lower_computes value hfirst he h hg) fun v q hq => ?_
    refine leads_ofDraft_bind ?_
    split
    · next hdone =>
      exact (leads_word hq.ready 0).mono fun _ _ hr => ⟨hr, fun _ => simulates_of_terminated hdone⟩
    · next hlive =>
      rw [Bool.not_eq_true] at hlive
      have hret := hq.ready.ret hq.sees_one hlive
      refine Leads.after (q := q.leave (.ret v) v) (leads_terminate hlive rfl) ?_
      exact leads_pure ⟨hret.trans (hret.ready.lowered_one (sees_word _ 0)), fun _ => simulates_ret⟩

/-- The code of a list of expressions computes their values. -/
private theorem lowerAll_simulates : (es : List Expr) → (hfirst : areFirstOrder es = true) →
    (he : assignedAll es ⊆ assigned) → {p : Site} → p.Ready assigned → p.draft.globals = globals →
    Leads p (lowerAll assigned es) fun vs q => p.Lowered assigned vs q ∧
      m.Simulates p.draft q.draft (fun _ => True) (evalAll m.world globals es) fun ws c =>
        List.Forall₂ (m.Reads c q.draft.registers) vs ws
  | [], _, _, p, h, _ => by
    rw [lowerAll, evalAll]
    exact leads_pure ⟨h.lowered (fun o ho => nomatch ho), simulates_pure fun _ _ => .nil⟩
  | e :: es, hfirst, he, p, h, hg => by
    rw [areFirstOrder, Bool.and_eq_true] at hfirst
    rw [assignedAll, List.append_subset] at he
    rw [lowerAll, evalAll]
    refine (lower_computes e hfirst.1 he.1 h hg).bind fun v q ⟨hq, hv⟩ => ?_
    have hgq : q.draft.globals = globals := (h.later hq).globals.trans hg
    refine (lowerAll_simulates es hfirst.2 he.2 hq.ready hgq).bind fun vs r ⟨hr, hvs⟩ => ?_
    have hlater := hq.ready.later hr
    refine leads_pure ⟨hq.and hr, hv.bind (h.later hq) hlater fun x => ?_⟩
    have hkeeping : m.Simulates q.draft r.draft (fun c => m.Reads c q.draft.registers v x) _ _ :=
      hvs.keeping fun _ _ hkeeps hx => hx.keep hkeeps hlater.registers
    refine hkeeping.bind hlater (.refl _) fun xs => ?_
    exact simulates_pure fun c ⟨hx, hxs⟩ => .cons hx hxs

/-- The code of a sequence computes the value of its last form. -/
theorem lowerSequence_computes : (es : List Expr) → (hfirst : areFirstOrder es = true) →
    (he : assignedAll es ⊆ assigned) → {p : Site} → p.Ready assigned → p.draft.globals = globals →
    {value : Operand} → p.Sees value →
    Leads p (lowerSequence assigned value es) fun v q => p.Lowered assigned [v] q ∧
      ∀ x, m.Computes (fun c => m.Reads c p.draft.registers value x)
        (evalSequence m.world globals x es) p v q
  | [], _, _, p, h, _, value, hv => by
    rw [lowerSequence]
    refine leads_pure ⟨h.lowered_one hv, fun x => ?_⟩
    rw [evalSequence]
    exact simulates_pure fun _ hx => hx
  | e :: es, hfirst, he, p, h, hg, _, _ => by
    rw [areFirstOrder, Bool.and_eq_true] at hfirst
    rw [assignedAll, List.append_subset] at he
    rw [lowerSequence]
    refine (leads_then (g := fun x => evalSequence m.world globals x es) h
      (lower_computes e hfirst.1 he.1 h hg) fun v q hq => ?_).mono
      fun v q ⟨hq, hv⟩ => ⟨hq, fun x => ?_⟩
    · refine leads_ofDraft_bind ?_
      split
      · next hdone =>
        exact (leads_value hq.ready hq.sees_one).mono
          fun _ _ hr => ⟨hr, fun _ => simulates_of_terminated hdone⟩
      · exact lowerSequence_computes es hfirst.2 he.2 hq.ready ((h.later hq).globals.trans hg)
          hq.sees_one
    · rw [evalSequence]
      exact hv.of_imp fun _ _ => trivial

/-- The code of clauses computes the value of the first that applies. -/
private theorem lowerClauses_computes :
    (cs : List Clause) → (hfirst : clausesAreFirstOrder cs = true) →
    (he : assignedClauses cs ⊆ assigned) → {p : Site} → p.Ready assigned →
    p.draft.globals = globals →
    Leads p (lowerClauses assigned cs) fun v q => p.Lowered assigned [v] q ∧
      m.Computes (fun _ => True) (evalClauses m.world globals cs) p v q
  | [], _, _, p, h, _ => by
    rw [lowerClauses, evalClauses]
    exact leads_word_computes h 0
  | .otherwise body :: cs, hfirst, he, p, h, hg => by
    rw [clausesAreFirstOrder, Bool.and_eq_true] at hfirst
    rw [assignedClauses, List.append_subset] at he
    rw [lowerClauses, evalClauses]
    refine (lowerBranches_computes h (by simp [Undigited]) (sees_word p 1)
      (fun _ => eval m.world globals body) (fun _ => evalClauses m.world globals cs)
      (fun r hr hlater _ => leads_arm
        (lower_computes body hfirst.1 he.1 hr (hlater.globals.trans hg)))
      fun r hr hlater _ => leads_arm
        (lowerClauses_computes cs hfirst.2 he.2 hr (hlater.globals.trans hg))).mono
      fun v q ⟨hq, hv⟩ => ⟨hq, ?_⟩
    -- `else` is lowered as a condition that always holds
    have hone := hv 1
    rw [if_pos (by decide)] at hone
    exact hone.of_imp fun c _ => reads_word m c _ 1
  | .test predicate body :: cs, hfirst, he, p, h, hg => by
    simp only [clausesAreFirstOrder, Bool.and_eq_true] at hfirst
    simp only [assignedClauses, List.append_subset] at he
    obtain ⟨⟨hp, hb⟩, hcs⟩ := he
    rw [lowerClauses, evalClauses]
    refine leads_then h (lower_computes predicate hfirst.1.1 hp h hg) fun v q hq => ?_
    have hgq : q.draft.globals = globals := (h.later hq).globals.trans hg
    exact lowerBranches_computes hq.ready (by simp [Undigited]) hq.sees_one _ _
      (fun r hr hlater _ => leads_arm
        (lower_computes body hfirst.1.2 hb hr (hlater.globals.trans hgq)))
      fun r hr hlater _ => leads_arm
        (lowerClauses_computes cs hfirst.2 hcs hr (hlater.globals.trans hgq))

private theorem lowerAnd_computes : (es : List Expr) → (hfirst : areFirstOrder es = true) →
    (he : assignedAll es ⊆ assigned) → {p : Site} → p.Ready assigned → p.draft.globals = globals →
    Leads p (lowerAnd assigned es) fun v q => p.Lowered assigned [v] q ∧
      m.Computes (fun _ => True) (evalAnd m.world globals es) p v q
  | [], _, _, p, h, _ => by
    rw [lowerAnd, evalAnd]
    exact leads_word_computes h 1
  | [e], hfirst, he, p, h, hg => by
    rw [areFirstOrder, Bool.and_eq_true] at hfirst
    rw [assignedAll, List.append_subset] at he
    rw [lowerAnd, evalAnd]
    exact lower_computes e hfirst.1 he.1 h hg
  | e :: e' :: es, hfirst, he, p, h, hg => by
    rw [areFirstOrder, Bool.and_eq_true] at hfirst
    rw [assignedAll, List.append_subset] at he
    rw [lowerAnd_cons_cons, evalAnd]
    · refine leads_then h (lower_computes e hfirst.1 he.1 h hg) fun v q hq => ?_
      have hgq : q.draft.globals = globals := (h.later hq).globals.trans hg
      refine lowerBranches_computes hq.ready (by simp [Undigited]) hq.sees_one
        (fun _ => evalAnd m.world globals (e' :: es)) (fun _ => pure 0)
        (fun r hr hlater _ => leads_arm
          (lowerAnd_computes (e' :: es) hfirst.2 he.2 hr (hlater.globals.trans hgq)))
        fun r hr _ _ => leads_arm (leads_word_computes hr 0)
    · simp

private theorem lowerOr_computes : (es : List Expr) → (hfirst : areFirstOrder es = true) →
    (he : assignedAll es ⊆ assigned) → {p : Site} → p.Ready assigned → p.draft.globals = globals →
    Leads p (lowerOr assigned es) fun v q => p.Lowered assigned [v] q ∧
      m.Computes (fun _ => True) (evalOr m.world globals es) p v q
  | [], _, _, p, h, _ => by
    rw [lowerOr, evalOr]
    exact leads_word_computes h 0
  | [e], hfirst, he, p, h, hg => by
    rw [areFirstOrder, Bool.and_eq_true] at hfirst
    rw [assignedAll, List.append_subset] at he
    rw [lowerOr, evalOr]
    exact lower_computes e hfirst.1 he.1 h hg
  | e :: e' :: es, hfirst, he, p, h, hg => by
    rw [areFirstOrder, Bool.and_eq_true] at hfirst
    rw [assignedAll, List.append_subset] at he
    rw [lowerOr_cons_cons, evalOr]
    · refine leads_then h (lower_computes e hfirst.1 he.1 h hg) fun v q hq => ?_
      have hgq : q.draft.globals = globals := (h.later hq).globals.trans hg
      refine lowerBranches_computes hq.ready (by simp [Undigited]) hq.sees_one (fun x => pure x)
        (fun _ => evalOr m.world globals (e' :: es)) (fun r hr hlater hsees => ?_)
        fun r hr hlater _ => leads_arm
          (lowerOr_computes (e' :: es) hfirst.2 he.2 hr (hlater.globals.trans hgq))
      -- the value of the condition is handed on, and can still be read in the arm
      refine leads_pure ⟨hr.lowered_one (hsees v hq.sees_one), fun x => ?_⟩
      exact simulates_pure fun c hx => hx.mono hlater.registers
    · simp

end

end WordScheme
