import Mathlib
import WordScheme.Proofs.ExpressionMeaning
import WordScheme.Proofs.FunctionRun

/-!
# What the code of bodies does

The body of a function is evaluated in a frame inside that of its parameters. Its code moves the
parameters that are assigned to into cells first, of which evaluation sees nothing: a parameter that
has been moved still denotes the argument. The top level forms of a program are evaluated one after
the other in the frame in which the function starts.
-/

namespace WordScheme

open NameSupply FunctionDraft Site Lower Machine

/-! ### Association lists -/

namespace Assoc

variable {α β : Type} [DecidableEq α]

private theorem put_of_get? {m : Assoc α β} {key : α} {value : β} (h : m.get? key = some value) :
    m.put key value = m := by
  induction m with
  | nil => cases h
  | cons p m ih =>
    rw [get?] at h
    rw [put]
    split_ifs at h ⊢ with hp
    · rw [← hp, ← Option.some.inj h]
    · rw [ih h]

end Assoc

namespace Machine

variable {m : Machine} {assigned : List Name} {globals : Globals} {p : Site}

/-! ### Parameters -/

/-- A variable of the innermost frame may be bound anew to whatever denotes its value. -/
private theorem Matches.rebind {scope : Scope} {n : Nat} {a : Activation} {c : Config} {name : Name}
    {b₀ : Binding} (h : m.Matches scope n a c) (hb₀ : scope.inner.get? name = some b₀) :
    ∃ w, m.Denotes c n b₀ w ∧ ∀ {c' n' b}, m.Matches scope n' a c' → m.Denotes c' n' b w →
      (∀ r, b.slot? = some r → r ∉ WordScheme.slots scope.frames) →
      m.Matches (scope.rebind name b) n' a c' := by
  obtain ⟨values, locals, hlocals, hinner, -⟩ := h.exists_cons
  rcases hinner.get? name with ⟨hnone, -⟩ | ⟨b', w, hb', hw, hdenotes⟩
  · rw [hb₀] at hnone
    cases hnone
  · rw [hb₀] at hb'
    cases hb'
    refine ⟨w, hdenotes, fun {c' n' b} h' hb hslot => ?_⟩
    have hscope : scope.rebind name b = scope.bind name b :=
      (scope.rebind_eq name b).trans (if_pos (by rw [Assoc.has, hb₀]; rfl))
    have hsame : Eval.bindIn name w a.locals = a.locals := by
      rw [hlocals, Eval.bindIn, Assoc.put_of_get? hw]
    have hbind := h'.bind hb hslot name
    rwa [hsame, ← hscope] at hbind

/-- Moving a parameter into a cell is code of which evaluation knows nothing. -/
private theorem simulates_spill {name : Name}
    (hb : p.draft.scope.inner.get? name = some (.value (.param name .word))) :
    m.Simulates p.draft (p.spill name).draft (fun _ => True) (pure () : Eval Unit)
      fun _ _ => True := by
  intro hhosts a c hc _
  obtain ⟨w, hread, hrebind⟩ := hc.state.rebind hb
  obtain ⟨c', hrun, hc', hkeeps, hcell, hfresh⟩ :=
    simulates_newCell (v := .param name .word) hhosts a c hc hread
  have hstate := hc'.state
  rw [newCell_scope] at hstate
  refine ⟨c', hrun, ⟨⟨hc'.live, hc'.label, hc'.index⟩, ?_⟩, hkeeps, trivial⟩
  rw [scope_spill]
  refine hrebind hstate hcell fun r hr => ?_
  obtain rfl := Option.some.inj hr
  exact hfresh

/-- The code that spills the parameters leaves their values as they were. -/
private theorem spillParams_simulates {names : List Name} (h : p.Spilling assigned names)
    (hnodup : names.Nodup)
    (hb : ∀ name ∈ names, p.draft.scope.inner.get? name = some (.value (.param name .word))) :
    Leads p (spillParams assigned names) fun _ q => (Steps p q ∧ q.Spilling assigned []) ∧
      m.Simulates p.draft q.draft (fun _ => True) (pure () : Eval Unit) fun _ _ => True := by
  induction names generalizing p with
  | nil =>
    rw [spillParams]
    exact leads_pure ⟨⟨.refl, h⟩, simulates_pure fun _ _ => trivial⟩
  | cons name names ih =>
    rw [List.nodup_cons] at hnodup
    have hname := hb name List.mem_cons_self
    rw [spillParams]
    split
    · refine Leads.after (q := p.emit (.alloca .word)) leads_emit ?_
      refine Leads.after leads_store (Leads.after leads_onScope ?_)
      have hsteps := steps_spill (h.params List.mem_cons_self)
      refine (ih h.spill hnodup.2 fun other hother => ?_).mono ?_
      · -- the cell of one parameter leaves the others where they are
        have hne : other ≠ name := fun heq => hnodup.1 (heq ▸ hother)
        rw [scope_spill, Scope.rebind_eq, if_pos (by rw [Assoc.has, hname]; rfl)]
        exact (Assoc.get?_put_of_ne _ _ hne).trans (hb other (List.mem_cons_of_mem _ hother))
      · rintro _ q ⟨hq, hsim⟩
        exact ⟨⟨hsteps.trans hq.1, hq.2⟩,
          (simulates_spill hname).after (h.sound.later hsteps) (h.spill.sound.later hq.1) hsim⟩
    · next hassigned =>
      exact ih (h.skip (by simpa using hassigned)) hnodup.2
        fun other hother => hb other (List.mem_cons_of_mem _ hother)

/-! ### Bodies -/

/-- Code that evaluates in a frame of its own. -/
private theorem Simulates.inFrame {d e : FunctionDraft} {P : Config → Prop} {ev : Eval Int64}
    {R : Int64 → Config → Prop}
    (h : m.Simulates { d with scope := d.scope.push } e P ev R)
    (houter : e.scope.outer = d.scope.frames) :
    m.Simulates d { e with scope := e.scope.pop } P (Eval.inFrame ev) R := by
  intro hhosts a c hc hP
  have hpush : m.Agrees { d with scope := d.scope.push } { a with locals := [] :: a.locals } c :=
    ⟨⟨hc.live, hc.label, hc.index⟩, hc.state.push⟩
  refine (h hhosts _ c hpush hP).inFrame fun w a' c' ⟨hc', hkeeps, hw⟩ => ?_
  have hpop : e.scope.pop = d.scope := pop_of_outer_eq houter
  refine ⟨c', .refl, ⟨⟨hc'.live, hc'.label, hc'.index⟩, ?_⟩, hkeeps, hw⟩
  -- what is left of the scope when the frame is closed is the scope before
  change m.Matches e.scope.pop _ _ _
  rw [hpop]
  exact hc'.state.pop houter hc.state.outer

/-- The code of a body computes its value. -/
theorem lowerBody_computes {lambda : Lambda} (h : p.Spilling assigned lambda.params)
    (hnodup : lambda.params.Nodup)
    (hb : ∀ name ∈ lambda.params,
      p.draft.scope.inner.get? name = some (.value (.param name .word)))
    (hbody : assignedAll lambda.body ⊆ assigned) (hfirst : areFirstOrder lambda.body = true)
    (hg : p.draft.globals = globals) :
    Leads p (lowerBody assigned lambda) fun v q => p.Ends v q ∧ m.Computes (fun _ => True)
      (Eval.inFrame (evalSequence m.world globals 0 lambda.body)) p v q := by
  refine (spillParams_simulates (m := m) h hnodup hb).bind ?_
  rintro _ q ⟨⟨hsteps, hspilled⟩, hspill⟩
  have hlater := h.sound.later hsteps
  have hpush : Step q (q.rescope q.draft.scope.push) := .rescope _
  refine Leads.after (q := q.rescope q.draft.scope.push) leads_onScope ?_
  have hready : (q.rescope q.draft.scope.push).Ready assigned :=
    hspilled.ready.push (hspilled.sound.step hpush) rfl fun _ ho => ho
  refine (lowerSequence_computes (m := m) lambda.body hfirst hbody hready
    (hlater.globals.trans hg) (sees_word _ 0)).bind fun v r ⟨hr, hcomputes⟩ => ?_
  have hpop : Step r (r.rescope r.draft.scope.pop) := .rescope _
  refine Leads.after (q := r.rescope r.draft.scope.pop) leads_onScope (leads_pure ⟨?_, ?_⟩)
  · have hends := hr.ends hspilled.waiting
    exact ⟨((hsteps.tail hpush).trans hends.steps).tail hpop, hends.waiting, hends.sees⟩
  · have hvalue : m.Computes (fun _ => True) _ (q.rescope q.draft.scope.push) v r :=
      (hcomputes 0).of_imp fun c _ => reads_word m c _ 0
    have hlater' := hspilled.sound.later
      ((Relation.ReflTransGen.head hpush hr.arrives.steps).tail hpop)
    exact hspill.after hlater hlater' (Simulates.inFrame hvalue hr.arrives.outer)

/-- The code of a top level form computes its value. -/
private theorem lowerForm_computes (h : p.Ready assigned) {form : Expr}
    (hform : form.assigned ⊆ assigned)
    (hfirst : form.isFirstOrder = true) (hg : p.draft.globals = globals) :
    Leads p (lowerForm assigned form) fun v q => p.Lowered assigned [v] q ∧
      m.Computes (fun _ => True) (evalForm m.world globals form) p v q := by
  rw [lowerForm.eq_def]
  split
  · next name value =>
    rw [evalForm]
    rw [Expr.isFirstOrder] at hfirst
    rw [Expr.assigned] at hform
    refine leads_then h (lower_computes value hfirst hform h hg) fun v q hq => ?_
    have hassign := assignGlobal_simulates (m := m) hq.ready name hq.sees_one
    rw [(h.later hq).globals.trans hg] at hassign
    exact leads_then_zero hq.ready hassign
  · next hother =>
    rw [evalForm]
    · exact lower_computes form hfirst hform h hg
    · exact hother

/-- **The code of the top level forms computes the value of the last.** -/
theorem lowerForms_computes (h : p.Ready assigned) (skipped : List Nat) (index : Nat)
    {value : Operand} (hv : p.Sees value) (forms : List Expr)
    (hforms : assignedAll forms ⊆ assigned) (hfirst : formsAreFirstOrder skipped index forms = true)
    (hg : p.draft.globals = globals) :
    Leads p (lowerForms assigned skipped index value forms) fun v q => p.Lowered assigned [v] q ∧
      ∀ x, m.Computes (fun c => m.Reads c p.draft.registers value x)
        (evalForms m.world globals skipped index x forms) p v q := by
  induction forms generalizing p index value with
  | nil =>
    rw [lowerForms]
    refine leads_pure ⟨h.lowered_one hv, fun x => ?_⟩
    rw [evalForms]
    exact simulates_pure fun _ hx => hx
  | cons form forms ih =>
    rw [assignedAll, List.append_subset] at hforms
    rw [formsAreFirstOrder, Bool.and_eq_true] at hfirst
    rw [lowerForms]
    simp only [evalForms]
    split
    · exact ih h (index + 1) hv hforms.2 hfirst.2 hg
    · -- a form that is not skipped has to be made of words
      next hkept =>
      rw [Bool.not_eq_true] at hkept
      rw [hkept, Bool.false_or] at hfirst
      refine (leads_then (g := fun x => evalForms m.world globals skipped (index + 1) x forms) h
        (lowerForm_computes h hforms.1 hfirst.1 hg) fun v q hq => ?_).mono
        fun v q hq => ⟨hq.1, fun x => hq.2.of_imp fun _ _ => trivial⟩
      refine leads_ofDraft_bind ?_
      split
      · next hdone =>
        exact (leads_value hq.ready hq.sees_one).mono
          fun _ _ hr => ⟨hr, fun _ => simulates_of_terminated hdone⟩
      · exact ih hq.ready (index + 1) hq.sees_one hforms.2 hfirst.2 ((h.later hq).globals.trans hg)

end Machine

end WordScheme
