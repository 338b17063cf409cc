import Mathlib
import WordScheme.Proofs.Agreement

/-!
# Code that does what evaluation does

`Machine.Simulates d e P ev R` is about the code that is put into a function while its draft grows
from `d` to `e`. Started where `d` ends, at a configuration for which `P` holds, the machine comes
to what the evaluation `ev` comes to: if that has a result, to the place where `e` ends, at a
configuration for which `R` holds of the result; if it leaves the function, to the same answer; if
it is undefined, to a stop. Nothing is said where `d` has ended already, since no configuration
stands there.

The rules follow the monad of evaluation, and there is one for each kind of instruction: those that
give a value (`simulates_emit`), those that only have an effect (`simulates_emitEffect`), and the
two that make a cell and fill it (`simulates_newCell`).
-/

namespace WordScheme

open FunctionDraft

namespace FunctionDraft

/-- The draft with code that makes a cell and stores an operand there. The address of the cell goes
to the next register. -/
def newCell (d : FunctionDraft) (v : Operand) : FunctionDraft :=
  (d.emit (.alloca .word)).2.emitEffect (.store v (.register (d.registers + 1) .ptr))

private theorem newCell_registers (d : FunctionDraft) (v : Operand) :
    (d.newCell v).registers = d.registers + 1 := by
  rw [newCell, emitEffect, append_registers, emit_registers]

theorem newCell_scope (d : FunctionDraft) (v : Operand) : (d.newCell v).scope = d.scope := by
  rw [newCell, emitEffect, append_scope, emit_scope]

private theorem later_newCell (d : FunctionDraft) (v : Operand) : d.Later (d.newCell v) :=
  (later_emit d _).trans (later_append _ _)

end FunctionDraft

namespace Machine

variable {m : Machine} {d e f : FunctionDraft} {a a' : Activation} {c c' : Config}

/-! ### Drafts and the functions they become -/

/-- The function of the machine has grown out of a draft: it has all its blocks, with their
statements first, and has not changed those that had ended. -/
def Hosts (m : Machine) (d : FunctionDraft) : Prop :=
  ∀ i b, d.block? i = some b → ∃ b', m.function.block? b.label = some b' ∧
    b.statements <+: b'.statements ∧
    ∀ t, b.terminator = some t → b'.statements = b.statements ∧ b'.terminator = t

/-- A machine that hosts a draft hosts what it extends. -/
theorem Hosts.earlier (h : m.Hosts e) (hde : d.Extends e) : m.Hosts d := by
  intro i b hb
  obtain ⟨b₁, hb₁, hlabel, hpre, hended⟩ := hde i b hb
  obtain ⟨b', hb', hpre', hended'⟩ := h i b₁ hb₁
  refine ⟨b', hlabel ▸ hb', hpre.trans hpre', fun t ht => ?_⟩
  obtain rfl := hended (by rw [ht]; rfl)
  exact hended' t ht

/-- Control stands behind the last statement of the current block, which has not ended. -/
structure Standing (d : FunctionDraft) (c : Config) : Prop where
  live : d.terminated = false
  label : c.label = d.currentBlock.label
  index : c.index = d.currentBlock.statements.length

/-- A statement comes behind those of the current block. -/
private theorem currentBlock_append (h : d.terminated = false) (s : Statement) :
    (d.append s).currentBlock =
      { d.currentBlock with statements := d.currentBlock.statements ++ [s] } := by
  rw [append_of_live h, currentBlock_updateCurrent]

/-- In a block of the function the statement at the index is executed, or else the block is left. -/
private theorem step_of_block {b : Block} (h : m.function.block? c.label = some b) :
    m.step c = match b.statements[c.index]? with
      | some s => (m.execute c s.instruction).map fun x => .running (x.2.advance s.dest x.1)
      | none => m.leave c b.terminator := by
  rw [step, h]
  cases hnext : b.statements[c.index]? with
  | none => simp [hnext]
  | some s =>
    simp only [Option.bind_eq_bind, Option.bind_some, hnext]
    exact Option.map_eq_bind.symm

/-- The statement that is appended is the next to be executed. -/
private theorem Standing.step_append (h : Standing d c) {s : Statement}
    (hhosts : m.Hosts (d.append s)) :
    m.step c = (m.execute c s.instruction).map fun x => .running (x.2.advance s.dest x.1) := by
  obtain ⟨b, hb, hpre, -⟩ := hhosts _ _ (block?_current _)
  rw [currentBlock_append h.live] at hb hpre
  obtain ⟨rest, hrest⟩ := hpre
  have hnext : b.statements[c.index]? = some s := by
    rw [← hrest, h.index, List.append_assoc, List.getElem?_append_right (le_refl _)]
    simp
  have hblock : m.function.block? c.label = some b := h.label ▸ hb
  rw [step_of_block hblock, hnext]

/-- The terminator that is set is the next to be executed. -/
theorem Standing.step_endWith (h : Standing d c) {t : Terminator} (hhosts : m.Hosts (d.endWith t)) :
    m.step c = m.leave c t := by
  obtain ⟨b, hb, -, hended⟩ := hhosts _ _ (block?_current _)
  rw [endWith, currentBlock_updateCurrent] at hb hended
  obtain ⟨hstatements, hterminator⟩ := hended t rfl
  have hblock : m.function.block? c.label = some b := h.label ▸ hb
  rw [step_of_block hblock, hstatements, h.index, List.getElem?_eq_none (le_refl _), hterminator]

/-- A configuration that goes past a statement stands behind it. -/
private theorem Standing.append (h : Standing d c) (s : Statement) (hlabel : c'.label = c.label)
    (hindex : c'.index = c.index + 1) : Standing (d.append s) c' := by
  refine ⟨by rw [terminated_append, h.live], ?_, ?_⟩
  · rw [currentBlock_append h.live, hlabel, h.label]
  · rw [currentBlock_append h.live, hindex, h.index, List.length_append, List.length_singleton]

theorem Standing.addBlock (h : Standing d c) (base : Name) : Standing (d.addBlock base).2 c := by
  refine ⟨by rw [terminated_addBlock, h.live], ?_, ?_⟩
  · rw [currentBlock_addBlock, h.label]
  · rw [currentBlock_addBlock, h.index]

/-- The machine stands where the draft ends, and its memory agrees with the state of evaluation. -/
structure Agrees (m : Machine) (d : FunctionDraft) (a : Activation) (c : Config) : Prop
    extends Standing d c where
  state : m.Matches d.scope d.registers a c

/-! ### Outcomes -/

/-- What evaluation comes to, the machine comes to from `c`. -/
def Outcome {α : Type} (m : Machine) (c : Config) (r : EStateM.Result Exit Activation α)
    (Q : α → Activation → Config → Prop) : Prop :=
  match r with
  | .ok x a => ∃ c', m.Runs c c' ∧ Q x a c'
  | .error (.returned w) a => m.Returns c ⟨w, a.store, a.trace⟩
  | .error .undefined _ => m.Stuck c

section Outcomes

variable {α β : Type} {Q : α → Activation → Config → Prop} {r : EStateM.Result Exit Activation α}

/-- Steps before the ones that matter. -/
theorem Runs.outcome (h : m.Runs c c') (hr : m.Outcome c' r Q) : m.Outcome c r Q := by
  match r, hr with
  | .ok x a, ⟨c'', hrun, hQ⟩ => exact ⟨c'', h.trans hrun, hQ⟩
  | .error (.returned w) a, hr => exact h.returns hr
  | .error .undefined a, hr => exact h.stuck hr

theorem Outcome.mono {R : α → Activation → Config → Prop} (h : m.Outcome c r Q)
    (hQR : ∀ x a c', Q x a c' → R x a c') : m.Outcome c r R := by
  match r, h with
  | .ok x a, ⟨c', hrun, hQ⟩ => exact ⟨c', hrun, hQR x a c' hQ⟩
  | .error (.returned w) a, hr => exact hr
  | .error .undefined a, hr => exact hr

/-- Steps after a result that change it no more. -/
theorem Outcome.trans {R : α → Activation → Config → Prop} (h : m.Outcome c r Q)
    (hQR : ∀ x a c', Q x a c' → m.Outcome c' (.ok x a) R) : m.Outcome c r R := by
  match r, h with
  | .ok x a, ⟨c', hrun, hQ⟩ => exact hrun.outcome (hQR x a c' hQ)
  | .error (.returned w) a, hr => exact hr
  | .error .undefined a, hr => exact hr

/-- One outcome after another. -/
theorem Outcome.bind {ev : Eval α} {g : α → Eval β} {R : β → Activation → Config → Prop}
    (h : m.Outcome c (ev a) Q) (hg : ∀ x a' c', Q x a' c' → m.Outcome c' (g x a') R) :
    m.Outcome c ((ev >>= g) a) R := by
  change m.Outcome c (EStateM.bind ev g a) R
  rw [EStateM.bind]
  match hr : ev a with
  | .ok x a' =>
    rw [hr] at h
    obtain ⟨c', hrun, hQ⟩ := h
    exact hrun.outcome (hg x a' c' hQ)
  | .error (.returned w) a' =>
    rw [hr] at h
    exact h
  | .error .undefined a' =>
    rw [hr] at h
    exact h

end Outcomes

/-! ### Simulation -/

/-- From where `d` ends, the code up to where `e` ends does what `ev` does. -/
def Simulates {α : Type} (m : Machine) (d e : FunctionDraft) (P : Config → Prop) (ev : Eval α)
    (R : α → Config → Prop) : Prop :=
  m.Hosts e → ∀ a c, m.Agrees d a c → P c →
    m.Outcome c (ev a) fun x a' c' => m.Agrees e a' c' ∧ Keeps d.registers c c' ∧ R x c'

section Rules

variable {α β : Type} {P P' : Config → Prop} {ev : Eval α} {R R' : α → Config → Prop}

theorem simulates_pure {x : α} (h : ∀ c, P c → R x c) : m.Simulates d d P (pure x) R :=
  fun _ _ c hc hP => ⟨c, .refl, hc, .refl _ c, h c hP⟩

/-- Behind the end of a block there is nothing to simulate. -/
theorem simulates_of_terminated (h : d.terminated = true) : m.Simulates d e P ev R := by
  intro _ a c hc
  rw [hc.live] at h
  cases h

private theorem Simulates.imp (h : m.Simulates d e P ev R) (hP : ∀ c, P' c → P c)
    (hR : ∀ x c, R x c → R' x c) : m.Simulates d e P' ev R' :=
  fun hhosts a c hc hP' => (h hhosts a c hc (hP c hP')).mono
    fun x _ c' ⟨hagrees, hkeeps, hx⟩ => ⟨hagrees, hkeeps, hR x c' hx⟩

theorem Simulates.of_imp (h : m.Simulates d e P ev R) (hP : ∀ c, P' c → P c) :
    m.Simulates d e P' ev R :=
  h.imp hP fun _ _ => id

/-- Code that simulates one evaluation and then another simulates both. -/
theorem Simulates.bind {g : α → Eval β} {S : β → Config → Prop} (h : m.Simulates d e P ev R)
    (hde : d.Later e) (hef : e.Later f) (hg : ∀ x, m.Simulates e f (R x) (g x) S) :
    m.Simulates d f P (ev >>= g) S := by
  intro hhosts a c hc hP
  refine (h (hhosts.earlier hef.blocks) a c hc hP).bind fun x a' c' ⟨hagrees, hkeeps, hx⟩ => ?_
  refine (hg x hhosts a' c' hagrees hx).mono fun y a'' c'' ⟨hagrees', hkeeps', hy⟩ => ?_
  exact ⟨hagrees', hkeeps.trans hkeeps' hde.registers, hy⟩

/-- Code of which evaluation knows nothing, and what comes after it. -/
theorem Simulates.after {x : α} {ev : Eval β} {S : β → Config → Prop}
    (h : m.Simulates d e P (pure x) R) (hde : d.Later e) (hef : e.Later f)
    (hev : m.Simulates e f (R x) ev S) : m.Simulates d f P ev S := by
  intro hhosts a c hc hP
  obtain ⟨c', hrun, hagrees, hkeeps, hx⟩ := h (hhosts.earlier hef.blocks) a c hc hP
  refine Runs.outcome hrun ((hev hhosts a c' hagrees hx).mono ?_)
  rintro y a'' c'' ⟨hagrees', hkeeps', hy⟩
  exact ⟨hagrees', hkeeps.trans hkeeps' hde.registers, hy⟩

/-- What depends only on the registers given out before is still the case afterwards. -/
theorem Simulates.keeping {F F' : Config → Prop} (h : m.Simulates d e (fun _ => True) ev R)
    (hF : ∀ c c', Keeps d.registers c c' → F c → F' c') :
    m.Simulates d e F ev fun x c => F' c ∧ R x c :=
  fun hhosts a c hc hFc => (h hhosts a c hc trivial).mono
    fun _ _ c' ⟨hagrees, hkeeps, hx⟩ => ⟨hagrees, hkeeps, hF c c' hkeeps hFc, hx⟩

/-! ### Instructions -/

/-- Executing an instruction comes to the same as evaluation: it gives the value that stands for the
result and leaves memories that agree, or both have no result. -/
def Performs (m : Machine) (d : FunctionDraft) (c : Config) (i : Instruction)
    (value : α → Option Value) : EStateM.Result Exit Activation α → Prop
  | .ok x a => ∃ c', m.execute c i = some (value x, c') ∧ c'.label = c.label ∧ c'.index = c.index ∧
      c'.registers = c.registers ∧ m.Matches d.scope d.registers a c'
  | .error .undefined _ => m.execute c i = none
  | .error (.returned _) _ => False

/-- An instruction that changes no memory. -/
theorem performs_pure {i : Instruction} {value : α → Option Value} {x : α}
    (h : m.Matches d.scope d.registers a c) (hexec : m.execute c i = some (value x, c)) :
    m.Performs d c i value (.ok x a) :=
  ⟨c, hexec, rfl, rfl, rfl, h⟩

/-- What the step that performs an instruction comes to. -/
private theorem Performs.outcome {i : Instruction} {value : α → Option Value} {dest : Option Nat}
    {r : EStateM.Result Exit Activation α} {Q : α → Activation → Config → Prop}
    (h : m.Performs d c i value r)
    (hstep : m.step c = (m.execute c i).map fun x => .running (x.2.advance dest x.1))
    (hQ : ∀ x a' c', c'.label = c.label → c'.index = c.index → c'.registers = c.registers →
      m.Matches d.scope d.registers a' c' → Q x a' (c'.advance dest (value x))) :
    m.Outcome c r Q := by
  match r, h with
  | .ok x a', ⟨c', hexec, hlabel, hindex, hregisters, hstate⟩ =>
    rw [hexec] at hstep
    exact ⟨_, .single hstep, hQ x a' c' hlabel hindex hregisters hstate⟩
  | .error .undefined a', hexec =>
    rw [show m.execute c i = none from hexec] at hstep
    exact .now hstep

/-- An instruction whose value, other than the address of a cell, goes to a new register. -/
theorem simulates_emit {i : Instruction} (value : α → Value) (hcell : ∀ x k, value x ≠ .cell k)
    (hev : ∀ a c, m.Matches d.scope d.registers a c → P c →
      m.Performs d c i (fun x => some (value x)) (ev a))
    (hR : ∀ {x c c'}, P c → Keeps d.registers c c' →
      c'.registers (d.registers + 1) = some (value x) → R x c') :
    m.Simulates d (d.emit i).2 P ev R := by
  intro hhosts a c hc hP
  have hstanding : Standing { d with registers := d.registers + 1 } c :=
    ⟨hc.live, hc.label, hc.index⟩
  refine (hev a c hc.state hP).outcome (hstanding.step_append hhosts)
    fun x a' c' hlabel hindex hregisters hstate => ?_
  have hkeeps : Keeps d.registers c (c'.advance (some (d.registers + 1)) (some (value x))) := by
    intro r hr
    rw [← hregisters]
    exact Function.update_of_ne (by omega) _ _
  refine ⟨⟨hstanding.append _ hlabel ?_, ?_⟩, hkeeps, ?_⟩
  · rw [← hindex]
    rfl
  · rw [emit_scope, emit_registers]
    exact (hstate.write (hcell x)).congr rfl rfl rfl rfl (le_refl _)
  · exact hR hP hkeeps (Function.update_self _ _ _)

/-- An instruction that gives a word. -/
theorem simulates_emit_word {ev : Eval Int64} {i : Instruction}
    (hty : ∀ c, P c → i.resultTy = .word)
    (hev : ∀ a c, m.Matches d.scope d.registers a c → P c →
      m.Performs d c i (fun x => some (.word x)) (ev a)) :
    m.Simulates d (d.emit i).2 P ev fun x c =>
      m.Reads c (d.emit i).2.registers (.register (d.registers + 1) i.resultTy) x := by
  refine simulates_emit .word (fun _ _ h => nomatch h) hev fun hP _ hx => ⟨hty _ hP, ?_, hx⟩
  exact le_of_eq (emit_registers d i).symm

/-- An instruction that gives no value. -/
theorem simulates_emitEffect {i : Instruction}
    (hev : ∀ a c, m.Matches d.scope d.registers a c → P c →
      m.Performs d c i (fun _ => none) (ev a)) :
    m.Simulates d (d.emitEffect i) P ev fun _ _ => True := by
  intro hhosts a c hc hP
  refine (hev a c hc.state hP).outcome (hc.toStanding.step_append hhosts)
    fun x a' c' hlabel hindex hregisters hstate => ?_
  refine ⟨⟨hc.toStanding.append _ hlabel ?_, ?_⟩, ?_, trivial⟩
  · rw [← hindex]
    rfl
  · rw [emitEffect, append_scope, append_registers]
    exact hstate.congr rfl rfl rfl rfl (le_refl _)
  · exact fun r _ => congrFun hregisters r

end Rules

/-! ### Cells -/

section Cells

variable {v : Operand} {x : Int64}

/-- A new cell, the address of which is in a register that no variable uses yet. -/
private theorem simulates_alloca {P : Config → Prop} :
    m.Simulates d (d.emit (.alloca .word)).2 P (pure () : Eval Unit) fun _ c =>
      (∃ k, c.registers (d.registers + 1) = some (.cell k)) ∧
        d.registers + 1 ∉ slots d.scope.frames := by
  intro hhosts a c hc _
  have hstanding : Standing { d with registers := d.registers + 1 } c :=
    ⟨hc.live, hc.label, hc.index⟩
  refine ⟨_, .single (hstanding.step_append hhosts), ⟨hstanding.append _ rfl rfl, ?_⟩, ?_, ?_, ?_⟩
  · rw [emit_scope, emit_registers]
    exact hc.state.alloc.congr rfl rfl rfl rfl (le_refl _)
  · exact fun r hr => Function.update_of_ne (by omega) _ _
  · exact ⟨c.cells.length, Function.update_self _ _ _⟩
  · intro hmem
    have hle := hc.state.frames.slots_le _ hmem
    omega

/-- The value of a new variable goes to a cell of its own. -/
theorem simulates_newCell :
    m.Simulates d (d.newCell v) (fun c => m.Reads c d.registers v x) (pure () : Eval Unit)
      fun _ c => m.Denotes c (d.newCell v).registers (.slot (.register (d.registers + 1) .ptr)) x ∧
        d.registers + 1 ∉ slots d.scope.frames := by
  have hpointer : ∀ {c : Config} {k : Nat}, c.registers (d.registers + 1) = some (.cell k) →
      m.read c (.register (d.registers + 1) .ptr) = some (.cell k) := fun h => h
  intro hhosts a c hc hv
  -- the rule for effects does not apply: the cell is empty before and denotes nothing
  obtain ⟨c', hrun, hc', hkeeps, ⟨k, hk⟩, hfresh⟩ :=
    simulates_alloca (P := fun _ => True) (hhosts.earlier (extends_append _ _)) a c hc trivial
  have hstep := hc'.toStanding.step_append hhosts
  have hread : m.readWord c' v = some x := (hv.keep hkeeps (le_refl _)).readWord
  have hexec : m.execute c' (.store v (.register (d.registers + 1) .ptr)) =
      some (none, { c' with cells := c'.cells.set k (some x) }) := by
    simp only [execute, hread, hpointer hk]
    rfl
  rw [hexec] at hstep
  refine ⟨_, hrun.tail hstep, ⟨hc'.toStanding.append _ rfl rfl, ?_⟩, hkeeps,
    ⟨(newCell_registers d v).ge, k, hk, ?_⟩, hfresh⟩
  · rw [newCell_scope, newCell_registers]
    have hstate := hc'.state
    rw [emit_scope, emit_registers] at hstate
    exact (hstate.set_other hk hfresh x).congr rfl rfl rfl rfl (le_refl _)
  · exact List.getElem?_set_self (hc'.state.separate.lt hk)

/-- A variable is bound, in a cell of its own if in a cell. -/
theorem simulates_bindLocal {b : Binding} {name : Name} :
    m.Simulates d { d with scope := d.scope.bind name b }
      (fun c => m.Denotes c d.registers b x ∧ ∀ r, b.slot? = some r → r ∉ slots d.scope.frames)
      (Eval.bindLocal name x) fun _ _ => True :=
  fun _ _ c hc ⟨hb, hslot⟩ => ⟨c, .refl, ⟨⟨hc.live, hc.label, hc.index⟩,
    hc.state.bind hb hslot name⟩, .refl _ c, trivial⟩

/-- The code of a cell binds its name to the value stored. -/
theorem simulates_bindCell {name : Name} :
    m.Simulates d { d.newCell v with
        scope := (d.newCell v).scope.bind name (.slot (.register (d.registers + 1) .ptr)) }
      (fun c => m.Reads c d.registers v x) (Eval.bindLocal name x) fun _ _ => True := by
  refine simulates_newCell.after (later_newCell d v) ⟨.refl (d.newCell v), le_refl _, rfl, rfl⟩
    (simulates_bindLocal.of_imp fun c ⟨hcell, hfresh⟩ => ⟨hcell, fun r hr => ?_⟩)
  obtain rfl := Option.some.inj hr
  rw [newCell_scope]
  exact hfresh

end Cells

/-! ### Leaving the function -/

/-- A return gives its value, and nothing comes after it. -/
theorem simulates_ret {α : Type} {v : Operand} {x : Int64} {R : α → Config → Prop} :
    m.Simulates d (d.endWith (.ret v)) (fun c => m.Reads c d.registers v x)
      (throw (.returned x)) R := by
  intro hhosts a c hc hv
  refine .now ?_
  rw [hc.toStanding.step_endWith hhosts, leave, hv.readWord, ← hc.state.store, ← hc.state.trace]
  rfl

end Machine

end WordScheme
