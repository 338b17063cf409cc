import Mathlib
import WordScheme.Proofs.ConditionalMeaning

/-!
# What the code of operations does

For each operation of lowering that stands between the traversal and single instructions, the code
that it emits does what evaluation does: literals, variables, definitions, assignments, operators
and calls. Every statement has two halves. That the operation leads to a site at which its value can
be used is needed to go on from there; that its code computes the right word is what is new here.

Lowering decides by the type of an operand how a value becomes a word. All values of this part of
the language are words already, but that is known of values when the code runs and not when it is
emitted, so the other decisions are ruled out by a configuration that agrees.
-/

namespace WordScheme

open NameSupply FunctionDraft Site Lower

/-! ### Operators on words -/

/-- An amount from 0 to 63 is one that is below 64 as an unsigned word. -/
private theorem isShiftAmount_eq (b : Int64) : isShiftAmount b = decide (b.toUInt64 < 64) := by
  have hint : b.toInt = if 2 * b.toUInt64.toNat < 2 ^ 64 then (b.toUInt64.toNat : ℤ)
      else (b.toUInt64.toNat : ℤ) - 2 ^ 64 := BitVec.toInt_eq_toNat_cond b.toBitVec
  have hlt : b.toUInt64.toNat < 2 ^ 64 := b.toUInt64.toNat_lt
  have hzero : (0 : Int64).toInt = 0 := rfl
  have hbound : (64 : Int64).toInt = 64 := rfl
  have hbound' : (64 : UInt64).toNat = 64 := rfl
  rw [isShiftAmount, Bool.eq_iff_iff]
  simp only [Bool.and_eq_true, decide_eq_true_eq, Int64.le_iff_toInt_le, Int64.lt_iff_toInt_lt,
    UInt64.lt_iff_toNat_lt, hzero, hbound, hbound', hint]
  split <;> omega

/-- The instruction of an operator on words computes it. -/
private theorem evalOpcode_opcode (op : WordOp) (a b : Int64) :
    Machine.evalOpcode a b op.opcode = op.eval a b := by
  cases op with
  | divide => simp [Machine.evalOpcode, WordOp.opcode, WordOp.eval]
  | shiftLeft => simp [Machine.evalOpcode, WordOp.opcode, WordOp.eval, isShiftAmount_eq]
  | shiftRight => simp [Machine.evalOpcode, WordOp.opcode, WordOp.eval, isShiftAmount_eq]
  | _ => rfl

/-- The predicate of a comparison decides it. -/
private theorem evalPredicate_intPredicate (op : Comparison) (a b : Int64) :
    Machine.evalPredicate a b op.intPredicate = op.holds a b := by
  cases op <;> rfl

/-! ### Evaluation of names -/

namespace Eval

variable {world : World} {globals : Globals} {name : Name} {a : Activation}

/-- A step that looks for a local variable goes on with what the frames hold. -/
private theorem local?_bind {α : Type} (f : Option Int64 → Eval α) :
    (local? name >>= f) a = f (lookupIn? name a.locals) a :=
  rfl

/-- A local name has the value of its binding. -/
private theorem variableValue_of_local {w : Int64} (h : lookupIn? name a.locals = some w) :
    variableValue world globals name a = .ok w a := by
  rw [variableValue, local?_bind, h]
  rfl

/-- A name that is not local has the value of its top level definition. -/
private theorem variableValue_of_global (h : lookupIn? name a.locals = none) :
    variableValue world globals name a = (match globals.get? name with
      | some .var => .ok (a.store name) a
      | some (.function _) => .ok (world.address name) a
      | none => .error .undefined a) := by
  rw [variableValue, local?_bind, h]
  cases globals.get? name with
  | none => rfl
  | some kind => cases kind <;> rfl

/-- An assignment to a top level variable changes the store there. -/
private theorem assignGlobal_of_var (h : globals.get? name = some .var) (w : Int64) :
    assignGlobal globals name w a = .ok () { a with store := Function.update a.store name w } := by
  rw [assignGlobal, h]
  rfl

/-- An assignment to a local name changes its binding. -/
private theorem assign_of_local {v : Int64} (h : lookupIn? name a.locals = some v) (w : Int64) :
    assign globals name w a = .ok () { a with locals := assignIn name w a.locals } := by
  rw [assign, local?_bind, h]
  rfl

/-- An assignment to a name that is not local is one to the top level. -/
private theorem assign_of_global (h : lookupIn? name a.locals = none) (w : Int64) :
    assign globals name w a = assignGlobal globals name w a := by
  rw [assign, local?_bind, h]

/-- A local name is called by its value. -/
private theorem calleeVariable_of_local {w : Int64} (h : lookupIn? name a.locals = some w) :
    calleeVariable world globals name a = .ok (.address w) a := by
  rw [calleeVariable, local?_bind, h]
  rfl

/-- A top level function is called by its name. -/
private theorem calleeVariable_of_function (h : lookupIn? name a.locals = none) {arity : Nat}
    (hkind : globals.get? name = some (.function arity)) :
    calleeVariable world globals name a = .ok (.named name) a := by
  rw [calleeVariable, local?_bind, h, hkind]
  rfl

/-- Any other top level name is called by its value. -/
private theorem calleeVariable_of_global (h : lookupIn? name a.locals = none)
    (hkind : ∀ arity, globals.get? name ≠ some (.function arity)) :
    calleeVariable world globals name a =
      (variableValue world globals name >>= fun w => pure (.address w) : Eval Callee) a := by
  rw [calleeVariable, local?_bind, h]
  cases hget : globals.get? name with
  | none => rfl
  | some kind =>
    cases kind with
    | var => rfl
    | function arity => exact absurd hget (hkind arity)

end Eval

namespace Machine

variable {m : Machine} {assigned : List Name} {p : Site} {P : Config → Prop}

theorem Reads.mono {c : Config} {n n' : Nat} {o : Operand} {w : Int64} (h : m.Reads c n o w)
    (hn : n ≤ n') : m.Reads c n' o w :=
  h.keep (.refl n c) hn

/-! ### Literals and variables -/

/-- A constant word as a value. -/
theorem leads_word_computes (h : p.Ready assigned) (w : Int64) :
    Leads p (pure (Operand.word w)) fun v q =>
      p.Lowered assigned [v] q ∧ m.Computes P (pure w) p v q :=
  leads_pure ⟨h.lowered_one (sees_word p w),
    simulates_pure fun c _ => reads_word m c _ w⟩

/-- The code of a literal computes its word. -/
theorem lowerLiteral_computes (h : p.Ready assigned) {value : Literal}
    (hvalue : value.word?.isSome) :
    Leads p (lowerLiteral value) fun v q =>
      p.Lowered assigned [v] q ∧ m.Computes P (Eval.ofOption value.word?) p v q := by
  cases value with
  | integer value => exact leads_word_computes h _
  | character value => exact leads_word_computes h _
  | boolean value => exact leads_word_computes h _
  | empty => exact leads_word_computes h _
  | double value => cases hvalue
  | string value => cases hvalue

/-- A word stays as it is. -/
private theorem toWord_leads_of_word (h : p.Ready assigned) {o : Operand} (ho : p.Sees o) :
    Leads p (toWord o) fun v q => p.Lowered assigned [v] q ∧ (o.ty = .word → v = o ∧ q = p) := by
  by_cases hty : o.ty = .word
  · rw [toWord, hty]
    exact leads_pure ⟨h.lowered_one ho, fun _ => ⟨rfl, rfl⟩⟩
  · exact (toWord_leads h ho).mono fun _ _ hq => ⟨hq, fun hty' => absurd hty' hty⟩

/-- The code of a variable computes its value. -/
theorem lowerVariable_computes (h : p.Ready assigned) (name : Name) :
    Leads p (lowerVariable name) fun v q => p.Lowered assigned [v] q ∧
      m.Computes P (Eval.variableValue m.world p.draft.globals name) p v q := by
  refine leads_ofDraft_bind ?_
  cases hb : p.draft.scope.lookup? name with
  | some b =>
    have hsees := sees_of_lookup? h hb
    cases b with
    | value o =>
      refine (toWord_leads_of_word h hsees).mono fun v q ⟨hq, hword⟩ => ⟨hq, ?_⟩
      intro _ a c hc _
      obtain ⟨w, hw, hread⟩ := hc.state.of_lookup? hb
      -- what the variable stands for is a word, so no code was emitted
      obtain ⟨rfl, rfl⟩ := hword hread.ty
      rw [Eval.variableValue_of_local hw]
      exact ⟨c, .refl, hc, .refl _ c, hread⟩
    | slot pointer =>
      refine leads_emit ⟨h.emit_one rfl rfl hsees, ?_⟩
      refine simulates_emit_word (fun _ _ => rfl) fun a c hstate _ => ?_
      obtain ⟨w, hw, hdenotes⟩ := hstate.of_lookup? hb
      rw [Eval.variableValue_of_local hw]
      refine performs_pure hstate ?_
      cases pointer with
      | register r ty =>
        obtain ⟨-, k, hcell, hvalue⟩ := hdenotes
        simp [execute, Ty.word, read, hcell, hvalue]
      | _ => cases hdenotes
  | none =>
    refine leads_ofDraft_bind ?_
    cases hkind : p.draft.globals.get? name with
    | none => exact leads_throw trivial
    | some kind =>
      cases kind with
      | var =>
        refine leads_emit ⟨h.emit_one rfl rfl trivial, ?_⟩
        refine simulates_emit_word (fun _ _ => rfl) fun a c hstate _ => ?_
        rw [Eval.variableValue_of_global (hstate.of_lookup?_none hb), hkind]
        refine performs_pure hstate ?_
        rw [← hstate.store]
        rfl
      | function arity =>
        refine leads_emit ⟨h.emit_one rfl rfl trivial, ?_⟩
        refine simulates_emit_word (fun _ _ => rfl) fun a c hstate _ => ?_
        rw [Eval.variableValue_of_global (hstate.of_lookup?_none hb), hkind]
        exact performs_pure hstate rfl

/-! ### Definitions and assignments -/

variable {name : Name} {v : Operand}

/-- The code of an assignment to a top level name makes it. -/
theorem assignGlobal_simulates (h : p.Ready assigned) (name : Name) (hv : p.Sees v) :
    Leads p (assignGlobal name v) fun _ q => p.Lowered assigned [] q ∧
      ∀ w, m.Simulates p.draft q.draft (fun c => m.Reads c p.draft.registers v w)
        (Eval.assignGlobal p.draft.globals name w) fun _ _ => True := by
  refine leads_ofDraft_bind ?_
  cases hkind : p.draft.globals.get? name with
  | none => exact leads_throw trivial
  | some kind =>
    cases kind with
    | function arity => exact leads_throw trivial
    | var =>
      refine leads_store ⟨h.store hv trivial, fun w => ?_⟩
      refine simulates_emitEffect fun a c hstate hread => ?_
      rw [Eval.assignGlobal_of_var hkind]
      refine ⟨{ c with store := Function.update c.store name w }, ?_, rfl, rfl, rfl, ?_⟩
      · simp [execute, hread.readWord, read]
      · exact hstate.outside (by rw [hstate.store]) hstate.trace

/-- The code of an assignment to a name that is assigned to makes it. -/
theorem lowerAssignment_simulates (h : p.Ready assigned) (hname : name ∈ assigned)
    (hv : p.Sees v) :
    Leads p (lowerAssignment name v) fun _ q => p.Lowered assigned [] q ∧
      ∀ w, m.Simulates p.draft q.draft (fun c => m.Reads c p.draft.registers v w)
        (Eval.assign p.draft.globals name w) fun _ _ => True := by
  refine leads_ofDraft_bind ?_
  cases hb : p.draft.scope.lookup? name with
  | none =>
    refine (assignGlobal_simulates (m := m) h name hv).mono fun _ q ⟨hq, hsim⟩ => ⟨hq, ?_⟩
    intro w hhosts a c hc hread
    rw [Eval.assign_of_global (hc.state.of_lookup?_none hb)]
    exact hsim w hhosts a c hc hread
  | some b =>
    obtain ⟨frame, hf, hmem⟩ := Scope.mem_of_lookupIn? hb
    obtain ⟨pointer, rfl⟩ := h.slots frame hf _ hmem hname
    refine leads_store ⟨h.store hv (sees_of_lookup? h hb), fun w => ?_⟩
    refine simulates_emitEffect fun a c hstate hread => ?_
    obtain ⟨_, hlocal, hdenotes⟩ := hstate.of_lookup? hb
    rw [Eval.assign_of_local hlocal]
    cases pointer with
    | register r ty =>
      obtain ⟨hr, k, hcell, -⟩ := hdenotes
      refine ⟨{ c with cells := c.cells.set k (some w) }, ?_, rfl, rfl, rfl,
        hstate.assign hb hcell hr w⟩
      simp [execute, hread.readWord, read, hcell]
    | _ => cases hdenotes

/-- The code of a local definition makes it. -/
theorem bindLocal_simulates (h : p.Ready assigned) (name : Name) (hv : p.Sees v) :
    Leads p (bindLocal assigned name v) fun _ q => p.Lowered assigned [] q ∧
      ∀ w, m.Simulates p.draft q.draft (fun c => m.Reads c p.draft.registers v w)
        (Eval.bindLocal name w) fun _ _ => True := by
  rw [bindLocal]
  split
  · refine (toWord_leads_of_word h hv).bind ?_
    rintro v' q ⟨hq, hword⟩
    have halloca : q.Lowered assigned _ (q.emit (.alloca .word)) :=
      hq.ready.emit_none rfl rfl
    have hstore : (q.emit (.alloca .word)).Lowered assigned [] _ :=
      halloca.ready.store (halloca.arrives.sees v' hq.sees_one) halloca.sees_one
    have hbind := bind_lowered hstore.ready name (fun _ => ⟨_, rfl⟩)
      (hstore.arrives.sees _ halloca.sees_one)
    refine Leads.after (q := q.emit (.alloca .word)) leads_emit ?_
    refine Leads.after leads_store (leads_onScope ⟨?_, fun w => ?_⟩)
    · exact hq.trans (halloca.trans (hstore.trans hbind))
    · intro hhosts a c hc hread
      obtain ⟨rfl, rfl⟩ := hword hread.ty
      exact simulates_bindCell hhosts a c hc hread
  · next hname =>
    refine leads_onScope ⟨bind_lowered h name (fun hmem => absurd hmem ?_) hv, fun w => ?_⟩
    · simpa using hname
    · refine simulates_bindLocal.of_imp fun c hread => ⟨hread, fun r hr => ?_⟩
      cases hr

/-! ### Operators -/

section Operators

variable {l r : Operand}

/-- The code of an operator on words computes it, wherever it is defined. -/
theorem lowerOperator_word_computes (h : p.Ready assigned) (op : WordOp) (hl : p.Sees l)
    (hr : p.Sees r) :
    Leads p (lowerOperator (.word op) l r) fun v q => p.Lowered assigned [v] q ∧
      ∀ x y, m.Computes
        (fun c => m.Reads c p.draft.registers l x ∧ m.Reads c p.draft.registers r y)
        (Eval.ofOption (op.eval x y)) p v q := by
  refine leads_emit ⟨h.emit_two rfl rfl hl hr, fun x y => ?_⟩
  refine simulates_emit_word (fun c hc => ?_) fun a c hstate ⟨hx, hy⟩ => ?_
  · -- the type of the result is that of the first operand
    rw [Instruction.resultTy, if_neg (by cases op <;> simp [WordOp.opcode, Opcode.isFloat])]
    exact hc.1.ty
  · have hexec : m.execute c (.binary op.opcode l r) =
        (op.eval x y).map fun w => (some (.word w), c) := by
      simp [execute, hx.readWord, hy.readWord, evalOpcode_opcode, Option.map_eq_bind]
    cases heval : op.eval x y with
    | none =>
      rw [heval] at hexec
      exact hexec
    | some w =>
      rw [heval] at hexec
      exact performs_pure hstate hexec

/-- The code of a comparison computes one or zero. -/
theorem lowerOperator_compare_computes (h : p.Ready assigned) (op : Comparison) (hl : p.Sees l)
    (hr : p.Sees r) :
    Leads p (lowerOperator (.compare op) l r) fun v q => p.Lowered assigned [v] q ∧
      ∀ x y, m.Computes
        (fun c => m.Reads c p.draft.registers l x ∧ m.Reads c p.draft.registers r y)
        (pure (wordOfBool (op.holds x y))) p v q := by
  have hflag := h.emit_two (i := .icmp op.intPredicate l r) rfl rfl hl hr
  have hword := hflag.ready.emit_one (i := .cast .zext _ .word) rfl rfl hflag.sees_one
  refine Leads.after leads_emit (leads_emit ⟨hflag.trans hword, fun x y => ?_⟩)
  have htest : m.Simulates p.draft (p.emit (.icmp op.intPredicate l r)).draft
      (fun c => m.Reads c p.draft.registers l x ∧ m.Reads c p.draft.registers r y)
      (pure (op.holds x y)) fun b c => c.registers (p.draft.registers + 1) = some (.flag b) := by
    refine simulates_emit .flag (fun _ _ h => nomatch h) (fun a c hstate ⟨hx, hy⟩ => ?_)
      fun _ _ hflag => hflag
    refine performs_pure hstate ?_
    simp [execute, hx.readWord, hy.readWord, evalPredicate_intPredicate]
  refine htest.after (later_emit _ _) (later_emit _ _) ?_
  refine simulates_emit_word (fun _ _ => rfl) fun a c hstate hflag => performs_pure hstate ?_
  simp [execute, Ty.word, read, hflag]

end Operators

/-! ### Calls -/

/-- An operand that stands for what is to be called: the address of a function with the right number
of parameters, or a word. -/
def Targets (m : Machine) (globals : Globals) (c : Config) (n : Nat) (callee : Operand) :
    Callee → Prop
  | .named name => ∃ arity, callee = .global name (.wordFunction arity) ∧
      globals.get? name = some (.function arity)
  | .address w => m.Reads c n callee w

/-- An operand goes on to stand for what is to be called. -/
theorem Targets.keep {globals : Globals} {c c' : Config} {n n' : Nat} {callee : Operand}
    {target : Callee} (h : m.Targets globals c n callee target) (hkeeps : Keeps n c c')
    (hn : n ≤ n') :
    m.Targets globals c' n' callee target := by
  cases target with
  | named name => exact h
  | address w => exact Reads.keep h hkeeps hn

section Calls

variable {callee : Operand} {args : List Operand}

/-- Operands that each read a word read the list of them. -/
private theorem readWords_of_reads {c : Config} {n : Nat} {ws : List Int64}
    (h : List.Forall₂ (m.Reads c n) args ws) : m.readWords c args = some ws := by
  induction h with
  | nil => rfl
  | cons hread _ ih =>
    rw [readWords, hread.readWord, ih]
    rfl

/-- A call asks the world, and is recorded. -/
theorem performs_call {c : Config} {a : Activation} {value : Value} {target : Callee}
    {ws : List Int64} {n : Nat} (hstate : m.Matches p.draft.scope p.draft.registers a c)
    (hcallee : m.read c callee = some value) (htarget : calleeOf value = some target)
    (hargs : List.Forall₂ (m.Reads c n) args ws) :
    m.Performs p.draft c (.callWord callee args) (fun x => some (.word x))
      (Eval.call m.world target ws a) := by
  refine ⟨{ c with
    store := (m.world.call target ws c.store).2
    trace := c.trace ++ [⟨target, ws, c.store⟩] }, ?_, rfl, rfl, rfl, hstate.outside ?_ ?_⟩
  · rw [← hstate.store]
    simp [execute, Instruction.callWord, Ty.word, hcallee, htarget, readWords_of_reads hargs]
  · rw [hstate.store]
  · rw [hstate.store, hstate.trace]

/-- The code of a call of a function by its name. -/
private theorem simulates_call_global {globals : Globals} {name : Name} {result : Ty}
    {params : List Ty} (hlength : params.length = args.length) (target : Callee) (ws : List Int64) :
    m.Computes (fun c =>
        m.Targets globals c p.draft.registers (.global name (.function result params)) target ∧
          List.Forall₂ (m.Reads c p.draft.registers) args ws)
      (Eval.apply m.world globals target ws) p
      (.register (p.draft.registers + 1)
        (Instruction.callWord (.global name (.function result params)) args).resultTy)
      (p.emit (.callWord (.global name (.function result params)) args)) := by
  refine simulates_emit_word (fun _ _ => rfl) fun a c hstate ⟨htarget, hreads⟩ => ?_
  cases target with
  | address w => cases htarget.ty
  | named name' =>
    obtain ⟨arity, heq, hkind⟩ := htarget
    obtain ⟨rfl, hty⟩ := Operand.global.inj heq
    -- the type that lowering has checked says how many arguments the function takes
    have harity : arity = ws.length := by
      rw [← hreads.length_eq, ← hlength, (Ty.function.inj hty).2, List.length_replicate]
    rw [Eval.apply, if_pos (harity ▸ hkind)]
    exact performs_call hstate rfl rfl hreads

/-- The code of a call through a word, which becomes an address first. -/
private theorem simulates_call_address {globals : Globals} (w : Int64) (ws : List Int64) :
    m.Computes (fun c => m.Targets globals c p.draft.registers callee (.address w) ∧
        List.Forall₂ (m.Reads c p.draft.registers) args ws)
      (Eval.apply m.world globals (.address w) ws) p
      (.register ((p.emit (.toPointer callee)).draft.registers + 1)
        (Instruction.callWord (.register (p.draft.registers + 1) .ptr) args).resultTy)
      ((p.emit (.toPointer callee)).emit
        (.callWord (.register (p.draft.registers + 1) .ptr) args)) := by
  have haddress : m.Simulates p.draft (p.emit (.toPointer callee)).draft
      (fun c => m.Targets globals c p.draft.registers callee (.address w) ∧
        List.Forall₂ (m.Reads c p.draft.registers) args ws) (pure w) fun w c =>
      c.registers (p.draft.registers + 1) = some (.pointer w) ∧
        List.Forall₂ (m.Reads c p.draft.registers) args ws := by
    refine simulates_emit .pointer (by intro _ _ h; cases h) (fun a c hstate hc => ?_)
      fun hc hkeeps hpointer =>
        ⟨hpointer, hc.2.imp fun _ _ hread => hread.keep hkeeps (le_refl _)⟩
    refine performs_pure hstate ?_
    simp [execute, Instruction.toPointer, Reads.readWord hc.1]
  refine haddress.after (later_emit _ _) (later_emit _ _) ?_
  refine simulates_emit_word (fun _ _ => rfl) fun a c hstate hc => ?_
  exact performs_call (p := p.emit _) hstate hc.1 rfl hc.2

/-- The code of a call computes what the called function gives. -/
theorem lowerApplication_computes (h : p.Ready assigned) (hcallee : p.Sees callee)
    (hargs : ∀ o ∈ args, p.Sees o) (globals : Globals) :
    Leads p (lowerApplication callee args) fun v q => p.Lowered assigned [v] q ∧
      ∀ target ws, m.Computes
        (fun c => m.Targets globals c p.draft.registers callee target ∧
          List.Forall₂ (m.Reads c p.draft.registers) args ws)
        (Eval.apply m.world globals target ws) p v q := by
  rw [lowerApplication.eq_def]
  split
  · next name result params =>
    split
    · next hlength =>
      refine leads_emit ⟨h.emit rfl fun o ho => ?_, simulates_call_global hlength⟩
      rcases List.mem_cons.mp ho with rfl | ho
      · exact hcallee
      · exact hargs o ho
    · next hne => exact leads_throw hne
  · next hother =>
    have hpointer := h.emit_one (i := .toPointer callee) rfl rfl hcallee
    have hcall := hpointer.ready.emit (i := .callWord (.register (p.draft.registers + 1) .ptr) args)
      rfl fun o ho => by
        rcases List.mem_cons.mp ho with rfl | ho
        · exact hpointer.sees_one
        · exact hpointer.arrives.sees o (hargs o ho)
    refine Leads.after leads_emit (leads_emit ⟨hpointer.trans hcall, fun target ws => ?_⟩)
    cases target with
    | named name =>
      rintro - a c - ⟨⟨arity, rfl, -⟩, -⟩
      exact absurd rfl (hother name _ _)
    | address w => exact simulates_call_address w ws

/-- The operand of a name in the position of a callee stands for what the name calls. -/
private theorem lowerCalleeVariable_simulates (h : p.Ready assigned) (name : Name) :
    Leads p (lowerCalleeVariable name) fun v q => p.Lowered assigned [v] q ∧
      m.Simulates p.draft q.draft P (Eval.calleeVariable m.world p.draft.globals name)
        fun target c => m.Targets p.draft.globals c q.draft.registers v target := by
  have hglobal : ∀ f ty, p.Lowered assigned [.global f ty] p :=
    fun f ty => h.lowered_one (sees_global p f ty)
  have hvariable := lowerVariable_computes (m := m) (P := P) h name
  refine leads_ofDraft_bind ?_
  split
  · -- an address is no word, so no variable of a configuration that agrees has one
    next f result params hb =>
    refine leads_pure ⟨hglobal _ _, fun _ a c hc _ => ?_⟩
    obtain ⟨w, -, hread⟩ := hc.state.of_lookup? hb
    cases Reads.ty hread
  · next b _ hb =>
    refine hvariable.mono fun v q ⟨hq, hcomputes⟩ => ⟨hq, fun hhosts a c hc hP => ?_⟩
    obtain ⟨w, hw, -⟩ := hc.state.of_lookup? hb
    have hvalue := hcomputes hhosts a c hc hP
    rw [Eval.variableValue_of_local hw] at hvalue
    rw [Eval.calleeVariable_of_local hw]
    exact hvalue
  · next hb =>
    refine leads_ofDraft_bind ?_
    split
    · next arity hkind =>
      refine leads_pure ⟨hglobal _ _, fun _ a c hc _ => ?_⟩
      rw [Eval.calleeVariable_of_function (hc.state.of_lookup?_none hb) hkind]
      exact ⟨c, .refl, hc, .refl _ c, arity, rfl, hkind⟩
    · next hkind =>
      refine hvariable.mono fun v q ⟨hq, hcomputes⟩ => ⟨hq, fun hhosts a c hc hP => ?_⟩
      rw [Eval.calleeVariable_of_global (hc.state.of_lookup?_none hb) hkind]
      refine (hcomputes hhosts a c hc hP).bind fun w a' c' hc' => ?_
      exact ⟨c', .refl, hc'⟩

/-- The operand of a callee stands for what is to be called. -/
theorem lowerCallee_simulates (h : p.Ready assigned) {target : Expr} (htarget : target.isFirstOrder)
    {lowered : Lower Operand} {value : Eval Int64}
    (hlowered : Leads p lowered fun v q => p.Lowered assigned [v] q ∧ m.Computes P value p v q) :
    Leads p (lowerCallee target lowered) fun v q => p.Lowered assigned [v] q ∧
      m.Simulates p.draft q.draft P (Eval.calleeOf m.world p.draft.globals target value)
        fun target c => m.Targets p.draft.globals c q.draft.registers v target := by
  rw [lowerCallee.eq_def]
  split
  · simp [Expr.isFirstOrder] at htarget
  · exact lowerCalleeVariable_simulates h _
  · next hvar =>
    refine hlowered.mono fun v q hq => ⟨hq.1, fun hhosts a c hc hP => ?_⟩
    rw [Eval.calleeOf.eq_def]
    split
    · exact absurd rfl (hvar _)
    · refine (hq.2 hhosts a c hc hP).bind fun w a' c' hc' => ?_
      exact ⟨c', .refl, hc'⟩

end Calls

end Machine

end WordScheme
