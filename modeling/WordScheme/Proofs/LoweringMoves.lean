import Mathlib
import WordScheme.Proofs.LoweringSteps
import WordScheme.Proofs.Moves

/-!
# Lowering goes by moves

`Lower.Proceeds n s m Q` says that `m`, started in a proper state `s`, goes by moves of
`LowerState.Move` whether it succeeds or fails; if it succeeds, the functions that it has found give
rise to `n` functions at most, and `Q` holds of its result. The bound is what the queue of a
compilation is measured by: every lambda is found once, and counted with those in its body.

Its rules follow the monad, as those of `Lower.Leads` do. This file has the parts of the lowering
that do not recurse; values are words (`LowerState.Has`), and the target of a call is either a word
or the address of a known function (`LowerState.Callable`).
-/

namespace WordScheme

open FunctionDraft

/-- The functions that a list of functions to be compiled gives rise to, themselves included. -/
def pendingCount (fs : List PendingFunction) : Nat :=
  (fs.map fun f => 1 + functionCounts f.lambda.body).sum

@[simp]
theorem pendingCount_nil : pendingCount [] = 0 := rfl

@[simp]
theorem pendingCount_cons (f : PendingFunction) (fs : List PendingFunction) :
    pendingCount (f :: fs) = 1 + functionCounts f.lambda.body + pendingCount fs := by
  simp [pendingCount]

@[simp]
theorem pendingCount_append (fs gs : List PendingFunction) :
    pendingCount (fs ++ gs) = pendingCount fs + pendingCount gs := by
  simp [pendingCount]

/-! ### Local names -/

namespace Scope

variable {name : Name} {b : Binding} {x : Name × Binding}

/-- A binding of the scope after a name was bound is an old one or the new one. -/
theorem mem_bind {s : Scope} {frame : Assoc Name Binding} (hf : frame ∈ (s.bind name b).frames)
    (hx : x ∈ frame) : (∃ old ∈ s.frames, x ∈ old) ∨ x = (name, b) := by
  rcases List.mem_cons.mp hf with rfl | hf
  · exact (Assoc.mem_put hx).imp_left fun hx => ⟨s.inner, List.mem_cons_self, hx⟩
  · exact .inl ⟨frame, List.mem_cons_of_mem _ hf, hx⟩

/-- A binding of the frames after a change is an old one or the new one. -/
private theorem mem_rebindIn {frames : List (Assoc Name Binding)} {frame : Assoc Name Binding}
    (hf : frame ∈ rebindIn name b frames) (hx : x ∈ frame) :
    (∃ old ∈ frames, x ∈ old) ∨ x = (name, b) := by
  induction frames with
  | nil => cases hf
  | cons first frames ih =>
    rw [rebindIn_cons] at hf
    split at hf
    · rcases List.mem_cons.mp hf with rfl | hf
      · exact (Assoc.mem_put hx).imp_left fun hx => ⟨first, List.mem_cons_self, hx⟩
      · exact .inl ⟨frame, List.mem_cons_of_mem _ hf, hx⟩
    · rcases List.mem_cons.mp hf with rfl | hf
      · exact .inl ⟨frame, List.mem_cons_self, hx⟩
      · refine (ih hf).imp_left ?_
        rintro ⟨old, hold, hx⟩
        exact ⟨old, List.mem_cons_of_mem _ hold, hx⟩

/-- A change goes through the frames from the innermost one on. -/
theorem frames_rebind (s : Scope) (name : Name) (b : Binding) :
    (s.rebind name b).frames = rebindIn name b s.frames := by
  change (s.rebind name b).frames = rebindIn name b (s.inner :: s.outer)
  rw [rebind_eq, rebindIn_cons]
  split <;> rfl

/-- A binding of the scope after a change is an old one or the new one. -/
theorem mem_rebind {s : Scope} {frame : Assoc Name Binding}
    (hf : frame ∈ (s.rebind name b).frames) (hx : x ∈ frame) :
    (∃ old ∈ s.frames, x ∈ old) ∨ x = (name, b) :=
  mem_rebindIn (frames_rebind s name b ▸ hf) hx

/-- Opening a frame adds no binding. -/
theorem mem_push {s : Scope} {frame : Assoc Name Binding} (hf : frame ∈ s.push.frames)
    (hx : x ∈ frame) : ∃ old ∈ s.frames, x ∈ old := by
  rcases List.mem_cons.mp hf with rfl | hf
  · cases hx
  · exact ⟨frame, hf, hx⟩

theorem mem_pop {s : Scope} {frame : Assoc Name Binding} (hf : frame ∈ s.pop.frames)
    (hx : x ∈ frame) : ∃ old ∈ s.frames, x ∈ old := by
  refine ⟨frame, ?_, hx⟩
  rw [pop] at hf
  split at hf
  · exact hf
  · next houter =>
    rw [frames, houter]
    exact List.mem_cons_of_mem _ hf

end Scope

/-! ### Instructions that may be written -/

namespace LowerState

variable {s : LowerState}

/-- Constants are known everywhere. -/
theorem has_word (s : LowerState) (value : Int64) : s.Has .word (.word value) :=
  ⟨.const _, rfl⟩

/-- An operation may be written on known operands of the type it takes. -/
private theorem allows_binary {op : Opcode} {lhs rhs : Operand} (hl : s.Has op.operandTy lhs)
    (hr : s.Has op.operandTy rhs) : s.Allows (.binary op lhs rhs) where
  typed := ⟨hl.2, hr.2⟩
  known := by simp [Instruction.operands, hl.1, hr.1]
  types := fun _ h => nomatch h
  saturated := fun _ _ _ _ h => nomatch h

private theorem allows_icmp {p : IntPredicate} {lhs rhs : Operand} (hl : s.Has .word lhs)
    (hr : s.Has .word rhs) : s.Allows (.icmp p lhs rhs) where
  typed := ⟨hl.2, hr.2⟩
  known := by simp [Instruction.operands, hl.1, hr.1]
  types := fun _ h => nomatch h
  saturated := fun _ _ _ _ h => nomatch h

private theorem allows_fcmp {p : FloatPredicate} {lhs rhs : Operand} (hl : s.Has .double lhs)
    (hr : s.Has .double rhs) : s.Allows (.fcmp p lhs rhs) where
  typed := ⟨hl.2, hr.2⟩
  known := by simp [Instruction.operands, hl.1, hr.1]
  types := fun _ h => nomatch h
  saturated := fun _ _ _ _ h => nomatch h

/-- Memory may be set aside for a type whose names are defined. -/
private theorem allows_alloca {ty : Ty} (hty : ∀ name ∈ ty.typeNames, s.Defines name) :
    s.Allows (.alloca ty) where
  typed := trivial
  known := fun _ h => nomatch h
  types := fun _ h => List.mem_singleton.mp h ▸ hty
  saturated := fun _ _ _ _ h => nomatch h

private theorem allows_load {pointer : Operand} (h : s.Has .ptr pointer) :
    s.Allows (.load .word pointer) where
  typed := ⟨rfl, h.2⟩
  known := by simp [Instruction.operands, h.1]
  types := by simp [Instruction.types]
  saturated := fun _ _ _ _ h => nomatch h

private theorem allows_store {value pointer : Operand} (hv : s.Has .word value)
    (hp : s.Has .ptr pointer) : s.Allows (.store value pointer) where
  typed := ⟨hv.2, hp.2⟩
  known := by simp [Instruction.operands, hv.1, hp.1]
  types := fun _ h => nomatch h
  saturated := fun _ _ _ _ h => nomatch h

/-- The address of an element may be taken where the names of the type are defined. -/
private theorem allows_elementPtr {ty : Ty} {base index : Operand} (hb : s.Has .ptr base)
    (hi : s.Has .word index) (hty : ∀ name ∈ ty.typeNames, s.Defines name) :
    s.Allows (.elementPtr ty base index) where
  typed := ⟨hb.2, hi.2⟩
  known := by simp [Instruction.operands, hb.1, hi.1]
  types := fun _ h => List.mem_singleton.mp h ▸ hty
  saturated := fun _ _ _ _ h => nomatch h

/-- A known operand may be converted to what the conversion gives. -/
private theorem allows_cast {op : CastOp} {o : Operand} {source target : Ty} (ho : s.Has source o)
    (hop : op.Converts source target) (htarget : target.typeNames = []) :
    s.Allows (.cast op o target) where
  typed := by
    rw [Instruction.WellTyped, ho.2]
    exact hop
  known := by simp [Instruction.operands, ho.1]
  types := by simp [Instruction.types, htarget]
  saturated := fun _ _ _ _ h => nomatch h

private theorem allows_toPointer {o : Operand} (ho : s.Has .word o) : s.Allows (.toPointer o) :=
  allows_cast ho ⟨rfl, rfl⟩ rfl

private theorem allows_ofPointer {o : Operand} (ho : s.Has .ptr o) : s.Allows (.ofPointer o) :=
  allows_cast ho ⟨rfl, rfl⟩ rfl

private theorem allows_toDouble {o : Operand} (ho : s.Has .word o) : s.Allows (.toDouble o) :=
  allows_cast ho ⟨rfl, rfl⟩ rfl

/-- A call of an address, or of a function with as many arguments as it takes. -/
private theorem allows_call {callee : Operand} {args : List Operand} (hc : s.Has .ptr callee)
    (hargs : ∀ o ∈ args, s.Has .word o)
    (hlength : ∀ name ty, callee = .global name ty → ty = .wordFunction args.length) :
    s.Allows (.callWord callee args) where
  typed := ⟨rfl, hc.2, fun o ho => (hargs o ho).2⟩
  known := by
    intro o ho
    rcases List.mem_cons.mp ho with rfl | ho
    · exact hc.1
    · exact (hargs o ho).1
  types := by simp [Instruction.types, Instruction.callWord]
  saturated := by
    intro result name ty args' h
    cases h
    exact hlength name ty rfl

/-- Known words may come together in a phi. -/
private theorem allows_phi {incoming : List (Operand × Name)}
    (h : ∀ x ∈ incoming, s.Has .word x.1) : s.Allows (.phi .word incoming) where
  typed := ⟨rfl, fun x hx => (h x hx).2⟩
  known := by
    intro o ho
    obtain ⟨x, hx, rfl⟩ := List.mem_map.mp ho
    exact (h x hx).1
  types := by simp [Instruction.types]
  saturated := fun _ _ _ _ h => nomatch h

/-- The address of a known function. -/
private theorem Callable.has_ptr {name : Name} {ty : Ty} (h : s.Callable (.global name ty)) :
    s.Has .ptr (.global name ty) :=
  ⟨h.1, rfl⟩

/-- A word can be the target of a call. -/
theorem Has.callable {o : Operand} (h : s.Has .word o) : s.Callable o :=
  ⟨h.1, .inl h.2⟩

end LowerState

/-! ### Rules -/

namespace Lower

open LowerState

/-- From the proper state `s`, `m` goes by moves, and to `Q` if it succeeds. -/
def Proceeds {α : Type} (n : Nat) (s : LowerState) (m : Lower α) (Q : α → LowerState → Prop) :
    Prop :=
  s.Proper →
    match m s with
    | .ok a t =>
      s.Moves t ∧ pendingCount t.draft.pending ≤ pendingCount s.draft.pending + n ∧ Q a t
    | .error _ t => s.Moves t

section Rules

variable {α β : Type} {n k : Nat} {s : LowerState} {m : Lower α} {Q : α → LowerState → Prop}

/-- In the proof of a rule the state may be taken to be proper. -/
private theorem proceeds_of_proper (h : s.Proper → Proceeds n s m Q) : Proceeds n s m Q :=
  fun hs => h hs hs

/-- A run that succeeds goes by moves, within the bound, and gives what is said of its result. -/
theorem Proceeds.ok (h : Proceeds n s m Q) (hs : s.Proper) {a : α} {t : LowerState}
    (hrun : m s = .ok a t) :
    s.Moves t ∧ pendingCount t.draft.pending ≤ pendingCount s.draft.pending + n ∧ Q a t := by
  have hm := h hs
  rwa [hrun] at hm

/-- A run that fails goes by moves as well. -/
theorem Proceeds.error (h : Proceeds n s m Q) (hs : s.Proper) {e : CompileError} {t : LowerState}
    (hrun : m s = .error e t) : s.Moves t := by
  have hm := h hs
  rwa [hrun] at hm

theorem Proceeds.mono {R : α → LowerState → Prop} (h : Proceeds n s m Q)
    (hQR : ∀ a t, Q a t → R a t) : Proceeds n s m R := by
  intro hs
  cases hr : m s with
  | ok a t =>
    obtain ⟨hmoves, hcount, hQ⟩ := h.ok hs hr
    exact ⟨hmoves, hcount, hQR a t hQ⟩
  | error e t => exact h.error hs hr

theorem Proceeds.weaken (h : Proceeds n s m Q) (hle : n ≤ k) : Proceeds k s m Q := by
  intro hs
  cases hr : m s with
  | ok a t =>
    obtain ⟨hmoves, hcount, hQ⟩ := h.ok hs hr
    exact ⟨hmoves, hcount.trans (Nat.add_le_add_left hle _), hQ⟩
  | error e t => exact h.error hs hr

/-- One run after another: the bounds add up. -/
theorem Proceeds.bind {f : α → Lower β} {R : β → LowerState → Prop} (h : Proceeds n s m Q)
    (hf : ∀ a t, s.Grows t → Q a t → Proceeds k t (f a) R) :
    Proceeds (n + k) s (m >>= f) R := by
  intro hs
  change match EStateM.bind m f s with
    | .ok b t => s.Moves t ∧ pendingCount t.draft.pending ≤
        pendingCount s.draft.pending + (n + k) ∧ R b t
    | .error _ t => s.Moves t
  rw [EStateM.bind]
  cases hr : m s with
  | error e t => exact h.error hs hr
  | ok a t =>
    obtain ⟨hmoves, hcount, hQ⟩ := h.ok hs hr
    have hproceeds := hf a t hmoves.grows hQ
    dsimp only
    cases hr' : f a t with
    | error e u => exact hmoves.trans (hproceeds.error (hs.moves hmoves) hr')
    | ok b u =>
      obtain ⟨hmoves', hcount', hR⟩ := hproceeds.ok (hs.moves hmoves) hr'
      exact ⟨hmoves.trans hmoves', by omega, hR⟩

/-- What a run has proceeded to is what it gave. -/
theorem Proceeds.of_run (h : Proceeds n s m Q) :
    Proceeds n s m fun a t => m s = .ok a t ∧ Q a t := by
  intro hs
  cases hr : m s with
  | ok a t =>
    obtain ⟨hmoves, hcount, hQ⟩ := h.ok hs hr
    exact ⟨hmoves, hcount, rfl, hQ⟩
  | error e t => exact h.error hs hr

/-- A step that finds no functions, and what comes after it. -/
theorem Proceeds.andThen {f : α → Lower β} {R : β → LowerState → Prop} (h : Proceeds 0 s m Q)
    (hf : ∀ a t, s.Grows t → Q a t → Proceeds n t (f a) R) : Proceeds n s (m >>= f) R :=
  (h.bind hf).weaken (Nat.zero_add n).le

/-- A step, and what comes after it if that finds no functions. -/
theorem Proceeds.bind_zero {f : α → Lower β} {R : β → LowerState → Prop} (h : Proceeds n s m Q)
    (hf : ∀ a t, s.Grows t → Q a t → Proceeds 0 t (f a) R) : Proceeds n s (m >>= f) R :=
  h.bind hf

theorem proceeds_pure {a : α} (h : Q a s) : Proceeds 0 s (pure a) Q :=
  fun _ => ⟨.refl, le_refl _, h⟩

/-- To refuse the source is no move. -/
theorem proceeds_throw {e : CompileError} : Proceeds n s (throw e : Lower α) Q :=
  fun _ => .refl

/-- A step of which everything is known. -/
private theorem proceeds_move {a : α} {t : LowerState} (hrun : m s = .ok a t) (hmove : s.Move t)
    (hpending : t.draft.pending = s.draft.pending) (h : Q a t) : Proceeds 0 s m Q := by
  intro _
  rw [hrun]
  refine ⟨.single hmove, ?_, h⟩
  rw [hpending]
  exact le_refl _

/-- Reading something off the draft changes nothing. -/
theorem proceeds_ofDraft_bind {f : FunctionDraft → α} {g : α → Lower β}
    {R : β → LowerState → Prop} (h : Proceeds n s (g (f s.draft)) R) :
    Proceeds n s (ofDraft f >>= g) R :=
  h

theorem proceeds_get_bind {g : LowerState → Lower β} {R : β → LowerState → Prop}
    (h : Proceeds n s (g s) R) : Proceeds n s ((get : Lower LowerState) >>= g) R :=
  h

/-- An instruction that may be written gives a register of its type. -/
private theorem proceeds_emit_register {i : Instruction} (h : s.Allows i) :
    Proceeds 0 s (emit i) fun v t => t.Has i.resultTy v ∧ ∃ r, v = .register r i.resultTy := by
  refine proceeds_of_proper fun hs =>
    proceeds_move rfl (.emit h) (append_pending _ _) ⟨⟨?_, rfl⟩, _, rfl⟩
  refine .register h.typed.typeNames_resultTy (emit_registers s.draft i).ge fun hx hd => ?_
  rcases contains_emit hx with hx | rfl
  · -- no statement from before has a register that was not given out
    exact absurd (hs.registers hx hd) (Nat.not_succ_le_self _)
  · rfl

/-- An allowed instruction is a move, and its result has the instruction's type. -/
private theorem proceeds_emit {i : Instruction} (h : s.Allows i) :
    Proceeds 0 s (emit i) fun v t => t.Has i.resultTy v :=
  (proceeds_emit_register h).mono fun _ _ => And.left

private theorem proceeds_store {value pointer : Operand} (hv : s.Has .word value)
    (hp : s.Has .ptr pointer) : Proceeds 0 s (store value pointer) fun _ _ => True :=
  proceeds_move rfl (.emitEffect (allows_store hv hp)) (append_pending _ _) trivial

/-- The local names may be changed to known operands. -/
private theorem proceeds_onScope {f : Scope → Scope}
    (h : ∀ frame ∈ (f s.draft.scope).frames, ∀ x ∈ frame,
      (∃ old ∈ s.draft.scope.frames, x ∈ old) ∨ s.Admits x.2) :
    Proceeds 0 s (onScope f) fun _ _ => True :=
  proceeds_move rfl (.rescope _ h) rfl trivial

private theorem proceeds_addBlock (base : Name) : Proceeds 0 s (addBlock base) fun _ _ => True :=
  proceeds_move rfl (.addBlock base) rfl trivial

/-- A step on the draft that makes a move where it does not fail, and nothing where it does. -/
private theorem proceeds_tryDraft
    {f : FunctionDraft → EStateM.Result CompileError FunctionDraft Unit}
    (hok : ∀ d, f s.draft = .ok () d →
      s.Move { s with draft := d } ∧ d.pending = s.draft.pending)
    (herror : ∀ e d, f s.draft = .error e d → d = s.draft) :
    Proceeds 0 s (tryDraft f) fun _ _ => True := by
  have hrun := tryDraft_eq f s
  cases hf : f s.draft with
  | ok a d =>
    rw [hf] at hrun
    exact proceeds_move hrun (hok d hf).1 (hok d hf).2 trivial
  | error e d =>
    intro _
    rw [hrun, hf, herror e d hf]

/-- A well-typed terminator with known operands is a move, or it is refused. -/
private theorem proceeds_terminate {t : Terminator} (htyped : t.WellTyped)
    (hknown : ∀ o ∈ t.operands, s.Knows o) : Proceeds 0 s (terminate t) fun _ _ => True := by
  refine proceeds_tryDraft (fun d hd => ?_) fun e d hd => (of_terminate_error hd).1
  obtain ⟨hlive, rfl⟩ := of_terminate_ok hd
  exact ⟨.terminate hlive htyped hknown, rfl⟩

theorem proceeds_ret {value : Operand} (hv : s.Has .word value) :
    Proceeds 0 s (terminate (.ret value)) fun _ _ => True :=
  proceeds_terminate hv.2 fun _ ho => List.mem_singleton.mp ho ▸ hv.1

/-- A value is returned unless the function has been left. -/
theorem returning_proceeds {value : Operand} (hv : s.Has .word value) :
    Proceeds 0 s (returning value) fun _ _ => True := by
  refine proceeds_ofDraft_bind ?_
  cases s.draft.terminated with
  | true => exact proceeds_pure trivial
  | false => exact proceeds_ret hv

/-- Going on in another block is a move, or it is refused. -/
private theorem proceeds_moveTo (block : BlockRef) :
    Proceeds 0 s (moveTo block) fun _ _ => True := by
  refine proceeds_tryDraft (fun d hd => ?_) fun e d hd => (of_moveTo_error hd).1
  obtain ⟨hlt, rfl⟩ := of_moveTo_ok hd
  exact ⟨.goTo _ hlt, rfl⟩

end Rules

/-! ### Definitions of the unit -/

section Unit

variable {s : LowerState}

/-- The type of the bytes of a string, with its terminating zero. -/
theorem ty_stringConstant (u : CompileUnit) (value : String) :
    (u.stringConstant value).1.2 = .array (.int .i8) ((utf8Bytes value).length + 1) := by
  rw [CompileUnit.stringConstant]
  split <;> rfl

/-- The constant of a string is noted under its name. -/
theorem get?_stringConstant (u : CompileUnit) (value : String) :
    (u.stringConstant value).2.strings.get? value = some (u.stringConstant value).1.1 := by
  rw [CompileUnit.stringConstant]
  cases hv : u.strings.get? value with
  | some name => exact hv
  | none => exact Assoc.get?_put_self _ _ _

/-- The constant of a string is an array of its bytes and the final zero, and known from then on. -/
private theorem proceeds_string (value : String) :
    Proceeds 0 s (onUnit (·.stringConstant value)) fun r t =>
      r.2 = .array (.int .i8) ((utf8Bytes value).length + 1) ∧ t.Knows (.global r.1 r.2) := by
  have hty := ty_stringConstant s.unit value
  refine proceeds_move rfl (.string value) rfl ⟨hty, ?_⟩
  rw [hty]
  exact .string (get?_stringConstant s.unit value)

/-- The names in the type of an array are defined once it has been asked for. -/
private theorem proceeds_array (length : Nat) :
    Proceeds 0 s (onUnit (·.arrayType length)) fun ty t =>
      ∀ name ∈ ty.typeNames, t.Defines name := by
  refine proceeds_move rfl (.array length) rfl fun name hname => ?_
  obtain rfl := List.mem_singleton.mp hname
  exact ⟨length, rfl, ModuleDraft.mem_ensure rfl⟩

/-- A library function is a known pointer once it has been asked for. -/
private theorem proceeds_library (f : LibraryFunction) :
    Proceeds 0 s (onUnit (·.libraryFunction f)) fun callee t =>
      callee = .global f.symbol (.wordFunction f.arity) ∧ t.Has .ptr callee :=
  proceeds_move rfl (.library f) rfl ⟨rfl, .library (ModuleDraft.mem_ensure rfl), rfl⟩

/-- A lambda is found where it is made a function. -/
theorem liftLambda_proceeds (lambda : Lambda) :
    Proceeds (1 + functionCounts lambda.body) s (liftLambda lambda) fun f t =>
      t.Callable f ∧ ∃ name, f = .global name (.wordFunction lambda.params.length) := by
  intro _
  refine ⟨.single (.lift lambda), ?_, ⟨.lifted (ModuleDraft.mem_ensure rfl), .inr ⟨_, _, rfl⟩⟩,
    _, rfl⟩
  change pendingCount (s.draft.pending ++ [_]) ≤ _
  simp

end Unit

/-! ### Values -/

section Values

variable {s : LowerState}

/-- A value of every type that occurs has its word. -/
private theorem toWord_proceeds {o : Operand} (ho : s.Knows o)
    (hty : o.ty = .word ∨ o.ty = .ptr ∨ o.ty = .double ∨ o.ty = .flag) :
    Proceeds 0 s (toWord o) fun v t => t.Has .word v := by
  rcases hty with hty | hty | hty | hty <;> rw [toWord, hty]
  · exact proceeds_pure ⟨ho, hty⟩
  · exact proceeds_emit (allows_ofPointer ⟨ho, hty⟩)
  · exact proceeds_emit (allows_cast ⟨ho, hty⟩ (.inl ⟨rfl, rfl⟩) rfl)
  · exact proceeds_emit (allows_cast ⟨ho, hty⟩ ⟨rfl, rfl⟩ rfl)

/-- What can be called can be made a word. -/
theorem toWord_proceeds_of_callable {o : Operand} (ho : s.Callable o) :
    Proceeds 0 s (toWord o) fun v t => t.Has .word v := by
  refine toWord_proceeds ho.1 ?_
  rcases ho.2 with hty | ⟨name, arity, rfl⟩
  · exact .inl hty
  · exact .inr (.inl rfl)

private theorem proceeds_word (value : Int64) :
    Proceeds 0 s (pure (Operand.word value)) fun v t => t.Has .word v :=
  proceeds_pure (has_word s value)

/-- A literal is lowered by moves to a word. -/
theorem lowerLiteral_proceeds (value : Literal) :
    Proceeds 0 s (lowerLiteral value) fun v t => t.Has .word v := by
  cases value with
  | integer value => exact proceeds_word _
  | character value => exact proceeds_word _
  | boolean value => exact proceeds_word _
  | empty => exact proceeds_word _
  | double value => exact proceeds_emit (allows_cast ⟨.const _, rfl⟩ (.inl ⟨rfl, rfl⟩) rfl)
  | string value =>
    refine (proceeds_string value).andThen fun r t _ hr => ?_
    have hnames : ∀ name ∈ r.2.typeNames, t.Defines name := by
      rw [hr.1]
      exact fun _ h => nomatch h
    have helement := allows_elementPtr ⟨hr.2, rfl⟩ (has_word t 0) hnames
    refine (proceeds_emit helement).andThen fun address u _ hu => ?_
    exact proceeds_emit (allows_ofPointer hu)

/-- A local name stands for what it may stand for. -/
private theorem admits_of_lookup? (hs : s.Proper) {name : Name} {b : Binding}
    (hb : s.draft.scope.lookup? name = some b) : s.Admits b := by
  obtain ⟨frame, hf, hmem⟩ := Scope.mem_of_lookupIn? hb
  exact hs.bindings frame hf _ hmem

theorem lowerVariable_proceeds (name : Name) :
    Proceeds 0 s (lowerVariable name) fun v t => t.Has .word v := by
  refine proceeds_of_proper fun hs => proceeds_ofDraft_bind ?_
  cases hb : s.draft.scope.lookup? name with
  | some b =>
    have hadmits := admits_of_lookup? hs hb
    cases b with
    | value operand => exact toWord_proceeds_of_callable hadmits
    | slot pointer => exact proceeds_emit (allows_load hadmits)
  | none =>
    refine proceeds_ofDraft_bind ?_
    cases hg : s.draft.globals.get? name with
    | none => exact proceeds_throw
    | some kind =>
      cases kind with
      | var => exact proceeds_emit (allows_load ⟨.globalVar hg, rfl⟩)
      | function arity => exact toWord_proceeds (.globalFunction hg) (.inr (.inl rfl))

theorem assignGlobal_proceeds (name : Name) {value : Operand} (hv : s.Has .word value) :
    Proceeds 0 s (assignGlobal name value) fun _ _ => True := by
  refine proceeds_ofDraft_bind ?_
  cases hg : s.draft.globals.get? name with
  | none => exact proceeds_throw
  | some kind =>
    cases kind with
    | var => exact proceeds_store hv ⟨.globalVar hg, rfl⟩
    | function arity => exact proceeds_throw

/-- A name may be bound to what it may stand for. -/
private theorem proceeds_bind (name : Name) {b : Binding} (hb : s.Admits b) :
    Proceeds 0 s (onScope (·.bind name b)) fun _ _ => True :=
  proceeds_onScope fun _ hf _ hx => (Scope.mem_bind hf hx).imp_right (by rintro rfl; exact hb)

/-- A name may be bound anew to what the state admits. -/
private theorem proceeds_rebind (name : Name) {b : Binding} (hb : s.Admits b) :
    Proceeds 0 s (onScope (·.rebind name b)) fun _ _ => True :=
  proceeds_onScope fun _ hf _ hx => (Scope.mem_rebind hf hx).imp_right (by rintro rfl; exact hb)

theorem proceeds_push : Proceeds 0 s (onScope Scope.push) fun _ _ => True :=
  proceeds_onScope fun _ hf _ hx => .inl (Scope.mem_push hf hx)

theorem proceeds_pop : Proceeds 0 s (onScope Scope.pop) fun _ _ => True :=
  proceeds_onScope fun _ hf _ hx => .inl (Scope.mem_pop hf hx)

theorem lowerAssignment_proceeds (name : Name) {value : Operand} (hv : s.Has .word value) :
    Proceeds 0 s (lowerAssignment name value) fun _ _ => True := by
  refine proceeds_of_proper fun hs => proceeds_ofDraft_bind ?_
  cases hb : s.draft.scope.lookup? name with
  | none => exact assignGlobal_proceeds name hv
  | some b =>
    cases b with
    | value old => exact proceeds_rebind name hv.callable
    | slot pointer => exact proceeds_store hv (admits_of_lookup? hs hb)

/-- A cell for a word. -/
private theorem proceeds_cell : Proceeds 0 s (emit (.alloca .word)) fun p t => t.Has .ptr p :=
  proceeds_emit (allows_alloca fun _ h => nomatch h)

/-- What can be called is bound to a local name by moves. -/
theorem bindLocal_proceeds (assigned : List Name) (name : Name) {value : Operand}
    (hv : s.Callable value) : Proceeds 0 s (bindLocal assigned name value) fun _ _ => True := by
  rw [bindLocal]
  split
  · refine (toWord_proceeds_of_callable hv).andThen fun word t _ hword => ?_
    refine proceeds_cell.andThen fun pointer u htu hpointer => ?_
    refine (proceeds_store (hword.grows htu) hpointer).andThen fun _ w huw _ => ?_
    exact proceeds_bind name (hpointer.grows huw)
  · exact proceeds_bind name hv

/-- The parameters that are assigned to are spilled by moves. -/
theorem spillParams_proceeds (assigned params : List Name) :
    Proceeds 0 s (spillParams assigned params) fun _ _ => True := by
  induction params generalizing s with
  | nil => exact proceeds_pure trivial
  | cons name names ih =>
    rw [spillParams]
    split
    · refine proceeds_cell.andThen fun pointer t _ hpointer => ?_
      refine (proceeds_store ⟨.param name, rfl⟩ hpointer).andThen fun _ u htu _ => ?_
      have hslot : u.Admits (.slot pointer) := hpointer.grows htu
      exact (proceeds_rebind name hslot).andThen fun _ _ _ _ => ih
    · exact ih

end Values

/-! ### Operators and calls -/

section Calls

variable {s : LowerState}

/-- The double with the bits of a word. -/
private theorem proceeds_asDouble {o : Operand} (ho : s.Has .word o) :
    Proceeds 0 s (emit (.cast .bitcast o .double)) fun v t => t.Has .double v :=
  proceeds_emit (allows_cast ho (.inr ⟨rfl, rfl⟩) rfl)

/-- An integer operation takes words. -/
private theorem operandTy_word (op : WordOp) : op.opcode.operandTy = .word := by
  cases op <;> rfl

private theorem operandTy_float (op : FloatOp) : op.opcode.operandTy = .double := by
  cases op <;> rfl

/-- An integer operation on words gives a word. -/
private theorem resultTy_word (op : WordOp) {lhs rhs : Operand} (h : lhs.ty = .word) :
    (Instruction.binary op.opcode lhs rhs).resultTy = .word := by
  cases op <;> exact h

private theorem resultTy_float (op : FloatOp) (lhs rhs : Operand) :
    (Instruction.binary op.opcode lhs rhs).resultTy = .double := by
  cases op <;> rfl

/-- An operator is applied to known words by moves and gives a word. -/
theorem lowerOperator_proceeds (op : BinaryOp) {lhs rhs : Operand} (hl : s.Has .word lhs)
    (hr : s.Has .word rhs) :
    Proceeds 0 s (lowerOperator op lhs rhs) fun v t => t.Has .word v := by
  cases op with
  | word op =>
    have hallows : s.Allows (.binary op.opcode lhs rhs) :=
      allows_binary (operandTy_word op ▸ hl) (operandTy_word op ▸ hr)
    exact (proceeds_emit hallows).mono fun v t hv => resultTy_word op hl.2 ▸ hv
  | compare c =>
    refine (proceeds_emit (allows_icmp hl hr)).andThen fun flag t _ hflag => ?_
    exact proceeds_emit (allows_cast hflag ⟨rfl, rfl⟩ rfl)
  | float op =>
    refine (proceeds_asDouble hl).andThen fun l t hst hl => ?_
    refine (proceeds_asDouble (hr.grows hst)).andThen fun r u htu hr => ?_
    have hallows : u.Allows (.binary op.opcode l r) :=
      allows_binary (operandTy_float op ▸ hl.grows htu) (operandTy_float op ▸ hr)
    refine (proceeds_emit hallows).andThen fun v w _ hv => ?_
    rw [resultTy_float] at hv
    exact toWord_proceeds hv.1 (.inr (.inr (.inl hv.2)))
  | floatCompare c =>
    refine (proceeds_asDouble hl).andThen fun l t hst hl => ?_
    refine (proceeds_asDouble (hr.grows hst)).andThen fun r u htu hr => ?_
    refine (proceeds_emit (allows_fcmp (hl.grows htu) hr)).andThen fun flag w _ hflag => ?_
    exact toWord_proceeds hflag.1 (.inr (.inr (.inr hflag.2)))

/-- A name in the position of a callee gives something that can be called. -/
theorem lowerCalleeVariable_proceeds (name : Name) :
    Proceeds 0 s (lowerCalleeVariable name) fun callee t => t.Callable callee := by
  have hvariable : Proceeds 0 s (lowerVariable name) fun callee t => t.Callable callee :=
    (lowerVariable_proceeds name).mono fun _ _ => Has.callable
  refine proceeds_of_proper fun hs => proceeds_ofDraft_bind ?_
  split
  · next hb => exact proceeds_pure (admits_of_lookup? hs hb)
  · exact hvariable
  · refine proceeds_ofDraft_bind ?_
    split
    · next hg => exact proceeds_pure ⟨.globalFunction hg, .inr ⟨_, _, rfl⟩⟩
    · exact hvariable

/-- A call of known words goes by moves and gives a word. -/
theorem lowerApplication_proceeds {callee : Operand} {args : List Operand}
    (hcallee : s.Callable callee) (hargs : ∀ o ∈ args, s.Has .word o) :
    Proceeds 0 s (lowerApplication callee args) fun v t => t.Has .word v := by
  rw [lowerApplication.eq_def]
  split
  · next name result params =>
    split
    · next hlength =>
      refine proceeds_emit (allows_call hcallee.has_ptr hargs fun _ _ heq => ?_)
      cases heq
      obtain ⟨_, arity, heq⟩ := hcallee.2.resolve_left (by intro hty; cases hty)
      cases heq
      rw [← hlength, List.length_replicate, Ty.wordFunction]
    · exact proceeds_throw
  · next hglobal =>
    have hword : s.Has .word callee := by
      refine ⟨hcallee.1, hcallee.2.resolve_right ?_⟩
      rintro ⟨name, arity, rfl⟩
      exact hglobal _ _ _ rfl
    refine (proceeds_emit_register (allows_toPointer hword)).andThen
      fun pointer t hst hpointer => ?_
    obtain ⟨hpointer, r, rfl⟩ := hpointer
    exact proceeds_emit (allows_call hpointer (fun o ho => (hargs o ho).grows hst)
      (by intro _ _ heq; cases heq))

/-- A primitive gives a word if it is applied to as many words as it takes. -/
theorem lowerPrimitive_proceeds (p : Primitive) {args : List Operand}
    (hlength : args.length = p.arity) (hargs : ∀ o ∈ args, s.Has .word o) :
    Proceeds 0 s (lowerPrimitive p args) fun v t => t.Has .word v := by
  rw [lowerPrimitive.eq_def]
  split
  · next f =>
    refine (proceeds_library f).andThen fun callee t hst hcallee => ?_
    refine proceeds_emit (allows_call hcallee.2 (fun o ho => (hargs o ho).grows hst) ?_)
    intro name ty heq
    rw [hcallee.1] at heq
    cases heq
    rw [hlength, Primitive.arity]
  · next vector index =>
    have hvector := hargs vector List.mem_cons_self
    have hindex := hargs index (List.mem_cons_of_mem _ List.mem_cons_self)
    refine (proceeds_emit (allows_toPointer hvector)).andThen fun base t hst hbase => ?_
    have helement : t.Allows (.elementPtr (.array .word 0) base index) :=
      allows_elementPtr hbase (hindex.grows hst) fun _ h => absurd h List.not_mem_nil
    refine (proceeds_emit helement).andThen fun element u _ helement => ?_
    exact proceeds_emit (allows_load helement)
  · next value =>
    refine (proceeds_emit (allows_toDouble (hargs value List.mem_cons_self))).andThen
      fun double t _ hdouble => ?_
    exact proceeds_emit (allows_cast hdouble (.inl ⟨rfl, rfl⟩) rfl)
  · exact proceeds_word 0

private theorem storeElements_proceeds {ty : Ty} {base : Operand} (index : Nat)
    (values : List Operand) (hty : ∀ name ∈ ty.typeNames, s.Defines name) (hbase : s.Has .ptr base)
    (hvalues : ∀ o ∈ values, s.Has .word o) :
    Proceeds 0 s (storeElements ty base index values) fun _ _ => True := by
  induction values generalizing s index with
  | nil => exact proceeds_pure trivial
  | cons value values ih =>
    obtain ⟨hvalue, hvalues⟩ := List.forall_mem_cons.mp hvalues
    have helement := allows_elementPtr hbase (has_word s (.ofNat index)) hty
    refine (proceeds_emit helement).andThen fun element t hst helement => ?_
    refine (proceeds_store (hvalue.grows hst) helement).andThen fun _ u htu _ => ?_
    have hsu := hst.trans htu
    exact ih (index + 1) (fun name hname => (hty name hname).grows hsu) (hbase.grows hsu)
      fun o ho => (hvalues o ho).grows hsu

/-- An array of known words goes by moves and gives a word. -/
theorem lowerElements_proceeds {values : List Operand} (hvalues : ∀ o ∈ values, s.Has .word o) :
    Proceeds 0 s (lowerElements values) fun v t => t.Has .word v := by
  refine (proceeds_array values.length).andThen fun ty t hst hty => ?_
  refine (proceeds_emit (allows_alloca hty)).andThen fun base u htu hbase => ?_
  have hstore := storeElements_proceeds 0 values (fun name hname => (hty name hname).grows htu)
    hbase fun o ho => ((hvalues o ho).grows hst).grows htu
  refine hstore.andThen fun _ w huw _ => ?_
  exact proceeds_emit (allows_ofPointer (hbase.grows huw))

end Calls

/-! ### Conditionals -/

section Conditionals

variable {s : LowerState} {n k : Nat}

/-- An arm gives its value to the merge block unless it leaves the function. -/
private theorem lowerArm_proceeds (block merge : BlockRef) {arm : Lower Operand}
    (harm : ∀ t, s.Grows t → Proceeds n t arm fun v u => u.Has .word v) :
    Proceeds n s (lowerArm block merge arm) fun incoming t =>
      ∀ x ∈ incoming, t.Has .word x.1 := by
  refine (proceeds_moveTo block).andThen fun _ t hst _ => ?_
  refine proceeds_push.andThen fun _ u htu _ => ?_
  refine (harm u (hst.trans htu)).bind_zero fun v w _ hv => ?_
  refine proceeds_pop.andThen fun _ w' hww' _ => ?_
  refine proceeds_ofDraft_bind ?_
  split
  · exact proceeds_pure fun x hx => nomatch hx
  · refine proceeds_ofDraft_bind ?_
    refine (proceeds_terminate (t := .branch merge.label) trivial fun o ho => nomatch ho).andThen
      fun _ r hr _ => ?_
    refine proceeds_pure fun x hx => ?_
    obtain rfl := List.mem_singleton.mp hx
    exact (hv.grows hww').grows hr

/-- The value of a conditional is a word if those of its arms are. -/
theorem lowerBranches_proceeds (stem : String) {condition : Operand}
    {positive negative : Lower Operand} (hc : s.Has .word condition)
    (hpositive : ∀ t, s.Grows t → Proceeds n t positive fun v u => u.Has .word v)
    (hnegative : ∀ t, s.Grows t → Proceeds k t negative fun v u => u.Has .word v) :
    Proceeds (n + k) s (lowerBranches stem condition positive negative) fun v t =>
      t.Has .word v := by
  refine proceeds_ofDraft_bind ?_
  split
  · exact (proceeds_word 0).weaken (Nat.zero_le _)
  refine (proceeds_emit (allows_icmp hc (has_word s 0))).andThen fun flag t₁ h₁ hflag => ?_
  refine (proceeds_addBlock _).andThen fun thenBlock t₂ h₂ _ => ?_
  refine (proceeds_addBlock _).andThen fun elseBlock t₃ h₃ _ => ?_
  refine (proceeds_addBlock _).andThen fun merge t₄ h₄ _ => ?_
  have hfork : Proceeds 0 t₄ (terminate (.condBranch flag thenBlock.label elseBlock.label))
      fun _ _ => True := by
    refine proceeds_terminate hflag.2 fun o ho => ?_
    obtain rfl := List.mem_singleton.mp ho
    exact ((hflag.1.grows h₂).grows h₃).grows h₄
  refine hfork.andThen fun _ t₅ h₅ _ => ?_
  have hgrows : s.Grows t₅ := (((h₁.trans h₂).trans h₃).trans h₄).trans h₅
  refine (lowerArm_proceeds thenBlock merge fun t ht => hpositive t (hgrows.trans ht)).bind
    fun fromThen t₆ h₆ hthen => ?_
  refine (lowerArm_proceeds elseBlock merge fun t ht =>
    hnegative t ((hgrows.trans h₆).trans ht)).bind_zero fun fromElse t₇ h₇ helse => ?_
  refine (proceeds_moveTo merge).andThen fun _ t₈ h₈ _ => ?_
  have hincoming : ∀ x ∈ fromThen ++ fromElse, t₈.Has .word x.1 := by
    intro x hx
    rcases List.mem_append.mp hx with hx | hx
    · exact ((hthen x hx).grows h₇).grows h₈
    · exact (helse x hx).grows h₈
  split
  · refine (proceeds_terminate (t := .unreachable) trivial fun o ho => nomatch ho).andThen
      fun _ _ _ _ => ?_
    exact proceeds_word 0
  · exact proceeds_emit (allows_phi hincoming)

end Conditionals

end Lower

end WordScheme
