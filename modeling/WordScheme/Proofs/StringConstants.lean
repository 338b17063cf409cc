import Mathlib
import WordScheme.Proofs.FunctionAccount
import WordScheme.Proofs.LoweringPoints

/-!
# String constants are shared and faithful

A unit keeps a table of the strings that have a constant. `CompileUnit.Interned` compares the whole
module with this table: every constant holds the string it is noted for, and every address within a
global that the code of a function takes is that of a string in the table (`Definition.Suits`). The
table only grows, also when a function fails, so the comparison is kept by every change of a
lowering and by every step of a compilation.

Together with what is known of the names of definitions (`CompileUnit.Sound`) it follows that in a
compiled module no two constants share their name or their content, and that every literal of a
function is addressed through the constant that holds it: `compiled_strings_shared`.
-/

namespace WordScheme

open Lower LowerState FunctionDraft

/-- The encoding determines the text. -/
theorem utf8Bytes_injective : Function.Injective utf8Bytes := by
  intro s t h
  have hbytes : s.toList.utf8Encode = t.toList.utf8Encode := congrArg List.toByteArray h
  rw [String.utf8Encode_toList, String.utf8Encode_toList] at hbytes
  exact String.toByteArray_inj.mp hbytes

/-! ### The table of a unit -/

/-- An address within a global is that of a string in the table. -/
def Instruction.Addresses (strings : Assoc String Name) (i : Instruction) : Prop :=
  ∀ ty name gty index, i = .elementPtr ty (.global name gty) index →
    ∃ value, strings.get? value = some name ∧ i = stringAddress name value

/-- All addresses within globals in a function are those of strings in the table. -/
def Function.Addresses (strings : Assoc String Name) (f : Function) : Prop :=
  ∀ b ∈ f.blocks, ∀ x ∈ b.statements, x.instruction.Addresses strings

/-- A constant holds a string that the table has under its name, and a function takes the addresses
of such strings. -/
def Definition.Suits (strings : Assoc String Name) : Definition → Prop
  | .stringConstant name bytes =>
    ∃ value, strings.get? value = some name ∧ bytes = utf8Bytes value ++ [0]
  | .function f => f.Addresses strings
  | _ => True

/-- Another table has all that a table has. -/
def Assoc.Within (old new : Assoc String Name) : Prop :=
  ∀ value name, old.get? value = some name → new.get? value = some name

section Table

variable {old new : Assoc String Name}

/-- An address in the table is one in a larger table. -/
private theorem Instruction.Addresses.mono (h : old.Within new) {i : Instruction}
    (hi : i.Addresses old) : i.Addresses new := by
  intro ty name gty index heq
  obtain ⟨value, hvalue, haddress⟩ := hi ty name gty index heq
  exact ⟨value, h value name hvalue, haddress⟩

/-- A definition that suits a table suits a larger one. -/
private theorem Definition.Suits.mono (h : old.Within new) {d : Definition} (hd : d.Suits old) :
    d.Suits new := by
  cases d with
  | stringConstant name bytes =>
    obtain ⟨value, hvalue, hbytes⟩ := hd
    exact ⟨value, h value name hvalue, hbytes⟩
  | function f => exact fun b hb x hx => (hd b hb x hx).mono h
  | _ => trivial

end Table

namespace CompileUnit

variable {P : String → Prop} {u v : CompileUnit}

/-- The strings of a unit are among the given ones, and its module suits the table of its
strings. -/
structure Interned (P : String → Prop) (u : CompileUnit) : Prop where
  known : ∀ {value name}, u.strings.get? value = some name → P value
  suits : ∀ d ∈ u.module.definitions, d.Suits u.strings

/-- A definition that suits the table may be added. -/
private theorem Interned.ensure (h : u.Interned P) {d : Definition} (hd : d.Suits u.strings) :
    (u.ensure d).Interned P := by
  refine ⟨h.known, fun e he => ?_⟩
  rcases ModuleDraft.mem_or_eq_of_mem_ensure he with he | rfl
  · exact h.suits e he
  · exact hd

/-- A string that gets its constant leaves the entries of the others. -/
private theorem within_stringConstant (u : CompileUnit) (value : String) :
    u.strings.Within (u.stringConstant value).2.strings :=
  fun _ _ hv => (grows_string ⟨u, .start "" [] []⟩ value).strings hv

/-- A string that gets its constant is in the table from then on. -/
private theorem Interned.stringConstant (h : u.Interned P) {value : String} (hvalue : P value) :
    (u.stringConstant value).2.Interned P := by
  have hwithin := u.within_stringConstant value
  rw [CompileUnit.stringConstant] at hwithin ⊢
  cases hv : u.strings.get? value with
  | some name => exact h
  | none =>
    rw [hv] at hwithin
    refine ⟨fun {other name} hget => ?_, fun d hd => ?_⟩
    · by_cases heq : other = value
      · exact heq ▸ hvalue
      · exact h.known ((Assoc.get?_put_of_ne _ _ heq).symm.trans hget)
    · rcases ModuleDraft.mem_or_eq_of_mem_ensure hd with hd | rfl
      · exact (h.suits d hd).mono hwithin
      · exact ⟨value, Assoc.get?_put_self _ _ _, rfl⟩

/-- A unit with the same table and no other definitions. -/
private theorem Interned.of_subset (h : u.Interned P) (hstrings : v.strings = u.strings)
    (hdefinitions : v.module.definitions ⊆ u.module.definitions) : v.Interned P :=
  ⟨fun hv => h.known (hstrings ▸ hv), fun d hd => hstrings ▸ h.suits d (hdefinitions hd)⟩

/-- Dropping a function adds no definition. -/
private theorem dropFunction_subset (m : ModuleDraft) (name : Name) :
    (m.dropFunction name).definitions ⊆ m.definitions := by
  rw [ModuleDraft.dropFunction, ModuleDraft.removeFunction]
  cases (m.defining name).findSome? fun x => x.2.function?.map fun f => (x.1, f) with
  | none => exact List.Subset.refl _
  | some x => exact (List.eraseIdx_sublist ..).subset

/-- A function that takes addresses in the table may be installed. -/
private theorem Interned.install (h : u.Interned P) {f : Function} (hf : f.Addresses u.strings) :
    (u.install f).Interned P := by
  have hdropped : Interned P { u with module := u.module.dropFunction f.name } :=
    h.of_subset rfl (dropFunction_subset _ _)
  exact hdropped.ensure (d := .function f) hf

/-- Lambdas may be dropped. -/
private theorem Interned.discardLifted (h : u.Interned P) : u.discardLifted.2.Interned P := by
  refine h.of_subset rfl ?_
  change (u.lifted.foldl ModuleDraft.dropFunction u.module).definitions ⊆ _
  generalize u.module = m
  induction u.lifted generalizing m with
  | nil => exact List.Subset.refl _
  | cons name names ih => exact List.Subset.trans (ih _) (dropFunction_subset m name)

end CompileUnit

/-! ### Lowering -/

namespace LowerState

variable {V : Vocabulary} {P : String → Prop} {s t : LowerState}

/-- A change of a lowering only adds. -/
private theorem Change.grows (h : Change V s t) : s.Grows t := by
  cases h with
  | emit h => exact grows_emit s _
  | address h => exact grows_emit s _
  | phi incoming => exact grows_emit s _
  | store value pointer => exact grows_emitEffect s _
  | terminate t hlive => exact grows_endWith s t
  | addBlock h => exact grows_addBlock s _
  | goTo index h => exact grows_goTo s h
  | string h => exact grows_string s _
  | array length => exact grows_ensure s _
  | library f => exact grows_ensure s _
  | lift h => exact grows_lift s _
  | _ => exact grows_rescope s _

/-- A change of a lowering only extends the draft. -/
private theorem Change.blocks (h : Change V s t) : s.draft.Extends t.draft := by
  cases h with
  | emit h => exact extends_append s.draft.freshRegister.2 _
  | address h => exact extends_append s.draft.freshRegister.2 _
  | phi incoming => exact extends_append s.draft.freshRegister.2 _
  | store value pointer => exact extends_append s.draft _
  | terminate t hlive => exact extends_endWith hlive t
  | addBlock h => exact extends_addBlock s.draft _
  | _ => exact .refl s.draft

/-- The table of strings grows, and so does the code. -/
private theorem changes_grow (h : Changes V s t) :
    s.unit.strings.Within t.unit.strings ∧ s.draft.Extends t.draft := by
  induction h with
  | refl => exact ⟨fun _ _ => id, .refl _⟩
  | tail _ hchange ih =>
    obtain ⟨hstrings, hblocks⟩ := ih
    exact ⟨fun value name hv => hchange.grows.strings (hstrings value name hv),
      hblocks.trans hchange.blocks⟩

/-- The unit, the code of the function at hand and the functions found in it have strings as they
should. -/
structure Interned (P : String → Prop) (s : LowerState) : Prop where
  unit : s.unit.Interned P
  code : ∀ {x}, s.draft.Contains x → x.instruction.Addresses s.unit.strings
  pending : ∀ g ∈ s.draft.pending, ∀ value ∈ stringsAll g.lambda.body, P value

/-- No address within a global is taken. -/
private theorem addresses_of_isOrdinary {i : Instruction} (h : i.isOrdinary = true)
    (strings : Assoc String Name) : i.Addresses strings := by
  rintro ty name gty index rfl
  cases h

/-- The address of a string in the table is one. -/
private theorem addresses_stringAddress {strings : Assoc String Name} {value : String} {name : Name}
    (h : strings.get? value = some name) : (stringAddress name value).Addresses strings := by
  intro ty name' gty index heq
  cases heq
  exact ⟨value, h, rfl⟩

/-- The draft changes, and every statement in it was there or takes no other address. -/
private theorem Interned.draft (h : s.Interned P) {d : FunctionDraft}
    (hcontains : ∀ {x}, d.Contains x →
      s.draft.Contains x ∨ x.instruction.Addresses s.unit.strings)
    (hpending : d.pending = s.draft.pending) : Interned P { s with draft := d } :=
  ⟨h.unit, fun hx => (hcontains hx).elim h.code id, hpending ▸ h.pending⟩

/-- An instruction that takes an address in the table may be written. -/
private theorem Interned.emit (h : s.Interned P) {i : Instruction}
    (hi : i.Addresses s.unit.strings) : Interned P { s with draft := (s.draft.emit i).2 } := by
  refine h.draft (fun hx => ?_) (append_pending _ _)
  rcases contains_emit hx with hx | rfl
  · exact .inl hx
  · exact .inr hi

/-- The unit changes, and its table grows. -/
private theorem Interned.setUnit (h : s.Interned P) {u : CompileUnit} (hu : u.Interned P)
    (hwithin : s.unit.strings.Within u.strings) : Interned P { s with unit := u } :=
  ⟨hu, fun hx => (h.code hx).mono hwithin, h.pending⟩

/-- A lambda may be lifted if its strings are among the given ones. -/
private theorem Interned.lift (h : s.Interned P) {l : Lambda}
    (hl : ∀ value ∈ stringsAll l.body, P value) : (s.lift l).Interned P := by
  have hsupplied : (s.unit.freshLambdaName s.draft.globals).2.Interned P :=
    h.unit.of_subset rfl (List.Subset.refl _)
  have hplaceholder := hsupplied.ensure
    (d := ModuleDraft.placeholder (s.unit.freshLambdaName s.draft.globals).1 l.params)
    fun b hb => by cases hb
  refine ⟨hplaceholder.of_subset rfl (List.Subset.refl _), fun hx => h.code hx, fun g hg => ?_⟩
  rcases List.mem_append.mp hg with hg | hg
  · exact h.pending g hg
  · rw [List.mem_singleton.mp hg]
    exact hl

/-- A change of a lowering keeps strings as they should be. -/
theorem Interned.change (h : s.Interned V.strings) (hchange : Change V s t) :
    t.Interned V.strings := by
  cases hchange with
  | emit hi => exact h.emit (addresses_of_isOrdinary hi _)
  | address hv => exact h.emit (addresses_stringAddress hv)
  | phi incoming => exact h.emit fun ty name gty index heq => by cases heq
  | store value pointer =>
    refine h.draft (fun hx => ?_) (append_pending _ _)
    rcases contains_append hx with hx | rfl
    · exact .inl hx
    · exact .inr (addresses_of_isOrdinary rfl _)
  | terminate t hlive => exact h.draft (fun hx => .inl (contains_endWith hx)) rfl
  | addBlock hbase => exact h.draft (fun hx => .inl (contains_addBlock hx)) rfl
  | string hv => exact h.setUnit (h.unit.stringConstant hv) (s.unit.within_stringConstant _)
  | array length => exact h.setUnit (h.unit.ensure trivial) fun _ _ => id
  | library f => exact h.setUnit (h.unit.ensure trivial) fun _ _ => id
  | lift hl => exact h.lift hl
  | _ => exact ⟨h.unit, h.code, h.pending⟩

/-- **Strings stay as they should** while a function is lowered. -/
theorem Interned.changes (h : s.Interned V.strings) (hchanges : Changes V s t) :
    t.Interned V.strings := by
  induction hchanges with
  | refl => exact h
  | tail _ hchange ih => exact ih.change hchange

end LowerState

/-! ### Functions -/

namespace Attempt

variable {P : String → Prop} {u : CompileUnit} {a : Attempt}

/-- The state in which the function has been left. -/
def left (a : Attempt) (u : CompileUnit) : LowerState :=
  endState (leaving a.steps) (a.begin u)

/-- A function is built in two steps: its value is returned, and then the draft is finished. -/
theorem run_eq_leaving (a : Attempt) (u : CompileUnit) :
    a.run u = match leaving a.steps (a.begin u) with
      | .ok _ s => (s.draft.finish, s.unit)
      | .error e s => (.error e, s.unit) := by
  cases a <;> exact buildFunction_eq _ _ _

/-- What the attempt comes to is what that state has. -/
theorem run_eq_left (a : Attempt) (u : CompileUnit) :
    (a.run u).2 = (a.left u).unit ∧ ∀ f, (a.run u).1 = .ok f → (a.left u).draft.finish = .ok f := by
  rw [left, endState, run_eq_leaving]
  cases leaving a.steps (a.begin u) with
  | ok _ s => exact ⟨rfl, fun f hf => hf⟩
  | error e s => exact ⟨rfl, fun f hf => by cases hf⟩

/-- The steps of an attempt go by changes with the strings of its forms. -/
private theorem goesBy_steps (h : ∀ value ∈ stringsAll a.forms, P value) :
    GoesBy (a.vocabulary P) a.steps := by
  have hcovers := covers_forms h
  cases a with
  | entry forms skipped globals => exact (lowerForms_composed skipped 0 _ forms hcovers).goesBy
  | function f =>
    rw [steps, lowerBody_eq]
    refine (goesBy_openBody (V := (function f).vocabulary P) _).andThen fun _ => ?_
    refine (lower_composed (V := (function f).vocabulary P) (.sequence f.lambda.body)
      hcovers).goesBy.andThen fun value => ?_
    exact GoesBy.andThen (fun _ => .single .pop) fun _ => goesBy_pure value

/-- A function is begun in a state whose strings are as they should be. -/
private theorem interned_begin (h : u.Interned P) (a : Attempt) : (a.begin u).Interned P := by
  obtain ⟨name, params, hbegin⟩ := a.exists_begin u
  rw [hbegin]
  refine ⟨h.of_subset rfl (List.Subset.refl _), ?_, ?_⟩
  · rintro x ⟨i, b, hb, hx⟩
    obtain ⟨-, rfl⟩ := Site.block?_start hb
    cases hx
  · intro g hg
    cases hg

/-- The state in which a function has been left is reached by changes. -/
theorem changes_left (u : CompileUnit) (hforms : ∀ value ∈ stringsAll a.forms, P value) :
    Changes (a.vocabulary P) (a.begin u) (a.left u) := by
  have hgoes : GoesBy (a.vocabulary P) (leaving a.steps) :=
    (goesBy_steps hforms).andThen fun value => (Composed.returning value).goesBy
  exact hgoes (a.begin u)

/-- Building a function keeps the table, also if it fails. -/
private theorem within_run (a : Attempt) (u : CompileUnit) :
    u.strings.Within (a.run u).2.strings := by
  have hchanges : Changes (a.vocabulary fun _ => True) (a.begin u) (a.left u) :=
    changes_left u fun _ _ => trivial
  obtain ⟨hwithin, -⟩ := changes_grow hchanges
  rw [a.begin_unit] at hwithin
  exact (a.run_eq_left u).1 ▸ hwithin

/-- **An attempt keeps strings as they should be**, whether it succeeds or fails. -/
theorem interned_left (h : u.Interned P) (hforms : ∀ value ∈ stringsAll a.forms, P value) :
    (a.left u).Interned P :=
  Interned.changes (V := a.vocabulary P) (interned_begin h a) (changes_left u hforms)

/-- What a finished function refers to, and the functions found in it. -/
private theorem interned_of_run (h : u.Interned P) (hforms : ∀ value ∈ stringsAll a.forms, P value)
    {f : FinishedFunction} (hf : (a.run u).1 = .ok f) :
    f.function.Addresses (a.run u).2.strings ∧
      ∀ g ∈ f.pending, ∀ value ∈ stringsAll g.lambda.body, P value := by
  obtain ⟨hunit, hfinish⟩ := a.run_eq_left u
  have hleft := interned_left h hforms
  refine ⟨fun b hb x hx => ?_, ?_⟩
  · rw [hunit]
    exact hleft.code (contains_of_finish (hfinish f hf) hb hx)
  · obtain ⟨blocks, rfl, -⟩ := FunctionDraft.of_finish (hfinish f hf)
    exact hleft.pending

/-- An instruction stands in the current block, unless that has ended. -/
private theorem exists_mem_of_emit {d : FunctionDraft} (hlive : d.terminated = false)
    (i : Instruction) :
    ∃ b, (d.emit i).2.block? d.current = some b ∧ ⟨some (d.registers + 1), i⟩ ∈ b.statements := by
  have hfresh : d.freshRegister.2.terminated = false := hlive
  refine ⟨{ d.currentBlock with
    statements := d.currentBlock.statements ++ [⟨some (d.registers + 1), i⟩] }, ?_,
    List.mem_append_right _ List.mem_cons_self⟩
  change (d.freshRegister.2.append _).block? d.freshRegister.2.current = _
  rw [append_of_live hfresh, block?_updateCurrent, if_pos rfl]
  rfl

/-- The blocks of a finished function are those of its draft. -/
private theorem exists_block_of_finish {d : FunctionDraft} {f : FinishedFunction}
    (h : d.finish = .ok f) {i : Nat} {b : BlockDraft} (hb : d.block? i = some b) :
    ∃ c, f.function.blocks[i]? = some c ∧ c.statements = b.statements := by
  obtain ⟨blocks, rfl, hrows⟩ := FunctionDraft.of_finish h
  rw [block?, Table.get?, hrows, List.getElem?_map] at hb
  obtain ⟨c, hc, rfl⟩ := Option.map_eq_some_iff.mp hb
  exact ⟨c, hc, rfl⟩

/-- A literal is addressed through the constant that the table has for it. If the function is built,
the address stands in its code, unless the literal is lowered behind the end of a block. -/
private theorem Comes.exists_address {value : String} {s : LowerState}
    (h : a.Comes u (.literal (.string value)) s) :
    ∃ name unit, (a.run u).2.strings.get? value = some name ∧
      (let address := s.draft.emit (stringAddress name value)
        let word := address.2.emit (.ofPointer address.1)
        lower a.assigned (.literal (.string value)) s = .ok word.1 ⟨unit, word.2⟩) ∧
      ∀ f, (a.run u).1 = .ok f → s.draft.terminated = false →
        ∃ b, f.function.blocks[s.draft.current]? = some b ∧
          ⟨some (s.draft.registers + 1), stringAddress name value⟩ ∈ b.statements := by
  obtain ⟨hunit, hfinish⟩ := a.run_eq_left u
  obtain ⟨name, hname, hrun⟩ := lowerLiteral_string_eq value s
  have hlower : lower a.assigned (.literal (.string value)) s = _ := hrun
  have hcomes : ComesTo (a.vocabulary fun _ => True) (leaving a.steps) (a.begin u)
      (lower a.assigned (.literal (.string value))) s :=
    (h.comesTo fun _ _ => trivial).1.bind fun v => (Composed.returning v).goesBy
  have hrest := hcomes.changes_rest
  rw [endState_of_ok hlower] at hrest
  obtain ⟨hwithin, hextends⟩ := changes_grow hrest
  refine ⟨name, _, hunit ▸ hwithin value name hname, hrun, fun f hf hlive => ?_⟩
  obtain ⟨b, hb, hmem⟩ := exists_mem_of_emit hlive (stringAddress name value)
  obtain ⟨c, hc, -, hprefix, -⟩ := (extends_append _ _).trans hextends s.draft.current b hb
  obtain ⟨block, hblock, hstatements⟩ := exists_block_of_finish (hfinish f hf) hc
  exact ⟨block, hblock, hstatements ▸ hprefix.subset hmem⟩

end Attempt

/-! ### Compilations -/

/-- A function that a compilation comes to build, with the unit in which it does. -/
inductive Attempt.Tried (forms : List Expr) (options : CompileOptions) :
    Attempt → CompileUnit → Prop
  | entry {top : TopLevel} (htop : topLevel forms options = .ok top) :
      Tried forms options (.entry forms top.functionForms top.globals) top.unit
  | function {top : TopLevel} {begun p : Progress} {f : PendingFunction}
      {queue : List PendingFunction} (htop : topLevel forms options = .ok top)
      (hbegun : top.started forms options = .ok begun)
      (hp : Relation.ReflTransGen (Progress.Advances options.policy) begun p)
      (hqueue : p.queue = f :: queue) : Tried forms options (.function f) p.unit

namespace Progress

variable {P : String → Prop} {policy : ErrorPolicy} {p q : Progress}

/-- The unit and the functions that wait have strings as they should. -/
structure Interned (P : String → Prop) (p : Progress) : Prop where
  unit : p.unit.Interned P
  queue : ∀ g ∈ p.queue, ∀ value ∈ stringsAll g.lambda.body, P value

/-- Taking in a function keeps strings as they should be, and the table that it has left. -/
private theorem Interned.record (hp : p.Interned P) {a : Attempt}
    (hforms : ∀ value ∈ stringsAll a.forms, P value) {name : Name}
    (h : p.record policy name (a.run p.unit) = .ok q) :
    q.Interned P ∧ q.unit.strings = (a.run p.unit).2.strings := by
  have hunit : (a.run p.unit).2.Interned P :=
    (a.run_eq_left p.unit).1 ▸ (Attempt.interned_left hp.unit hforms).unit
  obtain ⟨f, hf, rfl⟩ | ⟨e, -, -, rfl⟩ := record_cases h
  · obtain ⟨haddresses, hpending⟩ := Attempt.interned_of_run hp.unit hforms hf
    exact ⟨⟨hunit.install haddresses, List.forall_mem_append.mpr ⟨hp.queue, hpending⟩⟩, rfl⟩
  · exact ⟨⟨hunit.discardLifted, hp.queue⟩, rfl⟩

/-- **The queue keeps strings as they should be.** What a call has noted in the table stays
there. -/
theorem Interned.works {calls : List Call} (h : p.Works policy calls (.ok q))
    (hp : p.Interned P) :
    q.Interned P ∧ p.unit.strings.Within q.unit.strings ∧ ∀ c ∈ calls, ∃ r queue,
      Relation.ReflTransGen (Advances policy) p r ∧ r.queue = c.function :: queue ∧
      c.result = lowerFunction r.unit c.function ∧ c.result.2.strings.Within q.unit.strings := by
  -- along the calls: what is noted by one of them is not lost by those behind it
  generalize hresult : (Except.ok q : Except Diagnostic Progress) = result at h
  induction h with
  | done =>
    cases hresult
    exact ⟨hp, fun _ _ => id, fun c hc => by cases hc⟩
  | stop => cases hresult
  | @next p p' f queue calls result hqueue hrecord _ ih =>
    have hrest : Interned P { p with queue } :=
      ⟨hp.unit, fun g hg => hp.queue g (hqueue ▸ List.mem_cons_of_mem _ hg)⟩
    have hbody := hp.queue f (hqueue ▸ List.mem_cons_self)
    obtain ⟨hp', hstrings⟩ := hrest.record (a := .function f) hbody hrecord
    obtain ⟨hq, hwithin, hcalls⟩ := ih hp' hresult
    have hkept : (lowerFunction p.unit f).2.strings.Within q.unit.strings := hstrings ▸ hwithin
    refine ⟨hq, fun value name hv => hkept _ _ (Attempt.within_run (.function f) p.unit _ _ hv), ?_⟩
    refine List.forall_mem_cons.mpr ⟨⟨p, queue, .refl, hqueue, rfl, hkept⟩, fun c hc => ?_⟩
    obtain ⟨r, queue', hr, hc⟩ := hcalls c hc
    exact ⟨r, queue', .head (.next hqueue hrecord) hr, hc⟩

/-- What the queue works through is a run of steps. -/
theorem Works.advances {calls : List Call} (h : p.Works policy calls (.ok q)) :
    Relation.ReflTransGen (Advances policy) p q := by
  generalize hresult : (Except.ok q : Except Diagnostic Progress) = result at h
  induction h with
  | done =>
    cases hresult
    exact .refl
  | stop => cases hresult
  | next hqueue hrecord _ ih => exact .head (.next hqueue hrecord) (ih hresult)

end Progress

/-- Collecting the top level forms keeps strings as they should be. -/
private theorem TopLevel.interned_collect {P : String → Prop} {t top : TopLevel} {index : Nat}
    {forms : List Expr} (hforms : ∀ value ∈ stringsAll forms, P value) (ht : t.unit.Interned P)
    (hfunctions : ∀ x ∈ t.functions, ∀ value ∈ stringsAll x.2.body, P value)
    (h : t.collect index forms = .ok top) :
    top.unit.Interned P ∧ ∀ x ∈ top.functions, ∀ value ∈ stringsAll x.2.body, P value := by
  induction forms generalizing t index with
  | nil =>
    cases h
    exact ⟨ht, hfunctions⟩
  | cons form forms ih =>
    obtain ⟨hform, hrest⟩ := List.forall_mem_append.mp hforms
    obtain ⟨u, hnotes, h⟩ := collect_cons h
    cases hnotes with
    | skip => exact ih hrest ht hfunctions h
    | function =>
      refine ih hrest (ht.ensure fun b hb => by cases hb) ?_ h
      exact List.forall_mem_append.mpr ⟨hfunctions, List.forall_mem_singleton.mpr hform⟩
    | var =>
      refine ih hrest ?_ ?_ h
      · exact ht.ensure trivial
      · exact hfunctions

/-- Before anything is built there are no constants. -/
private theorem TopLevel.interned_topLevel {forms : List Expr} {options : CompileOptions}
    {top : TopLevel} (h : topLevel forms options = .ok top) :
    Progress.Interned (· ∈ stringsAll forms) ⟨top.unit, [], top.pending⟩ := by
  have hstart : (CompileUnit.start options.moduleName options.entry).Interned
      (· ∈ stringsAll forms) :=
    ⟨fun hv => (by cases hv), fun d hd => (by cases hd)⟩
  obtain ⟨hunit, hfunctions⟩ := interned_collect (fun _ => id)
    (hstart.ensure (d := ModuleDraft.placeholder options.entry []) fun b hb => by cases hb)
    (fun x hx => by cases hx) h
  refine ⟨hunit, fun g hg => ?_⟩
  obtain ⟨x, hx, rfl⟩ := List.mem_map.mp hg
  exact hfunctions x hx

/-! ### Modules -/

/-- The name and the content of a string constant. -/
def Definition.constant? : Definition → Option (Name × List UInt8)
  | .stringConstant name bytes => some (name, bytes)
  | _ => none

/-- The string constants of a module, by name and content. -/
def Module.constants (m : Module) : List (Name × List UInt8) :=
  m.definitions.filterMap Definition.constant?

/-- The constants of a module are shared by the strings of a program and hold them, and code takes
no other addresses within globals than theirs. -/
structure Module.SharesStrings (strings : List String) (m : Module) : Prop where
  names : (m.constants.map Prod.fst).Nodup
  contents : (m.constants.map Prod.snd).Nodup
  faithful : ∀ c ∈ m.constants, ∃ value ∈ strings, c.2 = utf8Bytes value ++ [0]
  addresses : ∀ f ∈ m.functions, ∀ b ∈ f.blocks, ∀ x ∈ b.statements, ∀ ty name gty index,
    x.instruction = .elementPtr ty (.global name gty) index →
      ∃ value ∈ strings, (name, utf8Bytes value ++ [0]) ∈ m.constants ∧
        x.instruction = stringAddress name value

/-- The constants of a module are its definitions of that kind. -/
private theorem Module.mem_constants {m : Module} {name : Name} {bytes : List UInt8} :
    (name, bytes) ∈ m.constants ↔ .stringConstant name bytes ∈ m.definitions := by
  rw [constants, List.mem_filterMap]
  constructor
  · rintro ⟨d, hd, hconstant⟩
    cases d with
    | stringConstant => cases hconstant; exact hd
    | _ => cases hconstant
  · exact fun h => ⟨_, h, rfl⟩

namespace CompileUnit

variable {P : String → Prop} {G : Globals} {u : CompileUnit}

/-- No two constants share their name. -/
private theorem Sound.nodup_constantNames (h : u.Sound G) :
    (u.module.finish.constants.map Prod.fst).Nodup := by
  have hkeys := h.distinct
  rw [List.Nodup, List.pairwise_map] at hkeys ⊢
  refine hkeys.filterMap _ fun d e hne c hd c' he heq => hne ?_
  cases d <;> cases hd
  cases e <;> cases he
  exact congrArg (Prod.mk _) heq

/-- A string in the table has a constant that holds it. -/
private theorem Sound.mem_constants (h : u.Sound G) {value : String} {name : Name}
    (hv : u.strings.get? value = some name) :
    (name, utf8Bytes value ++ [0]) ∈ u.module.finish.constants :=
  Module.mem_constants.mpr (h.strings hv)

/-- A constant holds a string in the table. -/
private theorem Interned.exists_value (h : u.Interned P) {c : Name × List UInt8}
    (hc : c ∈ u.module.finish.constants) :
    ∃ value, u.strings.get? value = some c.1 ∧ c.2 = utf8Bytes value ++ [0] :=
  h.suits _ (Module.mem_constants.mp hc)

/-- **A module that suits its table shares its strings.** -/
theorem Interned.sharesStrings {strings : List String} (h : u.Interned (· ∈ strings))
    (hsound : u.Sound G) : u.module.finish.SharesStrings strings where
  names := hsound.nodup_constantNames
  contents := by
    have hnames := hsound.nodup_constantNames
    rw [List.Nodup, List.pairwise_map] at hnames ⊢
    refine hnames.imp_of_mem fun {c c'} hc hc' hne heq => hne ?_
    obtain ⟨value, hv, hbytes⟩ := h.exists_value hc
    obtain ⟨value', hv', hbytes'⟩ := h.exists_value hc'
    -- one content is that of one string, which has one constant
    have hvalue : value = value' :=
      utf8Bytes_injective (List.append_cancel_right (hbytes.symm.trans (heq.trans hbytes')))
    subst hvalue
    exact Option.some.inj (hv.symm.trans hv')
  faithful := by
    intro c hc
    obtain ⟨value, hv, hbytes⟩ := h.exists_value hc
    exact ⟨value, h.known hv, hbytes⟩
  addresses := by
    intro f hf b hb x hx ty name gty index heq
    obtain ⟨d, hd, hfunction⟩ := List.mem_filterMap.mp hf
    have haddresses : f.Addresses u.strings := by
      rw [Definition.eq_function hfunction] at hd
      exact h.suits _ hd
    obtain ⟨value, hv, haddress⟩ := haddresses b hb x hx ty name gty index heq
    exact ⟨value, h.known hv, hsound.mem_constants hv, haddress⟩

end CompileUnit

/-- Where the function built from `u` lowers a literal, it takes the address of the constant of the
module that holds the literal. The address stands in the code, unless the literal comes behind the
end of a block. -/
def Attempt.AddressesLiterals (a : Attempt) (u : CompileUnit) (m : Module) (f : Function) : Prop :=
  ∀ value s, a.Comes u (.literal (.string value)) s →
    ∃ name unit, (name, utf8Bytes value ++ [0]) ∈ m.constants ∧
      (let address := s.draft.emit (stringAddress name value)
        let word := address.2.emit (.ofPointer address.1)
        lower a.assigned (.literal (.string value)) s = .ok word.1 ⟨unit, word.2⟩) ∧
      (s.draft.terminated = false → ∃ b, f.blocks[s.draft.current]? = some b ∧
        ⟨some (s.draft.registers + 1), stringAddress name value⟩ ∈ b.statements)

/-- Every literal of a built function is addressed through the constant that holds it. -/
private theorem Attempt.addressesLiterals {G : Globals} {a : Attempt} {u v : CompileUnit}
    {finished : FinishedFunction} (hv : v.Sound G)
    (hwithin : (a.run u).2.strings.Within v.strings) (hrun : (a.run u).1 = .ok finished) :
    a.AddressesLiterals u v.module.finish finished.function := by
  intro value s hcomes
  obtain ⟨name, unit, hname, hlower, hcode⟩ := hcomes.exists_address
  exact ⟨name, unit, hv.mem_constants (hwithin value name hname), hlower, hcode finished hrun⟩

/-- A call that leaves a body has built it. -/
private theorem Call.exists_of_outcome {c : Call} (h : c.outcome.blocks ≠ []) :
    ∃ finished, c.result.1 = .ok finished ∧ finished.function = c.outcome := by
  rw [outcome] at h ⊢
  split at h
  · next finished heq => exact ⟨finished, heq, rfl⟩
  · exact absurd rfl h

/-- What the module of a program has to do with the strings of the program. -/
structure CompileOutput.SharesStrings (forms : List Expr) (options : CompileOptions)
    (output : CompileOutput) : Prop extends output.module.SharesStrings (stringsAll forms) where
  /-- Every body comes from an attempt to build it, and takes the addresses of its literals. -/
  literals : ∀ f ∈ output.module.functions, f.blocks ≠ [] →
    ∃ a u finished, Attempt.Tried forms options a u ∧ (a.run u).1 = .ok finished ∧
      finished.function = f ∧ a.AddressesLiterals u output.module f

/-- **Strings are shared and faithful** in the module of every program, whichever functions were
skipped: its constants have distinct names and contents, each holds a literal of the program, and
every function body takes for each of its literals the address of the constant that holds it. -/
theorem compiled_strings_shared (forms : List Expr) (options : CompileOptions)
    (output : CompileOutput) (h : compileProgram forms options = .ok output) :
    output.SharesStrings forms options := by
  obtain ⟨calls, hcompiles⟩ := exists_compilesBy forms options
  rw [h] at hcompiles
  obtain ⟨hperm, -⟩ := hcompiles.functions_perm
  cases hcompiles with
  | @finishes top begun done calls htop hbegun hworks =>
    obtain ⟨htopSound, -⟩ := TopLevel.sound_topLevel htop
    obtain ⟨t, hbuilds⟩ := lowerEntry_builds top.unit forms top.functionForms top.globals
    have hsound : done.unit.Sound top.globals :=
      ((htopSound.progress.record hbuilds htopSound.entry hbegun).1.advances hworks.advances).unit
    have hinterned := TopLevel.interned_topLevel htop
    obtain ⟨hbegunInterned, hentry⟩ := hinterned.record
      (a := .entry forms top.functionForms top.globals) (fun _ => id) hbegun
    obtain ⟨hdone, hwithin, hcalls⟩ := hbegunInterned.works hworks
    refine ⟨hdone.unit.sharesStrings hsound, fun f hf hblocks => ?_⟩
    -- a function of the module is what some call left, the first of them that of the entry function
    obtain ⟨c, hc, rfl⟩ := List.mem_map.mp (hperm.mem_iff.mp hf)
    obtain ⟨finished, hrun, hfunction⟩ := Call.exists_of_outcome hblocks
    rcases List.mem_cons.mp hc with rfl | hc
    · refine ⟨_, _, finished, .entry htop, hrun, hfunction, hfunction ▸ ?_⟩
      exact Attempt.addressesLiterals hsound (hentry ▸ hwithin) hrun
    · obtain ⟨r, queue, hr, hqueue, hresult, hkept⟩ := hcalls c hc
      rw [hresult] at hrun hkept
      refine ⟨_, _, finished, .function htop hbegun hr hqueue, hrun, hfunction, hfunction ▸ ?_⟩
      exact Attempt.addressesLiterals (a := .function c.function) hsound hkept hrun

/-- A program with two strings that occur twice. The function that has the third is skipped. -/
def repeatedStrings : List Expr :=
  [.define "f" (.lambda [] [.primitive (.library .display) [.literal (.string "b")],
      .var "missing"]),
    .define "g" (.lambda [] [.literal (.string "a")]),
    .primitive (.library .display) [.literal (.string "é")],
    .call (.lambda [] [.literal (.string "é")]) [],
    .primitive (.library .display) [.literal (.string "a")]]

theorem compiled_strings_shared_skipped : ∃ output,
    compileProgram repeatedStrings ⟨"m", "main", .keepGoing⟩ = .ok output ∧
      output.diagnostics = [⟨"f", .unresolved "missing"⟩] ∧
      output.module.constants =
        [(".str", [0xC3, 0xA9, 0]), (".str1", [0x61, 0]), (".str2", [0x62, 0])] ∧
      output.SharesStrings repeatedStrings ⟨"m", "main", .keepGoing⟩ := by
  have houtput : (compileProgram repeatedStrings ⟨"m", "main", .keepGoing⟩).toOption.map
      (fun output => (output.diagnostics, output.module.constants)) =
      some ([⟨"f", .unresolved "missing"⟩],
        [(".str", [0xC3, 0xA9, 0]), (".str1", [0x61, 0]), (".str2", [0x62, 0])]) := by
    decide +kernel
  obtain ⟨output, hok, hpair⟩ := exists_ok_of_toOption houtput
  obtain ⟨hdiagnostics, hconstants⟩ := Prod.mk.inj hpair
  exact ⟨output, hok, hdiagnostics, hconstants, compiled_strings_shared _ _ output hok⟩

end WordScheme
