import Mathlib
import WordScheme.Proofs.TypeCorrectness
import WordScheme.Proofs.UnitDefinitions

/-!
# What references resolve to

A global operand carries the type of what it refers to, and `Operand.Resolves` says which definition
that asks for: a function or declaration of so many words, a variable, or so many bytes.
`Function.Resolves` is the same for all that the body of a function refers to, named types included.

What a reference resolves to does not depend on the code of functions, so references survive when a
finished function takes the place of its placeholder: `Covers` relates two lists of definitions by
their headers, and resolution goes along it. Code that the lowering has written resolves in the unit
in which it was written (`LowerState.Builds.resolves`).
-/

namespace WordScheme

open FunctionDraft LowerState

/-! ### Headers -/

/-- A definition without its code. -/
def Definition.header : Definition → Definition
  | .function f => .function { f with blocks := [] }
  | d => d

/-- A definition with the header of a function is one with its name and types. -/
theorem Definition.exists_function_of_header {d : Definition} {f : Function}
    (h : d.header = (Definition.function f).header) :
    ∃ g, d = .function g ∧ g.name = f.name ∧ g.result = f.result ∧ g.params = f.params := by
  cases d with
  | function g =>
    simp only [header, Definition.function.injEq, Function.mk.injEq] at h
    exact ⟨g, rfl, h.1, h.2.1, h.2.2.1⟩
  | _ => cases h

/-- A definition that is no function is found under its header. -/
private theorem Definition.eq_of_header {d e : Definition} (he : e.function? = none)
    (h : d.header = e.header) : d = e := by
  cases e with
  | function g => cases he
  | _ =>
    cases d with
    | function f => cases h
    | _ => exact h

/-- Every definition of the first list has one in the second that differs in its code at most. -/
def Covers (ds es : List Definition) : Prop :=
  ∀ d ∈ ds, ∃ e ∈ es, e.header = d.header

theorem covers_of_subset {ds es : List Definition} (h : ds ⊆ es) : Covers ds es :=
  fun d hd => ⟨d, h hd, rfl⟩

theorem Covers.trans {ds es fs : List Definition} (h : Covers ds es) (h' : Covers es fs) :
    Covers ds fs := by
  intro d hd
  obtain ⟨e, he, heq⟩ := h d hd
  obtain ⟨f, hf, heq'⟩ := h' e he
  exact ⟨f, hf, heq'.trans heq⟩

/-- A definition without code is in every list that covers one it is in. -/
private theorem Covers.mem {ds es : List Definition} (h : Covers ds es) {d : Definition}
    (hd : d.function? = none) (hmem : d ∈ ds) : d ∈ es := by
  obtain ⟨e, he, heq⟩ := h d hmem
  exact Definition.eq_of_header hd heq ▸ he

/-- A definition may give its place to one that differs in its code. -/
theorem covers_replace {before after : List Definition} {d e : Definition}
    (h : e.header = d.header) : Covers (before ++ d :: after) (before ++ after ++ [e]) := by
  intro x hx
  rw [List.mem_append, List.mem_cons] at hx
  rcases hx with hx | rfl | hx
  · exact ⟨x, List.mem_append_left _ (List.mem_append_left _ hx), rfl⟩
  · exact ⟨e, List.mem_append_right _ (List.mem_singleton_self e), h⟩
  · exact ⟨x, List.mem_append_left _ (List.mem_append_right _ hx), rfl⟩

/-! ### References -/

/-- A function of so many words that gives a word is defined, or declared. -/
def Declares (ds : List Definition) (name : Name) (arity : Nat) : Prop :=
  (∃ f, .function f ∈ ds ∧ f.name = name ∧ f.result = .word ∧
    f.params.map Param.ty = .replicate arity .word) ∨
  .external name .word (.replicate arity .word) ∈ ds

/-- What a global operand refers to is there. -/
def Operand.Resolves (ds : List Definition) : Operand → Prop
  | .global name (.function _ params) => Declares ds name params.length
  | .global name (.int .i64) => ∃ zeroed, .globalVariable name .word zeroed ∈ ds
  | .global name (.array (.int .i8) length) =>
    ∃ bytes, .stringConstant name bytes ∈ ds ∧ bytes.length = length
  | .global _ _ => False
  | _ => True

/-- The types that the body of a function is written with. -/
def Function.types (f : Function) : List Ty :=
  f.statements.flatMap (fun s => s.instruction.types) ++
    (f.blocks.flatMap Block.operands).flatMap Operand.types

/-- All that the body of a function refers to is there. -/
structure Function.Resolves (ds : List Definition) (f : Function) : Prop where
  operands : ∀ b ∈ f.blocks, ∀ o ∈ b.operands, o.Resolves ds
  types : ∀ ty ∈ f.types, ∀ name ∈ ty.typeNames,
    ∃ length, name = arrayName length ∧ arrayAlias length ∈ ds
  calls : ∀ s ∈ f.statements, s.instruction.Saturated

variable {ds es : List Definition}

/-- The address of a function on words resolves exactly when one is declared. -/
private theorem resolves_wordFunction {name : Name} {arity : Nat} :
    (Operand.global name (.wordFunction arity)).Resolves ds ↔ Declares ds name arity := by
  rw [Ty.wordFunction, Operand.Resolves, List.length_replicate]

/-- A declared function stays declared in what covers it. -/
private theorem Declares.covers {name : Name} {arity : Nat} (h : Declares ds name arity)
    (hc : Covers ds es) : Declares es name arity := by
  rcases h with ⟨f, hf, hname, hresult, hparams⟩ | h
  · obtain ⟨d, hd, hheader⟩ := hc _ hf
    obtain ⟨g, rfl, hname', hresult', hparams'⟩ := Definition.exists_function_of_header hheader
    exact .inl ⟨g, hd, hname'.trans hname, hresult'.trans hresult, hparams' ▸ hparams⟩
  · exact .inr (hc.mem rfl h)

private theorem Operand.Resolves.covers {o : Operand} (h : o.Resolves ds) (hc : Covers ds es) :
    o.Resolves es := by
  rw [Operand.Resolves.eq_def] at h ⊢
  split at h
  · exact h.covers hc
  · obtain ⟨zeroed, h⟩ := h
    exact ⟨zeroed, hc.mem rfl h⟩
  · obtain ⟨bytes, h, hlength⟩ := h
    exact ⟨bytes, hc.mem rfl h, hlength⟩
  · exact h.elim
  · trivial

theorem Function.Resolves.covers {f : Function} (h : f.Resolves ds) (hc : Covers ds es) :
    f.Resolves es where
  operands := fun b hb o ho => (h.operands b hb o ho).covers hc
  types := by
    intro ty hty name hname
    obtain ⟨length, hlength, hdefined⟩ := h.types ty hty name hname
    exact ⟨length, hlength, hc.mem rfl hdefined⟩
  calls := h.calls

/-- A function without code refers to nothing. -/
theorem Function.resolves_of_isPlaceholder {f : Function} (h : f.isPlaceholder = true) :
    f.Resolves ds := by
  have hblocks : f.blocks = [] := List.isEmpty_iff.mp h
  refine ⟨?_, ?_, ?_⟩
  · rw [hblocks]
    exact fun b hb => nomatch hb
  · rw [Function.types, Function.statements, hblocks]
    exact fun ty hty => nomatch hty
  · rw [Function.statements, hblocks]
    exact fun s hs => nomatch hs

/-! ### Written code -/

/-- The top level names are defined. -/
structure Globals.Resolve (G : Globals) (ds : List Definition) : Prop where
  vars : ∀ {name}, G.get? name = some .var → ModuleDraft.wordVariable name ∈ ds
  functions : ∀ {name arity}, G.get? name = some (.function arity) → Declares ds name arity

theorem Globals.Resolve.covers {G : Globals} (h : G.Resolve ds) (hc : Covers ds es) :
    G.Resolve es :=
  ⟨fun hget => hc.mem rfl (h.vars hget), fun hget => (h.functions hget).covers hc⟩

/-- The function of a lambda is declared with its parameters. -/
def Declared (ds : List Definition) (name : Name) (params : List Name) : Prop :=
  ∃ d ∈ ds, d.header = ModuleDraft.placeholder name params

theorem Declared.covers {name : Name} {params : List Name} (h : Declared ds name params)
    (hc : Covers ds es) : Declared es name params := by
  obtain ⟨d, hd, heq⟩ := h
  obtain ⟨e, he, heq'⟩ := hc d hd
  exact ⟨e, he, heq'.trans heq⟩

/-- A function that is declared with parameters has as many. -/
theorem Declared.declares {name : Name} {params : List Name} (h : Declared ds name params) :
    Declares ds name params.length := by
  obtain ⟨d, hd, heq⟩ := h
  obtain ⟨f, rfl, hname, hresult, hparams⟩ :=
    Definition.exists_function_of_header (f := ⟨name, .word, wordParams params, []⟩) heq
  refine .inl ⟨f, hd, hname, hresult, ?_⟩
  rw [hparams, wordParams, List.map_map]
  exact List.map_const' ..

namespace LowerState

variable {s : LowerState} {G : Globals}

/-- What is known resolves. -/
private theorem Knows.resolves {o : Operand} (h : s.Knows o) (hunit : s.unit.Sound G)
    (hglobals : s.draft.globals.Resolve s.unit.module.definitions) :
    o.Resolves s.unit.module.definitions := by
  cases h with
  | register => trivial
  | const => trivial
  | param => trivial
  | globalVar h => exact ⟨true, hglobals.vars h⟩
  | globalFunction h => exact resolves_wordFunction.mpr (hglobals.functions h)
  | lifted h => exact resolves_wordFunction.mpr (Declared.declares ⟨_, h, rfl⟩)
  | library h => exact resolves_wordFunction.mpr (.inr h)
  | string h => exact ⟨_, hunit.strings h, by simp⟩

/-- No operand is written with a named type. -/
private theorem Knows.typeNames_eq_nil {o : Operand} (h : s.Knows o) {ty : Ty}
    (hty : ty ∈ o.types) : ty.typeNames = [] := by
  cases h with
  | register hnames => exact List.mem_singleton.mp hty ▸ hnames
  | const => cases hty
  | param => exact List.mem_singleton.mp hty ▸ typeNames_word
  | globalVar => exact List.mem_singleton.mp hty ▸ typeNames_word
  | globalFunction => exact List.mem_singleton.mp hty ▸ typeNames_wordFunction _
  | lifted => exact List.mem_singleton.mp hty ▸ typeNames_wordFunction _
  | library => exact List.mem_singleton.mp hty ▸ typeNames_wordFunction _
  | string => exact List.mem_singleton.mp hty ▸ rfl

variable {unit : CompileUnit} {name : Name} {params : List Name} {n : Nat}
  {result : Except CompileError FinishedFunction × CompileUnit} {t : LowerState}
  {f : FinishedFunction}

/-- A function that is built has the header of its placeholder. -/
theorem Builds.header_eq (h : (start unit name params G).Builds n result t)
    (hf : result.1 = .ok f) :
    (Definition.function f.function).header = ModuleDraft.placeholder name params := by
  have hgrows := h.moves.grows
  obtain ⟨blocks, rfl, -⟩ := FunctionDraft.of_finish (h.finish f hf)
  rw [show t.draft.name = name from hgrows.name, show t.draft.params = params from hgrows.params]
  rfl

/-- **The body of a function that is built resolves** in the unit in which it ends. -/
theorem Builds.resolves (h : (start unit name params G).Builds n result t)
    (hf : result.1 = .ok f) (hunit : t.unit.Sound G)
    (hglobals : G.Resolve t.unit.module.definitions) :
    f.function.Resolves t.unit.module.definitions where
  operands := by
    intro b hb o ho
    refine (h.knows hf hb ho).resolves hunit ?_
    rw [h.moves.grows.globals]
    exact hglobals
  types := by
    intro ty hty tyName hname
    rcases List.mem_append.mp hty with hty | hty
    · obtain ⟨x, hx, hty⟩ := List.mem_flatMap.mp hty
      obtain ⟨b, hb, hx⟩ := List.mem_flatMap.mp hx
      exact (h.allows hf hb hx).types ty hty tyName hname
    · obtain ⟨o, ho, hty⟩ := List.mem_flatMap.mp hty
      obtain ⟨b, hb, ho⟩ := List.mem_flatMap.mp ho
      rw [(h.knows hf hb ho).typeNames_eq_nil hty] at hname
      cases hname
  calls := by
    intro x hx
    obtain ⟨b, hb, hx⟩ := List.mem_flatMap.mp hx
    exact (h.allows hf hb hx).saturated

end LowerState

end WordScheme
