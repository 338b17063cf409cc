import Mathlib
import WordScheme.Proofs.References

/-!
# Symbols are unique

The variables, functions, declarations and string constants of a compiled module share one space of
names, in which no name occurs twice; its types have a space of their own. The entry function is the
one symbol that a program does not choose with the others in view, so it must not be called like a
library function or a generated constant: then a name determines the kind of its definition
(`CompileUnit.Issued.kind_eq`), and within a kind names are distinct anyway.
-/

namespace WordScheme

open NameSupply

/-- The names of all definitions but types. -/
def Module.symbols (m : Module) : List Name :=
  (m.definitions.filter fun d => d.kind ≠ .typeAlias).map Definition.name

/-- The names of the types. -/
def Module.typeAliases (m : Module) : List Name :=
  (m.definitions.filter fun d => d.kind = .typeAlias).map Definition.name

/-! ### First characters -/

/-- A name begins as its base does. -/
private theorem head?_nth {base : Name} {c : Char} (hbase : base.toList.head? = some c) (n : Nat) :
    (nth base n).toList.head? = some c := by
  rw [nth]
  split
  · exact hbase
  · rw [String.toList_append, List.head?_append, hbase, Option.some_or]

private theorem isLibrarySymbol_symbol (f : LibraryFunction) : isLibrarySymbol f.symbol = true := by
  cases f <;> decide

/-- The names of library functions start alike, so other names can be told from them. -/
private theorem isLibrarySymbol_eq_false {name : Name} {c : Char} (h : name.toList.head? = some c)
    (hc : c ≠ 's') : isLibrarySymbol name = false := by
  rw [← Bool.not_eq_true]
  intro hsymbol
  obtain ⟨f, -, hf⟩ := List.any_eq_true.mp hsymbol
  have hhead : f.symbol.toList.head? = some 's' := by cases f <;> decide
  rw [beq_iff_eq.mp hf, h] at hhead
  exact hc (Option.some.inj hhead)

/-! ### Names and kinds -/

/-- The kind of definition that a name belongs to, types aside. -/
def symbolKind (entry : Name) (G : Globals) (name : Name) : DefinitionKind :=
  if name = entry then .function
  else
    match G.get? name with
    | some .var => .globalVariable
    | some (.function _) => .function
    | none =>
      if isLibrarySymbol name then .external
      else if name.toList.head? = some '.' then .stringConstant
      else .function

section Kinds

variable {G : Globals} {u : CompileUnit}

/-- A reserved name is none of the top level. -/
private theorem get?_eq_none_of_isReserved
    (hG : ∀ {name}, G.has name = true → TopLevel.isReserved u.entry name = false) {name : Name}
    (h : TopLevel.isReserved u.entry name = true) : G.get? name = none := by
  cases hget : G.get? name with
  | none => rfl
  | some kind =>
    have hhas : G.has name = true := by
      rw [Assoc.has, hget]
      rfl
    rw [hG hhas] at h
    cases h

/-- The kind of a symbol can be told from its name. -/
private theorem CompileUnit.Issued.kind_eq {d : Definition} (h : u.Issued G d)
    (hd : d.kind ≠ .typeAlias) (hlibrary : isLibrarySymbol u.entry = false)
    (hpoint : u.entry.toList.head? ≠ some '.')
    (hG : ∀ {name}, G.has name = true → TopLevel.isReserved u.entry name = false) :
    d.kind = symbolKind u.entry G d.name := by
  have hglobal : ∀ {name kind}, G.get? name = some kind → name ≠ u.entry := by
    rintro name kind hget rfl
    rw [get?_eq_none_of_isReserved hG (by simp [TopLevel.isReserved])] at hget
    cases hget
  cases h with
  | entry heq => exact (if_pos heq).symm
  | @globalFunction f arity hget =>
    change _ = symbolKind u.entry G f.name
    rw [symbolKind, if_neg (hglobal hget), hget]
    rfl
  | @globalVar name hget =>
    change _ = symbolKind u.entry G name
    rw [symbolKind, if_neg (hglobal hget), hget]
    rfl
  | @lambda f n heq _ hentry hhas =>
    have hhead : f.name.toList.head? = some 'l' := heq ▸ head?_nth (by decide) n
    have hsymbol : isLibrarySymbol f.name = false := isLibrarySymbol_eq_false hhead (by decide)
    rw [Assoc.has, Option.isSome_eq_false_iff, Option.isNone_iff_eq_none] at hhas
    change _ = symbolKind u.entry G f.name
    rw [symbolKind, if_neg hentry, hhas, hsymbol, hhead]
    rfl
  | library f =>
    have hne : f.symbol ≠ u.entry := by
      intro heq
      rw [← heq, isLibrarySymbol_symbol] at hlibrary
      cases hlibrary
    have hnone : G.get? f.symbol = none :=
      get?_eq_none_of_isReserved hG (by simp [TopLevel.isReserved, isLibrarySymbol_symbol])
    change _ = symbolKind u.entry G f.symbol
    rw [symbolKind, if_neg hne, hnone, isLibrarySymbol_symbol]
    rfl
  | @string n _ bytes =>
    have hhead : (nth ".str" n).toList.head? = some '.' := head?_nth (by decide) n
    have hne : nth ".str" n ≠ u.entry := fun heq => hpoint (heq ▸ hhead)
    have hsymbol : isLibrarySymbol (nth ".str" n) = false :=
      isLibrarySymbol_eq_false hhead (by decide)
    have hnone : G.get? (nth ".str" n) = none :=
      get?_eq_none_of_isReserved hG (by simp [TopLevel.isReserved, hhead])
    change _ = symbolKind u.entry G (nth ".str" n)
    rw [symbolKind, if_neg hne, hnone, hsymbol, hhead]
    rfl
  | array length => exact absurd rfl hd

end Kinds

/-- Among definitions whose kind is known from their names, names are distinct where keys are. -/
private theorem nodup_names_of_kind {ds : List Definition} (h : (ds.map Definition.key).Nodup)
    (kind : Name → DefinitionKind) (hkind : ∀ d ∈ ds, d.kind = kind d.name) :
    (ds.map Definition.name).Nodup := by
  have hkeys : ds.map Definition.key =
      (ds.map Definition.name).map fun name => (kind name, name) := by
    rw [List.map_map]
    refine List.map_congr_left fun d hd => ?_
    exact congrArg (·, d.name) (hkind d hd)
  rw [hkeys] at h
  exact h.of_map _

/-- **Symbols are unique**: no two variables, functions, declarations or string constants of a
module share their name, and no two types do. -/
theorem compiled_symbols_nodup (forms : List Expr) (options : CompileOptions)
    (output : CompileOutput) (hlibrary : isLibrarySymbol options.entry = false)
    (hpoint : options.entry.toList.head? ≠ some '.')
    (h : compileProgram forms options = .ok output) :
    output.module.symbols.Nodup ∧ output.module.typeAliases.Nodup := by
  obtain ⟨G, p, hsound, hmodule, hentry, hG⟩ :=
    exists_sound_of_compiles (h ▸ compileProgram_compiles forms options)
  rw [← hentry] at hlibrary hpoint hG
  rw [hmodule]
  have hdistinct : ∀ f : Definition → Bool,
      ((p.unit.module.definitions.filter f).map Definition.key).Nodup :=
    fun f => hsound.unit.distinct.sublist (List.filter_sublist.map _)
  constructor
  · refine nodup_names_of_kind (hdistinct _) (symbolKind p.unit.entry G) fun d hd => ?_
    obtain ⟨hmem, hkind⟩ := List.mem_filter.mp hd
    exact (hsound.unit.issued d hmem).kind_eq (of_decide_eq_true hkind) hlibrary hpoint hG
  · refine nodup_names_of_kind (hdistinct _) (fun _ => .typeAlias) fun d hd => ?_
    exact of_decide_eq_true (List.mem_filter.mp hd).2

/-- A program that calls a variable like the first lambda, compiled with an entry function that is
called like the second. -/
def crowdedNames : List Expr :=
  [.define "lambda" (.integer 1),
    .define "f" (.lambda [] [.call (.lambda ["x"] [.var "x"]) [.literal (.string "lambda")]]),
    .array [.call (.var "f") [], .literal (.string "f")], .array [.var "lambda"],
    .primitive (.library .display) [.array [.lambda [] [.empty]]]]

theorem compiled_symbols_nodup_crowded : ∃ output,
    isLibrarySymbol "lambda1" = false ∧ "lambda1".toList.head? ≠ some '.' ∧
      compileProgram crowdedNames ⟨"m", "lambda1", .abort⟩ = .ok output ∧
      output.module.symbols =
        ["lambda", ".str", "scm_display", "lambda1", ".str1", "f", "lambda2", "lambda3"] ∧
      output.module.typeAliases = ["array.2", "array.1"] ∧
      output.module.symbols.Nodup ∧ output.module.typeAliases.Nodup := by
  have hlibrary : isLibrarySymbol "lambda1" = false := by decide
  have hpoint : "lambda1".toList.head? ≠ some '.' := by decide
  have hnames : (compileProgram crowdedNames ⟨"m", "lambda1", .abort⟩).toOption.map
      (fun output => (output.module.symbols, output.module.typeAliases)) =
      some (["lambda", ".str", "scm_display", "lambda1", ".str1", "f", "lambda2", "lambda3"],
        ["array.2", "array.1"]) := by
    decide +kernel
  obtain ⟨output, hok, hpair⟩ := exists_ok_of_toOption hnames
  obtain ⟨hsymbols, haliases⟩ := Prod.mk.inj hpair
  exact ⟨output, hlibrary, hpoint, hok, hsymbols, haliases,
    compiled_symbols_nodup crowdedNames ⟨"m", "lambda1", .abort⟩ output hlibrary hpoint hok⟩

end WordScheme
