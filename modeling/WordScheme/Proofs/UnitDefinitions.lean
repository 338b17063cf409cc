import Mathlib
import WordScheme.Compile
import WordScheme.Proofs.Labels
import WordScheme.Proofs.MoveRun

/-!
# The definitions of a unit

Every definition that comes into a module has one of seven origins, and these leave few names to
choose from: `CompileUnit.Issued`. `CompileUnit.Sound` says that all definitions of a unit have such
an origin, that no two of one kind share their name, and that the table of strings is right. The
origins of functions rest on the names given to lambdas, which avoid the entry function and the top
level: `freshLambdaName_spec`.

Where names are asked for, only the names of functions matter: `CompileUnit.Clear` is what all moves
keep, whatever else the unit has been used for (`LowerState.clear_moves`).

`LowerState.Accounted` follows what building one function adds to the module. A function that fails
is undone up to its declarations, types and strings (`Accounted.definitions_discard`), and one that
succeeds takes the place of its placeholder (`Sound.install`).
-/

namespace WordScheme

open NameSupply FunctionDraft

/-! ### Names that avoid others -/

namespace NameSupply

theorem freshAvoiding_succ (taken : Name → Bool) (base : Name) (limit : Nat) (s : NameSupply) :
    s.freshAvoiding taken base (limit + 1) =
      if taken (s.fresh base).1 then (s.fresh base).2.freshAvoiding taken base limit
      else s.fresh base := rfl

/-- Names that are passed over are distinct, so if no more than `limit` are taken the search ends at
one that is not. -/
private theorem freshAvoiding_spec {taken : Name → Bool} {base : Name} (hbase : Undigited base)
    (limit : Nat) {s : NameSupply} (hs : s.Positive) {names : List Name}
    (hnames : ∀ k, s.count base ≤ k → taken (nth base k) = true → nth base k ∈ names)
    (hlength : names.length ≤ limit) :
    taken (s.freshAvoiding taken base limit).1 = false ∧
      (s.freshAvoiding taken base limit).2.Positive ∧
      ∃ k, s.count base ≤ k ∧ (s.freshAvoiding taken base limit).1 = nth base k ∧
        (s.freshAvoiding taken base limit).2.count base = k + 1 := by
  have hself : ∀ s : NameSupply, s.Positive → ∃ k, s.count base ≤ k ∧
      (s.fresh base).1 = nth base k ∧ (s.fresh base).2.count base = k + 1 :=
    fun s hs => ⟨_, le_refl _, fresh_name hs base, count_fresh_self s base⟩
  induction limit generalizing s names with
  | zero =>
    refine ⟨?_, hs.fresh base, hself s hs⟩
    rw [freshAvoiding, fresh_name hs, ← Bool.not_eq_true]
    intro htaken
    have hmem := hnames _ (le_refl _) htaken
    rw [List.eq_nil_of_length_eq_zero (Nat.le_zero.mp hlength)] at hmem
    cases hmem
  | succ limit ih =>
    rw [freshAvoiding_succ]
    split
    · next htaken =>
      rw [fresh_name hs] at htaken
      have hmem := hnames _ (le_refl _) htaken
      have hrest : ∀ k, (s.fresh base).2.count base ≤ k → taken (nth base k) = true →
          nth base k ∈ names.erase (nth base (s.count base)) := by
        intro k hk htaken'
        rw [count_fresh_self] at hk
        refine (List.mem_erase_of_ne fun heq => ?_).mpr (hnames k (by omega) htaken')
        have := (nth_inj hbase hbase heq).2
        omega
      have hlength' : (names.erase (nth base (s.count base))).length ≤ limit := by
        rw [List.length_erase_of_mem hmem]
        omega
      obtain ⟨hfree, hpositive, k, hk, hname, hcount⟩ := ih (hs.fresh base) hrest hlength'
      refine ⟨hfree, hpositive, k, ?_, hname, hcount⟩
      rw [count_fresh_self] at hk
      omega
    · next hfree => exact ⟨Bool.eq_false_iff.mpr hfree, hs.fresh base, hself s hs⟩

end NameSupply

/-- The type names of arrays of different lengths are different. -/
private theorem arrayName_inj {m n : Nat} (h : arrayName m = arrayName n) : m = n := by
  have hlist : "array.".toList ++ Nat.toDigits 10 m = "array.".toList ++ Nat.toDigits 10 n := by
    have htoList : ∀ k, (arrayName k).toList = "array.".toList ++ Nat.toDigits 10 k := by
      intro k
      rw [arrayName, String.toList_append, Nat.toString_eq_repr, Nat.toList_repr]
    rw [← htoList, h, htoList]
  have hdigits := congrArg (Nat.ofDigitChars 10 · 0) (List.append_cancel_left hlist)
  simpa only [Nat.ofDigitChars_ten_toDigits] using hdigits

/-- Library functions have different symbols. -/
theorem LibraryFunction.symbol_inj {f g : LibraryFunction} (h : f.symbol = g.symbol) : f = g := by
  cases f <;> cases g <;> first | rfl | simp [symbol] at h

/-! ### Kinds of definitions -/

/-- The kinds of definitions. -/
inductive DefinitionKind where
  | globalVariable
  | function
  | external
  | typeAlias
  | stringConstant
deriving DecidableEq

namespace Definition

/-- The kind of a definition. -/
def kind : Definition → DefinitionKind
  | .globalVariable _ _ _ => .globalVariable
  | .function _ => .function
  | .external _ _ _ => .external
  | .alias _ _ => .typeAlias
  | .stringConstant _ _ => .stringConstant

/-- What no two definitions of a module share. -/
def key (d : Definition) : DefinitionKind × Name :=
  (d.kind, d.name)

/-- A definition is a function of a name exactly when its key says so. -/
private theorem isFunctionNamed_iff_key {d : Definition} {name : Name} :
    d.isFunctionNamed name = true ↔ d.key = (.function, name) := by
  cases d <;> simp [isFunctionNamed, function?, key, kind, Definition.name]

/-- Declarations, types and strings, which the functions of a module share. -/
def isShared (d : Definition) : Bool :=
  d.kind matches .external | .typeAlias | .stringConstant

/-- Shared definitions are no functions. -/
theorem function?_of_isShared {d : Definition} (h : d.isShared = true) : d.function? = none := by
  cases d <;> first | rfl | cases h

end Definition

/-- The names of the functions among some definitions. -/
def functionNames (ds : List Definition) : List Name :=
  ds.filterMap fun d => d.function?.map Function.name

private theorem functionNames_append (ds es : List Definition) :
    functionNames (ds ++ es) = functionNames ds ++ functionNames es :=
  List.filterMap_append

/-- The names of the functions are those under which a key has one. -/
private theorem mem_functionNames {ds : List Definition} {name : Name} :
    name ∈ functionNames ds ↔ ∃ d ∈ ds, d.key = (.function, name) := by
  rw [functionNames, List.mem_filterMap]
  refine exists_congr fun d => and_congr_right fun _ => ?_
  cases d <;> simp [Definition.function?, Definition.key, Definition.kind, Definition.name]

/-- A definition that is no function leaves their names as they are. -/
private theorem functionNames_ensure (m : ModuleDraft) {d : Definition} (hd : d.function? = none) :
    functionNames (m.ensure d).definitions = functionNames m.definitions := by
  rw [ModuleDraft.ensure_definitions]
  split
  · rfl
  · rw [functionNames_append, functionNames, functionNames]
    simp [hd]

/-- Functions have different names if no two definitions share a key. -/
theorem nodup_functionNames {ds : List Definition} (h : (ds.map Definition.key).Nodup) :
    (functionNames ds).Nodup := by
  rw [List.Nodup, List.pairwise_map] at h
  refine h.filterMap _ fun d e hne name hd other he heq => hne ?_
  cases d <;> cases hd
  cases e <;> cases he
  exact congrArg (Prod.mk _) heq

/-- **Taking back functions**: where their names are distinct, the functions of a list behind others
go by their names, and nothing else does. -/
theorem foldl_eraseP_functionNames (base added : List Definition)
    (h : (functionNames (base ++ added)).Nodup) :
    (functionNames added).foldl (fun ds name => ds.eraseP (Definition.isFunctionNamed name))
      (base ++ added) = base ++ added.filter fun d => d.function?.isNone := by
  induction added generalizing base with
  | nil => rfl
  | cons d added ih =>
    cases hd : d.function? with
    | none =>
      have hmiddle : base ++ d :: added = (base ++ [d]) ++ added := by simp
      have hnames : functionNames (d :: added) = functionNames added := by
        simp [functionNames, hd]
      rw [hmiddle] at h ⊢
      rw [hnames, ih _ h]
      simp [hd]
    | some f =>
      have hnames : functionNames (d :: added) = f.name :: functionNames added := by
        simp [functionNames, hd]
      have hnamed : d.isFunctionNamed f.name = true := by simp [Definition.isFunctionNamed, hd]
      rw [functionNames_append, hnames, List.nodup_middle, List.nodup_cons,
        ← functionNames_append] at h
      -- no function before this one has its name
      have hbase : ∀ e ∈ base, ¬ e.isFunctionNamed f.name = true := by
        intro e he hnamed'
        refine h.1 (mem_functionNames.mpr ⟨e, List.mem_append_left _ he, ?_⟩)
        exact Definition.isFunctionNamed_iff_key.mp hnamed'
      rw [hnames, List.foldl_cons, List.eraseP_append_right _ hbase, List.eraseP_cons_of_pos hnamed,
        ih base h.2]
      simp [hd]

namespace ModuleDraft

/-- Dropping functions by their names keeps the index right. -/
theorem indexed_foldl_dropFunction {m : ModuleDraft} (hm : m.Indexed) (names : List Name) :
    (names.foldl dropFunction m).Indexed ∧
      (names.foldl dropFunction m).definitions =
        names.foldl (fun ds name => ds.eraseP (Definition.isFunctionNamed name)) m.definitions := by
  induction names generalizing m with
  | nil => exact ⟨hm, rfl⟩
  | cons name names ih =>
    obtain ⟨hindexed, hdefinitions⟩ := ih (hm.dropFunction name)
    refine ⟨hindexed, ?_⟩
    rw [List.foldl_cons, List.foldl_cons, hdefinitions, dropFunction_definitions hm]

end ModuleDraft

/-! ### Sound units -/

namespace CompileUnit

variable {G : Globals} {u v : CompileUnit} {d : Definition}

/-- The origins of definitions, in a program with the given top level names. -/
inductive Issued (G : Globals) (u : CompileUnit) : Definition → Prop
  | entry {f : Function} (h : f.name = u.entry) : Issued G u (.function f)
  | globalFunction {f : Function} {arity : Nat} (h : G.get? f.name = some (.function arity)) :
      Issued G u (.function f)
  | lambda {f : Function} {n : Nat} (h : f.name = nth "lambda" n)
      (hn : n < u.lambdaNames.count "lambda") (hentry : f.name ≠ u.entry)
      (hglobal : G.has f.name = false) : Issued G u (.function f)
  | globalVar {name : Name} (h : G.get? name = some .var) :
      Issued G u (ModuleDraft.wordVariable name)
  | library (f : LibraryFunction) : Issued G u f.declaration
  | array (length : Nat) : Issued G u (arrayAlias length)
  | string {n : Nat} (hn : n < u.stringNames.count ".str") (bytes : List UInt8) :
      Issued G u (.stringConstant (nth ".str" n) bytes)

/-- A definition keeps its origin as names are given out. -/
private theorem Issued.mono (h : u.Issued G d) (hentry : v.entry = u.entry)
    (hlambdas : u.lambdaNames.count "lambda" ≤ v.lambdaNames.count "lambda")
    (hstrings : u.stringNames.count ".str" ≤ v.stringNames.count ".str") : v.Issued G d := by
  cases h with
  | entry h => exact .entry (h.trans hentry.symm)
  | globalFunction h => exact .globalFunction h
  | lambda h hn hne hglobal => exact .lambda h (hn.trans_le hlambdas) (hentry ▸ hne) hglobal
  | globalVar h => exact .globalVar h
  | library f => exact .library f
  | array length => exact .array length
  | string hn bytes => exact .string (hn.trans_le hstrings) bytes

/-- The definitions of a unit are in order. -/
structure Sound (G : Globals) (u : CompileUnit) : Prop where
  indexed : u.module.Indexed
  lambdaNames : u.lambdaNames.Positive
  stringNames : u.stringNames.Positive
  issued : ∀ d ∈ u.module.definitions, u.Issued G d
  distinct : (u.module.definitions.map Definition.key).Nodup
  strings : ∀ {value name}, u.strings.get? value = some name →
    .stringConstant name (utf8Bytes value ++ [0]) ∈ u.module.definitions

/-- A definition may be added unless another one of its kind has its name. -/
theorem Sound.ensure (h : u.Sound G) (hd : u.Issued G d) (hplain : d.isPlain = true)
    (hkey : ∀ e ∈ u.module.definitions, e.key = d.key → e = d) : (u.ensure d).Sound G where
  indexed := h.indexed.ensure d
  lambdaNames := h.lambdaNames
  stringNames := h.stringNames
  issued := by
    intro e he
    have hissued : u.Issued G e := by
      rcases ModuleDraft.mem_or_eq_of_mem_ensure he with he | rfl
      · exact h.issued e he
      · exact hd
    exact hissued.mono rfl (le_refl _) (le_refl _)
  distinct := by
    change ((u.module.ensure d).definitions.map Definition.key).Nodup
    rw [ModuleDraft.ensure_definitions]
    split
    · exact h.distinct
    · next hnew =>
      rw [List.map_append]
      refine List.Nodup.append h.distinct (List.nodup_singleton _) (List.disjoint_singleton.mpr ?_)
      intro hmem
      obtain ⟨e, he, heq⟩ := List.mem_map.mp hmem
      obtain rfl := hkey e he heq
      exact hnew ((ModuleDraft.contains_iff h.indexed).mpr ⟨e, he, Definition.beq_self hplain⟩)
  strings := fun hv => (u.module.prefix_ensure d).subset (h.strings hv)

/-- The type of an array may be defined. -/
private theorem Sound.ensure_array (h : u.Sound G) (length : Nat) :
    (u.ensure (arrayAlias length)).Sound G := by
  refine h.ensure (.array length) rfl fun e he hkey => ?_
  cases h.issued e he with
  | array length' => rw [arrayName_inj (congrArg Prod.snd hkey)]
  | _ => cases congrArg Prod.fst hkey

/-- A library function may be declared. -/
private theorem Sound.ensure_library (h : u.Sound G) (f : LibraryFunction) :
    (u.ensure f.declaration).Sound G := by
  refine h.ensure (.library f) rfl fun e he hkey => ?_
  cases h.issued e he with
  | library g => rw [LibraryFunction.symbol_inj (congrArg Prod.snd hkey)]
  | _ => cases congrArg Prod.fst hkey

/-- More names have been given out. -/
theorem Sound.supplies (h : u.Sound G) (lambdas strings : NameSupply) (hlambdas : lambdas.Positive)
    (hstrings : strings.Positive)
    (hlambdas' : u.lambdaNames.count "lambda" ≤ lambdas.count "lambda")
    (hstrings' : u.stringNames.count ".str" ≤ strings.count ".str") :
    Sound G { u with lambdaNames := lambdas, stringNames := strings } :=
  ⟨h.indexed, hlambdas, hstrings,
    fun d hd => (h.issued d hd).mono rfl hlambdas' hstrings', h.distinct, h.strings⟩

/-- The constant of a string is noted once it is there. -/
private theorem Sound.putString (h : u.Sound G) {value : String} {name : Name}
    (hmem : .stringConstant name (utf8Bytes value ++ [0]) ∈ u.module.definitions) :
    Sound G { u with strings := u.strings.put value name } where
  indexed := h.indexed
  lambdaNames := h.lambdaNames
  stringNames := h.stringNames
  issued := fun d hd => (h.issued d hd).mono rfl (le_refl _) (le_refl _)
  distinct := h.distinct
  strings := by
    intro value' name' hget
    by_cases hv : value' = value
    · subst hv
      change (u.strings.put value' name).get? value' = some name' at hget
      rw [Assoc.get?_put_self] at hget
      exact Option.some.inj hget ▸ hmem
    · change (u.strings.put value name).get? value' = some name' at hget
      rw [Assoc.get?_put_of_ne _ _ hv] at hget
      exact h.strings hget

theorem undigited_lambda : Undigited "lambda" := by simp [Undigited]

private theorem undigited_str : Undigited ".str" := by simp [Undigited]

/-- A string may get its constant. -/
private theorem Sound.stringConstant (h : u.Sound G) (value : String) :
    (u.stringConstant value).2.Sound G := by
  rw [CompileUnit.stringConstant]
  cases hv : u.strings.get? value with
  | some name => exact h
  | none =>
    have hcount := count_fresh_self u.stringNames ".str"
    have hsupplied := h.supplies u.lambdaNames (u.stringNames.fresh ".str").2 h.lambdaNames
      (h.stringNames.fresh ".str") (le_refl _) (by rw [hcount]; exact Nat.le_succ _)
    have hname := fresh_name h.stringNames ".str"
    refine Sound.putString (hsupplied.ensure ?_ rfl fun e he hkey => ?_)
      (ModuleDraft.mem_ensure rfl)
    · rw [hname]
      exact .string (by rw [hcount]; exact Nat.lt_succ_self _) _
    · -- the name that comes next is that of no constant
      cases h.issued e he with
      | string hn bytes =>
        have heq := (congrArg Prod.snd hkey).trans hname
        exact absurd (nth_inj undigited_str undigited_str heq).2 (Nat.ne_of_lt hn)
      | _ => cases congrArg Prod.fst hkey

/-- The names of lambdas are new, and neither that of the entry function nor of the top level. -/
theorem freshLambdaName_spec (hu : u.lambdaNames.Positive) (G : Globals) :
    (u.freshLambdaName G).1 ≠ u.entry ∧ G.has (u.freshLambdaName G).1 = false ∧
      (u.freshLambdaName G).2.lambdaNames.Positive ∧
      ∃ k, u.lambdaNames.count "lambda" ≤ k ∧ (u.freshLambdaName G).1 = nth "lambda" k ∧
        (u.freshLambdaName G).2.lambdaNames.count "lambda" = k + 1 := by
  let taken : Name → Bool := fun name => name == u.entry || G.has name
  have hnames : ∀ k, u.lambdaNames.count "lambda" ≤ k → taken (nth "lambda" k) = true →
      nth "lambda" k ∈ u.entry :: G.map Prod.fst := by
    intro k _ htaken
    rcases Bool.or_eq_true _ _ ▸ htaken with heq | hhas
    · exact beq_iff_eq.mp heq ▸ List.mem_cons_self
    · obtain ⟨kind, hget⟩ := Option.isSome_iff_exists.mp hhas
      exact List.mem_cons_of_mem _ (List.mem_map_of_mem (Assoc.mem_of_get? hget))
  obtain ⟨hfree, hpositive, hk⟩ :=
    freshAvoiding_spec undigited_lambda (G.length + 1) hu hnames (by simp)
  obtain ⟨hentry, hglobal⟩ := Bool.or_eq_false_iff.mp hfree
  exact ⟨beq_eq_false_iff_ne.mp hentry, hglobal, hpositive, hk⟩

/-- The list of lambdas that may be taken back plays no part. -/
private theorem Sound.setLifted (h : u.Sound G) (names : List Name) :
    Sound G { u with lifted := names } :=
  ⟨h.indexed, h.lambdaNames, h.stringNames,
    fun d hd => (h.issued d hd).mono rfl (le_refl _) (le_refl _), h.distinct, h.strings⟩

/-- Among the given top level names, the lambdas to come get names that no function has: functions
are called like the entry function, like something of the top level, or by a name that has been
given out. -/
structure Clear (G : Globals) (u : CompileUnit) : Prop where
  indexed : u.module.Indexed
  lambdaNames : u.lambdaNames.Positive
  distinct : (functionNames u.module.definitions).Nodup
  named : ∀ name ∈ functionNames u.module.definitions, name = u.entry ∨ G.has name = true ∨
    ∃ n < u.lambdaNames.count "lambda", name = nth "lambda" n

/-- In a unit that is in order the lambdas to come get new names. -/
theorem Sound.clear (h : u.Sound G) : u.Clear G := by
  refine ⟨h.indexed, h.lambdaNames, nodup_functionNames h.distinct, fun name hname => ?_⟩
  obtain ⟨d, hd, hkey⟩ := mem_functionNames.mp hname
  have hdname : d.name = name := congrArg Prod.snd hkey
  cases h.issued d hd with
  | entry heq => exact .inl (hdname.symm.trans heq)
  | globalFunction hget =>
    refine .inr (.inl ?_)
    rw [← hdname, Assoc.has, Definition.name, hget]
    rfl
  | lambda heq hn _ _ => exact .inr (.inr ⟨_, hn, hdname.symm.trans heq⟩)
  | _ => cases congrArg Prod.fst hkey

theorem Clear.setLifted (h : u.Clear G) (names : List Name) : Clear G { u with lifted := names } :=
  ⟨h.indexed, h.lambdaNames, h.distinct, h.named⟩

/-- No function has the name that the next lambda gets. -/
private theorem Clear.freshLambdaName_notMem (h : u.Clear G) :
    (u.freshLambdaName G).1 ∉ functionNames u.module.definitions := by
  obtain ⟨hentry, hglobal, -, k, hk, hname, -⟩ := freshLambdaName_spec h.lambdaNames G
  intro hmem
  rcases h.named _ hmem with heq | hhas | ⟨n, hn, heq⟩
  · exact hentry heq
  · rw [hhas] at hglobal
    cases hglobal
  · have hnth := (nth_inj undigited_lambda undigited_lambda (heq.symm.trans hname)).2
    omega

/-- Lambdas that were found last are taken back by their names. -/
theorem Clear.definitions_discardLifted (h : u.Clear G) {base added : List Definition}
    (hdefinitions : u.module.definitions = base ++ added)
    (hlifted : u.lifted = functionNames added) :
    u.discardLifted.2.module.Indexed ∧ u.discardLifted.2.module.definitions =
      base ++ added.filter fun d => d.function?.isNone := by
  obtain ⟨hindexed, hfold⟩ := ModuleDraft.indexed_foldl_dropFunction h.indexed u.lifted
  have hdistinct := h.distinct
  rw [hdefinitions] at hdistinct
  rw [hdefinitions, hlifted, foldl_eraseP_functionNames base added hdistinct, ← hlifted] at hfold
  exact ⟨hindexed, hfold⟩

end CompileUnit

namespace LowerState

variable {s t : LowerState}

/-- A lambda may be lifted. -/
private theorem sound_lift (h : s.unit.Sound s.draft.globals) (lambda : Lambda) :
    (s.lift lambda).unit.Sound s.draft.globals := by
  obtain ⟨hentry, hglobal, hpositive, k, hk, hname, hcount⟩ :=
    CompileUnit.freshLambdaName_spec h.lambdaNames s.draft.globals
  have hsupplied := h.supplies (s.unit.freshLambdaName s.draft.globals).2.lambdaNames
    s.unit.stringNames hpositive h.stringNames (by omega) (le_refl _)
  refine (hsupplied.ensure ?_ rfl fun e he hkey => ?_).setLifted _
  · exact .lambda hname (by rw [hcount]; exact Nat.lt_succ_self _) hentry hglobal
  · exact absurd (mem_functionNames.mpr ⟨e, he, hkey⟩) h.clear.freshLambdaName_notMem

/-- A lambda gets a placeholder behind the other definitions. -/
theorem definitions_lift (h : s.unit.Clear s.draft.globals) (lambda : Lambda) :
    (s.lift lambda).unit.module.definitions = s.unit.module.definitions ++
      [ModuleDraft.placeholder (s.unit.freshLambdaName s.draft.globals).1 lambda.params] :=
  ModuleDraft.ensure_of_notMem rfl fun hmem =>
    h.freshLambdaName_notMem (mem_functionNames.mpr ⟨_, hmem, rfl⟩)

/-- What a move does to the unit, as far as functions are concerned. -/
inductive Effect (s : LowerState) : LowerState → Prop
  /-- Only the code of the function at hand changes. -/
  | code {d : FunctionDraft} (hglobals : d.globals = s.draft.globals)
      (hpending : d.pending = s.draft.pending) : Effect s { s with draft := d }
  /-- A definition that functions share is added, unless it is there. -/
  | share {v : CompileUnit} {d : Definition} (hd : d.isShared = true)
      (hmodule : v.module = s.unit.module.ensure d) (hentry : v.entry = s.unit.entry)
      (hlambdas : v.lambdaNames = s.unit.lambdaNames) (hlifted : v.lifted = s.unit.lifted) :
      Effect s { s with unit := v }
  | lift (lambda : Lambda) : Effect s (s.lift lambda)

/-- Every move is of one of these three kinds. -/
theorem Move.effect (h : s.Move t) : s.Effect t := by
  cases h with
  | emit => exact .code (append_globals _ _) (append_pending _ _)
  | emitEffect => exact .code (append_globals _ _) (append_pending _ _)
  | terminate => exact .code rfl rfl
  | addBlock => exact .code rfl rfl
  | goTo => exact .code rfl rfl
  | rescope => exact .code rfl rfl
  | array length => exact .share (d := arrayAlias length) rfl rfl rfl rfl rfl
  | library f => exact .share (d := f.declaration) rfl rfl rfl rfl rfl
  | lift lambda => exact .lift lambda
  | string value =>
    rw [CompileUnit.stringConstant]
    cases s.unit.strings.get? value with
    | some name => exact .code rfl rfl
    | none =>
      exact .share (d := .stringConstant (s.unit.stringNames.fresh ".str").1 _) rfl rfl rfl rfl rfl

/-- A unit stays clear, also among other top level names than those of the function at hand. -/
private theorem Effect.clear {G : Globals} (heffect : s.Effect t) (h : s.unit.Clear s.draft.globals)
    (hG : s.unit.Clear G) : t.unit.Clear G := by
  obtain ⟨hindexed, hpositive, hdistinct, hnamed⟩ := hG
  cases heffect with
  | code => exact ⟨hindexed, hpositive, hdistinct, hnamed⟩
  | @share v d hd hmodule hentry hlambdas hlifted =>
    have hnames : functionNames v.module.definitions =
        functionNames s.unit.module.definitions := by
      rw [hmodule, functionNames_ensure _ (Definition.function?_of_isShared hd)]
    refine ⟨hmodule ▸ hindexed.ensure d, hlambdas ▸ hpositive, ?_, ?_⟩
    · change (functionNames v.module.definitions).Nodup
      rwa [hnames]
    · change ∀ name ∈ functionNames v.module.definitions, name = v.entry ∨ _ ∨
        ∃ n < v.lambdaNames.count "lambda", _
      rwa [hnames, hentry, hlambdas]
  | lift lambda =>
    obtain ⟨-, -, hpositive', k, hk, hname, hcount⟩ :=
      CompileUnit.freshLambdaName_spec hpositive s.draft.globals
    have hfresh := h.freshLambdaName_notMem
    have hnames : functionNames (s.lift lambda).unit.module.definitions =
        functionNames s.unit.module.definitions ++
          [(s.unit.freshLambdaName s.draft.globals).1] := by
      rw [definitions_lift h, functionNames_append]
      rfl
    have hsupply : (s.lift lambda).unit.lambdaNames.count "lambda" = k + 1 := hcount
    refine ⟨hindexed.ensure _, hpositive', ?_, ?_⟩
    · rw [hnames]
      exact hdistinct.append (List.nodup_singleton _) (List.disjoint_singleton.mpr hfresh)
    · rw [hnames, hsupply]
      intro name hmem
      rcases List.mem_append.mp hmem with hmem | hmem
      · rcases hnamed name hmem with heq | hhas | ⟨n, hn, heq⟩
        · exact .inl heq
        · exact .inr (.inl hhas)
        · exact .inr (.inr ⟨n, by omega, heq⟩)
      · rw [List.mem_singleton.mp hmem]
        exact .inr (.inr ⟨k, Nat.lt_succ_self k, hname⟩)

/-- **Moves give lambdas names that no function has**, among the top level names of the function at
hand and any others. -/
theorem clear_moves {G : Globals} (hmoves : s.Moves t) (h : s.unit.Clear s.draft.globals)
    (hG : s.unit.Clear G) : t.unit.Clear t.draft.globals ∧ t.unit.Clear G := by
  induction hmoves with
  | refl => exact ⟨h, hG⟩
  | tail hmoves hmove ih =>
    have heffect := hmove.effect
    rw [hmove.grows.globals]
    exact ⟨heffect.clear ih.1 ih.1, heffect.clear ih.1 ih.2⟩

/-! ### Building a function -/

/-- A unit stays sound among the top level names of the function at hand. -/
private theorem sound_move (h : s.unit.Sound s.draft.globals) (hmove : s.Move t) :
    t.unit.Sound t.draft.globals := by
  rw [hmove.grows.globals]
  cases hmove with
  | array length => exact h.ensure_array length
  | library f => exact h.ensure_library f
  | string value => exact h.stringConstant value
  | lift lambda => exact sound_lift h lambda
  | _ => exact h

/-- Behind the definitions `base` the module has only some with the property `P`, and the functions
among them are the lambdas that have been lifted. -/
def Adds (P : Definition → Prop) (base : List Definition) (s : LowerState) : Prop :=
  ∃ added, s.unit.module.definitions = base ++ added ∧ s.unit.lifted = functionNames added ∧
    ∀ d ∈ added, P d

variable {P : Definition → Prop} {base : List Definition}

/-- What is added goes on being of the given kinds. -/
theorem Adds.effect (h : s.Adds P base) (hshared : ∀ d, d.isShared = true → P d)
    (hplaceholder : ∀ name params, P (ModuleDraft.placeholder name params))
    (hclear : s.unit.Clear s.draft.globals) (heffect : s.Effect t) : t.Adds P base := by
  obtain ⟨added, hdefinitions, hlifted, hadded⟩ := h
  cases heffect with
  | code => exact ⟨added, hdefinitions, hlifted, hadded⟩
  | @share v d hd hmodule _ _ hlifted' =>
    change ∃ added, v.module.definitions = base ++ added ∧ v.lifted = functionNames added ∧ _
    rw [hmodule, ModuleDraft.ensure_definitions, hlifted']
    split
    · exact ⟨added, hdefinitions, hlifted, hadded⟩
    · refine ⟨added ++ [d], by rw [hdefinitions, List.append_assoc], ?_, ?_⟩
      · rw [hlifted, functionNames_append, functionNames, functionNames]
        simp [Definition.function?_of_isShared hd]
      · exact List.forall_mem_append.mpr ⟨hadded, List.forall_mem_singleton.mpr (hshared d hd)⟩
  | lift lambda =>
    refine ⟨added ++ [ModuleDraft.placeholder (s.unit.freshLambdaName s.draft.globals).1
      lambda.params], ?_, ?_, ?_⟩
    · rw [definitions_lift hclear, hdefinitions, List.append_assoc]
    · change s.unit.lifted ++ [_] = _
      rw [hlifted, functionNames_append]
      rfl
    · exact List.forall_mem_append.mpr
        ⟨hadded, List.forall_mem_singleton.mpr (hplaceholder _ lambda.params)⟩

/-- What has been added to the module on the way from the start of a function, at which it had the
definitions `base`: nothing with code, and functions only for the lambdas found. -/
structure Accounted (base : List Definition) (s : LowerState) : Prop where
  sound : s.unit.Sound s.draft.globals
  added : ∃ added, s.unit.module.definitions = base ++ added ∧
    s.unit.lifted = functionNames added ∧ ∀ d ∈ added, d.isPlain = true
  pending : ∀ g ∈ s.draft.pending, g.globals = s.draft.globals ∧
    ModuleDraft.placeholder g.name g.lambda.params ∈ s.unit.module.definitions

/-- A move keeps account of what it adds. -/
private theorem Accounted.move (h : s.Accounted base) (hmove : s.Move t) : t.Accounted base := by
  obtain ⟨hsound, hadded, hfound⟩ := h
  have hplain : ∀ d : Definition, d.isShared = true → d.isPlain = true := by
    intro d hd
    cases d <;> first | rfl | cases hd
  refine ⟨sound_move hsound hmove, ?_, ?_⟩
  · exact Adds.effect hadded hplain (fun _ _ => rfl) hsound.clear hmove.effect
  · have hgrows := hmove.grows
    -- what was found earlier is still there
    have hearlier : ∀ g ∈ s.draft.pending, g.globals = t.draft.globals ∧
        ModuleDraft.placeholder g.name g.lambda.params ∈ t.unit.module.definitions :=
      fun g hg => ⟨(hfound g hg).1.trans hgrows.globals.symm, hgrows.definitions (hfound g hg).2⟩
    cases hmove.effect with
    | code _ hpending => exact fun g hg => hearlier g (hpending ▸ hg)
    | share => exact hearlier
    | lift lambda =>
      intro g hg
      rcases List.mem_append.mp hg with hg | hg
      · exact hearlier g hg
      · obtain rfl := List.mem_singleton.mp hg
        refine ⟨rfl, ?_⟩
        rw [definitions_lift hsound.clear]
        exact List.mem_append_right _ List.mem_cons_self

/-- A run of moves keeps account of what it adds. -/
theorem Accounted.moves (h : s.Accounted base) (hmoves : s.Moves t) : t.Accounted base := by
  induction hmoves with
  | refl => exact h
  | tail _ hmove ih => exact ih.move hmove

/-- At its start a function has added nothing. -/
theorem accounted_start {unit : CompileUnit} {globals : Globals} (h : unit.Sound globals)
    (name : Name) (params : List Name) :
    (start unit name params globals).Accounted unit.module.definitions :=
  ⟨h.setLifted [], ⟨[], (List.append_nil _).symm, rfl, fun _ hd => nomatch hd⟩,
    fun _ hg => nomatch hg⟩

end LowerState

/-! ### After a function -/

namespace CompileUnit

variable {G : Globals} {u : CompileUnit}

/-- Some definitions are taken out, none of them a string constant. -/
private theorem Sound.of_sublist (h : u.Sound G) {m : ModuleDraft} (hm : m.Indexed)
    (hsub : m.definitions.Sublist u.module.definitions)
    (hstrings : ∀ {name bytes}, .stringConstant name bytes ∈ u.module.definitions →
      .stringConstant name bytes ∈ m.definitions) : Sound G { u with module := m } where
  indexed := hm
  lambdaNames := h.lambdaNames
  stringNames := h.stringNames
  issued := fun d hd => (h.issued d (hsub.subset hd)).mono rfl (le_refl _) (le_refl _)
  distinct := h.distinct.sublist (hsub.map _)
  strings := fun hv => hstrings (h.strings hv)

/-- A finished function takes the place of the function of its name. -/
theorem Sound.definitions_install (h : u.Sound G) {f g : Function}
    (hg : .function g ∈ u.module.definitions) (hname : g.name = f.name) :
    ∃ before after, u.module.definitions = before ++ .function g :: after ∧
      (u.install f).module.definitions = before ++ after ++ [.function f] := by
  have hnamed : Definition.isFunctionNamed f.name (.function g) = true :=
    Definition.isFunctionNamed_iff.mpr ⟨g, rfl, hname⟩
  obtain ⟨e, before, after, -, he, hsplit, herase⟩ := List.exists_of_eraseP hg hnamed
  have hdistinct := h.distinct
  obtain rfl : e = .function g := by
    refine List.inj_on_of_nodup_map hdistinct (hsplit ▸ by simp) hg ?_
    rw [Definition.isFunctionNamed_iff_key.mp he, Definition.isFunctionNamed_iff_key.mp hnamed]
  have hdrop : (u.module.dropFunction f.name).definitions = before ++ after :=
    (ModuleDraft.dropFunction_definitions h.indexed f.name).trans herase
  refine ⟨before, after, hsplit, ?_⟩
  rw [hsplit, List.map_append, List.map_cons, List.nodup_middle, List.nodup_cons,
    ← List.map_append] at hdistinct
  change ((u.module.dropFunction f.name).ensure (.function f)).definitions = _
  rw [ModuleDraft.ensure_definitions, if_neg, hdrop]
  intro hcontains
  -- no function of the name is left that could be equal
  obtain ⟨e, he, heq⟩ := ModuleDraft.exists_beq_of_contains hcontains
  rw [hdrop] at he
  refine hdistinct.1 (List.mem_map.mpr ⟨e, he, ?_⟩)
  rw [Definition.isFunctionNamed_iff_key.mp hnamed]
  cases e with
  | function f' => exact congrArg (Prod.mk _) (Definition.name_eq_of_beq heq)
  | _ => cases heq

/-- A function may take the place of another of its name. -/
theorem Sound.install (h : u.Sound G) {f g : Function} (hg : .function g ∈ u.module.definitions)
    (hname : g.name = f.name) : (u.install f).Sound G := by
  obtain ⟨before, after, hsplit, hinstall⟩ := h.definitions_install hg hname
  have hkey : (Definition.function g).key = (Definition.function f).key :=
    congrArg (Prod.mk _) hname
  have hsub : (before ++ after).Sublist (before ++ .function g :: after) :=
    (List.sublist_cons_self _ _).append_left before
  refine ⟨(h.indexed.dropFunction f.name).ensure _, h.lambdaNames, h.stringNames,
    fun d hd => ?_, ?_, fun hv => ?_⟩
  · rw [hinstall] at hd
    rcases List.mem_append.mp hd with hd | hd
    · exact (h.issued d (hsplit ▸ hsub.subset hd)).mono rfl (le_refl _) (le_refl _)
    · -- where a function comes from depends on its name only
      rw [List.mem_singleton.mp hd]
      cases h.issued _ hg with
      | entry heq => exact .entry (hname.symm.trans heq)
      | globalFunction hget => exact .globalFunction (hname ▸ hget)
      | lambda heq hn hentry hglobal =>
        exact .lambda (hname.symm.trans heq) hn (hname ▸ hentry) (hname ▸ hglobal)
  · have hdistinct := h.distinct
    rw [hsplit, List.map_append, List.map_cons, List.nodup_middle, hkey] at hdistinct
    rw [hinstall, List.map_append, List.map_append]
    exact (List.perm_append_singleton _ _).nodup_iff.mpr hdistinct
  · have hmem := h.strings hv
    rw [hinstall]
    rw [hsplit] at hmem
    rcases List.mem_append.mp hmem with hmem | hmem
    · exact List.mem_append_left _ (List.mem_append_left _ hmem)
    · exact List.mem_append_left _
        (List.mem_append_right _ ((List.mem_cons.mp hmem).resolve_left nofun))

end CompileUnit

namespace LowerState

variable {base : List Definition} {s : LowerState}

/-- A function that failed leaves declarations, types and strings behind. -/
theorem Accounted.definitions_discard (h : s.Accounted base) :
    s.unit.discardLifted.2.Sound s.draft.globals ∧
      ∃ kept, s.unit.discardLifted.2.module.definitions = base ++ kept ∧
        ∀ d ∈ kept, d.function? = none := by
  obtain ⟨hsound, ⟨added, hdefinitions, hnames, -⟩, -⟩ := h
  obtain ⟨hindexed, hfold⟩ := hsound.clear.definitions_discardLifted hdefinitions hnames
  have hsub : (base ++ added.filter fun d => d.function?.isNone).Sublist (base ++ added) :=
    List.filter_sublist.append_left base
  refine ⟨(hsound.of_sublist hindexed ?_ fun {name bytes} hmem => ?_).setLifted [], _, hfold, ?_⟩
  · rw [hfold, hdefinitions]
    exact hsub
  · rw [hdefinitions] at hmem
    rw [hfold]
    rcases List.mem_append.mp hmem with hmem | hmem
    · exact List.mem_append_left _ hmem
    · exact List.mem_append_right _ (List.mem_filter.mpr ⟨hmem, rfl⟩)
  · intro d hd
    exact Option.isNone_iff_eq_none.mp (List.mem_filter.mp hd).2

end LowerState

end WordScheme
