import Mathlib
import WordScheme.Program
import WordScheme.Proofs.AtomSpellings

/-!
# Programs are read back from their canonical text

`Expr.canonical` writes an expression as an s-expression, one shape for each kind of expression.
Special forms, operators and calls are told apart by the head of a list alone, so an expression is
read back if no name in it is mistaken for something else: `Expr.Readable`. The text of a program is
then scanned and assembled into the data of its forms, and these mean the forms again
(`readProgram_canonical`).
-/

namespace WordScheme

/-! ### Writing expressions -/

/-- A name as a datum. -/
def SExpr.name (text : Name) : SExpr :=
  .atom .identifier text

/-- A special form. -/
def SExpr.form (k : Keyword) (parts : List SExpr) : SExpr :=
  .list (.name k.text :: parts)

mutual

/-- The canonical s-expression of an expression. -/
def Expr.canonical : Expr → SExpr
  | .literal value => value.canonical
  | .var name => .name name
  | .binary op lhs rhs => .list [.name op.text, lhs.canonical, rhs.canonical]
  | .primitive p args => .list (.name p.text :: canonicalAll args)
  | .ifElse condition positive negative =>
    .form .ifElse [condition.canonical, positive.canonical, negative.canonical]
  | .cond clauses => .form .cond (canonicalClauses clauses)
  | .and operands => .form .and (canonicalAll operands)
  | .or operands => .form .or (canonicalAll operands)
  | .not operand => .form .not [operand.canonical]
  | .letIn bindings body => .form .letIn (.list (canonicalBindings bindings) :: canonicalAll body)
  | .define name value => .form .define [.name name, value.canonical]
  | .lambda params body => .form .lambda (.list (params.map .name) :: canonicalAll body)
  | .call target args => .list (target.canonical :: canonicalAll args)
  | .array elements => .vector (canonicalAll elements)
  | .assign name value => .form .assign [.name name, value.canonical]
  | .sequence forms => .form .sequence (canonicalAll forms)
  | .ret value => .form .ret [value.canonical]

/-- The canonical s-expressions of several expressions. -/
def canonicalAll : List Expr → List SExpr
  | [] => []
  | e :: es => e.canonical :: canonicalAll es

/-- The clauses of a `cond`, each a list of its test, or `else`, and its body. -/
def canonicalClauses : List Clause → List SExpr
  | [] => []
  | .test predicate body :: clauses =>
    .list [predicate.canonical, body.canonical] :: canonicalClauses clauses
  | .otherwise body :: clauses => .list [.name "else", body.canonical] :: canonicalClauses clauses

/-- The bindings of a `let`, each a list of a name and a value. -/
def canonicalBindings : List (Name × Expr) → List SExpr
  | [] => []
  | (name, value) :: bindings => .list [.name name, value.canonical] :: canonicalBindings bindings

end

/-- The canonical text of an expression. -/
def Expr.chars (e : Expr) : List Char :=
  e.canonical.chars

/-! ### Expressions that are read back -/

mutual

/-- Every name is an identifier and none is mistaken: no variable is an operator, no variable that
is called is a keyword, and no test is `else`. Bodies are not empty, and there are no doubles. -/
def Expr.Readable : Expr → Prop
  | .literal value => value.isReadable = true
  | .var name => IsIdentifier name ∧ isOperatorName name = false
  | .binary _ lhs rhs => lhs.Readable ∧ rhs.Readable
  | .primitive _ args => readableAll args
  | .ifElse condition positive negative =>
    condition.Readable ∧ positive.Readable ∧ negative.Readable
  | .cond clauses => readableClauses clauses
  | .and operands => readableAll operands
  | .or operands => readableAll operands
  | .not operand => operand.Readable
  | .letIn bindings body => readableBindings bindings ∧ body ≠ [] ∧ readableAll body
  | .define name value => IsIdentifier name ∧ value.Readable
  | .lambda params body => (∀ name ∈ params, IsIdentifier name) ∧ body ≠ [] ∧ readableAll body
  | .call target args =>
    (∀ name, target = .var name → Keyword.ofText? name = none) ∧ target.Readable ∧ readableAll args
  | .array elements => readableAll elements
  | .assign name value => IsIdentifier name ∧ value.Readable
  | .sequence forms => readableAll forms
  | .ret value => value.Readable

@[inherit_doc Expr.Readable]
def readableAll : List Expr → Prop
  | [] => True
  | e :: es => e.Readable ∧ readableAll es

@[inherit_doc Expr.Readable]
def readableClauses : List Clause → Prop
  | [] => True
  | .test predicate body :: clauses =>
    predicate ≠ .var "else" ∧ predicate.Readable ∧ body.Readable ∧ readableClauses clauses
  | .otherwise body :: clauses => body.Readable ∧ readableClauses clauses

@[inherit_doc Expr.Readable]
def readableBindings : List (Name × Expr) → Prop
  | [] => True
  | (name, value) :: bindings => IsIdentifier name ∧ value.Readable ∧ readableBindings bindings

end

/-! ### Canonical texts are spelled as they should be -/

/-- Identifiers are spelled as names. -/
private theorem spelledAll_names {names : List Name} (h : ∀ name ∈ names, IsIdentifier name) :
    spelledAll (names.map .name) := by
  induction names with
  | nil => trivial
  | cons name names ih =>
    obtain ⟨hname, hnames⟩ := List.forall_mem_cons.mp h
    exact ⟨hname.spelling, ih hnames⟩

mutual

/-- The canonical text of a readable expression spells its atoms. -/
private theorem spelled_canonical : (e : Expr) → e.Readable → e.canonical.Spelled
  | .literal _, h => Literal.spelled_canonical h
  | .var _, h => h.1.spelling
  | .binary op lhs rhs, h =>
    ⟨spelling_binary op, spelled_canonical lhs h.1, spelled_canonical rhs h.2, trivial⟩
  | .primitive p args, h => ⟨spelling_primitive p, spelled_canonicalAll args h⟩
  | .ifElse condition positive negative, h =>
    ⟨spelling_keyword _, spelled_canonical condition h.1, spelled_canonical positive h.2.1,
      spelled_canonical negative h.2.2, trivial⟩
  | .cond clauses, h => ⟨spelling_keyword _, spelled_canonicalClauses clauses h⟩
  | .and operands, h => ⟨spelling_keyword _, spelled_canonicalAll operands h⟩
  | .or operands, h => ⟨spelling_keyword _, spelled_canonicalAll operands h⟩
  | .not operand, h => ⟨spelling_keyword _, spelled_canonical operand h, trivial⟩
  | .letIn bindings body, h =>
    ⟨spelling_keyword _, spelled_canonicalBindings bindings h.1, spelled_canonicalAll body h.2.2⟩
  | .define _ value, h =>
    ⟨spelling_keyword _, h.1.spelling, spelled_canonical value h.2, trivial⟩
  | .lambda _ body, h =>
    ⟨spelling_keyword _, spelledAll_names h.1, spelled_canonicalAll body h.2.2⟩
  | .call target args, h => ⟨spelled_canonical target h.2.1, spelled_canonicalAll args h.2.2⟩
  | .array elements, h => spelled_canonicalAll elements h
  | .assign _ value, h =>
    ⟨spelling_keyword _, h.1.spelling, spelled_canonical value h.2, trivial⟩
  | .sequence forms, h => ⟨spelling_keyword _, spelled_canonicalAll forms h⟩
  | .ret value, h => ⟨spelling_keyword _, spelled_canonical value h, trivial⟩

private theorem spelled_canonicalAll :
    (es : List Expr) → readableAll es → spelledAll (canonicalAll es)
  | [], _ => trivial
  | e :: es, h => ⟨spelled_canonical e h.1, spelled_canonicalAll es h.2⟩

private theorem spelled_canonicalClauses : (clauses : List Clause) → readableClauses clauses →
    spelledAll (canonicalClauses clauses)
  | [], _ => trivial
  | .test predicate body :: clauses, h =>
    ⟨⟨spelled_canonical predicate h.2.1, spelled_canonical body h.2.2.1, trivial⟩,
      spelled_canonicalClauses clauses h.2.2.2⟩
  | .otherwise body :: clauses, h =>
    ⟨⟨spelling_else, spelled_canonical body h.1, trivial⟩, spelled_canonicalClauses clauses h.2⟩

private theorem spelled_canonicalBindings :
    (bindings : List (Name × Expr)) → readableBindings bindings →
    spelledAll (canonicalBindings bindings)
  | [], _ => trivial
  | (_, value) :: bindings, h =>
    ⟨⟨h.1.spelling, spelled_canonical value h.2.1, trivial⟩,
      spelled_canonicalBindings bindings h.2.2⟩

end

/-! ### Data mean the expressions they are written from -/

private theorem identifier?_of_name {d : Datum} {name : Name} (h : d.sexpr = .name name) :
    d.identifier? = some name := by
  obtain ⟨span, rfl⟩ := eq_atom_of_sexpr h
  rfl

private theorem name_of_name {d : Datum} {name : Name} (form : Keyword) (h : d.sexpr = .name name) :
    d.name form = .ok name := by
  rw [Datum.name, identifier?_of_name h]

/-- The text of a keyword at the head of a list is that keyword. -/
private theorem ofDatum_keyword {d : Datum} {k : Keyword} (h : d.sexpr = .name k.text) :
    Head.ofDatum d = .keyword k := by
  have hk : Keyword.ofText? k.text = some k := by cases k <;> decide
  rw [Head.ofDatum, identifier?_of_name h]
  simp only [hk]

private theorem ofDatum_binary {d : Datum} {op : BinaryOp} (h : d.sexpr = .name op.text) :
    Head.ofDatum d = .binary op := by
  have hkeyword : Keyword.ofText? op.text = none := by
    rcases op with (_ | _) | (_ | _) | (_ | _) | (_ | _) <;> decide
  have hop : BinaryOp.ofText? op.text = some op := by
    rcases op with (_ | _) | (_ | _) | (_ | _) | (_ | _) <;> decide
  rw [Head.ofDatum, identifier?_of_name h]
  simp only [hkeyword, hop]

private theorem ofDatum_primitive {d : Datum} {p : Primitive} (h : d.sexpr = .name p.text) :
    Head.ofDatum d = .primitive p := by
  have hkeyword : Keyword.ofText? p.text = none := by
    rcases p with (_ | _) | _ | _ <;> decide
  have hop : BinaryOp.ofText? p.text = none := by
    rcases p with (_ | _) | _ | _ <;> decide
  have hp : Primitive.ofText? p.text = some p := by
    rcases p with (_ | _) | _ | _ <;> decide
  rw [Head.ofDatum, identifier?_of_name h]
  simp only [hkeyword, hop, hp]

/-- Only a variable is written as a name. -/
private theorem eq_var_of_identifier? {e : Expr} {d : Datum} {name : Name}
    (hd : d.sexpr = e.canonical) (hname : d.identifier? = some name) : e = .var name := by
  have hatom : d.sexpr = .name name := by
    cases d with
    | atom kind text span =>
      cases kind <;> cases hname
      rfl
    | _ => cases hname
  rw [hatom] at hd
  cases e with
  | var name' => exact congrArg Expr.var (SExpr.atom.inj hd.symm).2
  | literal value => cases value <;> cases hd
  | _ => cases hd

/-- An expression that may be called is no keyword and no operator. -/
private theorem ofDatum_target {target : Expr} {d : Datum} (h : target.Readable)
    (hkeyword : ∀ name, target = .var name → Keyword.ofText? name = none)
    (hd : d.sexpr = target.canonical) : Head.ofDatum d = .value := by
  rw [Head.ofDatum]
  cases hname : d.identifier? with
  | none => rfl
  | some name =>
    obtain rfl := eq_var_of_identifier? hd hname
    have hoperator := h.2
    simp only [isOperatorName, Bool.or_eq_false_iff, Option.isSome_eq_false_iff,
      Option.isNone_iff_eq_none] at hoperator
    simp only [hkeyword name rfl, hoperator.1, hoperator.2]

/-- A list of names is read back. -/
private theorem names_of_canonical (form : Keyword) {names : List Name} {ds : List Datum}
    (h : sexprAll ds = names.map .name) : ds.mapM (Datum.name form) = .ok names := by
  induction names generalizing ds with
  | nil =>
    obtain rfl := eq_nil_of_sexprAll h
    rfl
  | cons name names ih =>
    obtain ⟨d, ds, rfl, hd, hds⟩ := eq_cons_of_sexprAll h
    rw [List.mapM_cons, name_of_name form hd, ih hds]
    rfl

/-- A special form is a list with its keyword at the head. -/
private theorem eq_form_of_sexpr {d : Datum} {k : Keyword} {parts : List SExpr}
    (h : d.sexpr = .form k parts) :
    ∃ head rest span, d = .list (head :: rest) span ∧ Head.ofDatum head = .keyword k ∧
      sexprAll rest = parts := by
  obtain ⟨items, span, rfl, hitems⟩ := eq_list_of_sexpr h
  obtain ⟨head, rest, rfl, hhead, hrest⟩ := eq_cons_of_sexprAll hitems
  exact ⟨head, rest, span, rfl, ofDatum_keyword hhead, hrest⟩

mutual

/-- **A datum that is written from an expression means it.** -/
theorem toExpr_canonical : (e : Expr) → (d : Datum) → e.Readable → d.sexpr = e.canonical →
    d.toExpr = .ok e
  | .literal value, d, h, hd => Literal.toExpr_canonical h hd
  | .var name, d, h, hd => by
    obtain ⟨span, rfl⟩ := eq_atom_of_sexpr hd
    rw [Datum.toExpr, atomExpr, h.2]
    rfl
  | .binary op lhs rhs, d, h, hd => by
    obtain ⟨items, span, rfl, hitems⟩ := eq_list_of_sexpr hd
    obtain ⟨head, rest, rfl, hhead, hrest⟩ := eq_cons_of_sexprAll hitems
    obtain ⟨d₁, rest, rfl, hd₁, hrest⟩ := eq_cons_of_sexprAll hrest
    obtain ⟨d₂, rest, rfl, hd₂, hrest⟩ := eq_cons_of_sexprAll hrest
    obtain rfl := eq_nil_of_sexprAll hrest
    rw [Datum.toExpr.eq_def]
    simp only [ofDatum_binary hhead, toExprs, toExpr_canonical lhs d₁ h.1 hd₁,
      toExpr_canonical rhs d₂ h.2 hd₂]
    rfl
  | .primitive p args, d, h, hd => by
    obtain ⟨items, span, rfl, hitems⟩ := eq_list_of_sexpr hd
    obtain ⟨head, rest, rfl, hhead, hrest⟩ := eq_cons_of_sexprAll hitems
    rw [Datum.toExpr.eq_def]
    simp only [ofDatum_primitive hhead, toExprs_canonical args rest h hrest]
    rfl
  | .ifElse condition positive negative, d, h, hd => by
    obtain ⟨head, rest, span, rfl, hhead, hrest⟩ := eq_form_of_sexpr hd
    obtain ⟨d₁, rest, rfl, hd₁, hrest⟩ := eq_cons_of_sexprAll hrest
    obtain ⟨d₂, rest, rfl, hd₂, hrest⟩ := eq_cons_of_sexprAll hrest
    obtain ⟨d₃, rest, rfl, hd₃, hrest⟩ := eq_cons_of_sexprAll hrest
    obtain rfl := eq_nil_of_sexprAll hrest
    rw [Datum.toExpr.eq_def]
    simp only [hhead, toExpr_canonical condition d₁ h.1 hd₁, toExpr_canonical positive d₂ h.2.1 hd₂,
      toExpr_canonical negative d₃ h.2.2 hd₃]
    rfl
  | .cond clauses, d, h, hd => by
    obtain ⟨head, rest, span, rfl, hhead, hrest⟩ := eq_form_of_sexpr hd
    rw [Datum.toExpr.eq_def]
    simp only [hhead, clauseExprs_canonical clauses rest h hrest]
    rfl
  | .and operands, d, h, hd => by
    obtain ⟨head, rest, span, rfl, hhead, hrest⟩ := eq_form_of_sexpr hd
    rw [Datum.toExpr.eq_def]
    simp only [hhead, toExprs_canonical operands rest h hrest]
    rfl
  | .or operands, d, h, hd => by
    obtain ⟨head, rest, span, rfl, hhead, hrest⟩ := eq_form_of_sexpr hd
    rw [Datum.toExpr.eq_def]
    simp only [hhead, toExprs_canonical operands rest h hrest]
    rfl
  | .not operand, d, h, hd => by
    obtain ⟨head, rest, span, rfl, hhead, hrest⟩ := eq_form_of_sexpr hd
    obtain ⟨d₁, rest, rfl, hd₁, hrest⟩ := eq_cons_of_sexprAll hrest
    obtain rfl := eq_nil_of_sexprAll hrest
    rw [Datum.toExpr.eq_def]
    simp only [hhead, toExpr_canonical operand d₁ h hd₁]
    rfl
  | .letIn bindings body, d, h, hd => by
    obtain ⟨head, rest, span, rfl, hhead, hrest⟩ := eq_form_of_sexpr hd
    obtain ⟨d₁, rest, rfl, hd₁, hbody⟩ := eq_cons_of_sexprAll hrest
    obtain ⟨items, inner, rfl, hitems⟩ := eq_list_of_sexpr hd₁
    rw [Datum.toExpr.eq_def]
    simp only [hhead, bindingExprs_canonical bindings items h.1 hitems,
      bodyExprs_canonical .letIn span body rest h.2.1 h.2.2 hbody]
    rfl
  | .define name value, d, h, hd => by
    obtain ⟨head, rest, span, rfl, hhead, hrest⟩ := eq_form_of_sexpr hd
    obtain ⟨d₁, rest, rfl, hd₁, hrest⟩ := eq_cons_of_sexprAll hrest
    obtain ⟨d₂, rest, rfl, hd₂, hrest⟩ := eq_cons_of_sexprAll hrest
    obtain rfl := eq_nil_of_sexprAll hrest
    obtain ⟨inner, rfl⟩ := eq_atom_of_sexpr hd₁
    rw [Datum.toExpr.eq_def]
    simp only [hhead]
    rw [defineExpr, name_of_name .define hd₁, toExpr_canonical value d₂ h.2 hd₂]
    · rfl
    all_goals simp
  | .lambda params body, d, h, hd => by
    obtain ⟨head, rest, span, rfl, hhead, hrest⟩ := eq_form_of_sexpr hd
    obtain ⟨d₁, rest, rfl, hd₁, hbody⟩ := eq_cons_of_sexprAll hrest
    obtain ⟨items, inner, rfl, hitems⟩ := eq_list_of_sexpr hd₁
    rw [Datum.toExpr.eq_def]
    simp only [hhead, Datum.params, names_of_canonical .lambda hitems,
      bodyExprs_canonical .lambda span body rest h.2.1 h.2.2 hbody]
    rfl
  | .call target args, d, h, hd => by
    obtain ⟨items, span, rfl, hitems⟩ := eq_list_of_sexpr hd
    obtain ⟨head, rest, rfl, hhead, hrest⟩ := eq_cons_of_sexprAll hitems
    rw [Datum.toExpr.eq_def]
    simp only [ofDatum_target h.2.1 h.1 hhead, toExpr_canonical target head h.2.1 hhead,
      toExprs_canonical args rest h.2.2 hrest]
    rfl
  | .array elements, d, h, hd => by
    obtain ⟨items, span, rfl, hitems⟩ := eq_vector_of_sexpr hd
    rw [Datum.toExpr, toExprs_canonical elements items h hitems]
    rfl
  | .assign name value, d, h, hd => by
    obtain ⟨head, rest, span, rfl, hhead, hrest⟩ := eq_form_of_sexpr hd
    obtain ⟨d₁, rest, rfl, hd₁, hrest⟩ := eq_cons_of_sexprAll hrest
    obtain ⟨d₂, rest, rfl, hd₂, hrest⟩ := eq_cons_of_sexprAll hrest
    obtain rfl := eq_nil_of_sexprAll hrest
    rw [Datum.toExpr.eq_def]
    simp only [hhead, name_of_name .assign hd₁, toExpr_canonical value d₂ h.2 hd₂]
    rfl
  | .sequence forms, d, h, hd => by
    obtain ⟨head, rest, span, rfl, hhead, hrest⟩ := eq_form_of_sexpr hd
    rw [Datum.toExpr.eq_def]
    simp only [hhead, toExprs_canonical forms rest h hrest]
    rfl
  | .ret value, d, h, hd => by
    obtain ⟨head, rest, span, rfl, hhead, hrest⟩ := eq_form_of_sexpr hd
    obtain ⟨d₁, rest, rfl, hd₁, hrest⟩ := eq_cons_of_sexprAll hrest
    obtain rfl := eq_nil_of_sexprAll hrest
    rw [Datum.toExpr.eq_def]
    simp only [hhead, toExpr_canonical value d₁ h hd₁]
    rfl

/-- Readable expressions are read back from their canonical data. -/
private theorem toExprs_canonical : (es : List Expr) → (ds : List Datum) → readableAll es →
    sexprAll ds = canonicalAll es → toExprs ds = .ok es
  | [], ds, _, hds => by
    obtain rfl := eq_nil_of_sexprAll hds
    rfl
  | e :: es, ds, h, hds => by
    obtain ⟨d, ds, rfl, hd, hds⟩ := eq_cons_of_sexprAll hds
    rw [toExprs, toExpr_canonical e d h.1 hd, toExprs_canonical es ds h.2 hds]
    rfl

/-- A readable body is read back from its canonical data. -/
private theorem bodyExprs_canonical (form : Keyword) (span : Span) : (es : List Expr) →
    (ds : List Datum) → es ≠ [] → readableAll es → sexprAll ds = canonicalAll es →
    bodyExprs form span ds = .ok es
  | [], _, hne, _, _ => absurd rfl hne
  | e :: es, ds, _, h, hds => by
    obtain ⟨d, ds, rfl, hd, hds⟩ := eq_cons_of_sexprAll hds
    rw [bodyExprs, toExpr_canonical e d h.1 hd, toExprs_canonical es ds h.2 hds]
    rfl

private theorem clauseExprs_canonical : (clauses : List Clause) → (ds : List Datum) →
    readableClauses clauses → sexprAll ds = canonicalClauses clauses →
    clauseExprs ds = .ok clauses
  | [], ds, _, hds => by
    obtain rfl := eq_nil_of_sexprAll hds
    rfl
  | .test predicate body :: clauses, ds, h, hds => by
    obtain ⟨d, ds, rfl, hd, hclauses⟩ := eq_cons_of_sexprAll hds
    obtain ⟨items, span, rfl, hitems⟩ := eq_list_of_sexpr hd
    obtain ⟨d₁, rest, rfl, hd₁, hrest⟩ := eq_cons_of_sexprAll hitems
    obtain ⟨d₂, rest, rfl, hd₂, hrest⟩ := eq_cons_of_sexprAll hrest
    obtain rfl := eq_nil_of_sexprAll hrest
    have helse : (d₁.identifier? == some "else") = false := by
      rw [beq_eq_false_iff_ne]
      exact fun hname => h.1 (eq_var_of_identifier? hd₁ hname)
    rw [clauseExprs, helse, toExpr_canonical predicate d₁ h.2.1 hd₁, bodyExprs,
      toExpr_canonical body d₂ h.2.2.1 hd₂, clauseExprs_canonical clauses ds h.2.2.2 hclauses]
    rfl
  | .otherwise body :: clauses, ds, h, hds => by
    obtain ⟨d, ds, rfl, hd, hclauses⟩ := eq_cons_of_sexprAll hds
    obtain ⟨items, span, rfl, hitems⟩ := eq_list_of_sexpr hd
    obtain ⟨d₁, rest, rfl, hd₁, hrest⟩ := eq_cons_of_sexprAll hitems
    obtain ⟨d₂, rest, rfl, hd₂, hrest⟩ := eq_cons_of_sexprAll hrest
    obtain rfl := eq_nil_of_sexprAll hrest
    rw [clauseExprs, identifier?_of_name hd₁, bodyExprs, toExpr_canonical body d₂ h.1 hd₂,
      clauseExprs_canonical clauses ds h.2 hclauses]
    rfl

private theorem bindingExprs_canonical : (bindings : List (Name × Expr)) → (ds : List Datum) →
    readableBindings bindings → sexprAll ds = canonicalBindings bindings →
    bindingExprs ds = .ok bindings
  | [], ds, _, hds => by
    obtain rfl := eq_nil_of_sexprAll hds
    rfl
  | (name, value) :: bindings, ds, h, hds => by
    obtain ⟨d, ds, rfl, hd, hbindings⟩ := eq_cons_of_sexprAll hds
    obtain ⟨items, span, rfl, hitems⟩ := eq_list_of_sexpr hd
    obtain ⟨d₁, rest, rfl, hd₁, hrest⟩ := eq_cons_of_sexprAll hitems
    obtain ⟨d₂, rest, rfl, hd₂, hrest⟩ := eq_cons_of_sexprAll hrest
    obtain rfl := eq_nil_of_sexprAll hrest
    rw [bindingExprs, name_of_name .letIn hd₁, toExpr_canonical value d₂ h.2.1 hd₂,
      bindingExprs_canonical bindings ds h.2.2 hbindings]
    rfl

end

/-! ### Programs -/

/-- A text of spaces and newlines. -/
def IsGap (cs : List Char) : Prop :=
  ∀ c ∈ cs, c = ' ' ∨ c = '\n'

/-- What stands between forms ends an atom. -/
theorem IsGap.ends {cs : List Char} (h : IsGap cs) : Ends cs := by
  rintro c tail rfl
  obtain rfl | rfl := h c List.mem_cons_self <;> decide

/-- What stands between forms is skipped. -/
private theorem IsGap.assemble {gap : List Char} (h : IsGap gap) (frames : List Frame)
    (cs : List Char) (offset : Nat) : ∃ stop, Cursor.assemble frames ⟨offset, gap ++ cs⟩ =
      Cursor.assemble frames ⟨stop, cs⟩ := by
  induction gap generalizing offset with
  | nil => exact ⟨offset, rfl⟩
  | cons c gap ih =>
    obtain ⟨hc, hgap⟩ := List.forall_mem_cons.mp h
    have hblank : isBlank c = true := by obtain rfl | rfl := hc <;> decide
    obtain ⟨stop, hstop⟩ := ih hgap (offset + c.utf8Size)
    exact ⟨stop, (Cursor.assemble_blank hblank _).trans hstop⟩

/-- The text of forms, each with the gap behind it. -/
def programChars (forms : List (Expr × List Char)) : List Char :=
  forms.flatMap fun (e, gap) => e.chars ++ gap

/-- The text of a program is assembled into the canonical data of its forms. -/
private theorem assemble_programChars : (forms : List (Expr × List Char)) →
    (∀ x ∈ forms, x.1.Readable) → (∀ x ∈ forms, IsGap x.2) → (∀ x ∈ forms.dropLast, x.2 ≠ []) →
    (offset : Nat) → ∃ ds, sexprAll ds = canonicalAll (forms.map Prod.fst) ∧
      Cursor.assemble [] ⟨offset, programChars forms⟩ = (ds, none)
  | [], _, _, _, _ => ⟨[], rfl, Cursor.assemble_nil rfl⟩
  | (e, gap) :: forms, hreadable, hgaps, hseparated, offset => by
    obtain ⟨he, hforms⟩ := List.forall_mem_cons.mp hreadable
    obtain ⟨hgap, hgaps⟩ := List.forall_mem_cons.mp hgaps
    have hends : Ends (gap ++ programChars forms) := by
      cases forms with
      | nil =>
        rw [programChars, List.flatMap_nil, List.append_nil]
        exact hgap.ends
      | cons form forms => exact hgap.ends.append (hseparated (e, gap) List.mem_cons_self) _
    have hlater : ∀ x ∈ forms.dropLast, x.2 ≠ [] := by
      cases forms with
      | nil => exact nofun
      | cons form forms => exact fun x hx => hseparated x (List.mem_cons_of_mem _ hx)
    obtain ⟨d, place, hd, hread⟩ :=
      Cursor.assemble_chars offset e.canonical (spelled_canonical e he) hends
    obtain ⟨start, hstart⟩ := hgap.assemble [] (programChars forms) place
    obtain ⟨ds, hds, hrest⟩ := assemble_programChars forms hforms hgaps hlater start
    refine ⟨d :: ds, by rw [sexprAll, hd, hds]; rfl, ?_⟩
    rw [programChars, List.flatMap_cons, List.append_assoc, Expr.chars, ← programChars, hread,
      Cursor.deliver_nil, hstart, hrest]

/-- **Programs are read back from their canonical text**, whatever spaces and newlines stand between
the forms, in front of them and behind them. -/
theorem readProgram_canonical (lead : List Char) (forms : List (Expr × List Char))
    (hreadable : ∀ x ∈ forms, x.1.Readable) (hlead : IsGap lead) (hgaps : ∀ x ∈ forms, IsGap x.2)
    (hseparated : ∀ x ∈ forms.dropLast, x.2 ≠ []) :
    readProgram (String.ofList (lead ++ programChars forms)) = .ok (forms.map Prod.fst) := by
  obtain ⟨start, hstart⟩ := hlead.assemble [] (programChars forms) 0
  obtain ⟨ds, hds, hread⟩ := assemble_programChars forms hreadable hgaps hseparated start
  have hassemble : (TokenStream.ofText (String.ofList (lead ++ programChars forms))).assemble =
      (ds, none) := by
    rw [TokenStream.ofText, String.toList_ofList]
    exact hstart.trans hread
  have hreadableAll : readableAll (forms.map Prod.fst) := by
    clear * - hreadable
    induction forms with
    | nil => trivial
    | cons form forms ih =>
      obtain ⟨hform, hforms⟩ := List.forall_mem_cons.mp hreadable
      exact ⟨hform, ih hforms⟩
  rw [readProgram, hassemble]
  simp only [toExprs_canonical _ ds hreadableAll hds]
  rfl

/-- Forms with names that mean something else elsewhere, and with delimiters inside of literals. -/
def quoting : List (Expr × List Char) :=
  [(.define "set!" (.lambda ["+", "else"]
      [.cond [.test (.binary (.compare .less) (.var "else") (.integer (-9223372036854775808)))
          (.literal (.character '(')),
        .otherwise (.literal (.string "a \"\\\n;"))]]), ['\n', ' ']),
    (.call (.var "λ") [.empty, .array [.literal (.character '\n'), .var "define"]], [])]

theorem readProgram_canonical_quoting :
    readProgram ("\n(define set! (lambda (+ else) (cond ((< else -9223372036854775808) #\\()" ++
      " (else \"a \\\"\\\\\n;\"))))\n (λ '() #(#\\\n define))") =
      .ok (quoting.map Prod.fst) := by
  have hnames : ∀ name ∈ ["set!", "+", "else", "λ", "define"], IsIdentifier name := by
    decide +kernel
  have hoperators : ∀ name ∈ ["else", "λ", "define"], isOperatorName name = false := by
    decide +kernel
  have htarget : ∀ name, Expr.var "λ" = .var name → Keyword.ofText? name = none := by
    rintro _ ⟨⟩
    decide
  have hread := readProgram_canonical ['\n'] quoting
    (by
      simp only [List.forall_mem_cons, List.not_mem_nil] at hnames hoperators
      simp [quoting, Expr.Readable, readableAll, readableClauses, Literal.isReadable, Expr.integer,
        Expr.empty, hnames, hoperators, htarget])
    (by simp [IsGap]) (by simp [quoting, IsGap]) (by simp [quoting])
  exact (congrArg readProgram (by decide +kernel)).trans hread

end WordScheme
