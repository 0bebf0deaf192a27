import MeaningForest.Proofs.Brackets

/-!
# The grammar keeps brackets together

Every rule of the grammar takes each closing bracket with the one that it closes.  The proofs follow the rules line by
line, and `Rules.balanced_ofDepth` ties the knot as the rules do.  So a text that is read as a whole has all its
brackets in pairs (`unclosed_of_parseExpr?`, `unclosed_of_parseFile?`).
-/

namespace MeaningForest.Host

open Parse

namespace Rules

/-- The rules that the others call keep brackets together. -/
structure Balanced (r : Rules) : Prop where
  expr (least : Nat) : Keeps (r.expr least)
  unary : Keeps r.unary
  type? : Keeps r.type?
  literalValue (type : Option Expr) : Keeps (r.literalValue type)
  stmt : Keeps r.stmt

namespace Balanced

variable {r : Rules} (h : r.Balanced)
include h

theorem anyExpr : Keeps r.anyExpr := h.expr 1

theorem exprs : Keeps r.exprs := .commaSeparated h.anyExpr

theorem type : Keeps r.type := h.type?.bind fun
  | some _ => .pure
  | Option.none => .failure

theorem stmts : Keeps r.stmts :=
  .repeatWhile ((Looks.isNextOf _).keeps.bind fun _ => Keeps.peek.bind fun _ => .pure) h.stmt

theorem block : Keeps r.block := fun b =>
  .bind (.expect rfl) fun _ =>
  .bind (h.stmts (.rbrace :: b)) fun _ =>
  .bind (.expect rfl) fun _ => .pure

/-! ### Types -/

omit h in
theorem typeNameFrom (name : Text) : Keeps (typeNameFrom name) := fun b =>
  .accept rfl (.bind (Keeps.ident b) fun _ => .pure) .pure

theorem typeArgs (x : Expr) : Keeps (r.typeArgs x) := fun b =>
  .bind (.expect rfl) fun _ =>
  .bind (.nested (Keeps.commaList .rbrack h.type (.rbrack :: b))) fun _ =>
  .bind (.expect rfl) fun _ =>
  .ite (fun _ => .failure_bind) fun _ => .pure

theorem namedTypeFrom (name : Text) : Keeps (r.namedTypeFrom name) :=
  (typeNameFrom name).bind fun x b => .cond (Looks.isNext _).keeps (h.typeArgs x b) .pure

/-- The rest of an array or slice type, the length of which was read. -/
theorem arrayType (b : List Token) : Moves (.rbrack :: b) b r.arrayType :=
  .bind (.nested (.accept rfl .pure
    (.cond (Looks.isNext _).keeps .pure (.bind (h.anyExpr (.rbrack :: b)) fun _ => .pure)))) fun _ =>
  .bind (.expect rfl) fun _ =>
  .bind (h.type b) fun _ => .pure

theorem arrayOrInstance (name : Text) : Keeps (r.arrayOrInstance name) := fun b =>
  .bind (.expect rfl) fun _ =>
  .bind (.nested (.cond (Looks.isNext _).keeps .pure
    (.bind (h.anyExpr (.rbrack :: b)) fun _ =>
    .bind (Keeps.repeatWhile_looks ((Looks.isNext _).and_get _)
      (by rintro b _ rfl; exact .bind (.advance rfl) fun _ => h.anyExpr b) _) fun _ =>
    .bind (Keeps.accept (fun _ => rfl) _) fun _ => .pure))) fun
  | ([], _) => .bind (.expect rfl) fun _ => .bind (h.type b) fun _ => .pure
  | ([_], _) => .bind (.expect rfl) fun _ => .bind (h.type? b) fun
    | some _ => .ite (fun _ => .failure) fun _ => .pure
    | Option.none => .pure
  | (_ :: _ :: _, _) => .bind (.expect rfl) fun _ => .pure

theorem term : Keeps r.term := fun b =>
  .accept rfl (.bind (h.type b) fun _ => .pure) (h.type b)

theorem unionFrom (x : Expr) : Keeps (r.unionFrom x) :=
  (Keeps.repeatWhile_looks (.isNext _) (by rintro b _ rfl; exact .bind (.advance rfl) fun _ => h.term b)).bind
    fun _ => .pure

/-! ### Parameters -/

theorem dotsType : Keeps r.dotsType := fun b =>
  .bind (.expect rfl) fun _ => .bind (h.type b) fun _ => .pure

omit h in
theorem atParamType : Keeps atParamType :=
  Looks.isIdent.keeps.bind fun _ => (Looks.isNextOf _).keeps.bind fun _ => .pure

/-- The end of an entry: its type may go on with a union. -/
theorem entryEnd (unions : Bool) (e : Entry) : Keeps (match e.type with
    | some t => do
      if unions && (← isNext (.op "|")) then return ⟨e.name, some (← r.unionFrom t)⟩ else return e
    | Option.none => return e : Parse Entry) := fun b => by
  obtain ⟨n, _ | t⟩ := e
  · exact .pure
  · exact .bind ((Looks.isNext _).keeps b) fun _ => .ite (fun _ => .bind (h.unionFrom t b) fun _ => .pure)
      fun _ => .pure

theorem entryFrom (unions : Bool) (name : Text) : Keeps (r.entryFrom unions name) := fun b =>
  .cond atParamType (.bind (h.type b) fun _ => h.entryEnd unions ⟨some name, some _⟩ b)
    (.cond (Looks.isNext _).keeps (.bind (h.arrayOrInstance name b) fun ⟨n, t⟩ => h.entryEnd unions ⟨n, some t⟩ b)
    (.cond (Looks.isNext _).keeps (.bind (h.dotsType b) fun _ => .pure)
    (.cond (Looks.isNext _).keeps (.bind (h.namedTypeFrom name b) fun _ => h.entryEnd unions ⟨Option.none, some _⟩ b)
    (.bind ((Looks.isNext _).keeps b) fun _ => .ite
      (fun _ => .bind (h.term b) fun _ => .bind (h.unionFrom _ b) fun _ => .pure) fun _ =>
    (.bind ((Looks.isNext _).keeps b) fun _ => .ite
      (fun _ => .bind (h.unionFrom _ b) fun _ => .pure) fun _ => .pure)))))

theorem entry (unions : Bool) : Keeps (r.entry unions) := fun b =>
  .bind ((Looks.isNext _).keeps b) fun _ => .ite
    (fun _ => .bind (h.term b) fun _ => .bind (h.unionFrom _ b) fun _ => .pure) fun _ =>
  .cond Looks.isIdent.keeps (.bind (Keeps.ident b) fun _ => h.entryFrom unions _ b)
    (.cond (Looks.isNext _).keeps (.bind (h.dotsType b) fun _ => .pure)
    (.bind (atParamType b) fun _ => .bind ((Looks.isNext _).keeps b) fun _ => .ite
      (fun _ => .bind (h.type b) fun _ => .bind ((Looks.isNext _).keeps b) fun _ => .ite
        (fun _ => .bind (h.unionFrom _ b) fun _ => .pure) fun _ => .pure)
      fun _ => .failure))

theorem params (variadic : Bool) : Keeps (r.params variadic) := fun b =>
  .bind (.expect rfl) fun _ =>
  .bind (Keeps.commaList .rparen (h.entry false) (.rparen :: b)) fun _ =>
  .bind (.expect rfl) fun _ => by
    split
    · exact .pure
    · exact .failure

omit h in
/-- The end of a type parameter list that has the entries `es`. -/
theorem typeParamsEnd (es : List Entry) (b : List Token) : Moves (.rbrack :: b) b (do
    expect .rbrack
    match fieldsOf? true false es with
    | some fs => return fs
    | Option.none => failure : Parse (List Field)) :=
  .bind (.expect rfl) fun _ => by
    split
    · exact .pure
    · exact .failure

/-- The rest of a type parameter list. -/
theorem typeParamsFrom (first : Entry) (b : List Token) : Moves (.rbrack :: b) b (r.typeParamsFrom first) :=
  .look (.atComma _)
    (by
      rintro _ rfl
      exact .bind (.advance rfl) fun _ =>
        .bind (Keeps.commaList .rbrack (h.entry true) (.rbrack :: b)) fun es => typeParamsEnd (first :: es) b)
    (.bind .pure fun es => typeParamsEnd (first :: es) b)

theorem typeParams : Keeps r.typeParams := fun b =>
  .bind (.expect rfl) fun _ =>
  .bind (h.entry true (.rbrack :: b)) fun _ => h.typeParamsFrom _ b

theorem results : Keeps r.results := fun b =>
  .cond (Looks.isNext _).keeps (.bind (h.params false b) fun _ => .pure) (.bind (h.type? b) fun
    | some _ => .pure
    | Option.none => .pure)

theorem signature : Keeps r.signature :=
  (h.params true).bind fun _ => h.results.bind fun _ => .pure

/-! ### Struct and interface types -/

omit h in
/-- The end of a field of a struct: a tag may follow it. -/
theorem structFieldEnd (field : Field) : Keeps (do
    match ← peek with
    | some (.literal .string _) => advance
    | _ => pure ()
    endStatement
    return field : Parse Field) := fun b => .peek fun o => by
  split
  · exact .bind (.advance rfl) fun _ => .bind (Keeps.endStatement b) fun _ => .pure
  · exact Moves.bind (Keeps.endStatement b) (fun _ => .pure) _

theorem structField : Keeps r.structField := fun b => by
  refine .accept rfl
    (.bind (Keeps.ident b) fun _ => .bind (h.namedTypeFrom _ b) fun _ => .bind .pure fun _ => structFieldEnd _ b)
    (.bind (Keeps.ident b) fun name => .peek fun o => ?_)
  split
  · exact Moves.bind (h.namedTypeFrom name b) (fun _ => .bind .pure fun _ => structFieldEnd _ b) _
  · exact structFieldEnd _ b _
  · exact structFieldEnd _ b _
  · exact structFieldEnd _ b _
  · exact Moves.bind (h.arrayOrInstance name b) (fun _ => .bind .pure fun _ => structFieldEnd _ b) _
  · exact Moves.bind (Keeps.repeatWhile_looks (.isNext .comma)
      (by rintro b _ rfl; exact .bind (.advance rfl) fun _ => Keeps.ident b) b)
      (fun _ => .bind (h.type b) fun _ => .bind .pure fun _ => structFieldEnd _ b) _

theorem structType : Keeps r.structType := fun b =>
  .bind (.expect rfl) fun _ =>
  .bind (Keeps.repeatWhile (Looks.isIdent.keeps.bind fun _ => (Looks.isNext _).keeps.bind fun _ => .pure) h.structField
    (.rbrace :: b)) fun _ =>
  .bind (.expect rfl) fun _ => .pure

theorem methodSpec : Keeps r.methodSpec := fun b => by
  have hrest : ∀ (x : Expr), Moves (.rbrack :: b) b (do
      expect .rbrack
      return .mk [] (← r.unionFrom x) : Parse Field) := fun x =>
    .bind (.expect rfl) fun _ => .bind (h.unionFrom x b) fun _ => .pure
  refine .bind (Keeps.ident b) fun name => .cond (Looks.isNext _).keeps (.bind (h.signature b) fun _ => .pure)
    (.look (.isNext _) ?_ (.bind (h.namedTypeFrom name b) fun _ => .bind (h.unionFrom _ b) fun _ => .pure))
  rintro _ rfl
  refine .bind (.advance rfl) fun _ => .bind (.nested (h.anyExpr (.rbrack :: b))) fun first => .look (.atComma _) ?_
    (.bind .pure fun _ => hrest _)
  rintro _ rfl
  exact .bind (.nested (.bind (.advance rfl) fun _ => Keeps.commaList .rbrack h.type (.rbrack :: b))) fun _ => hrest _

theorem interfaceElem? : Keeps r.interfaceElem? := fun b =>
  .cond Looks.isIdent.keeps (.bind (h.methodSpec b) fun _ => .bind (Keeps.endStatement b) fun _ => .pure)
    (.cond (Looks.isNext _).keeps
      (.bind (h.term b) fun _ => .bind (h.unionFrom _ b) fun _ => .bind (Keeps.endStatement b) fun _ => .pure)
      (.bind (h.type? b) fun
        | some _ => .bind (h.unionFrom _ b) fun _ => .bind (Keeps.endStatement b) fun _ => .pure
        | Option.none => .pure))

theorem interfaceType : Keeps r.interfaceType := fun b =>
  .bind (.expect rfl) fun _ =>
  .bind (Keeps.repeatSome h.interfaceElem? (.rbrace :: b)) fun _ =>
  .bind (.expect rfl) fun _ => .pure

theorem funcType : Keeps r.funcType := h.signature.bind fun _ => .pure

theorem mapType : Keeps r.mapType := fun b =>
  .bind (.expect rfl) fun _ =>
  .bind (h.type (.rbrack :: b)) fun _ =>
  .bind (.expect rfl) fun _ =>
  .bind (h.type b) fun _ => .pure

theorem typeRule : Keeps r.typeRule := fun b => .peek fun o => by
  split
  · exact .bind (.advance rfl) fun _ => .bind (h.namedTypeFrom _ b) fun _ => .pure
  · exact .bind (.advance rfl) fun _ => .bind (h.arrayType b) fun _ => .pure
  · exact .bind (.advance rfl) fun _ => .bind (h.structType b) fun _ => .pure
  · exact .bind (.advance rfl) fun _ => .bind (h.type b) fun _ => .pure
  · exact .bind (.advance rfl) fun _ => .bind (h.funcType b) fun _ => .pure
  · exact .bind (.advance rfl) fun _ => .bind (h.interfaceType b) fun _ => .pure
  · exact .bind (.advance rfl) fun _ => .bind (h.mapType b) fun _ => .pure
  · exact .bind (.advance rfl) fun _ =>
      .accept rfl (.bind (h.type b) fun _ => .pure) (.bind (h.type b) fun _ => .pure)
  · exact .bind (.advance rfl) fun _ => .bind (.expect rfl) fun _ => .bind (h.type b) fun _ => .pure
  · exact .bind (.advance rfl) fun _ => .bind (h.type (.rparen :: b)) fun _ => .bind (.expect rfl) fun _ => .pure
  · exact Moves.pure _

/-! ### Expressions -/

theorem funcTypeOrLit : Keeps r.funcTypeOrLit := h.signature.bind fun _ b =>
  .cond (Looks.isNext _).keeps (.bind (.nested (h.block b)) fun _ => .pure) .pure

theorem operand : Keeps r.operand := fun b => .peek fun o => by
  split
  · exact .bind (.advance rfl) fun _ => .pure
  · exact .bind (.advance rfl) fun _ => .pure
  · exact .bind (.advance rfl) fun _ => .bind (.nested (h.anyExpr (.rparen :: b))) fun _ => .bind (.expect rfl)
      fun _ => .pure
  · exact .bind (.advance rfl) fun _ => h.funcTypeOrLit b
  · exact h.type b _

theorem selection (x : Expr) : Keeps (r.selection x) := fun b =>
  .accept rfl
    (.accept rfl (.bind (.expect rfl) fun _ => .pure)
      (.bind (h.type (.rparen :: b)) fun _ => .bind (.expect rfl) fun _ => .pure))
    (.bind (Keeps.ident b) fun _ => .pure)

theorem sliceBound : Keeps r.sliceBound := fun b =>
  .cond (Looks.isNextOf _).keeps .pure (.bind (h.anyExpr b) fun _ => .pure)

/-- An index or a slice from `low` on, up to the closing bracket. -/
theorem indexingEnd (x : Expr) (low : Option Expr) : Keeps (do
    if ← accept .colon then
      let high ← r.sliceBound
      if ← accept .colon then
        let max ← r.sliceBound
        if high.isNone || max.isNone then failure
        return Expr.slice x low high max true
      return Expr.slice x low high Option.none false
    match low with
    | Option.none => failure
    | some first =>
      let more ← repeatWhile (isNext .comma) do
        advance
        if ← isNext .rbrack then return Option.none else return some (← r.type)
      return Expr.index x (first :: more.filterMap id) : Parse Expr) := fun b => by
  refine .accept rfl ?_ ?_
  · exact .bind (h.sliceBound b) fun high =>
      .accept rfl
        (.bind (h.sliceBound b) fun max => .ite (fun _ => .failure_bind) fun _ => .pure) .pure
  · cases low with
    | none => exact .failure
    | some first =>
      exact .bind (Keeps.repeatWhile_looks (.isNext _) (by
        rintro b _ rfl
        exact .bind (.advance rfl) fun _ =>
          .cond (Looks.isNext _).keeps .pure (.bind (h.type b) fun _ => .pure)) b) fun _ => .pure

/-- The rest of an index, the opening bracket of which was read. -/
theorem indexing (x : Expr) (b : List Token) : Moves (.rbrack :: b) b (r.indexing x) :=
  .cond (Looks.isNext _).keeps .failure_bind
    (.bind (.nested
      (.cond (Looks.isNext _).keeps (.bind .pure fun _ => h.indexingEnd x _ _)
        (.bind (.map (h.anyExpr _)) fun _ => h.indexingEnd x _ _))) fun _ =>
    .bind (.expect rfl) fun _ => .pure)

/-- The rest of a call, the opening parenthesis of which was read. -/
theorem callArgs (fn : Expr) (b : List Token) : Moves (.rparen :: b) b (r.callArgs fn) :=
  .bind (.nested (Keeps.commaList .rparen
    (h.anyExpr.bind fun _ => (Keeps.accept fun _ => rfl).bind fun _ => (Looks.isNext _).keeps.bind
      fun _ => Keeps.get.bind
      fun _ _ => .ite (fun _ => .failure_bind) fun _ => .pure) (.rparen :: b))) fun _ =>
  .bind (.expect rfl) fun _ => .pure

theorem suffixes (n : Nat) (x : Expr) : Keeps (r.suffixes n x) := fun b => by
  induction n generalizing x with
  | zero => exact .failure
  | succ n ih =>
    refine .peek fun o => ?_
    split
    · exact .bind (.advance rfl) fun _ => .bind (h.selection x b) fun _ => ih _
    · exact .bind (.advance rfl) fun _ => .bind (h.indexing x b) fun _ => ih _
    · exact .bind (.advance rfl) fun _ => .bind (h.callArgs x b) fun _ => ih _
    · exact Moves.bind (Keeps.get b) (fun _ => .ite
        (fun _ => .ite (fun _ => .failure_bind)
          fun _ => .bind (h.literalValue _ b) fun _ => ih _)
        fun _ => .pure) _
    · exact Moves.pure _

theorem primary : Keeps r.primary := Keeps.bound.bind fun _ => h.operand.bind fun _ => h.suffixes _ _

theorem unaryRule : Keeps r.unaryRule := fun b => .peek fun o => by
  split
  · exact .bind (.advance rfl) fun _ => .bind (h.unary b) fun _ => .ite
      (fun _ => by
        split
        · exact .pure
        · exact .failure)
      fun _ => .pure
  · exact .bind (.advance rfl) fun _ => .bind (h.unary b) fun _ => .pure
  · split
    · exact .bind (.advance rfl) fun _ => .bind (h.unary b) fun _ => .pure
    · exact h.primary b _
  · exact h.primary b _

omit h in
/-- No bracket is an operator. -/
theorem after_of_precedence {t : Token} {m : String} {p : Nat} (ht : precedence? t = some (m, p)) (b : List Token) :
    t.after b = some b := by
  cases t with
  | op => rfl
  | _ => cases ht

theorem binaryFrom (least n : Nat) (x : Expr) : Keeps (r.binaryFrom least n x) := fun b => by
  induction n generalizing x with
  | zero => exact .failure
  | succ n ih =>
    refine .peek fun o => ?_
    split
    · rename_i m p hprec
      obtain ⟨t, rfl, ht⟩ := Option.bind_eq_some_iff.1 hprec
      split
      · exact Moves.pure _
      · exact .bind (.advance (after_of_precedence ht b)) fun _ => .bind (h.expr _ b) fun _ => ih _
    · exact Moves.pure _

theorem exprRule (least : Nat) : Keeps (r.exprRule least) :=
  h.unary.bind fun _ => Keeps.bound.bind fun _ => h.binaryFrom _ _ _

theorem literalElem : Keeps r.literalElem := fun b =>
  .cond (Looks.isNext _).keeps (h.literalValue _ b) (h.anyExpr b)

theorem keyedElem : Keeps r.keyedElem := h.literalElem.bind fun _ b =>
  .accept rfl (.bind (h.literalElem b) fun _ => .pure) .pure

theorem literalValueRule (type : Option Expr) : Keeps (r.literalValueRule type) := fun b =>
  .bind (.expect rfl) fun _ =>
  .bind (.nested (Keeps.commaList .rbrace h.keyedElem (.rbrace :: b))) fun _ =>
  .bind (.expect rfl) fun _ => .pure

/-! ### Declarations -/

omit h in
theorem grouped {α : Type} {spec : Parse α} (hspec : Keeps spec) : Keeps (grouped spec) := fun b =>
  .accept rfl
    (.bind (Keeps.repeatWhile ((Looks.isNext _).keeps.bind fun _ => .pure) hspec (.rparen :: b)) fun _ =>
    .bind (.expect rfl) fun _ => .bind (Keeps.endStatement b) fun _ => .pure)
    (.bind (hspec b) fun _ => .pure)

theorem valueSpec (isConst : Bool) : Keeps (r.valueSpec isConst) := fun b => by
  have hrest : ∀ (names : List Text) (type : Option Expr), Moves b b (do
      let values ← if ← accept (.op "=") then r.exprs else pure []
      endStatement
      return .mk names type values : Parse ValueSpec) := fun names type =>
    .accept rfl
      (.bind (h.exprs b) fun _ => .bind (Keeps.endStatement b) fun _ => .pure)
      (.bind .pure fun _ => .bind (Keeps.endStatement b) fun _ => .pure)
  refine .bind (Keeps.commaSeparated Keeps.ident b) fun names => .cond (Looks.isNext _).keeps
    (.bind .pure fun _ => hrest _ _)
    (.ite (fun _ => ?_) fun _ => .bind (.map (h.type b)) fun _ => hrest _ _)
  exact .bind (.bind (Looks.isSemicolon.keeps b) fun _ => .bind ((Looks.isNext _).keeps b) fun _ =>
    .ite (fun _ => .pure) fun _ => h.type? b) fun _ => hrest _ _

/-- A named type from what stands first in its brackets on: an array length or a type parameter. -/
theorem bracketedTypeEnd (name : Text) (x : Expr) (b : List Token) : Moves (.rbrack :: b) b (do
    let split := splitTypeParam? (← isNext .comma) x
    let closes ← isNext .rbrack
    match split with
    | some (n, some t) =>
      let fields ← r.typeParamsFrom ⟨some n, some (← r.unionFrom t)⟩
      let _ ← accept (.op "=")
      return .mk name fields (← r.type)
    | some (n, Option.none) =>
      if closes then
        expect .rbrack
        return .mk name [] (.array (some x) (← r.type))
      let fields ← r.typeParamsFrom (← r.entryFrom true n)
      let _ ← accept (.op "=")
      return .mk name fields (← r.type)
    | Option.none =>
      expect .rbrack
      return .mk name [] (.array (some x) (← r.type)) : Parse TypeSpec) := by
  have hgeneric : ∀ (fields : List Field), Moves b b (do
      let _ ← accept (.op "=")
      return .mk name fields (← r.type) : Parse TypeSpec) := fun fields =>
    .bind (Keeps.accept (fun _ => rfl) b) fun _ => .bind (h.type b) fun _ => .pure
  have harray : Moves (.rbrack :: b) b (do
      expect .rbrack
      return .mk name [] (.array (some x) (← r.type)) : Parse TypeSpec) :=
    .bind (.expect rfl) fun _ => .bind (h.type b) fun _ => .pure
  refine .bind ((Looks.isNext _).keeps _) fun _ => .bind ((Looks.isNext _).keeps _) fun _ => ?_
  split
  · exact .bind (h.unionFrom _ _) fun _ => .bind (h.typeParamsFrom _ b) fun _ => hgeneric _
  · exact .ite (fun _ => harray) fun _ =>
      .bind (h.entryFrom true _ _) fun _ => .bind (h.typeParamsFrom _ b) fun _ => hgeneric _
  · exact harray

/-- The rest of a named type, the name and a bracket of which were read. -/
theorem bracketedType (name : Text) (b : List Token) : Moves (.rbrack :: b) b (r.bracketedType name) :=
  .bind (Looks.isIdent.keeps _) fun _ => .ite (fun _ => .bind (h.arrayType b) fun _ => .pure) fun _ =>
    .bind (Keeps.ident _) fun _ => .cond (Looks.isNext _).keeps (.bind .pure fun _ => h.bracketedTypeEnd name _ b)
      (.bind (.nested (.bind (Keeps.bound _) fun _ => .bind (h.suffixes _ _ _) fun _ =>
        .bind (Keeps.bound _) fun _ => h.binaryFrom _ _ _ _)) fun _ => h.bracketedTypeEnd name _ b)

theorem typeSpec : Keeps r.typeSpec := fun b =>
  .bind (Keeps.ident b) fun name =>
  .accept rfl (.bind (h.bracketedType name b) fun _ => .bind (Keeps.endStatement b) fun _ => .pure)
    (.bind (Keeps.accept (fun _ => rfl) b) fun _ => .bind (h.type b) fun _ => .bind .pure fun _ =>
      .bind (Keeps.endStatement b) fun _ => .pure)

theorem localDecl : Keeps r.localDecl := fun b =>
  .accept rfl (.bind (grouped (h.valueSpec true) b) fun _ => .pure)
    (.accept rfl (.bind (grouped (h.valueSpec false) b) fun _ => .pure)
    (.bind (.expect rfl) fun _ => .bind (grouped h.typeSpec b) fun _ => .pure))

/-! ### Statements -/

theorem assignment (c : Context) (lhs : List Expr) (m : String) : Keeps (r.assignment c lhs m) := fun b => by
  have hplain : Moves b b (do return .assign lhs (m == ":=") (← r.exprs) : Parse Stmt) :=
    .bind (h.exprs b) fun _ => .pure
  exact .ite (fun _ => .accept rfl (.bind (h.anyExpr b) fun _ => .pure) hplain) fun _ => hplain

theorem simpleStmt (c : Context) : Keeps (r.simpleStmt c) := fun b => .bind (h.exprs b) fun lhs => .peek fun o => by
  split
  · split
    · exact .bind (.advance rfl) fun _ => h.assignment _ _ _ b
    · split
      · split
        · exact .bind (.advance rfl) fun _ => .bind (h.anyExpr b) fun _ => .pure
        · split
          · exact .bind (.advance rfl) fun _ => .pure
          · exact Moves.pure _
      · exact Moves.failure _
  · split
    · exact .bind (.advance rfl) fun _ => .bind (h.stmt b) fun _ => .pure
    · exact Moves.failure _
  · exact Moves.pure _
  · exact Moves.failure _

theorem ifHead : Keeps r.ifHead := fun b => by
  have htest : ∀ init : Option Stmt, Moves b b (do
      if ← isNext .lbrace then return (Option.none, init)
      if ← isSemicolon then advance else failure
      return (init, some (← r.simpleStmt .plain)) : Parse (Option Stmt × Option Stmt)) := fun init =>
    .cond (Looks.isNext _).keeps .pure
      (.look .isSemicolon
        (by rintro _ ⟨written, rfl⟩; exact .bind (.advance rfl) fun _ => .bind (h.simpleStmt _ b) fun _ => .pure)
        .failure_bind)
  refine .cond (Looks.isNext _).keeps .failure_bind (.bind (.inHead (.cond Looks.isSemicolon.keeps
    (.bind .pure fun _ => htest _) (.bind (.map (h.simpleStmt _ b)) fun _ => htest _))) fun ⟨init, test⟩ => ?_)
  dsimp only
  split
  · exact .pure
  · exact .failure

theorem ifStmt : Keeps r.ifStmt := fun b =>
  .bind (h.ifHead b) fun _ =>
  .bind (h.block b) fun _ =>
  .accept rfl
    (.cond (Looks.isNext _).keeps (.bind (h.stmt b) fun _ => .pure)
      (.bind (h.block b) fun _ => .bind (Keeps.endStatement b) fun _ => .pure))
    (.bind (Keeps.endStatement b) fun _ => .pure)

theorem caseClause : Keeps r.caseClause := fun b => by
  have hrest : ∀ cases : List Expr, Moves b b (do
      expect .colon
      return .mk cases Option.none (← r.stmts) : Parse Clause) := fun cases =>
    .bind (.expect rfl) fun _ => .bind (h.stmts b) fun _ => .pure
  exact .accept rfl (.bind (h.exprs b) fun _ => hrest _) (.bind (.expect rfl) fun _ => .bind .pure fun _ => hrest _)

omit h in
theorem clauses {clause : Parse Clause} (hclause : Keeps clause) : Keeps (clauses clause) := fun b =>
  .bind (.expect rfl) fun _ =>
  .bind (Keeps.repeatWhile (Looks.isNextOf _).keeps hclause (.rbrace :: b)) fun _ =>
  .bind (.expect rfl) fun _ => .bind (Keeps.endStatement b) fun _ => .pure

/-- A switch from its clauses on. -/
theorem switchStmtEnd (init tag : Option Stmt) : Keeps (do
    match tag with
    | some s => if !s.isTypeGuard && s.expr?.isNone then failure
    | Option.none => pure ()
    return .choice init tag (← Rules.clauses r.caseClause) : Parse Stmt) := fun b => by
  have hend : Moves b b (do return .choice init tag (← Rules.clauses r.caseClause) : Parse Stmt) :=
    .bind (clauses h.caseClause b) fun _ => .pure
  cases tag with
  | none => exact hend
  | some s => exact .ite (fun _ => .failure_bind) fun _ => hend

theorem switchStmt : Keeps r.switchStmt := fun b => by
  have htag : ∀ first : Option Stmt, Moves b b (do
      if ← isSemicolon then
        advance
        let second ← if ← isNext .lbrace then pure Option.none else some <$> r.simpleStmt .plain
        return (first, second)
      return (Option.none, first) : Parse (Option Stmt × Option Stmt)) := fun first =>
    .look .isSemicolon
      (by
        rintro _ ⟨written, rfl⟩
        exact .bind (.advance rfl) fun _ => .cond (Looks.isNext _).keeps (.bind .pure fun _ => .pure)
          (.bind (.map (h.simpleStmt _ b)) fun _ => .pure))
      .pure
  exact .cond (Looks.isNext _).keeps (.bind .pure fun _ => h.switchStmtEnd _ _ b)
    (.bind (.inHead (.cond Looks.isSemicolon.keeps (.bind .pure fun _ => htag _)
      (.bind (.map (h.simpleStmt _ b)) fun _ => htag _))) fun _ => h.switchStmtEnd _ _ b)

theorem commClause : Keeps r.commClause := fun b => by
  have hrest : ∀ comm : Option Stmt, Moves b b (do
      expect .colon
      return .mk [] comm (← r.stmts) : Parse Clause) := fun comm =>
    .bind (.expect rfl) fun _ => .bind (h.stmts b) fun _ => .pure
  refine .accept rfl (.bind (h.exprs b) fun lhs => .peek fun o => ?_)
    (.bind (.expect rfl) fun _ => .bind .pure fun _ => hrest _)
  split
  · exact .bind (.advance rfl) fun _ => .bind (h.anyExpr b) fun _ => .bind .pure fun _ => hrest _
  · split
    · exact .bind (.advance rfl) fun _ => .bind (h.anyExpr b) fun _ => .bind .pure fun _ => hrest _
    · exact Moves.failure_bind _
  · exact Moves.bind .pure (fun _ => hrest _) _
  · exact Moves.failure_bind _

/-- The rest of the head of a loop, before a semicolon. -/
theorem loopClauses (init : Option Stmt) (b : List Token) (written : Bool) :
    MovesAt (some (.semicolon written)) b b (r.loopClauses init) := by
  have hpost : ∀ test : Option Stmt, Moves b b (do
      if ← isSemicolon then advance else failure
      let post ← if ← isNext .lbrace then pure Option.none else some <$> r.simpleStmt .plain
      return (init, test, post) : Parse (Option Stmt × Option Stmt × Option Stmt)) := fun test =>
    .look .isSemicolon
      (by
        rintro _ ⟨written, rfl⟩
        exact .bind (.advance rfl) fun _ => .cond (Looks.isNext _).keeps (.bind .pure fun _ => .pure)
          (.bind (.map (h.simpleStmt _ b)) fun _ => .pure))
      .failure_bind
  exact .bind (.advance rfl) fun _ => .cond Looks.isSemicolon.keeps (.bind .pure fun _ => hpost _)
    (.bind (.map (h.simpleStmt _ b)) fun _ => hpost _)

theorem loopHead : Keeps r.loopHead := fun b =>
  .cond (Looks.isNext _).keeps .pure (.inHead
    (.look .isSemicolon (by rintro _ ⟨written, rfl⟩; exact h.loopClauses _ b written)
    (.accept rfl (.bind (h.anyExpr b) fun _ => .pure)
    (.bind (h.simpleStmt .loop b) fun first => by
      cases first.isRange with
      | true => exact .bind (Looks.isSemicolon.keeps b) fun _ => .pure
      | false => exact .look .isSemicolon (by rintro _ ⟨written, rfl⟩; exact h.loopClauses _ b written) .pure))))

theorem forStmt : Keeps r.forStmt := fun b =>
  .bind (h.loopHead b) fun _ =>
  .bind (h.block b) fun _ =>
  .bind (Keeps.endStatement b) fun _ => by
    split
    · exact .ite (fun _ => .pure) fun _ => .failure
    · exact .pure

theorem spawnStmt : Keeps r.spawnStmt := fun b => .bind (h.anyExpr b) fun x => by
  split
  · exact .bind (Keeps.endStatement b) fun _ => .pure
  · exact .failure

theorem returnStmt : Keeps r.returnStmt := fun b =>
  .bind (Looks.isSemicolon.keeps b) fun _ => .bind ((Looks.isNext _).keeps b) fun _ => .ite
    (fun _ => .bind .pure fun _ => .bind (Keeps.endStatement b) fun _ => .pure)
    fun _ => .bind (h.exprs b) fun _ => .bind (Keeps.endStatement b) fun _ => .pure

omit h in
theorem branchStmt (word : String) : Keeps (branchStmt word) := fun b => by
  have hend : ∀ label : Option Text, Moves b b (do
      endStatement
      return .branch label : Parse Stmt) := fun _ => .bind (Keeps.endStatement b) fun _ => .pure
  exact .bind (Looks.isIdent.keeps b) fun _ => .ite (fun _ => .bind .pure fun _ => hend _) fun _ =>
    .ite (fun _ => .bind (.map (Keeps.ident b)) fun _ => hend _) fun _ =>
    .ite (fun _ => .bind (.map (Keeps.ident b)) fun _ => hend _) fun _ => .bind .pure fun _ => hend _

theorem plainStmt : Keeps r.plainStmt := fun b => .bind (h.simpleStmt .label b) fun x => by
  split
  · exact .pure
  · exact .bind (Keeps.endStatement b) fun _ => .pure

/-- The statement that starts with a reserved word. -/
theorem wordStmt (word : String) (b : List Token) : MovesAt (some (.keyword word)) b b (r.wordStmt word) := by
  unfold Rules.wordStmt
  split
  · exact Moves.bind (h.localDecl b) (fun _ => .pure) _
  · exact Moves.bind (h.localDecl b) (fun _ => .pure) _
  · exact Moves.bind (h.localDecl b) (fun _ => .pure) _
  · exact h.plainStmt b _
  · exact h.plainStmt b _
  · exact h.plainStmt b _
  · exact h.plainStmt b _
  · exact h.plainStmt b _
  · exact .bind (.advance rfl) fun _ => h.spawnStmt b
  · exact .bind (.advance rfl) fun _ => h.spawnStmt b
  · exact .bind (.advance rfl) fun _ => h.returnStmt b
  · exact .bind (.advance rfl) fun _ => branchStmt _ b
  · exact .bind (.advance rfl) fun _ => branchStmt _ b
  · exact .bind (.advance rfl) fun _ => branchStmt _ b
  · exact .bind (.advance rfl) fun _ => branchStmt _ b
  · exact .bind (.advance rfl) fun _ => h.ifStmt b
  · exact .bind (.advance rfl) fun _ => h.switchStmt b
  · exact .bind (.advance rfl) fun _ => .bind (clauses h.commClause b) fun _ => .pure
  · exact .bind (.advance rfl) fun _ => h.forStmt b
  · exact Moves.failure _

theorem stmtRule : Keeps r.stmtRule := fun b => .peek fun o => by
  split
  · exact h.wordStmt _ b
  · exact h.plainStmt b _
  · exact h.plainStmt b _
  · exact h.plainStmt b _
  · exact h.plainStmt b _
  · split
    · exact h.plainStmt b _
    · exact Moves.failure _
  · exact Moves.bind (h.block b) (fun _ => .bind (Keeps.endStatement b) fun _ => .pure) _
  · exact .bind (.advance rfl) fun _ => .pure
  · exact Moves.pure _
  · exact Moves.failure _

/-! ### Files -/

omit h in
/-- The path of an import. -/
theorem importSpecEnd (name : Text) : Keeps (do
    match ← peek with
    | some (.literal .string path) =>
      advance
      endStatement
      return (name, path)
    | _ => failure : Parse (Text × Text)) := fun b => .peek fun o => by
  split
  · exact .bind (.advance rfl) fun _ => .bind (Keeps.endStatement b) fun _ => .pure
  · exact Moves.failure _

omit h in
theorem importSpec : Keeps importSpec := fun b =>
  .bind (Keeps.accept (fun _ => rfl) b) fun _ => .bind (Looks.isIdent.keeps b) fun _ =>
    .ite (fun _ => .bind .pure fun _ => importSpecEnd _ b) fun _ =>
    .ite (fun _ => .bind (Keeps.ident b) fun _ => importSpecEnd _ b) fun _ => .bind .pure fun _ => importSpecEnd _ b

/-- A function from its parameters on. -/
theorem funcDeclEnd (receiver : Option (List Field)) (name : Text) (types : List Field) : Keeps (do
    let (ps, rs) ← r.signature
    if ← isNext .lbrace then
      let body ← r.block
      endStatement
      return .func receiver name types ps rs (some body)
    endStatement
    if ← isNext .lbrace then failure
    return .func receiver name types ps rs Option.none : Parse Decl) := fun b =>
  .bind (h.signature b) fun _ =>
  .cond (Looks.isNext _).keeps (.bind (h.block b) fun _ => .bind (Keeps.endStatement b) fun _ => .pure)
    (.bind (Keeps.endStatement b) fun _ => .cond (Looks.isNext _).keeps .failure_bind .pure)

/-- A function from its name on. -/
theorem funcDeclFrom (receiver : Option (List Field)) : Keeps (do
    let name ← ident
    let types ← if ← isNext .lbrack then r.typeParams else pure []
    let (ps, rs) ← r.signature
    if ← isNext .lbrace then
      let body ← r.block
      endStatement
      return .func receiver name types ps rs (some body)
    endStatement
    if ← isNext .lbrace then failure
    return .func receiver name types ps rs Option.none : Parse Decl) := fun b =>
  .bind (Keeps.ident b) fun _ => .cond (Looks.isNext _).keeps (.bind (h.typeParams b) fun _ => h.funcDeclEnd _ _ _ b)
    (.bind .pure fun _ => h.funcDeclEnd _ _ _ b)

theorem funcDecl : Keeps r.funcDecl := fun b =>
  .cond (Looks.isNext _).keeps (.bind (.map (h.params true b)) fun _ => h.funcDeclFrom _ b)
    (.bind .pure fun _ => h.funcDeclFrom _ b)

theorem decl : Keeps r.decl := fun b => .accept rfl (h.funcDecl b) (h.localDecl b)

theorem file : Keeps r.file := fun b =>
  .bind (.expect rfl) fun _ =>
  .bind (Keeps.ident b) fun _ =>
  .bind (Keeps.endStatement b) fun _ =>
  .bind (Keeps.repeatWhile (Keeps.accept fun _ => rfl) ((grouped importSpec).bind fun _ => .pure) b) fun _ =>
  .bind (Keeps.repeatWhile (Keeps.peek.bind fun _ => .pure) h.decl b) fun _ => .pure

end Balanced

theorem balanced_ofDepth : ∀ n, (ofDepth n).Balanced
  | 0 =>
    { expr := fun _ => .failure
      unary := .failure
      type? := .failure
      literalValue := fun _ => .failure
      stmt := .failure }
  | n + 1 =>
    { expr := fun least => (balanced_ofDepth n).exprRule least
      unary := (balanced_ofDepth n).unaryRule
      type? := (balanced_ofDepth n).typeRule
      literalValue := fun type => (balanced_ofDepth n).literalValueRule type
      stmt := (balanced_ofDepth n).stmtRule }

end Rules

/-- A text that a rule reads as a whole has all its brackets in pairs. -/
theorem unclosed_of_parseAll? {α : Type} {rule : Rules → Parse α} (hrule : ∀ {r : Rules}, r.Balanced → Keeps (rule r))
    {t : Text} {a : α} (ha : parseAll? rule t = some a) : ∃ ts, tokens? t = some ts ∧ unclosed [] ts = some [] := by
  obtain ⟨ts, hts, ha⟩ := Option.bind_eq_some_iff.1 ha
  obtain ⟨⟨x, s⟩, hx, ha⟩ := Option.bind_eq_some_iff.1 ha
  obtain ⟨us, hus, hclosed⟩ := hrule (Rules.balanced_ofDepth _) [] _ _ x s rfl hx
  dsimp only at ha
  split at ha
  · rename_i hempty
    rw [List.isEmpty_iff.1 hempty, List.append_nil] at hus
    obtain rfl : ts = us := hus
    exact ⟨ts, hts, hclosed⟩
  · cases ha

theorem unclosed_of_parseExpr? {t : Text} {x : Expr} (hx : parseExpr? t = some x) :
    ∃ ts, tokens? t = some ts ∧ unclosed [] ts = some [] :=
  unclosed_of_parseAll? (fun h => h.anyExpr.bind fun _ => (Keeps.accept fun _ => rfl).bind fun _ => .pure) hx

theorem unclosed_of_parseFile? {t : Text} {f : File} (hf : parseFile? t = some f) :
    ∃ ts, tokens? t = some ts ∧ unclosed [] ts = some [] :=
  unclosed_of_parseAll? Rules.Balanced.file (Option.filter_eq_some_iff.1 hf).1

end MeaningForest.Host
