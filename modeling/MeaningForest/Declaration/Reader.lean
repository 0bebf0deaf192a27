import MeaningForest.Declaration.Basic
import MeaningForest.Declaration.Problem
import MeaningForest.Token.Scan

/-!
# Reading declaration files

A declaration file is read from its tokens by recursive descent with one token of look-ahead.  After a problem the
reader goes on at the next member or declaration, so one run reports every problem it can find.  Fragments of host
code are found by counting brackets and cut out of the source.

Every loop consumes tokens; `declarations`, `importSpecs` and `members` check it and stop when nothing was consumed.
-/

namespace MeaningForest

variable [Language]

/-- A token that is not a comment, with the documentation lines right before it. -/
structure Item where
  token : Token
  doc : List Text
  deriving DecidableEq, Repr

namespace Item

/-- The items of a token list.  Documentation lines collect until the next token; another comment drops them. -/
def ofTokens (doc : List Text) : List Token → List Item
  | [] => []
  | t :: ts =>
    match t.kind with
    | .docComment => ofTokens (doc ++ [t.literal]) ts
    | .comment => ofTokens [] ts
    | _ => ⟨t, doc⟩ :: ofTokens [] ts

/-- The kind of an item's token. -/
def kind (i : Item) : TokenKind := i.token.kind

end Item

/-- The state of reading. -/
structure Reader where
  source : Text
  /-- The end of the source, which is never passed. -/
  ending : Token
  /-- The items from the current one up to the end. -/
  items : List Item
  problems : List (Located ReadProblem) := []

namespace Reader

/-- The current token. -/
def current (r : Reader) : Token := (r.items.head?.map (·.token)).getD r.ending

/-- The token after the current one. -/
def upcoming (r : Reader) : Token := ((r.items.drop 1).head?.map (·.token)).getD r.ending

/-- The documentation before the current token. -/
def doc (r : Reader) : Text := Text.join [0x0a] ((r.items.head?.map (·.doc)).getD [])

/-- The reader at the next token. -/
def advance (r : Reader) : Reader := { r with items := r.items.drop 1 }

/-- Notes a problem at a token, in the words of the language. -/
def note (r : Reader) (t : Token) (p : ReadProblem) : Reader :=
  { r with problems := r.problems ++ [.found t.position p] }

end Reader

/-- A step of reading that may fail; what was consumed and noted stays. -/
abbrev Reading := OptionT (StateM Reader)

namespace Reading

/-- Whether the current token has a kind. -/
def at? (k : TokenKind) : Reading Bool := return (← get).current.kind = k

/-- Whether the next token has a kind. -/
def before? (k : TokenKind) : Reading Bool := return (← get).upcoming.kind = k

/-- Goes on to the next token. -/
def next : Reading Unit := modify Reader.advance

/-- Notes a problem at a token and fails. -/
def refuse {α : Type} (t : Token) (p : ReadProblem) : Reading α := do
  modify (·.note t p)
  failure

/-- Goes on to the next token, which must have a kind. -/
def require (k : TokenKind) : Reading Unit := do
  let r ← get
  if r.upcoming.kind = k then next else refuse r.upcoming (.expected k r.upcoming)

/-- Goes past a semicolon if there is one. -/
def skipSemicolon : Reading Unit := do if ← at? .semicolon then next

end Reading

/-! ### Fragments of host code -/

/-- Where the search for the end of a fragment came to rest. -/
inductive FragmentEnd where
  /-- At a token that ends the fragment. -/
  | found (stop : Token) (rest : List Item)
  /-- At a closing bracket that nothing in the fragment opened. -/
  | unbalanced (stop : Token) (rest : List Item)
  /-- At the end of the source. -/
  | exhausted
  deriving Repr

/-- Searches for a token of one of the kinds `stops` outside brackets; `depth` brackets are open. -/
def findFragmentEnd (stops : List TokenKind) : (depth : Nat) → List Item → FragmentEnd
  | _, [] => .exhausted
  | 0, i :: rest =>
    if i.kind ∈ stops then .found i.token (i :: rest)
    else if i.kind.isOpening then findFragmentEnd stops 1 rest
    else if i.kind.isClosing then .unbalanced i.token (i :: rest)
    else findFragmentEnd stops 0 rest
  | depth + 1, i :: rest =>
    if i.kind.isOpening then findFragmentEnd stops (depth + 2) rest
    else if i.kind.isClosing then findFragmentEnd stops depth rest
    else findFragmentEnd stops (depth + 1) rest

namespace Reading

/-- The source text from the current token up to the next token of one of the kinds `stops` outside brackets, which
becomes the current token.  Problems name the kind `wanted`. -/
def fragment (stops : List TokenKind) (wanted : TokenKind) : Reading (Text × Token) := do
  let r ← get
  match findFragmentEnd stops 0 r.items with
  | .found stop rest =>
    set { r with items := rest }
    return (Text.trimSpace ((r.source.drop r.current.start).take (stop.start - r.current.start)), stop)
  | .unbalanced stop rest =>
    set { r with items := rest }
    refuse stop (.expected wanted stop)
  | .exhausted =>
    set { r with items := [] }
    refuse r.ending (.expected wanted r.ending)

/-- The source text up to a token of kind `stop` outside brackets. -/
def fragmentTo (stop : TokenKind) : Reading Text := return (← fragment [stop] stop).1

/-- The source text between two brackets, the first of which is the current token; the second becomes current. -/
def group (opening closing : TokenKind) : Reading Text := do
  let r ← get
  if r.current.kind = opening then
    next
    fragmentTo closing
  else refuse r.current (.expected opening r.current)

/-- A group in square brackets, if there is one. -/
def typeParams : Reading Text := do
  if ← at? .lbracket then
    let t ← group .lbracket .rbracket
    next
    return t
  else return []

/-! ### Members -/

/-- A field: `let [ref] name: type [= default];`. -/
def field : Reading FieldDecl := do
  let isRef ← before? (.keyword .ref)
  if isRef then next
  require .ident
  let name := (← get).current
  require .colon
  next
  let (type, stop) ← fragment [.assign, .semicolon] .semicolon
  if type.isEmpty then refuse stop (.missingFieldType name.literal)
  if stop.kind = .assign then
    next
    let (default, stop) ← fragment [.semicolon] .semicolon
    if default.isEmpty then refuse stop (.missingFieldDefault name.literal)
    next
    return ⟨name.position, name.literal, isRef, type, default⟩
  else
    next
    return ⟨name.position, name.literal, isRef, type, []⟩

/-- The call of the parent's constructor at the start of a constructor body, if there is one. -/
def superCall : Reading (Option Text) := do
  if ← at? (.keyword .super) then
    next
    let args ← group .lparen .rparen
    next
    skipSemicolon
    return some args
  else return none

/-- A constructor: `constructor[types](params) { [super(args);] body }`. -/
def constructor : Reading ConstructorDecl := do
  let position := (← get).current.position
  next
  let types ← typeParams
  let params ← group .lparen .rparen
  require .lbrace
  next
  let superArgs ← superCall
  let body ← fragmentTo .rbrace
  next
  return ⟨position, types, params, superArgs, body⟩

/-- The word `override`, if there is one, and the documentation before the method. -/
def methodHead : Reading (Bool × Text) := do
  let doc := (← get).doc
  if ← at? (.keyword .override) then
    require (.keyword .fn)
    let inner := (← get).doc
    return (true, if doc.isEmpty then inner else doc)
  else return (false, doc)

/-- A method: `[override] fn name[types](params) results { body }`. -/
def method : Reading MethodDecl := do
  let (isOverride, doc) ← methodHead
  require .ident
  let name := (← get).current
  next
  let types ← typeParams
  let params ← group .lparen .rparen
  next
  let results ← fragmentTo .lbrace
  next
  let body ← fragmentTo .rbrace
  next
  return ⟨name.position, name.literal, isOverride, doc, types, params, results, body⟩

/-- One member, added to the meaning. -/
def member (d : MeaningDecl) : Reading MeaningDecl := do
  let r ← get
  match r.current.kind with
  | .keyword .let => return { d with fields := d.fields ++ [← field] }
  | .keyword .constructor => return { d with constructors := d.constructors ++ [← constructor] }
  | .keyword .fn | .keyword .override => return { d with methods := d.methods ++ [← method] }
  | .semicolon =>
    next
    return d
  | _ => refuse r.current (.unexpectedMember r.current)

end Reading

/-- Whether a word starts a member or a meaning. -/
def startsMember : TokenKind → Bool
  | .keyword .let | .keyword .fn | .keyword .override | .keyword .constructor | .keyword .meaning => true
  | _ => false

/-- Skips to where the next member may start: a word that starts one, or the end of the meaning, or the place after
a semicolon or a group in braces; `depth` braces are open. -/
def skipMember : (depth : Nat) → List Item → List Item
  | _, [] => []
  | 0, i :: rest =>
    if i.kind = .lbrace then skipMember 1 rest
    else if i.kind = .rbrace then i :: rest
    else if i.kind = .semicolon then rest
    else if startsMember i.kind then i :: rest
    else skipMember 0 rest
  | depth + 1, i :: rest =>
    if i.kind = .lbrace then skipMember (depth + 2) rest
    else if i.kind = .rbrace then (if depth = 0 then rest else skipMember depth rest)
    else skipMember (depth + 1) rest

/-- Whether a word starts a declaration of the file. -/
def startsDeclaration : TokenKind → Bool
  | .keyword .package | .keyword .import | .keyword .arena | .keyword .meaning => true
  | _ => false

namespace Reader

/-- Goes on after a member that could not be read. -/
def recoverMember (r : Reader) : Reader :=
  if r.current.kind = .rbrace then r else { r with items := skipMember 0 (r.items.drop 1) }

/-- Goes on at the next declaration after the current token. -/
def recoverDeclaration (r : Reader) : Reader :=
  { r with items := (r.items.drop 1).dropWhile fun i => !startsDeclaration i.kind }

/-- The members of a meaning through the closing brace. -/
def members (r : Reader) (d : MeaningDecl) : Reader × MeaningDecl :=
  if r.current.kind = .rbrace then (r.advance, d)
  else if r.current.kind = .eof ∨ r.current.kind = .keyword .meaning then
    (r.note r.current (.unterminated ("meaning " ++ d.name)), d)
  else
    let (d', r') := match (Reading.member d).run r with
      | (some d', r') => (d', r')
      | (none, r') => (d, r'.recoverMember)
    if _h : r'.items.length < r.items.length then members r' d' else (r', d')
termination_by r.items.length

end Reader

namespace Reading

/-- The head of a meaning: `meaning name [: parent] {`. -/
def meaningHead : Reading MeaningDecl := do
  let r ← get
  require .ident
  let name := (← get).current.literal
  let mut parent : Text × Position := ([], Position.none)
  if ← before? .colon then
    next
    require .ident
    let t := (← get).current
    parent := (t.literal, t.position)
  require .lbrace
  next
  return ⟨r.current.position, name, parent.1, parent.2, r.doc, [], [], []⟩

/-- An import: `[name] "path"`. -/
def importSpec : Reading ImportDecl := do
  let position := (← get).current.position
  let mut localName : Text := []
  if (← at? .ident) || (← at? .dot) then
    localName := (← get).current.literal
    next
  let t := (← get).current
  if t.kind = .string then
    next
    return ⟨position, localName, t.literal.unquote?.getD (t.literal.trimWhile fun b => b == 0x22 || b == 0x60)⟩
  else refuse t (.expected .string t)

/-- A word followed by a name: `package name` or `arena name`. -/
def named : Reading Text := do
  require .ident
  return (← get).current.literal

end Reading

namespace Reader

/-- The imports of a group through its closing parenthesis. -/
def importSpecs (r : Reader) (specs : List ImportDecl) : Reader × List ImportDecl :=
  if r.current.kind = .rparen then (r.advance, specs)
  else if r.current.kind = .eof then (r.note r.current (.unterminated "import"), specs)
  else if r.current.kind = .semicolon then
    if _h : r.advance.items.length < r.items.length then importSpecs r.advance specs else (r, specs)
  else match Reading.importSpec.run r with
    | (some spec, r') =>
      if _h : r'.items.length < r.items.length then importSpecs r' (specs ++ [spec]) else (r', specs ++ [spec])
    | (none, r') => (r'.recoverDeclaration, specs)
termination_by r.items.length

/-- Goes past a semicolon if there is one. -/
def passSemicolon (r : Reader) : Reader := if r.current.kind = .semicolon then r.advance else r

/-- The imports after the word `import`: one, or a group in parentheses. -/
def importDecl (r : Reader) : Reader × List ImportDecl :=
  let r := r.advance
  if r.current.kind = .lparen then r.advance.importSpecs []
  else match Reading.importSpec.run r with
    | (some spec, r') => (r'.passSemicolon, [spec])
    | (none, r') => (r'.passSemicolon, [])

/-- One declaration, added to the file. -/
def declaration (r : Reader) (f : DeclFile) : Reader × DeclFile :=
  match r.current.kind with
  | .keyword .package =>
    let (name, r) := Reading.named.run r
    (r.advance.passSemicolon, { f with package := name.getD f.package })
  | .keyword .arena =>
    let (name, r) := Reading.named.run r
    (r.advance.passSemicolon, { f with arena := name.getD f.arena })
  | .keyword .import =>
    let (r, specs) := r.importDecl
    (r, { f with imports := f.imports ++ specs })
  | .keyword .meaning =>
    match Reading.meaningHead.run r with
    | (some d, r) =>
      let (r, d) := r.members d
      (r, { f with meanings := f.meanings ++ [d] })
    | (none, r) => (r.recoverDeclaration, f)
  | .semicolon => (r.advance, f)
  | _ => ((r.note r.current (.unexpectedTopLevel r.current)).recoverDeclaration, f)

/-- All declarations up to the end of the source. -/
def declarations (r : Reader) (f : DeclFile) : Reader × DeclFile :=
  if r.current.kind = .eof then (r, f)
  else
    let (r', f') := r.declaration f
    if _h : r'.items.length < r.items.length then declarations r' f' else (r', f')
termination_by r.items.length

/-- A reader at the first token of a source. -/
def ofTokens (source : Text) (tokens : List Token) : Reader :=
  let ending := tokens.getLast?.getD (Token.atEnd source.length Mark.start)
  { source, ending, items := Item.ofTokens [] (tokens.filter (·.kind ≠ .eof)) }

end Reader

/-- What reading a declaration file gives: the declarations and the problems, in source order. -/
structure ReadResult where
  file : DeclFile
  problems : List (Located ReadProblem)
  deriving DecidableEq, Repr

/-- Reads the declaration file `name` from its source. -/
def DeclFile.read (name source : Text) : Except Fault ReadResult := do
  let tokens ← Token.scan source
  let (r, f) := (Reader.ofTokens source tokens).declarations { name }
  return ⟨f, r.problems⟩

end MeaningForest
