import Lockstep.Grammar.Stmt
import Lockstep.Token.Lexer
import Lockstep.Tree.Item
/-!
Top-level items and whole source files. An item that cannot be read is skipped up to its semicolon
or past its braces, so that the items behind it are still found.
-/

set_option autoImplicit false
set_option relaxedAutoImplicit false

namespace Lockstep

namespace Grammar

open Lockstep.Parser

def body : Parser Block := do
  let (stmts, span) ← spanned (bracedStmts stmt)
  return ⟨stmts, span⟩

def param : Parser Param := do
  let ((ty, name), span) ← spanned do
    let ty ← plainType
    let name ← optional ident
    let _ ← arrayDims
    return (ty, name)
  return ⟨ty, name, span⟩

def bodyOrEnd : Parser (Option Block) := or (some <$> body) ((fun _ => none) <$> sign .semicolon)

def function : Parser Function := do
  let (make, span) ← spanned do
    let (isKernel, ret) ← typeSpec
    let name ← ident
    let params ← between .lParen (commaSep param) .rParen
    let _ ← many attributeList
    let body ← bodyOrEnd
    return fun span => (⟨isKernel, ret, name, params, body, span⟩ : Function)
  return make span

def fieldGroup : Parser (List Field) := do
  let ty ← plainType
  let names ← commaSep1 do
    let depth ← stars
    let name ← ident
    let _ ← arrayDims
    return (depth, name)
  sign .semicolon
  return names.map fun (depth, name) => ⟨{ ty with pointers := ty.pointers + depth }, name⟩

/-- A structure definition. A name behind it is an alias only after `typedef`. -/
def structDef : Parser StructDef := do
  let (make, span) ← spanned do
    let typedef ← optional (keyword .kwTypedef)
    keyword .kwStruct
    let tag ← optional ident
    let groups ← between .lBrace (many fieldGroup) .rBrace
    let trailing ← optional ident
    sign .semicolon
    let aka := if typedef.isSome then trailing else none
    return fun span => (⟨tag, aka, groups.flatten, span⟩ : StructDef)
  return make span

def typedef : Parser Typedef := do
  let ((ty, aka), span) ← spanned do
    keyword .kwTypedef
    let ty ← plainType
    let aka ← before ident (sign .semicolon)
    return (ty, aka)
  return ⟨ty, aka, span⟩

def brokenItem : Parser Unit := do
  let _ ← many inertToken
  choice [sign .semicolon, braceGroup, sign .rBrace]

def soundItem : Parser Item :=
  choice [
    Item.struct <$> structDef,
    Item.typedef <$> typedef,
    Item.function <$> function,
    Item.global <$> before decl (sign .semicolon)]

/-- An item, or `none` for a broken one. -/
def item : Parser (Option Item) := recover (some <$> soundItem) ((fun _ => none) <$> brokenItem)

def sourceUnit : Parser SourceUnit := do
  let (items, span) ← spanned (before (many item) atEnd)
  return ⟨items.filterMap id, span⟩

end Grammar

/-- A defect of the text: characters that are no token, or tokens in the wrong place. -/
inductive Defect where
  | stray (text : String)
  | misplaced (reason : Reason)
deriving DecidableEq, Repr

def Defect.message : Defect → String
  | stray text => strayMessage text
  | misplaced reason => reason.message

/-- The tree of a text, unless reading gave up, and its defects: first the stray characters, then
the misplaced tokens in the order in which they were reported. -/
structure Parsed where
  unit : Option SourceUnit
  defects : List (Span × Defect)

/-- The tree of a token sequence and the failures reported on the way. -/
def parseTokens (tokens : List Lexeme) (length : Nat) : Option SourceUnit × List Failure :=
  match Parser.before Grammar.sourceUnit Parser.atEnd (.start tokens length) {} with
  | (some (unit, _), log) => (some unit, log.reported)
  | (none, log) => (none, log.reported ++ log.furthest.toList)

def parse (source : String) : Parsed :=
  let lexed := lex source
  let (unit, failures) := parseTokens lexed.tokens source.utf8ByteSize
  { unit
    defects :=
      lexed.strays.map (fun (span, text) => (span, .stray text)) ++
      failures.map fun f => (f.span, .misplaced f.reason) }

def Parsed.notes (p : Parsed) : List Note := p.defects.map fun (span, d) => ⟨span, d.message⟩

end Lockstep
