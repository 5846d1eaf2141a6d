import Lockstep.Grammar.Parser
import Lockstep.Token.Rules
import Lockstep.Tree.Expr
/-!
Types as written in source: qualifiers and attributes around a base name, then pointer stars. Only
builtin names, structure tags and pointers are taken for types inside parentheses; any other name
there is a value.
-/

set_option autoImplicit false
set_option relaxedAutoImplicit false

namespace Lockstep

def scalarTypes : List String :=
  ["void", "bool", "char", "uchar", "short", "ushort", "int", "uint", "long", "ulong", "float",
    "double", "half", "size_t", "ptrdiff_t", "intptr_t", "uintptr_t", "event_t", "sampler_t",
    "image2d_t", "image3d_t"]

def vectorWidths : List String := ["2", "3", "4", "8", "16"]

/-- Is the name a scalar type, or one followed by a vector width? -/
def isBuiltinType (name : String) : Bool :=
  let digits := (name.toList.reverse.takeWhile Char.isDigit).reverse
  let base := dropTail Char.isDigit name.toList
  scalarTypes.contains name ||
    (vectorWidths.contains (String.ofList digits) && scalarTypes.contains (String.ofList base))

def widthWords : List String := ["char", "short", "int", "long"]

/-- The one-word name of an integer type: of the widths named the narrowest but `int` counts. -/
def integerTypeName (unsigned : Bool) (words : List String) : String :=
  let base :=
    if words.contains "char" then "char"
    else if words.contains "short" then "short"
    else if words.contains "long" then "long"
    else "int"
  if unsigned then "u" ++ base else base

namespace Grammar

open Lockstep.Parser

def ident : Parser Ident := do
  let (name, span) ← spanned (next .identifier fun
    | .ident name => some name
    | _ => none)
  return ⟨name, span⟩

/-- A token other than the brackets, or a group read by `inner`. -/
def groupElement (opening closing : Sign) (inner : Parser Unit) : Parser Unit :=
  choice [
    inner,
    (fun _ => ()) <$> guard anyToken fun t => t != .sign opening && t != .sign closing]

/-- Tokens between brackets, the groups among them read by `inner`. -/
def groupRule (opening closing : Sign) (inner : Parser Unit) : Parser Unit := do
  let _ ← between opening (many (groupElement opening closing inner)) closing
  return ()

def group (opening closing : Sign) : Parser Unit := fix (groupRule opening closing)

def parenGroup : Parser Unit := group .lParen .rParen

def braceGroup : Parser Unit := group .lBrace .rBrace

def attributeList : Parser Unit := after (token .attr) parenGroup

/-- Qualifiers and attributes; is the kernel qualifier among them? -/
def specifiers : Parser Bool := do
  let marks ← many (choice [
    (fun _ => true) <$> token .kernel,
    (fun _ => false) <$> token .qualifier,
    (fun _ => false) <$> attributeList])
  return marks.contains true

def widthWord : Parser Ident := guard ident fun id => widthWords.contains id.name

def signedness : Parser Bool :=
  select fun
    | .keyword .kwUnsigned => some true
    | .keyword .kwSigned => some false
    | _ => none

/-- An integer type of several words. A sign alone names `int`. -/
def integerType : Parser TypeName := do
  let signed := do
    let unsigned ← signedness
    let words ← many widthWord
    return (unsigned, words)
  let plain := do
    let words ← many1 widthWord
    return (false, words)
  let ((unsigned, words), span) ← spanned (choice [signed, plain])
  return .named ⟨integerTypeName unsigned (words.map Ident.name), span⟩

def typeName : Parser TypeName :=
  choice [
    TypeName.struct <$> after (keyword .kwStruct) ident,
    integerType,
    TypeName.named <$> ident]

/-- Pointer stars, each with its qualifiers; their number. -/
def stars : Parser Nat := do
  let found ← many (before (sign .star) (many (token .qualifier)))
  return found.length

def typeSpec : Parser (Bool × TypeSpec) := do
  let ((kernel, name, pointers), span) ← spanned do
    let before ← specifiers
    let name ← typeName
    let after ← specifiers
    let pointers ← stars
    return (before || after, name, pointers)
  return (kernel, ⟨name, pointers, span⟩)

def plainType : Parser TypeSpec := Prod.snd <$> typeSpec

def isCastable (ty : TypeSpec) : Bool :=
  0 < ty.pointers ||
    match ty.name with
    | .struct _ => true
    | .named id => isBuiltinType id.name

def castType : Parser TypeSpec := demand plainType isCastable .notAType

end Grammar

end Lockstep
