import Lockstep.Number.Shortest
import Lockstep.Text.Span
/-!
The tokens of kernel source text. Words and signs are fixed spellings; literals and identifiers
carry what was read.
-/

set_option autoImplicit false
set_option relaxedAutoImplicit false

namespace Lockstep

/-- The words that steer statements and declarations. -/
inductive Keyword where
  | kwIf | kwElse | kwFor | kwWhile | kwDo | kwSwitch | kwCase | kwDefault | kwBreak | kwContinue
  | kwReturn | kwGoto | kwStruct | kwTypedef | kwSizeof | kwUnsigned | kwSigned
deriving DecidableEq, Repr

namespace Keyword

def spelling : Keyword → String
  | kwIf => "if"
  | kwElse => "else"
  | kwFor => "for"
  | kwWhile => "while"
  | kwDo => "do"
  | kwSwitch => "switch"
  | kwCase => "case"
  | kwDefault => "default"
  | kwBreak => "break"
  | kwContinue => "continue"
  | kwReturn => "return"
  | kwGoto => "goto"
  | kwStruct => "struct"
  | kwTypedef => "typedef"
  | kwSizeof => "sizeof"
  | kwUnsigned => "unsigned"
  | kwSigned => "signed"

def all : List Keyword :=
  [kwIf, kwElse, kwFor, kwWhile, kwDo, kwSwitch, kwCase, kwDefault, kwBreak, kwContinue,
    kwReturn, kwGoto, kwStruct, kwTypedef, kwSizeof, kwUnsigned, kwSigned]

end Keyword

inductive Sign where
  | lParen | rParen | lBrace | rBrace | lBracket | rBracket
  | semicolon | comma | dot | arrow | question | colon
  | eq | plusEq | minusEq | starEq | slashEq | percentEq | shlEq | shrEq | ampEq | caretEq | pipeEq
  | plus | minus | star | slash | percent | plusPlus | minusMinus | shl | shr
  | amp | pipe | caret | tilde | bang | andAnd | orOr
  | eqEq | notEq | lt | gt | le | ge
deriving DecidableEq, Repr

namespace Sign

def spelling : Sign → String
  | lParen => "("
  | rParen => ")"
  | lBrace => "\x7b"
  | rBrace => "\x7d"
  | lBracket => "["
  | rBracket => "]"
  | semicolon => ";"
  | comma => ","
  | dot => "."
  | arrow => "->"
  | question => "?"
  | colon => ":"
  | eq => "="
  | plusEq => "+="
  | minusEq => "-="
  | starEq => "*="
  | slashEq => "/="
  | percentEq => "%="
  | shlEq => "<<="
  | shrEq => ">>="
  | ampEq => "&="
  | caretEq => "^="
  | pipeEq => "|="
  | plus => "+"
  | minus => "-"
  | star => "*"
  | slash => "/"
  | percent => "%"
  | plusPlus => "++"
  | minusMinus => "--"
  | shl => "<<"
  | shr => ">>"
  | amp => "&"
  | pipe => "|"
  | caret => "^"
  | tilde => "~"
  | bang => "!"
  | andAnd => "&&"
  | orOr => "||"
  | eqEq => "=="
  | notEq => "!="
  | lt => "<"
  | gt => ">"
  | le => "<="
  | ge => ">="

def all : List Sign :=
  [lParen, rParen, lBrace, rBrace, lBracket, rBracket,
    semicolon, comma, dot, arrow, question, colon,
    eq, plusEq, minusEq, starEq, slashEq, percentEq, shlEq, shrEq, ampEq, caretEq, pipeEq,
    plus, minus, star, slash, percent, plusPlus, minusMinus, shl, shr,
    amp, pipe, caret, tilde, bang, andAnd, orOr,
    eqEq, notEq, lt, gt, le, ge]

end Sign

/--
A token. `qualifier` stands for every address-space, storage and type qualifier, since no check
tells them apart; `kernel` marks an entry point; `attr` introduces a parenthesised list that is
read over.
-/
inductive Token where
  | keyword (word : Keyword)
  | kernel
  | qualifier
  | attr
  | sign (sign : Sign)
  | float (value : Binary64)
  | int (value : Nat)
  | char
  | str (body : String)
  | ident (name : String)
deriving DecidableEq, Repr

namespace Token

def display : Token → String
  | keyword word => word.spelling
  | kernel => "__kernel"
  | qualifier => "<qualifier>"
  | attr => "__attribute__"
  | sign s => s.spelling
  | float v => v.plainText
  | int n => toString n
  | char => "<char>"
  | str body => "\"" ++ body ++ "\""
  | ident _ => "<ident>"

end Token

structure Lexeme where
  token : Token
  span : Span
deriving DecidableEq, Repr

end Lockstep
