-- The kinds of tokens of C++14. Each kind has a number, which stays the same for good,
-- because stored tables are keyed by it.
namespace Stylometry

/-- The keywords, in the order of their numbers. -/
inductive Keyword where
  | Alignas | Alignof | Asm | Auto | Bool | Break | Case | Catch | Char | Char16 | Char32 | Class
  | Const | Constexpr | ConstCast | Continue | Decltype | Default | Delete | Do | Double
  | DynamicCast | Else | Enum | Explicit | Export | Extern | False | Final | Float | For | Friend
  | Goto | If | Inline | Int | Long | Mutable | Namespace | New | Noexcept | Nullptr | Operator
  | Override | Private | Protected | Public | Register | ReinterpretCast | Return | Short
  | Signed | Sizeof | Static | StaticAssert | StaticCast | Struct | Switch | Template | This
  | ThreadLocal | Throw | True | Try | Typedef | Typeid | Typename | Union | Unsigned | Using
  | Virtual | Void | Volatile | Wchar | While
  deriving DecidableEq, Repr

/-- The delimiters and operators, in the order of their numbers. -/
inductive Punctuator where
  | LeftParen | RightParen | LeftBracket | RightBracket | LeftBrace | RightBrace
  | Plus | Minus | Star | Div | Mod | Caret | And | Or | Tilde | Not | Assign | Less | Greater
  | PlusAssign | MinusAssign | StarAssign | DivAssign | ModAssign | XorAssign | AndAssign
  | OrAssign | LeftShift | LeftShiftAssign | Equal | NotEqual | LessEqual | GreaterEqual | AndAnd
  | OrOr | PlusPlus | MinusMinus | Comma | ArrowStar | Arrow | Question | Colon | Doublecolon
  | Semi | Dot | DotStar | Ellipsis
  deriving DecidableEq, Repr

/-- The sorts of literals, in the order of their numbers. -/
inductive LiteralSort where
  | integer | floating | character | string
  deriving DecidableEq, Repr

/-- The kind of a token. -/
inductive Kind where
  | keyword (k : Keyword)
  | punctuator (p : Punctuator)
  | literal (l : LiteralSort)
  | identifier
  deriving DecidableEq, Repr

/-! ## Names and spellings -/

namespace Keyword

/-- Every keyword, in the order of the numbers. -/
def all : List Keyword :=
  [.Alignas, .Alignof, .Asm, .Auto, .Bool, .Break, .Case, .Catch, .Char, .Char16, .Char32,
   .Class, .Const, .Constexpr, .ConstCast, .Continue, .Decltype, .Default, .Delete, .Do, .Double,
   .DynamicCast, .Else, .Enum, .Explicit, .Export, .Extern, .False, .Final, .Float, .For,
   .Friend, .Goto, .If, .Inline, .Int, .Long, .Mutable, .Namespace, .New, .Noexcept, .Nullptr,
   .Operator, .Override, .Private, .Protected, .Public, .Register, .ReinterpretCast, .Return,
   .Short, .Signed, .Sizeof, .Static, .StaticAssert, .StaticCast, .Struct, .Switch, .Template,
   .This, .ThreadLocal, .Throw, .True, .Try, .Typedef, .Typeid, .Typename, .Union, .Unsigned,
   .Using, .Virtual, .Void, .Volatile, .Wchar, .While]

/-- The name of a keyword and its spelling. -/
def entry : Keyword → String × String
  | .Alignas => ("Alignas", "alignas")
  | .Alignof => ("Alignof", "alignof")
  | .Asm => ("Asm", "asm")
  | .Auto => ("Auto", "auto")
  | .Bool => ("Bool", "bool")
  | .Break => ("Break", "break")
  | .Case => ("Case", "case")
  | .Catch => ("Catch", "catch")
  | .Char => ("Char", "char")
  | .Char16 => ("Char16", "char16_t")
  | .Char32 => ("Char32", "char32_t")
  | .Class => ("Class", "class")
  | .Const => ("Const", "const")
  | .Constexpr => ("Constexpr", "constexpr")
  | .ConstCast => ("ConstCast", "const_cast")
  | .Continue => ("Continue", "continue")
  | .Decltype => ("Decltype", "decltype")
  | .Default => ("Default", "default")
  | .Delete => ("Delete", "delete")
  | .Do => ("Do", "do")
  | .Double => ("Double", "double")
  | .DynamicCast => ("DynamicCast", "dynamic_cast")
  | .Else => ("Else", "else")
  | .Enum => ("Enum", "enum")
  | .Explicit => ("Explicit", "explicit")
  | .Export => ("Export", "export")
  | .Extern => ("Extern", "extern")
  | .False => ("False", "false")
  | .Final => ("Final", "final")
  | .Float => ("Float", "float")
  | .For => ("For", "for")
  | .Friend => ("Friend", "friend")
  | .Goto => ("Goto", "goto")
  | .If => ("If", "if")
  | .Inline => ("Inline", "inline")
  | .Int => ("Int", "int")
  | .Long => ("Long", "long")
  | .Mutable => ("Mutable", "mutable")
  | .Namespace => ("Namespace", "namespace")
  | .New => ("New", "new")
  | .Noexcept => ("Noexcept", "noexcept")
  | .Nullptr => ("Nullptr", "nullptr")
  | .Operator => ("Operator", "operator")
  | .Override => ("Override", "override")
  | .Private => ("Private", "private")
  | .Protected => ("Protected", "protected")
  | .Public => ("Public", "public")
  | .Register => ("Register", "register")
  | .ReinterpretCast => ("ReinterpretCast", "reinterpret_cast")
  | .Return => ("Return", "return")
  | .Short => ("Short", "short")
  | .Signed => ("Signed", "signed")
  | .Sizeof => ("Sizeof", "sizeof")
  | .Static => ("Static", "static")
  | .StaticAssert => ("StaticAssert", "static_assert")
  | .StaticCast => ("StaticCast", "static_cast")
  | .Struct => ("Struct", "struct")
  | .Switch => ("Switch", "switch")
  | .Template => ("Template", "template")
  | .This => ("This", "this")
  | .ThreadLocal => ("ThreadLocal", "thread_local")
  | .Throw => ("Throw", "throw")
  | .True => ("True", "true")
  | .Try => ("Try", "try")
  | .Typedef => ("Typedef", "typedef")
  | .Typeid => ("Typeid", "typeid")
  | .Typename => ("Typename", "typename")
  | .Union => ("Union", "union")
  | .Unsigned => ("Unsigned", "unsigned")
  | .Using => ("Using", "using")
  | .Virtual => ("Virtual", "virtual")
  | .Void => ("Void", "void")
  | .Volatile => ("Volatile", "volatile")
  | .Wchar => ("Wchar", "wchar_t")
  | .While => ("While", "while")

end Keyword

namespace Punctuator

/-- Every delimiter and operator, in the order of the numbers. -/
def all : List Punctuator :=
  [.LeftParen, .RightParen, .LeftBracket, .RightBracket, .LeftBrace, .RightBrace, .Plus, .Minus,
   .Star, .Div, .Mod, .Caret, .And, .Or, .Tilde, .Not, .Assign, .Less, .Greater, .PlusAssign,
   .MinusAssign, .StarAssign, .DivAssign, .ModAssign, .XorAssign, .AndAssign, .OrAssign,
   .LeftShift, .LeftShiftAssign, .Equal, .NotEqual, .LessEqual, .GreaterEqual, .AndAnd, .OrOr,
   .PlusPlus, .MinusMinus, .Comma, .ArrowStar, .Arrow, .Question, .Colon, .Doublecolon, .Semi,
   .Dot, .DotStar, .Ellipsis]

/-- The name of a delimiter or operator and its first spelling. -/
def entry : Punctuator → String × String
  | .LeftParen => ("LeftParen", "(")
  | .RightParen => ("RightParen", ")")
  | .LeftBracket => ("LeftBracket", "[")
  | .RightBracket => ("RightBracket", "]")
  | .LeftBrace => ("LeftBrace", "\x7b")
  | .RightBrace => ("RightBrace", "\x7d")
  | .Plus => ("Plus", "+")
  | .Minus => ("Minus", "-")
  | .Star => ("Star", "*")
  | .Div => ("Div", "/")
  | .Mod => ("Mod", "%")
  | .Caret => ("Caret", "^")
  | .And => ("And", "&")
  | .Or => ("Or", "|")
  | .Tilde => ("Tilde", "~")
  | .Not => ("Not", "!")
  | .Assign => ("Assign", "=")
  | .Less => ("Less", "<")
  | .Greater => ("Greater", ">")
  | .PlusAssign => ("PlusAssign", "+=")
  | .MinusAssign => ("MinusAssign", "-=")
  | .StarAssign => ("StarAssign", "*=")
  | .DivAssign => ("DivAssign", "/=")
  | .ModAssign => ("ModAssign", "%=")
  | .XorAssign => ("XorAssign", "^=")
  | .AndAssign => ("AndAssign", "&=")
  | .OrAssign => ("OrAssign", "|=")
  | .LeftShift => ("LeftShift", "<<")
  | .LeftShiftAssign => ("LeftShiftAssign", "<<=")
  | .Equal => ("Equal", "==")
  | .NotEqual => ("NotEqual", "!=")
  | .LessEqual => ("LessEqual", "<=")
  | .GreaterEqual => ("GreaterEqual", ">=")
  | .AndAnd => ("AndAnd", "&&")
  | .OrOr => ("OrOr", "||")
  | .PlusPlus => ("PlusPlus", "++")
  | .MinusMinus => ("MinusMinus", "--")
  | .Comma => ("Comma", ",")
  | .ArrowStar => ("ArrowStar", "->*")
  | .Arrow => ("Arrow", "->")
  | .Question => ("Question", "?")
  | .Colon => ("Colon", ":")
  | .Doublecolon => ("Doublecolon", "::")
  | .Semi => ("Semi", ";")
  | .Dot => ("Dot", ".")
  | .DotStar => ("DotStar", ".*")
  | .Ellipsis => ("Ellipsis", "...")

/-- The operators that have a second spelling, with that spelling. -/
def wordSpellings : List (Punctuator × String) :=
  [(.Caret, "xor"), (.And, "bitand"), (.Or, "bitor"), (.Tilde, "compl"), (.Not, "not"),
   (.XorAssign, "xor_eq"), (.AndAssign, "and_eq"), (.OrAssign, "or_eq"), (.NotEqual, "not_eq"),
   (.AndAnd, "and"), (.OrOr, "or")]

end Punctuator

namespace LiteralSort

/-- Every sort of literal, in the order of the numbers. -/
def all : List LiteralSort := [.integer, .floating, .character, .string]

/-- The name of a sort of literal. -/
def name : LiteralSort → String
  | .integer => "IntegerLiteral"
  | .floating => "FloatingLiteral"
  | .character => "CharacterLiteral"
  | .string => "StringLiteral"

end LiteralSort

namespace Kind

/-- The name of a kind. -/
def name : Kind → String
  | .keyword k => k.entry.1
  | .punctuator p => p.entry.1
  | .literal l => l.name
  | .identifier => "Identifier"

/-- How a kind is shown: its first spelling, or its name where the spelling varies. -/
def symbol : Kind → String
  | .keyword k => k.entry.2
  | .punctuator p => p.entry.2
  | .literal l => l.name
  | .identifier => "Identifier"

/-- Whether the kind is a keyword. -/
def isKeyword : Kind → Bool
  | .keyword _ => true
  | _ => false

/-- Whether tokens of the kind spell a value. -/
def isLiteral : Kind → Bool
  | .literal _ => true
  | _ => false

/-! ## Numbers -/

/-- Every kind, in the order of the numbers. -/
def all : List Kind :=
  Keyword.all.map .keyword ++ Punctuator.all.map .punctuator ++ LiteralSort.all.map .literal
    ++ [.identifier]

/-- The number of a kind: its place among all kinds. -/
def code : Kind → Nat
  | .keyword k => k.ctorIdx
  | .punctuator p => 75 + p.ctorIdx
  | .literal l => 122 + l.ctorIdx
  | .identifier => 126

/-- The kind with the given number. -/
def ofCode? (n : Nat) : Option Kind := all[n]?

/-- Every kind stands in the list of all kinds at its number. -/
theorem ofCode?_code (k : Kind) : ofCode? k.code = some k := by
  rcases k with k | p | l | _
  · cases k <;> rfl
  · cases p <;> rfl
  · cases l <;> rfl
  · rfl

theorem length_all : all.length = 127 := by
  simp [all, Keyword.all, Punctuator.all, LiteralSort.all]

theorem code_lt (k : Kind) : k.code < 127 := by
  have h := List.getElem?_eq_some_iff.1 (ofCode?_code k)
  exact length_all ▸ h.1

theorem mem_all (k : Kind) : k ∈ all :=
  List.mem_of_getElem? (ofCode?_code k)

end Kind
end Stylometry
