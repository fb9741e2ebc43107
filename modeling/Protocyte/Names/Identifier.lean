import Protocyte.Foundation.Digest
import Mathlib.Data.List.Chain
import Mathlib.Data.List.Infix

/-! The C++ spelling of schema names. -/
namespace Protocyte.Names

open Foundation

abbrev Text := List Char

def cppKeywordSpellings : List String :=
  ["alignas", "alignof", "and", "and_eq", "asm", "atomic_cancel", "atomic_commit",
   "atomic_noexcept", "auto", "bitand", "bitor", "bool", "break", "case", "catch", "char",
   "char8_t", "char16_t", "char32_t", "class", "compl", "concept", "const", "consteval",
   "constexpr", "constinit", "const_cast", "continue", "co_await", "co_return", "co_yield",
   "decltype", "default", "delete", "do", "double", "dynamic_cast", "else", "enum", "explicit",
   "export", "extern", "false", "float", "for", "friend", "goto", "if", "inline", "int", "long",
   "mutable", "namespace", "new", "noexcept", "not", "not_eq", "nullptr", "operator", "or",
   "or_eq", "private", "protected", "public", "reflexpr", "register", "reinterpret_cast",
   "requires", "return", "short", "signed", "sizeof", "static", "static_assert", "static_cast",
   "struct", "switch", "synchronized", "template", "this", "thread_local", "throw", "true", "try",
   "typedef", "typeid", "typename", "union", "unsigned", "using", "virtual", "void", "volatile",
   "wchar_t", "while", "xor", "xor_eq"]

def cppKeywords : List Text := cppKeywordSpellings.map String.toList

def cppReservedIdentifierPrefix : Text := "protocyte_escaped_".toList

def cppDerivableIdentifierSuffix : Text := "protocyte".toList

def isIdentifierPart (c : Char) : Bool := c.isAlphanum || c == '_'

/-- `[A-Za-z_][A-Za-z0-9_]*\Z` -/
def cppIdentifierMatches : Text → Bool
  | [] => false
  | c :: rest => (c.isAlpha || c == '_') && rest.all isIdentifierPart

def keywordEscapedIdentifiers : List Text := cppKeywords.map (· ++ ['_'])

def encodedIdentifier (name : Text) : Text :=
  cppReservedIdentifierPrefix ++ hexdigest (Utf8.encode name)

def cppIdentifier (name : Text) : Text :=
  if cppIdentifierMatches name = false then encodedIdentifier name
  else if cppKeywords.contains name then name ++ ['_']
  else if name.head? = some '_' ∨ ['_', '_'] <:+: name ∨ cppReservedIdentifierPrefix <+: name ∨
      keywordEscapedIdentifiers.contains name then
    encodedIdentifier name
  else name

def cppEmittedDerivableIdentifier (name : Text) : Text :=
  if name.getLast? = some '_' then name ++ cppDerivableIdentifierSuffix else name

def cppDerivableIdentifier (name : Text) : Text :=
  cppEmittedDerivableIdentifier (cppIdentifier name)

def isPortableIdentifier (name : Text) : Bool :=
  cppIdentifierMatches name && !cppKeywords.contains name && decide (name.head? ≠ some '_') &&
    !decide (['_', '_'] <:+: name)

/-- `text.rstrip("_")` -/
def rstripUnderscores (text : Text) : Text := (text.reverse.dropWhile (· == '_')).reverse

end Protocyte.Names
