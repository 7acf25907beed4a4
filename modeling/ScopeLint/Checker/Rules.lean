import ScopeLint.Text.Case

/-! Which rule handles which kind of node. Kinds are matched in upper case. -/
namespace ScopeLint

inductive Rule where
  | descend
  | ignore
  | globalNames
  | listComp
  | generatorExp
  | dictComp
  | forLoop
  | name
  | call
  | functionDef
  | lambda
  | classDef
  | assign
  | augAssign
  | importNames
  | importFrom
  | tryBlock
  | exceptHandler
  deriving DecidableEq

namespace Rule

def descending : List String :=
  ["RETURN", "DELETE", "PRINT", "WHILE", "IF", "WITH", "WITHITEM", "RAISE", "TRYFINALLY", "ASSERT",
   "EXEC", "EXPR", "BOOLOP", "BINOP", "UNARYOP", "IFEXP", "DICT", "SET", "YIELD", "YIELDFROM",
   "COMPARE", "REPR", "ATTRIBUTE", "SUBSCRIPT", "LIST", "TUPLE", "STARRED", "NAMECONSTANT",
   "SLICE", "EXTSLICE", "INDEX", "COMPREHENSION", "KEYWORD"]

def ignoring : List String :=
  ["CONTINUE", "BREAK", "PASS", "NUM", "STR", "BYTES", "ELLIPSIS", "LOAD", "STORE", "DEL",
   "AUGLOAD", "AUGSTORE", "PARAM", "AND", "OR", "ADD", "SUB", "MULT", "DIV", "MOD", "POW",
   "LSHIFT", "RSHIFT", "BITOR", "BITXOR", "BITAND", "FLOORDIV", "INVERT", "NOT", "UADD", "USUB",
   "EQ", "NOTEQ", "LT", "LTE", "GT", "GTE", "IS", "ISNOT", "IN", "NOTIN"]

def special : List (String × Rule) :=
  [("GLOBAL", .globalNames), ("NONLOCAL", .globalNames), ("LISTCOMP", .listComp),
   ("GENERATOREXP", .generatorExp), ("SETCOMP", .generatorExp), ("DICTCOMP", .dictComp),
   ("FOR", .forLoop), ("NAME", .name), ("CALL", .call), ("FUNCTIONDEF", .functionDef),
   ("LAMBDA", .lambda), ("CLASSDEF", .classDef), ("ASSIGN", .assign), ("AUGASSIGN", .augAssign),
   ("IMPORT", .importNames), ("IMPORTFROM", .importFrom), ("TRY", .tryBlock),
   ("TRYEXCEPT", .tryBlock), ("EXCEPTHANDLER", .exceptHandler)]

def ofUpper? (kind : String) : Option Rule :=
  if descending.contains kind then some .descend
  else if ignoring.contains kind then some .ignore
  else special.lookup kind

def of? (kind : String) : Option Rule := ofUpper? (Text.upper kind)

end Rule

end ScopeLint
