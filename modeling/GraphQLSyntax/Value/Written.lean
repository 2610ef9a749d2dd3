import GraphQLSyntax.Sexp
import GraphQLSyntax.Token.Spelling
import GraphQLSyntax.Value.Basic

/-!
# Written values

* `Value.tokens`: the token sequence that a value is written as.
* `Value.sexp`: its tree. Constant lists and objects have tags of their own.
-/

namespace GraphQLSyntax

namespace ValueMode

def listTag : ValueMode → String
  | const => "const-list"
  | dynamic => "list"

def objectTag : ValueMode → String
  | const => "const-obj"
  | dynamic => "obj"

end ValueMode

namespace Value

variable {m : ValueMode}

/-! ## As tokens -/

mutual

def tokens : Value m → List TokenKind
  | varRef name _ => [punct .dollar, .name name]
  | boolean true => [.name "true"]
  | boolean false => [.name "false"]
  | int value => [.int value]
  | float value => [.float value]
  | string value => [.string value]
  | enum name => [.name name]
  | null => [.name "null"]
  | list items => punct .bracketOpen :: itemTokens items ++ [punct .bracketClose]
  | object entries => punct .braceOpen :: entryTokens entries ++ [punct .braceClose]

def itemTokens : List (Value m) → List TokenKind
  | [] => []
  | value :: items => value.tokens ++ itemTokens items

def entryTokens : List (String × Value m) → List TokenKind
  | [] => []
  | (key, value) :: entries =>
    .name key :: punct .colon :: value.tokens ++ entryTokens entries

end

/-- A default value with its equals sign. -/
def defaultTokens : Option (Value m) → List TokenKind
  | none => []
  | some value => punct .equals :: value.tokens

/-! ## As s-expressions -/

mutual

def sexp : Value m → Sexp
  | varRef name _ => .varRef name
  | boolean value => .boolean value
  | int value => .int value
  | float value => .float value
  | string value => .string value
  | enum name => .node "enum-value" [.atom name]
  | null => .atom "null"
  | list items => .node m.listTag [.list (itemSexps items)]
  | object entries => .node m.objectTag [.list (entrySexps entries)]

def itemSexps : List (Value m) → List Sexp
  | [] => []
  | value :: items => value.sexp :: itemSexps items

def entrySexps : List (String × Value m) → List Sexp
  | [] => []
  | (key, value) :: entries => .list [.atom key, value.sexp] :: entrySexps entries

end

/-- A default value, or that there is none. -/
def defaultSexp (value : Option (Value m)) : Sexp :=
  (value.map sexp).getD .absent

end Value

end GraphQLSyntax
