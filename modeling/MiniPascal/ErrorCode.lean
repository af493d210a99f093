/-!
Codes that stay the same whatever a message says.
-/

namespace MiniPascal

inductive ErrorCode where
  | lexerError
  | unexpectedToken
  | idNotFound
  | duplicateId
  | wrongParamsNum
  | wrongSymbolKind
  | nestingTooDeep
  | runtimeFault
  deriving DecidableEq

namespace ErrorCode

def all : List ErrorCode :=
  [.lexerError, .unexpectedToken, .idNotFound, .duplicateId, .wrongParamsNum, .wrongSymbolKind,
    .nestingTooDeep, .runtimeFault]

def name : ErrorCode → String
  | .lexerError => "LEXER_ERROR"
  | .unexpectedToken => "UNEXPECTED_TOKEN"
  | .idNotFound => "ID_NOT_FOUND"
  | .duplicateId => "DUPLICATE_ID"
  | .wrongParamsNum => "WRONG_PARAMS_NUM"
  | .wrongSymbolKind => "WRONG_SYMBOL_KIND"
  | .nestingTooDeep => "NESTING_TOO_DEEP"
  | .runtimeFault => "RUNTIME_FAULT"

def description : ErrorCode → String
  | .lexerError => "Invalid character in source"
  | .unexpectedToken => "Unexpected token"
  | .idNotFound => "Identifier not found"
  | .duplicateId => "Duplicate id found"
  | .wrongParamsNum => "Wrong number of arguments"
  | .wrongSymbolKind => "Wrong kind of symbol"
  | .nestingTooDeep => "Nesting too deep"
  | .runtimeFault => "Runtime fault"

def ofName? (s : String) : Option ErrorCode := all.find? (·.name = s)

end ErrorCode

end MiniPascal
