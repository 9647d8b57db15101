import DeclVisibility.Service.Basic

/-!
# Failures of a command line

A command fails for one of these causes, and the program then prints `Failure.shown` and ends with
a code other than zero. A failure of the command line itself has a message (`Failure.message?`),
which is shown between quotes.
-/

namespace DeclVisibility.CommandLine

/-- Why a command fails. -/
inductive Failure where
  /-- No word follows the switch for the name of a declaration. -/
  | nameCutShort
  /-- No word follows the switch for the file to write. -/
  | targetCutShort
  /-- A fix without the name of a declaration. -/
  | noName
  /-- More than one file to read. -/
  | secondSource
  /-- No file to read. -/
  | noSource
  /-- There is no fix on offer under this name. -/
  | noFix (name : String)
  /-- The word names no subcommand. -/
  | unknownSubcommand (word : String)
  /-- A request of a batch without a word. -/
  | emptyRequest
  /-- The word names a subcommand that a batch does not run. -/
  | notInBatch (word : String)
  /-- A line of a batch that is no request. -/
  | unreadableRequest (line : String)
  /-- The text that was read holds no document. -/
  | document (error : ReadError)
  /-- A file cannot be read or written. -/
  | file (name : String)
  /-- The service met a fault. -/
  | fault (fault : Fault)
  deriving DecidableEq, Repr

namespace Failure

/-- The message of a failure of the command line itself. -/
def message? : Failure → Option String
  | nameCutShort => some "--name の後に宣言の名前がありません。"
  | targetCutShort => some "-o/--out の後にファイル名がありません。"
  | noName => some "--name が指定されていません。"
  | secondSource => some "ファイル名を2つ以上、指定することはできません。"
  | noSource => some "入力ファイルが指定されていません。"
  | noFix name =>
    some ("'" ++ name ++ "' を公開する修正はありません。" ++
      "(見つからないか、すでに可視性が指定されているか、編集できない宣言です)")
  | unknownSubcommand word => some ("サブコマンド '" ++ word ++ "' はありません。")
  | emptyRequest => some "args は空にできません。"
  | notInBatch word => some ("batch ではサブコマンド '" ++ word ++ "' を使えません。")
  | unreadableRequest line =>
    some ("JSON としてパースできません。(" ++ Text.trim line ++ ")")
  | document _ | file _ | fault _ => none

/-- A cause in words. -/
def causeText : Json.Cause → String
  | .malformed => "malformed JSON"
  | .wrongShape => "JSON of another shape"
  | .cutShort => "unexpected end of JSON"

/-- What the program prints about the failure. -/
def shown (failure : Failure) : String :=
  match failure.message?, failure with
  | some message, _ => Text.quote message
  | none, document (.tree misfit) =>
    "Error(" ++ Text.quote misfit.message ++ ", line: 0, column: 0)"
  | none, document (.json cause) => "Error(" ++ Text.quote (causeText cause) ++ ")"
  | none, file name => "Error(" ++ Text.quote ("cannot access " ++ name) ++ ")"
  | none, fault f => "Error(" ++ Text.quote f.message ++ ")"
  | none, _ => ""

end Failure

end DeclVisibility.CommandLine
