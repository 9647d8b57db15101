import DeclVisibility.CommandLine.Subcommand

/-!
# Pages

The pages that the program prints about itself: an overview, one page for each subcommand that
has switches or input of its own, and its version.
-/

namespace DeclVisibility.CommandLine

/-- Lines as one text, each ended by a line break. -/
def page (lines : List String) : String := String.join (lines.map (· ++ "\n"))

/-- The version of the program. -/
def versionPage : String := page ["0.1.0"]

/-- What the program does, and its subcommands. -/
def overviewPage : String := page [
    "pubfix v0.1.0",
    "",
    "JSON で受け取った構文木の宣言に可視性 (pub, pub(crate)) を付けます。",
    "",
    "使用例:",
    "    pubfix fix lib.json --name Point::x --crate",
    "    pubfix outline lib.json",
    "",
    "サブコマンド:",
    "    fix         宣言を公開する修正を適用する",
    "    outline     宣言の一覧を表示する",
    "    dump        構文木を表示する",
    "    batch       複数のコマンドを並列に実行する",
    "    help        ヘルプを表示する",
    "    version     バージョンを表示する",
    "",
    "    各サブコマンドのヘルプは pubfix <SUBCOMMAND> --help で表示されます。",
    "",
    "入力ファイル:",
    "    \x7b\"package\": \x7b\"name\": \"app\", \"origin\": \"workspace\"\x7d, \"tree\": <構文木>\x7d",
    "",
    "    origin は workspace, dependency, stdlib のいずれかです。",
    "    修正は workspace のパッケージにだけ提示されます。",
    "",
    "環境変数:",
    "    RUST_LOG    ログの出力レベル (既定値: warn)" ]

/-- How a declaration is made public. -/
def fixPage : String := page [
    "pubfix fix",
    "",
    "宣言を公開する修正を適用して、修正後のテキストを出力します。",
    "",
    "使用例:",
    "    pubfix fix lib.json --name foo",
    "    pubfix fix lib.json --name Point::x --crate -o lib.rs",
    "",
    "凡例:",
    "    pubfix fix <FILE|-> --name <NAME> [OPTIONS]",
    "",
    "引数:",
    "    <FILE>              入力ファイル (JSON)",
    "    -                   標準入力",
    "",
    "オプション:",
    "    -n, --name <NAME>   宣言の名前 (foo や Point::x のようなパス)",
    "    --crate             pub の代わりに pub(crate) を付ける",
    "    --edit              修正後のテキストの代わりに、挿入する位置とテキストを出力する",
    "    -o, --out <FILE>    出力先のファイル (既定値: 標準出力)" ]

/-- How declarations are listed. -/
def outlinePage : String := page [
    "pubfix outline",
    "",
    "ドキュメント内の宣言を1行ずつ出力します。",
    "",
    "凡例:",
    "    pubfix outline <FILE|->",
    "",
    "出力:",
    "    <種類> <名前>  <行>:<列>  [<印>...]",
    "",
    "    印:",
    "        static      self パラメータを持たないメソッド",
    "        public      可視性が指定されている",
    "        private     可視性が指定されていない",
    "        fixable     make public の修正を提示できる" ]

/-- How a tree is shown. -/
def dumpPage : String := page [
    "pubfix dump",
    "",
    "構文木のテキストと、構造をデバッグ用の形式で出力します。",
    "",
    "凡例:",
    "    pubfix dump <FILE|-> [-o <FILE>]",
    "",
    "オプション:",
    "    -o, --out <FILE>    出力先のファイル (既定値: 標準出力)" ]

/-- How many commands are run at once. -/
def batchPage : String := page [
    "pubfix batch",
    "",
    "標準入力から1行ずつコマンドを読み、並列に実行します。",
    "",
    "凡例:",
    "    pubfix batch",
    "",
    "入力:",
    "    1行に1つの JSON を書きます。空行で終了します。",
    "",
    "    \x7b\"id\": 1, \"args\": [\"fix\", \"lib.json\", \"--name\", \"foo\", \"-o\", \"lib.rs\"]\x7d",
    "",
    "    使えるサブコマンドは fix, outline, dump です。",
    "",
    "出力:",
    "    コマンドごとに、1行に1つの JSON を出力します。順番は入力と同じとは限りません。",
    "    id は入力の id と同じです。",
    "",
    "    \x7b\"id\": 1, \"out\": \"...\"\x7d     成功 (out はコマンドの出力。-o を指定したときは空)",
    "    \x7b\"id\": 1, \"err\": \"...\"\x7d     失敗" ]

/-- The page of a task. -/
def Task.page : Task → String
  | .fix => fixPage
  | .outline => outlinePage
  | .dump => dumpPage

end DeclVisibility.CommandLine
