import Treewalk.Token.Lexer
import Treewalk.Tree.Reader

/-!
# From text to trees

`Source.read` takes a text to its trees and reports what is wrong with it: first with its
characters, then with its tokens.
-/

namespace Treewalk

namespace Diagnostics

/-- Reports what is wrong with the characters of a text. -/
def reportScan (ds : Diagnostics) (s : Scan) : Diagnostics :=
  s.faults.foldl (fun ds (p, f) => ds.reportLexical p f.message) ds

/-- Reports what is wrong with the tokens of a text. -/
def reportProgram (ds : Diagnostics) (p : Program) : Diagnostics :=
  p.faults.foldl (fun ds (s, f) => ds.reportAt .reading s f.message) ds

end Diagnostics

namespace Source

/-- Reads `text`, whose tokens belong to `file`, numbering references from `firstId` on. -/
def read (file : Option String) (text : String) (firstId : Nat) (ds : Diagnostics) :
    Program × Diagnostics :=
  let found := scan file text
  let program := Program.read found.tokens found.stop firstId
  (program, (ds.reportScan found).reportProgram program)

end Source

end Treewalk
