import CallSchema.Proofs.FileContents

/-! # Documents around a single module

The modules around a single document are loaded from files one by one. Which files these are and
what the document itself is does not depend on their contents, and a file that cannot be loaded is
left out. So no file around a document can keep it from being scanned, and one that breaks takes
away its own module and nothing else. The directories around it can: all of them have to be listed,
and those of packages have to be named.
-/

namespace CallSchema

open FileTree

namespace FileTree

variable {t : FileTree} {path : String} {names : List String}

section Contents

variable {f : List String → FileContent → FileContent}

end Contents

section Broken

variable {file : List String} {content : FileContent}

end Broken

section Content

variable {file : List String}

variable {content : FileContent}

end Content

end FileTree

end CallSchema
