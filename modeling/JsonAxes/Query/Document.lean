import JsonAxes.Query.Run
import JsonAxes.Tree.Document

/-!
# Queries of documents

A query of a document begins at the root of the document.
-/

set_option autoImplicit false

namespace JsonAxes.Document

/-- A query of a document. -/
def query (path : Path) (v : Value) (limit? : Option Nat) : Query Node :=
  .start Node.tree path (.root v) limit?

end JsonAxes.Document
