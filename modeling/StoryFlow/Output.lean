import StoryFlow.Expr.Warning

/-! # Output of an export

A format writes one text or several named files, and reports what it had to leave out.
-/

namespace StoryFlow

structure OutputFile where
  filename : String
  content : String
deriving DecidableEq

inductive Output where
  | text (content : String)
  | files (files : List OutputFile)
deriving DecidableEq

end StoryFlow
